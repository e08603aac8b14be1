import LabKernel.Fs.Processes

/-! # Exact reference counters

Between calls every file has as many references as descriptors lead to it, and every slot of the inode
cache as many as files and working directories hold. Inside a call, references to files and slots that
the call holds itself are listed by name; each function turns such lists into others.
-/

namespace LabKernel

/-- The descriptors of all processes that lead to file `f` -/
def descriptors (s : FsState) (f : ℕ) : ℕ :=
  ∑ p ∈ Finset.range nProc, ∑ fd ∈ Finset.range nOpenFile, slotRefs ((s.procPool p).openFile fd) f

def Proc.Cleared (proc : Proc) : Prop := proc.cwd = none ∧ ∀ fd, proc.openFile fd = none

/-- All counters are exact, inside a call that holds references to the listed files and slots itself.
Places of the process pool that are not used are cleared, apart from a place that a fork is filling. -/
structure Counted (young : Option ℕ) (s : FsState) (files slots : List ℕ) : Prop where
  slots : ∀ i, holders s i + slots.count i = (s.inodeCache i).ref
  files : ∀ f, descriptors s f + files.count f = (s.fileTable f).ref
  opened : ∀ p fd f, (s.procPool p).openFile fd = some f → p < nProc ∧ fd < nOpenFile ∧ f < nFile
  closed : ∀ f, (s.fileTable f).ref = 0 → (s.fileTable f).ip = none
  table : ∀ f, nFile ≤ f → (s.fileTable f).ref = 0
  cwd : ∀ p i, (s.procPool p).cwd = some i → p < nProc
  running : ∀ p, (s.procPool p).state = .running → p < nProc
  idle : ∀ p, (s.procPool p).state = .unused → young = some p ∨ (s.procPool p).Cleared

variable {young : Option ℕ} {s s' : FsState} {files files' slots slots' : List ℕ}

private theorem descriptors_setProc (s : FsState) {p : ℕ} (bound : p < nProc) (proc : Proc) (f : ℕ) :
    descriptors (s.setProc p proc) f +
        ∑ fd ∈ Finset.range nOpenFile, slotRefs ((s.procPool p).openFile fd) f =
      descriptors s f + ∑ fd ∈ Finset.range nOpenFile, slotRefs (proc.openFile fd) f := by
  have sum := sum_change
    (f := fun q => ∑ fd ∈ Finset.range nOpenFile, slotRefs ((s.procPool q).openFile fd) f)
    (g := fun q => ∑ fd ∈ Finset.range nOpenFile, slotRefs (((s.setProc p proc).procPool q).openFile fd) f)
    (Finset.mem_range.mpr bound) fun q _ other => by rw [FsState.setProc_other _ _ _ other]
  simpa only [FsState.setProc_same, descriptors] using sum

private theorem openFile_update (openFile : ℕ → Option ℕ) {fd : ℕ} (bound : fd < nOpenFile) (r : Option ℕ)
    (f : ℕ) : ∑ fd' ∈ Finset.range nOpenFile, slotRefs (Function.update openFile fd r fd') f +
        slotRefs (openFile fd) f =
      ∑ fd' ∈ Finset.range nOpenFile, slotRefs (openFile fd') f + slotRefs r f := by
  have sum := sum_change (f := fun fd' => slotRefs (openFile fd') f)
    (g := fun fd' => slotRefs (Function.update openFile fd r fd') f) (Finset.mem_range.mpr bound)
    fun fd' _ other => by rw [Function.update_of_ne other]
  simpa only [Function.update_self] using sum

namespace Counted

private theorem exchange {given taken : List ℕ} (more : List ℕ) (counted : Counted young s files (more ++ given))
    (exchange : Exchange s given s' taken) : Counted young s' files (more ++ taken) where
  slots i := by
    have before := counted.slots i
    simp only [holders, exchange.fileTable, exchange.procPool, List.count_append] at before ⊢
    have change := exchange.ref i (by omega)
    omega
  files f := by
    rw [descriptors, exchange.procPool, exchange.fileTable]
    exact counted.files f
  opened := by simpa only [exchange.procPool] using counted.opened
  closed := by simpa only [exchange.fileTable] using counted.closed
  table := by simpa only [exchange.fileTable] using counted.table
  cwd := by simpa only [exchange.procPool] using counted.cwd
  running := by simpa only [exchange.procPool] using counted.running
  idle := by simpa only [exchange.procPool] using counted.idle

private theorem setFile (counted : Counted young s files slots) {f : ℕ} (bound : f < nFile) {file : File}
    (inode : ∀ i, slotRefs file.ip i + slots'.count i = slotRefs (s.fileTable f).ip i + slots.count i)
    (ref : file.ref + files.count f = (s.fileTable f).ref + files'.count f)
    (others : ∀ g, g ≠ f → files'.count g = files.count g) (closed : file.ref = 0 → file.ip = none) :
    Counted young (s.setFile f file) files' slots' where
  slots i := by
    have change := holders_setFile s bound file i
    have before := counted.slots i
    have given := inode i
    rw [FsState.setFile_inodeCache]
    omega
  files g := by
    have before := counted.files g
    have same : descriptors (s.setFile f file) g = descriptors s g := rfl
    by_cases other : g = f
    · subst other
      rw [FsState.setFile_same, same]
      omega
    · rw [FsState.setFile_other _ _ _ other, same, others g other, before]
  opened := counted.opened
  closed g := by
    by_cases other : g = f
    · subst other
      rw [FsState.setFile_same]
      exact closed
    · rw [FsState.setFile_other _ _ _ other]
      exact counted.closed g
  table g past := by
    rw [FsState.setFile_other _ _ _ (by omega)]
    exact counted.table g past
  cwd := counted.cwd
  running := counted.running
  idle := counted.idle

private theorem setProc (counted : Counted young s files slots) {p : ℕ} (bound : p < nProc) {proc : Proc}
    (inode : ∀ i, slotRefs proc.cwd i + slots'.count i = slotRefs (s.procPool p).cwd i + slots.count i)
    (file : ∀ f, ∑ fd ∈ Finset.range nOpenFile, slotRefs (proc.openFile fd) f + files'.count f =
      ∑ fd ∈ Finset.range nOpenFile, slotRefs ((s.procPool p).openFile fd) f + files.count f)
    (opened : ∀ fd f, proc.openFile fd = some f → fd < nOpenFile ∧ f < nFile)
    (idle : proc.state = .unused → young = some p ∨ proc.Cleared) :
    Counted young (s.setProc p proc) files' slots' where
  slots i := by
    have change := holders_setProc s bound proc i
    have before := counted.slots i
    have given := inode i
    rw [FsState.setProc_inodeCache]
    omega
  files f := by
    have change := descriptors_setProc s bound proc f
    have before := counted.files f
    have given := file f
    rw [FsState.setProc_fileTable]
    omega
  opened q fd f := by
    by_cases other : q = p
    · subst other
      rw [FsState.setProc_same]
      exact fun some => ⟨bound, opened fd f some⟩
    · rw [FsState.setProc_other _ _ _ other]
      exact counted.opened q fd f
  closed := counted.closed
  table := counted.table
  cwd q i := by
    by_cases other : q = p
    · exact fun _ => other ▸ bound
    · rw [FsState.setProc_other _ _ _ other]
      exact counted.cwd q i
  running q := by
    by_cases other : q = p
    · exact fun _ => other ▸ bound
    · rw [FsState.setProc_other _ _ _ other]
      exact counted.running q
  idle q := by
    by_cases other : q = p
    · subst other
      rw [FsState.setProc_same]
      exact idle
    · rw [FsState.setProc_other _ _ _ other]
      exact counted.idle q

private theorem note (counted : Counted young s files slots) (site : UseSite) (i : ℕ) :
    Returns (note site i) s fun _ s' => Counted young s' files slots ∧ s'.procPool = s.procPool := by
  rw [LabKernel.note, Returns.modify_iff]
  exact ⟨⟨counted.slots, counted.files, counted.opened, counted.closed, counted.table, counted.cwd,
    counted.running, counted.idle⟩, rfl⟩

/-- Processes may change in what does not concern their files, and places of the pool may be given to a
fork or be left by it. -/
theorem setProcs {young' : Option ℕ} (counted : Counted young s files slots) {procPool : ℕ → Proc}
    (cwd : ∀ q, (procPool q).cwd = (s.procPool q).cwd)
    (openFile : ∀ q, (procPool q).openFile = (s.procPool q).openFile)
    (running : ∀ q, (procPool q).state = .running → q < nProc)
    (idle : ∀ q, (procPool q).state = .unused → young' = some q ∨ (procPool q).Cleared) :
    Counted young' { s with procPool := procPool } files slots where
  slots i := by
    have slots := counted.slots i
    simpa only [holders, cwd] using slots
  files f := by
    have files := counted.files f
    simpa only [descriptors, openFile] using files
  opened q fd f some := counted.opened q fd f (by rwa [← openFile])
  closed := counted.closed
  table := counted.table
  cwd q i some := counted.cwd q i (by rwa [← cwd])
  running := running
  idle := idle

/-- A file that a call holds has a place in the table. -/
theorem file_lt (counted : Counted young s files slots) {f : ℕ} (held : f ∈ files) : f < nFile := by
  have some := List.count_pos_iff.mpr held
  have ref := counted.files f
  by_contra past
  have none := counted.table f (by omega)
  omega

/-- Nothing is held and nothing is open. -/
theorem init (d : Disk) : Counted none (FsState.init d) [] [] where
  slots i := by simp [holders, FsState.init, slotRefs]
  files f := by simp [descriptors, FsState.init, slotRefs]
  opened := nofun
  closed _ _ := rfl
  table _ _ := rfl
  cwd := nofun
  running p run := by
    simp only [FsState.init] at run
    split at run
    · simp [nProc, *]
    · cases run
  idle p _ := .inr ⟨rfl, fun _ => rfl⟩

end Counted

/-- The program turns the references that a call holds into others, and leaves all counters exact. -/
def Counts {α : Type} (young : Option ℕ) (files slots : List ℕ) (x : FsM α)
    (files' slots' : α → List ℕ) : Prop :=
  ∀ s, Counted young s files slots → Returns x s fun a s' =>
    Counted young s' (files' a) (slots' a) ∧ s'.procPool = s.procPool

namespace Counts

variable {α β : Type} {x : FsM α} {filesA slotsA : α → List ℕ}

private theorem pure {a : α} (files_eq : files = filesA a) (slots_eq : slots = slotsA a) :
    Counts young files slots (pure a : FsM α) filesA slotsA := by
  intro s counted
  rw [Returns.pure_iff, ← files_eq, ← slots_eq]
  exact ⟨counted, rfl⟩

private theorem throw (e : Fault) : Counts young files slots (throw e : FsM α) filesA slotsA := by
  intro s _
  simp

private theorem bind {f : α → FsM β} {filesB slotsB : β → List ℕ}
    (first : Counts young files slots x filesA slotsA)
    (next : ∀ a, Counts young (filesA a) (slotsA a) (f a) filesB slotsB) :
    Counts young files slots (x >>= f) filesB slotsB := by
  intro s counted
  rw [Returns.bind_iff]
  refine (first s counted).mono fun a s' ⟨after, same⟩ => ?_
  exact (next a s' after).mono fun b s'' ⟨last, same'⟩ => ⟨last, same'.trans same⟩

private theorem ite {c : Prop} [Decidable c] {y : FsM α} (yes : Counts young files slots x filesA slotsA)
    (no : Counts young files slots y filesA slotsA) :
    Counts young files slots (if c then x else y) filesA slotsA := by
  split
  · exact yes
  · exact no

private theorem get_bind {f : FsState → FsM β} {filesB slotsB : β → List ℕ}
    (next : ∀ s, Counted young s files slots → Counts young files slots (f s) filesB slotsB) :
    Counts young files slots (get >>= f) filesB slotsB := by
  intro s counted
  rw [Returns.bind_iff, Returns.get_iff]
  exact next s counted s counted

private theorem of_trades {given : List ℕ} {taken : α → List ℕ} (more : List ℕ) (trades : Trades given x taken) :
    Counts young files (more ++ given) x (fun _ => files) fun a => more ++ taken a :=
  fun s counted => (trades s).mono fun _ _ exchange =>
    ⟨counted.exchange more exchange, exchange.procPool⟩

/-- A program that trades nothing. -/
theorem of_idle (trades : Trades [] x fun _ => []) :
    Counts young files slots x (fun _ => files) fun _ => slots := by
  have frame := @of_trades young files α x [] (fun _ => []) slots trades
  simpa only [List.append_nil] using frame

private theorem note (site : UseSite) (i : ℕ) :
    Counts young files slots (note site i) (fun _ => files) fun _ => slots :=
  fun _ counted => counted.note site i

/-- A change of the offset of a file. -/
theorem setOffset {f : ℕ} (bound : f < nFile) (offset : U32) :
    Counts young files slots (modify fun s => s.setFile f { s.fileTable f with offset := offset })
      (fun _ => files) fun _ => slots := by
  intro s counted
  rw [Returns.modify_iff]
  exact ⟨counted.setFile bound (fun _ => rfl) rfl (fun _ _ => rfl) (counted.closed f), rfl⟩

end Counts

namespace Fs

variable (cfg : FsConfig)

/-! ## Files -/

/-- `file_open` hands the reference to the inode on to the file, or gives it up. -/
theorem openInode_counts (ip : ℕ) (openMode : U32) :
    Counts young [] [ip] (openInode cfg ip openMode) (fun r => r.toList) fun _ => [] := by
  have give : Counts young [] [ip] (do
      sleeplockRelease ip
      inodePut cfg ip
      pure none) (fun r : Option ℕ => r.toList) fun _ => [] :=
    .bind (.of_idle (sleeplockRelease_trades ip)) fun _ =>
      .bind (.of_trades [] (inodePut_trades cfg ip)) fun _ => .pure rfl rfl
  refine .bind (.of_idle (diskInfo_trades ip)) fun info => .ite give (.ite give fun s counted => ?_)
  rw [Returns.bind_iff]
  refine (fileAlloc_spec s).mono fun r s1 ⟨unchanged, taken⟩ => ?_
  match r with
  | none =>
    rw [unchanged rfl]
    exact give s counted
  | some f =>
    obtain ⟨bound, free, rfl⟩ := taken f rfl
    simp only [Returns.bind_iff, Returns.modify_iff, Returns.pure_iff, FsState.setFile_same,
      FsState.setFile_setFile, FsState.setFile_inodeCache]
    have closed := counted.closed f free
    have filled (file : File) (inode : file.ip = some ip) (one : file.ref = 1) :
        Counted young (s.setFile f file) [f] [] :=
      counted.setFile bound (fun i => by simp [slotRefs, closed, inode, List.count_singleton])
        (by simp [free, one]) (fun g other => by simp [Ne.symm other]) fun none => by simp [one] at none
    exact (sleeplockRelease_trades ip _).mono fun _ s2 released =>
      ⟨(filled _ rfl rfl).exchange [] released, released.procPool⟩

private theorem fileOpen_counts (p : ℕ) (path : List U8) (openMode : U32) (junk : Bytes) :
    Counts young [] [] (fileOpen cfg p path openMode junk) (fun r => r.toList) fun _ => [] := by
  have opened : Trades [] (openedInode cfg p path openMode junk) fun r => r.toList :=
    .ite (pathCreateInode_trades cfg p path inodeTypeData 0 0 junk) (pathToInode_trades cfg p path)
  refine .bind (.of_trades [] opened) fun r => ?_
  match r with
  | none => exact .pure rfl rfl
  | some ip =>
    exact .bind (.of_idle (sleeplockAcquire_trades ip)) fun _ =>
      .bind (.note .fileOpen ip) fun _ => openInode_counts cfg ip openMode

/-- What `file_close` does: a reference to a file is given up, and with the last one the reference of
the file to its inode. -/
def Closes (s : FsState) (f : ℕ) (s' : FsState) : Prop :=
  (1 < (s.fileTable f).ref ∧
    s' = s.setFile f { s.fileTable f with ref := (s.fileTable f).ref - 1 }) ∨
  ((s.fileTable f).ref = 1 ∧
    Exchange (s.setFile f { s.fileTable f with ref := 0, ip := none }) (s.fileTable f).ip.toList s' [])

private theorem fileClose_closes (f : ℕ) : Returns (fileClose cfg f) s fun _ s' => Closes s f s' := by
  rw [fileClose, Returns.bind_iff, Returns.get_iff]
  refine .ite (fun _ => by simp) fun some => .ite (fun more => ?_) fun last => ?_
  · rw [Returns.set_iff]
    exact .inl ⟨by omega, rfl⟩
  · rw [Returns.bind_iff, Returns.set_iff]
    have one : (s.fileTable f).ref = 1 := by omega
    cases inode : (s.fileTable f).ip with
    | none =>
      rw [Returns.pure_iff]
      refine .inr ⟨one, ?_⟩
      rw [inode]
      exact .refl _ _
    | some ip =>
      refine (inodePut_trades cfg ip _).mono fun _ s' put => .inr ⟨one, ?_⟩
      rw [inode]
      exact put

namespace Closes

variable {f : ℕ}

private theorem procPool (closes : Closes s f s') : s'.procPool = s.procPool := by
  rcases closes with ⟨-, rfl⟩ | ⟨-, put⟩
  · rfl
  · exact put.procPool

/-- The processes play no part in closing a file. -/
theorem setProc (closes : Closes s f s') (p : ℕ) (proc : Proc) :
    Closes (s.setProc p proc) f (s'.setProc p proc) := by
  rcases closes with ⟨more, rfl⟩ | ⟨one, put⟩
  · exact .inl ⟨more, rfl⟩
  · exact .inr ⟨one, put.setProc p proc⟩

private theorem counted (closes : Closes s f s') (counted : Counted young s [f] []) :
    Counted young s' [] [] := by
  have bound := counted.file_lt (List.mem_singleton_self f)
  rcases closes with ⟨more, rfl⟩ | ⟨one, put⟩
  · refine counted.setFile bound (fun _ => rfl) ?_ (fun g other => by simp [Ne.symm other]) fun none => ?_
    · simp
      omega
    · simp only at none
      omega
  · refine Counted.exchange [] (counted.setFile bound (fun i => ?_) ?_ (fun g other => ?_) fun _ => rfl) put
    · simp [slotRefs_eq_count]
    · simp [one]
    · simp [Ne.symm other]

end Closes

private theorem fileClose_counts (f : ℕ) :
    Counts young [f] [] (fileClose cfg f) (fun _ => []) fun _ => [] := fun _ counted =>
  (fileClose_closes cfg f).mono fun _ _ closes => ⟨closes.counted counted, closes.procPool⟩

private theorem fileDup_counts (f : ℕ) :
    Counts young [] [] (fileDup f) (fun g => [g]) fun _ => [] := by
  intro s counted
  rw [fileDup, Returns.bind_iff, Returns.get_iff]
  refine .ite (fun _ => by simp) fun some => ?_
  have bound : f < nFile := by
    by_contra past
    have none := counted.table f (by omega)
    omega
  simp only [Returns.bind_iff, Returns.modify_iff, Returns.pure_iff]
  exact ⟨counted.setFile bound (fun _ => rfl) (by simp) (fun g other => by simp [Ne.symm other]) (by simp), rfl⟩

/-! ## Descriptors and working directories -/

def withFile (proc : Proc) (fd : ℕ) (r : Option ℕ) : Proc :=
  { proc with openFile := Function.update proc.openFile fd r }

private theorem withFile_opened {proc : Proc} {fd : ℕ} {r : Option ℕ} (bound : fd < nOpenFile)
    (inside : ∀ f, r = some f → f < nFile)
    (opened : ∀ fd f, proc.openFile fd = some f → fd < nOpenFile ∧ f < nFile) (fd' f : ℕ)
    (some : (withFile proc fd r).openFile fd' = some f) : fd' < nOpenFile ∧ f < nFile := by
  rw [withFile] at some
  by_cases same : fd' = fd
  · simp only [same, Function.update_self] at some
    exact ⟨same ▸ bound, inside f some⟩
  · simp only [Function.update_of_ne same] at some
    exact opened fd' f some

variable {p fd : ℕ}

/-- A reference that a call holds goes into a free place of the table of open files. -/
theorem setOpenFile_counted {r : Option ℕ} (counted : Counted young s r.toList []) (bound : p < nProc)
    (place : fd < nOpenFile) (free : (s.procPool p).openFile fd = none)
    (busy : (s.procPool p).state = .unused → young = some p) :
    Returns (setOpenFile p fd r) s fun _ s' => Counted young s' [] [] ∧
      s'.procPool = Function.update s.procPool p (withFile (s.procPool p) fd r) := by
  rw [setOpenFile, updateProc, Returns.modify_iff]
  have inside : ∀ f, r = some f → f < nFile := fun f some => counted.file_lt (by simp [some])
  refine ⟨counted.setProc bound (fun _ => rfl) (fun f => ?_) (withFile_opened place inside fun fd f some =>
    (counted.opened p fd f some).2) fun unused => .inl (busy unused), rfl⟩
  have change := openFile_update (s.procPool p).openFile place r f
  rw [free, slotRefs_eq_count none f, slotRefs_eq_count r f] at change
  simpa using change

/-- A descriptor is closed. -/
theorem closeDescriptor_counted {f : ℕ} (counted : Counted young s [] [])
    (opened : (s.procPool p).openFile fd = some f) :
    Returns (do fileClose cfg f; setOpenFile p fd none) s fun _ s' => Counted young s' [] [] ∧
      s'.procPool = Function.update s.procPool p (withFile (s.procPool p) fd none) := by
  obtain ⟨bound, place, inside⟩ := counted.opened p fd f opened
  have taken : Counted young (s.setProc p (withFile (s.procPool p) fd none)) [f] [] := by
    refine counted.setProc bound (fun _ => rfl) (fun g => ?_)
      (withFile_opened place nofun fun fd f some => (counted.opened p fd f some).2) fun unused => ?_
    · have change := openFile_update (s.procPool p).openFile place none g
      rw [opened, slotRefs_eq_count none g, slotRefs_eq_count (some f) g] at change
      simpa [withFile] using change
    · refine (counted.idle p unused).imp_right fun cleared => ?_
      rw [cleared.2 fd] at opened
      cases opened
  rw [Returns.bind_iff]
  refine (fileClose_closes cfg f).mono fun _ s1 closes => ?_
  rw [setOpenFile, updateProc, Returns.modify_iff, closes.procPool]
  have after := (closes.setProc p (withFile (s.procPool p) fd none)).counted taken
  refine ⟨after, ?_⟩
  rw [← closes.procPool]
  rfl

/-- The working directory of a process is given up, and replaced by a slot that is held. -/
theorem replaceCwd_counted {i : ℕ} (new : Option ℕ) (counted : Counted young s [] new.toList)
    (cwd : (s.procPool p).cwd = some i) : Returns (do
      inodePut cfg i
      updateProc p fun proc => { proc with cwd := new }) s fun _ s' => Counted young s' [] [] ∧
        s'.procPool = Function.update s.procPool p { s.procPool p with cwd := new } := by
  have bound := counted.cwd p i cwd
  have taken : Counted young (s.setProc p { s.procPool p with cwd := new }) [] [i] := by
    refine counted.setProc bound (fun j => ?_) (fun _ => rfl)
      (fun fd f some => (counted.opened p fd f some).2) fun unused => ?_
    · simp [slotRefs_eq_count, cwd, Nat.add_comm]
    · refine (counted.idle p unused).imp_right fun cleared => ?_
      rw [cleared.1] at cwd
      cases cwd
  rw [Returns.bind_iff]
  refine (inodePut_trades cfg i s).mono fun _ s1 put => ?_
  rw [updateProc, Returns.modify_iff, put.procPool]
  refine ⟨taken.exchange [] (put.setProc p _), ?_⟩
  rw [← put.procPool]
  rfl

/-- A slot that is held becomes the working directory of a process without one. -/
theorem setCwd_counted {i : ℕ} (counted : Counted young s [] [i]) (bound : p < nProc)
    (none : (s.procPool p).cwd = none) (busy : (s.procPool p).state = .unused → young = some p) :
    Returns (updateProc p fun proc => { proc with cwd := some i }) s fun _ s' =>
      Counted young s' [] [] ∧
        s'.procPool = Function.update s.procPool p { s.procPool p with cwd := some i } := by
  rw [updateProc, Returns.modify_iff]
  refine ⟨counted.setProc bound (fun j => ?_) (fun _ => rfl)
    (fun fd f some => (counted.opened p fd f some).2) fun unused => .inl (busy unused), rfl⟩
  simp [slotRefs_eq_count, none]

/-! ## Calls that leave the processes alone -/

private theorem fileRead_counts {f : ℕ} (bound : f < nFile) (len : U32) (typed : List U8) :
    Counts young [] [] (fileRead cfg f len typed) (fun _ => []) fun _ => [] := by
  refine .get_bind fun s _ => .ite (.pure rfl rfl) (.bind (.of_idle (fileInode_trades _)) fun ip =>
    .bind (.note .fileRead ip) fun _ => .bind (.of_idle (diskInfo_trades ip)) fun info => .ite ?_ ?_)
  · exact .bind (.of_idle (deviceReadData_trades _ _ _)) fun _ => .pure rfl rfl
  · exact .bind (.of_idle (sleeplockAcquire_trades ip)) fun _ =>
      .bind (.of_idle (inodeReadData_trades cfg ip _ _ _)) fun _ => .bind (.setOffset bound _) fun _ =>
        .bind (.of_idle (sleeplockRelease_trades ip)) fun _ => .pure rfl rfl

private theorem fileWrite_counts {f : ℕ} (bound : f < nFile) (len : U32) (src : Bytes) :
    Counts young [] [] (fileWrite cfg f len src) (fun _ => []) fun _ => [] := by
  refine .get_bind fun s _ => .ite (.pure rfl rfl) (.bind (.of_idle (fileInode_trades _)) fun ip =>
    .bind (.note .fileWrite ip) fun _ => .bind (.of_idle (diskInfo_trades ip)) fun info => .ite ?_ ?_)
  · exact .of_idle (deviceWriteData_trades _ _)
  · exact .bind (.of_idle (sleeplockAcquire_trades ip)) fun _ =>
      .bind (.of_idle (inodeWriteData_trades cfg ip _ _ _)) fun _ => .bind (.setOffset bound _) fun _ =>
        .bind (.of_idle (sleeplockRelease_trades ip)) fun _ => .pure rfl rfl

private theorem fileLseek_counts {f : ℕ} (bound : f < nFile) (lseekOffset : U32) (flag : Option LseekFlag) :
    Counts young [] [] (fileLseek f lseekOffset flag) (fun _ => []) fun _ => [] := by
  refine .get_bind fun s _ => .bind (.of_idle (fileInode_trades _)) fun ip =>
    .bind (.of_idle (sleeplockAcquire_trades ip)) fun _ => .bind (.of_idle (diskInfo_trades ip))
      fun info => ?_
  split
  · exact .bind (.of_idle (sleeplockRelease_trades ip)) fun _ => .pure rfl rfl
  · exact .bind (.setOffset bound _) fun _ => .bind (.of_idle (sleeplockRelease_trades ip)) fun _ =>
      .pure rfl rfl

private theorem fileGetStat_counts (f : ℕ) :
    Counts young [] [] (fileGetStat f) (fun _ => []) fun _ => [] :=
  .get_bind fun _ _ => .bind (.of_idle (fileInode_trades _)) fun ip =>
    .bind (.of_idle (sleeplockAcquire_trades ip)) fun _ => .get_bind fun _ _ =>
      .bind (.of_idle (sleeplockRelease_trades ip)) fun _ => .pure rfl rfl

/-- A descriptor that is open leads to a place of the file table. -/
theorem openedFile_lt (counted : Counted young s [] []) {fd : ℤ} {f : ℕ}
    (opened : openedFile (s.procPool p) fd = some f) : f < nFile := by
  rw [openedFile] at opened
  split at opened
  · cases opened
  · exact (counted.opened p _ f opened).2.2

/-- A call that works on the file of a descriptor. -/
theorem onFile_counts {α : Type} {fd : ℤ} {bad : α} {x : ℕ → FsM α}
    (works : ∀ f < nFile, Counts young [] [] (x f) (fun _ => []) fun _ => []) :
    Counts young [] [] (do
      let proc ← getProc p
      match openedFile proc fd with
      | none => pure bad
      | some f => x f) (fun _ => []) fun _ => [] := by
  intro s counted
  simp only [getProc, Returns.bind_iff, Returns.get_iff, Returns.pure_iff]
  split
  · exact Counts.pure rfl rfl s counted
  · rename_i f opened
    exact works f (openedFile_lt counted opened) s counted

private theorem sysRead_counts (fd : ℤ) (len : U32) (typed : List U8) :
    Counts young [] [] (sysRead cfg p fd len typed) (fun _ => []) fun _ => [] :=
  onFile_counts fun _ bound => .bind (fileRead_counts cfg bound len typed) fun _ => .pure rfl rfl

private theorem sysWrite_counts (fd : ℤ) (len : U32) (src : Bytes) :
    Counts young [] [] (sysWrite cfg p fd len src) (fun _ => []) fun _ => [] :=
  onFile_counts fun _ bound => fileWrite_counts cfg bound len src

private theorem sysLseek_counts (fd : ℤ) (offset : U32) (flag : ℕ) :
    Counts young [] [] (sysLseek p fd offset flag) (fun _ => []) fun _ => [] :=
  onFile_counts fun _ bound => fileLseek_counts bound offset _

private theorem sysFstat_counts (fd : ℤ) :
    Counts young [] [] (sysFstat p fd) (fun _ => []) fun _ => [] :=
  onFile_counts fun f _ => .bind (fileGetStat_counts f) fun _ => .pure rfl rfl

private theorem sysGetDentries_counts (fd : ℤ) (len : U32) :
    Counts young [] [] (sysGetDentries cfg p fd len) (fun _ => []) fun _ => [] := by
  refine .bind (.of_idle (getProc_trades p)) fun proc => .ite (.throw _) ?_
  split
  · exact .pure rfl rfl
  · exact .get_bind fun s _ => .bind (.of_idle (fileInode_trades _)) fun ip =>
      .bind (.note .sysGetDentries ip) fun _ => .bind (.of_idle (diskInfo_trades ip)) fun _ =>
        .ite (.pure rfl rfl) <| .bind (.of_idle (dentryTransmit_trades cfg ip len _ _ _ _)) fun _ =>
          .pure rfl rfl

private theorem sysMkdir_counts (path : List U8) (junk : Bytes) :
    Counts young [] [] (sysMkdir cfg p path junk) (fun _ => []) fun _ => [] := by
  refine .bind (.of_trades [] (pathCreateInode_trades cfg p path inodeTypeDir 0 0 junk)) fun r => ?_
  match r with
  | none => exact .pure rfl rfl
  | some ip => exact .bind (.of_trades [] (inodePut_trades cfg ip)) fun _ => .pure rfl rfl

private theorem sysPrintCwd_counts (junk : Bytes) :
    Counts young [] [] (sysPrintCwd cfg p junk) (fun _ => []) fun _ => [] := by
  refine .bind (.of_idle (getProc_trades p)) fun proc => ?_
  split
  · exact .throw _
  · rename_i cwd _
    refine .bind (.of_idle (diskInfo_trades cwd)) fun _ => .ite (.pure rfl rfl) ?_
    refine .bind (.of_trades [] (inodeDup_trades cwd)) fun curr => ?_
    refine .bind (.of_trades [] (inodeToPathFrom_trades cfg junk _ curr _)) fun r => ?_
    match r with
    | none => exact .pure rfl rfl
    | some (last, text) =>
      exact .bind (.of_trades [] (inodePut_trades cfg last)) fun _ => .pure rfl rfl

private theorem pathLink_counts (oldPath newPath : List U8) (junk : Bytes) :
    Counts young [] [] (pathLink cfg p oldPath newPath junk) (fun _ => []) fun _ => [] := by
  have give (ip : ℕ) : Counts young [] [ip] (do inodePut cfg ip; pure minusOne) (fun _ => [])
      fun _ => [] :=
    .bind (.of_trades [] (inodePut_trades cfg ip)) fun _ => .pure rfl rfl
  refine .bind (.of_trades [] (pathToInode_trades cfg p oldPath)) fun r => ?_
  match r with
  | none => exact .pure rfl rfl
  | some ip =>
    refine .bind (.note .pathLink ip) fun _ => .bind (.of_idle (diskInfo_trades ip)) fun _ =>
      .ite (give ip) (.bind (.of_trades [ip] (pathToParentInode_trades cfg p newPath junk)) fun r => ?_)
    match r with
    | none => exact give ip
    | some (dp, name) =>
      refine .bind (.of_idle (inodeLock_trades cfg dp)) fun _ =>
        .bind (.of_idle (dentrySearch_trades cfg dp name)) fun _ => .ite ?_ (.get_bind fun s _ => ?_)
      · exact .bind (.of_idle (inodeUnlock_trades dp)) fun _ =>
          .bind (.of_trades [ip] (inodePut_trades cfg dp)) fun _ => give ip
      · exact .bind (.of_idle (dentryCreate_trades cfg dp _ name)) fun _ =>
          .bind (.of_idle (inodeLock_trades cfg ip)) fun _ => .bind (.note .pathLink ip) fun _ =>
            .bind (.of_idle (updateNlink_trades cfg ip _)) fun _ =>
              .bind (.of_idle (inodeUnlock_trades ip)) fun _ =>
                .bind (.of_idle (inodeUnlock_trades dp)) fun _ =>
                  .bind (.of_trades [ip] (inodePut_trades cfg dp)) fun _ =>
                    .bind (.of_trades [] (inodePut_trades cfg ip)) fun _ => .pure rfl rfl

private theorem procExec_counts (path : List U8) :
    Counts young [] [] (procExec cfg p path) (fun _ => []) fun _ => [] := by
  refine .bind (.of_trades [] (pathToInode_trades cfg p path)) fun r => ?_
  match r with
  | none => exact .pure rfl rfl
  | some ip =>
    have leave (found : Option ElfImage) : Counts young [] [ip] (do
        sleeplockRelease ip
        inodePut cfg ip
        pure found) (fun _ => []) fun _ => [] :=
      .bind (.of_idle (sleeplockRelease_trades ip)) fun _ =>
        .bind (.of_trades [] (inodePut_trades cfg ip)) fun _ => .pure rfl rfl
    exact .bind (.of_idle (sleeplockAcquire_trades ip)) fun _ => .bind (.note .procExec ip) fun _ =>
      .bind (.of_idle (inodeReadData_trades cfg ip _ _ _)) fun _ => .ite (leave none)
        (.bind (.of_idle (loadSegments_trades cfg ip _ _ _)) fun _ => leave _)

/-! ## Calls that change descriptors and directories -/

/-- A call after which all counters are exact again. -/
abbrev Balanced (x : FsM α) (s : FsState) : Prop := Returns x s fun _ s' => Counted none s' [] []

private theorem freeDescriptor_spec {proc : Proc} (found : freeDescriptor proc = some fd) :
    fd < nOpenFile ∧ proc.openFile fd = none := by
  refine ⟨List.mem_range.mp (List.mem_of_find?_eq_some found), ?_⟩
  have free := List.find?_some found
  simpa using free

private theorem sysOpen_balanced (counted : Counted none s [] []) (running : (s.procPool p).state = .running)
    (path : List U8) (mode : U32) (junk : Bytes) : Balanced (sysOpen cfg p path mode junk) s := by
  rw [Balanced, sysOpen, Returns.bind_iff]
  refine (fileOpen_counts cfg p path mode junk s counted).mono fun r s1 result => ?_
  obtain ⟨held, same⟩ := result
  cases r with
  | none =>
    rw [Returns.pure_iff]
    exact held
  | some f =>
    simp only [getProc, Returns.bind_iff, Returns.get_iff, Returns.pure_iff]
    split
    · rename_i fd found
      obtain ⟨place, free⟩ := freeDescriptor_spec found
      have busy : (s1.procPool p).state = .unused → none = some p := by
        rw [same, running]
        simp
      rw [Returns.bind_iff]
      refine (setOpenFile_counted (r := some f) held (counted.running p running) place free busy).mono
        fun _ s2 result => ?_
      obtain ⟨after, -⟩ := result
      rw [Returns.pure_iff]
      exact after
    · rw [Returns.bind_iff]
      refine (fileClose_counts cfg f s1 held).mono fun _ s2 result => ?_
      obtain ⟨after, -⟩ := result
      rw [Returns.pure_iff]
      exact after

private theorem sysClose_balanced (counted : Counted none s [] []) (fd : ℤ) :
    Balanced (sysClose cfg p fd) s := by
  simp only [Balanced, sysClose, getProc, Returns.bind_iff, Returns.get_iff, Returns.pure_iff]
  split
  · rw [Returns.pure_iff]
    exact counted
  · rename_i f opened
    rw [openedFile] at opened
    split at opened
    · cases opened
    · have closed := closeDescriptor_counted cfg counted opened
      simp only [Returns.bind_iff, Returns.pure_iff] at closed ⊢
      exact closed.mono fun _ s1 rest => rest.mono fun _ s2 ⟨after, _⟩ => after

private theorem sysDup_balanced (counted : Counted none s [] []) (running : (s.procPool p).state = .running)
    (fd : ℤ) : Balanced (sysDup p fd) s := by
  simp only [Balanced, sysDup, getProc, Returns.bind_iff, Returns.get_iff, Returns.pure_iff]
  split
  · rw [Returns.pure_iff]
    exact counted
  · rename_i f opened
    split
    · rw [Returns.pure_iff]
      exact counted
    · rename_i new found
      obtain ⟨place, free⟩ := freeDescriptor_spec found
      simp only [Returns.bind_iff, Returns.pure_iff]
      refine (fileDup_counts f s counted).mono fun g s1 result => ?_
      obtain ⟨held, same⟩ := result
      have busy : (s1.procPool p).state = .unused → none = some p := by
        rw [same, running]
        simp
      rw [← same] at free
      exact (setOpenFile_counted (r := some g) held (counted.running p running) place free busy).mono
        fun _ s2 result => result.1

private theorem sysChdir_balanced (counted : Counted none s [] []) (path : List U8) :
    Balanced (sysChdir cfg p path) s := by
  have found : Counts none [] [] (pathToInode cfg p path) (fun _ => []) Option.toList :=
    .of_trades [] (pathToInode_trades cfg p path)
  rw [Balanced, sysChdir, Returns.bind_iff]
  refine (found s counted).mono fun r s1 result => ?_
  obtain ⟨held, -⟩ := result
  cases r with
  | none =>
    rw [Returns.pure_iff]
    exact held
  | some ip =>
    rw [Returns.bind_iff]
    refine (held.note .sysChdir ip).mono fun _ s2 result => ?_
    obtain ⟨held, -⟩ := result
    simp only [diskInfo, getProc, Returns.bind_iff, Returns.get_iff, Returns.pure_iff]
    refine .ite (fun _ => ?_) fun _ => ?_
    · have put : Counts none [] [ip] (inodePut cfg ip) (fun _ => []) fun _ => [] :=
        .of_trades [] (inodePut_trades cfg ip)
      simp only [Returns.bind_iff, Returns.pure_iff]
      exact (put s2 held).mono fun _ s3 result => result.1
    · simp only [Returns.bind_iff, Returns.get_iff, Returns.pure_iff]
      split
      · simp
      · rename_i old cwd
        have replaced := replaceCwd_counted cfg (some ip) held cwd
        simp only [Returns.bind_iff, Returns.pure_iff] at replaced ⊢
        exact replaced.mono fun _ s3 rest => rest.mono fun _ s4 result => result.1

/-! ## Processes -/

/-- The descriptors of the child are free from the next one on. -/
theorem forkFiles_counted {child : ℕ} (bound : child < nProc) (q : ℕ) : ∀ n fd s,
    Counted (some child) s [] [] → (∀ fd', fd ≤ fd' → (s.procPool child).openFile fd' = none) →
    Returns (forkFiles q child n fd) s fun _ s' => Counted (some child) s' [] [] := by
  intro n
  induction n with
  | zero =>
    intro fd s counted _
    rw [forkFiles, Returns.pure_iff]
    exact counted
  | succ n ih =>
    intro fd s counted free
    simp only [forkFiles, getProc, Returns.bind_iff, Returns.get_iff, Returns.pure_iff]
    split
    · exact ih _ s counted fun fd' later => free fd' (by omega)
    · rename_i f opened
      have place := (counted.opened q fd f opened).2.1
      simp only [Returns.bind_iff]
      refine (fileDup_counts f s counted).mono fun g s1 ⟨held, same⟩ => ?_
      rw [← same] at free
      refine (setOpenFile_counted (r := some g) held bound place (free fd le_rfl) fun _ => rfl).mono
        fun _ s2 ⟨after, pool⟩ => ih _ s2 after fun fd' later => ?_
      rw [pool, Function.update_self, withFile]
      simp only [Function.update_of_ne (show fd' ≠ fd by omega)]
      exact free fd' (by omega)

/-- The places of the pool that `proc_alloc` finds hold nothing; the one that it gives away holds
the references of the child once `proc_fork` has made it a process. -/
theorem procFork_balanced (counted : Counted none s [] []) : Balanced (procFork p) s := by
  rw [Balanced, procFork, Returns.bind_iff, Returns.get_iff]
  split
  · rw [Returns.pure_iff]
    exact counted
  · rename_i child found
    have bound : child < nProc := List.mem_range.mp (List.mem_of_find?_eq_some found)
    have unused : (s.procPool child).state = .unused := by
      have unused := List.find?_some found
      simpa using unused
    obtain ⟨noCwd, noFile⟩ := (counted.idle child unused).resolve_left (by simp)
    have finish : ∀ s', Counted (some child) s' [] [] →
        (∀ fd, (s'.procPool child).openFile fd = none) → Returns (do
          forkFiles p child nOpenFile 0
          updateProc child fun proc => { proc with state := .running, parent := some p }
          pure (some child)) s' fun _ s' => Counted none s' [] [] := by
      intro s' counted free
      rw [Returns.bind_iff]
      refine (forkFiles_counted bound p nOpenFile 0 s' counted fun fd _ => free fd).mono
        fun _ s1 counted => ?_
      rw [Returns.bind_iff, updateProc, Returns.modify_iff, Returns.pure_iff]
      have filled : Counted (some child) (s1.setProc child
          { s1.procPool child with state := .running, parent := some p }) [] [] :=
        counted.setProc bound (fun _ => rfl) (fun _ => rfl)
          (fun fd f some => (counted.opened child fd f some).2) (by simp)
      refine filled.setProcs (fun _ => rfl) (fun _ => rfl) filled.running fun q unused =>
        (filled.idle q unused).imp_left fun young => ?_
      obtain rfl := Option.some.inj young
      rw [Function.update_self] at unused
      cases unused
    have reset : Counted (some child) (s.setProc child ⟨.unused, none, none, fun _ => none⟩) [] [] := by
      have grown : Counted (some child) s [] [] := counted.setProcs (fun _ => rfl) (fun _ => rfl)
        counted.running fun q unused => .inr ((counted.idle q unused).resolve_left (by simp))
      refine grown.setProc bound (fun i => ?_) (fun f => ?_) (by simp) fun _ => .inl rfl
      · rw [noCwd]
      · simp only [noFile]
    rw [Returns.bind_iff, updateProc, Returns.modify_iff]
    split
    · refine finish _ reset fun fd => ?_
      rw [FsState.setProc_same]
    · rename_i i _
      have dup : Counts (some child) [] [] (inodeDup i) (fun _ => []) fun j => [j] :=
        .of_trades [] (inodeDup_trades i)
      rw [Returns.bind_iff]
      refine (dup _ reset).mono fun j s1 result => ?_
      obtain ⟨held, same⟩ := result
      rw [Returns.bind_iff]
      refine (setCwd_counted held bound ?_ fun _ => rfl).mono fun _ s2 result => ?_
      · rw [same, FsState.setProc_same]
      · obtain ⟨after, pool⟩ := result
        refine finish s2 after fun fd => ?_
        rw [pool, Function.update_self, same, FsState.setProc_same]

private theorem procExit_balanced (counted : Counted none s [] []) : Balanced (procExit p) s := by
  refine .ite (fun _ => by simp) fun _ => ?_
  rw [Returns.modify_iff]
  refine counted.setProcs (fun q => ?_) (fun q => ?_) (fun q running => ?_) fun q unused => ?_
  · dsimp only
    split_ifs <;> rfl
  · dsimp only
    split_ifs <;> rfl
  · refine counted.running q ?_
    dsimp only at running
    split_ifs at running <;> simp_all
  · have idle := counted.idle q
    dsimp only at unused ⊢
    split_ifs at unused ⊢ <;> simp_all [Proc.Cleared]

/-- The loop closes the descriptors that it passes, and leaves the others alone. -/
theorem closeFiles_counted (q : ℕ) : ∀ n fd s, Counted none s [] [] →
    Returns (closeFiles cfg q n fd) s fun _ s' => Counted none s' [] [] ∧
      (s'.procPool q).cwd = (s.procPool q).cwd ∧ ∀ fd' f, (s'.procPool q).openFile fd' = some f →
        (s.procPool q).openFile fd' = some f ∧ (fd ≤ fd' → fd + n ≤ fd') := by
  intro n
  induction n with
  | zero =>
    intro fd s counted
    rw [closeFiles, Returns.pure_iff]
    exact ⟨counted, rfl, fun fd' f opened => ⟨opened, by simp⟩⟩
  | succ n ih =>
    intro fd s counted
    simp only [closeFiles, getProc, Returns.bind_iff, Returns.get_iff, Returns.pure_iff]
    split
    · rename_i empty
      refine (ih _ s counted).mono fun _ s' ⟨after, cwd, left⟩ => ⟨after, cwd, fun fd' f opened => ?_⟩
      obtain ⟨before, past⟩ := left fd' f opened
      have other : fd' ≠ fd := by
        rintro rfl
        rw [empty] at before
        cases before
      exact ⟨before, fun _ => by have := past (by omega); omega⟩
    · rename_i f opened
      have closed := closeDescriptor_counted cfg counted opened
      simp only [Returns.bind_iff] at closed ⊢
      refine closed.mono fun _ s1 rest => rest.mono fun _ s2 ⟨counted, pool⟩ => ?_
      refine (ih _ s2 counted).mono fun _ s' ⟨after, cwd, left⟩ => ?_
      rw [pool, Function.update_self] at cwd left
      refine ⟨after, cwd, fun fd' g opened => ?_⟩
      obtain ⟨before, past⟩ := left fd' g opened
      rw [withFile] at before
      by_cases same : fd' = fd
      · simp only [same, Function.update_self] at before
        cases before
      · simp only [Function.update_of_ne same] at before
        exact ⟨before, fun _ => by have := past (by omega); omega⟩

/-- `proc_free` gives up all references of the process, so its place holds nothing afterwards. -/
theorem procFree_balanced {q : ℕ} (counted : Counted none s [] []) (bound : q < nProc) :
    Balanced (procFree cfg q) s := by
  have rest : ∀ s', Counted none s' [] [] → (s'.procPool q).cwd = none → Returns (do
      closeFiles cfg q nOpenFile 0
      updateProc q fun proc => { proc with state := .unused, parent := none }) s' fun _ s' =>
        Counted none s' [] [] := by
    intro s' counted noCwd
    rw [Returns.bind_iff]
    refine (closeFiles_counted cfg q nOpenFile 0 s' counted).mono fun _ s1 ⟨counted, cwd, left⟩ => ?_
    have noFile : ∀ fd, (s1.procPool q).openFile fd = none := by
      intro fd
      rw [Option.eq_none_iff_forall_ne_some]
      intro f opened
      have past := (left fd f opened).2 (Nat.zero_le fd)
      have place := (counted.opened q fd f opened).2.1
      omega
    rw [updateProc, Returns.modify_iff]
    refine counted.setProc bound (fun _ => rfl) (fun _ => rfl)
      (fun fd f some => (counted.opened q fd f some).2) fun _ => .inr ⟨cwd.trans noCwd, noFile⟩
  simp only [Balanced, procFree, getProc, Returns.bind_iff, Returns.get_iff, Returns.pure_iff]
  simp only [Returns.bind_iff] at rest
  split
  · rename_i noCwd
    simp only [Returns.bind_iff]
    exact rest s counted noCwd
  · rename_i i cwd
    have replaced := replaceCwd_counted cfg none counted cwd
    simp only [Returns.bind_iff] at replaced ⊢
    refine replaced.mono fun _ s1 last => last.mono fun _ s2 ⟨counted, pool⟩ => rest s2 counted ?_
    rw [pool, Function.update_self]

private theorem procWait_balanced (counted : Counted none s [] []) : Balanced (procWait cfg p) s := by
  rw [Balanced, procWait, Returns.bind_iff, Returns.get_iff]
  split
  · rename_i q found
    have bound : q < nProc := List.mem_range.mp (List.mem_of_find?_eq_some found)
    simp only [Returns.bind_iff, Returns.pure_iff]
    exact procFree_balanced cfg counted bound
  · refine .ite (fun _ => by simp) fun _ => ?_
    rw [Returns.pure_iff]
    exact counted

/-- The standard files of the first process go to free descriptors. -/
theorem openStandard_counted (counted : Counted none s [] []) (running : (s.procPool 0).state = .running)
    (place : fd < nOpenFile) (free : (s.procPool 0).openFile fd = none) (name : List U8) (mode : U32)
    (junk : Bytes) : Returns (openStandard cfg fd name mode junk) s fun _ s' =>
      Counted none s' [] [] ∧ (s'.procPool 0).state = .running ∧
        ∀ fd', fd' ≠ fd → (s'.procPool 0).openFile fd' = (s.procPool 0).openFile fd' := by
  rw [openStandard, Returns.bind_iff]
  refine (fileOpen_counts cfg 0 (devPath name) mode junk s counted).mono fun r s1 result => ?_
  obtain ⟨held, same⟩ := result
  rw [← same] at running free ⊢
  have busy : (s1.procPool 0).state = .unused → none = some 0 := by
    rw [running]
    simp
  refine (setOpenFile_counted held (by decide) place free busy).mono fun _ s2 result => ?_
  obtain ⟨after, pool⟩ := result
  rw [pool, Function.update_self]
  exact ⟨after, running, fun fd' other => Function.update_of_ne other _ _⟩

private theorem procEntryPoint_balanced (junk : Bytes) (d : Disk) :
    Balanced (procEntryPoint cfg junk) (FsState.init d) := by
  have root : Counts none [] [] (inodeGet cfg rootInode) (fun _ => []) fun i => [i] :=
    .of_trades [] (inodeGet_trades cfg rootInode)
  rw [Balanced, procEntryPoint, Returns.bind_iff, enterRoot, Returns.bind_iff]
  refine (root _ (.init d)).mono fun i s1 result => ?_
  obtain ⟨held, same⟩ := result
  have running : (s1.procPool 0).state = .running := by rw [same]; rfl
  have cwd : (s1.procPool 0).cwd = none := by rw [same]; rfl
  have busy : (s1.procPool 0).state = .unused → none = some 0 := by
    rw [running]
    simp
  refine (setCwd_counted held (by decide) cwd busy).mono fun _ s2 result => ?_
  obtain ⟨counted2, pool⟩ := result
  have running2 : (s2.procPool 0).state = .running := by rw [pool, Function.update_self, running]
  have free2 : ∀ fd, (s2.procPool 0).openFile fd = none := by
    intro fd
    rw [pool, Function.update_self, same]
    rfl
  rw [Returns.bind_iff]
  refine (openStandard_counted cfg counted2 running2 (by decide) (free2 0) _ _ _).mono
    fun _ s3 result => ?_
  obtain ⟨counted3, running3, kept3⟩ := result
  have free3 : (s3.procPool 0).openFile 1 = none := (kept3 1 (by decide)).trans (free2 1)
  rw [Returns.bind_iff]
  refine (openStandard_counted cfg counted3 running3 (by decide) free3 _ _ _).mono
    fun _ s4 result => ?_
  obtain ⟨counted4, running4, kept4⟩ := result
  have free4 : (s4.procPool 0).openFile 2 = none :=
    (kept4 2 (by decide)).trans ((kept3 2 (by decide)).trans (free2 2))
  exact (openStandard_counted cfg counted4 running4 (by decide) free4 _ _ _).mono
    fun _ s5 result => result.1

end Fs

/-! ## Runs -/

/-- The start of the first process is not a call of a running system. -/
def Started (_ : FsState) : ℕ × Call → Prop
  | (_, .entryPoint _) => False
  | _ => True

/-- The counter of every file is the number of descriptors of all processes that lead to it, and the
counter of every slot of the inode cache the number of files in use on it and of processes in it. -/
structure RefsExact (s : FsState) : Prop where
  file : ∀ f, (s.fileTable f).ref = ((Finset.range nProc ×ˢ Finset.range nOpenFile).filter
    fun place => (s.procPool place.1).openFile place.2 = some f).card
  inode : ∀ i, (s.inodeCache i).ref = ((Finset.range nFile).filter
      fun f => 0 < (s.fileTable f).ref ∧ (s.fileTable f).ip = some i).card +
    ((Finset.range nProc).filter fun p => (s.procPool p).cwd = some i).card

private theorem sum_slotRefs {ι : Type} (places : Finset ι) (hold : ι → Option ℕ) (i : ℕ) :
    ∑ x ∈ places, slotRefs (hold x) i = (places.filter fun x => hold x = some i).card := by
  simp only [slotRefs, Finset.card_filter]

private theorem sum_sum_slotRefs (ps fds : Finset ℕ) (hold : ℕ → ℕ → Option ℕ) (f : ℕ) :
    ∑ p ∈ ps, ∑ fd ∈ fds, slotRefs (hold p fd) f =
      ((ps ×ˢ fds).filter fun place => hold place.1 place.2 = some f).card := by
  rw [← sum_slotRefs, Finset.sum_product]

private theorem Counted.refsExact (counted : Counted none s [] []) : RefsExact s where
  file f := by
    have files := counted.files f
    rw [descriptors, sum_sum_slotRefs _ _ fun p fd => (s.procPool p).openFile fd] at files
    exact files.symm
  inode i := by
    have slots := counted.slots i
    rw [holders, sum_slotRefs _ fun f => (s.fileTable f).ip,
      sum_slotRefs _ fun p => (s.procPool p).cwd] at slots
    have used : ∀ f, (0 < (s.fileTable f).ref ∧ (s.fileTable f).ip = some i) ↔
        (s.fileTable f).ip = some i := fun f => by
      refine ⟨And.right, fun some => ⟨Nat.pos_of_ne_zero fun none => ?_, some⟩⟩
      rw [counted.closed f none] at some
      cases some
    simp only [used]
    exact slots.symm

variable {cfg : FsConfig}

/-- Every call of a running process leaves all counters exact, however it returns. -/
theorem call_counted (counted : Counted none s [] []) {a : ℕ × Call} (started : Started s a)
    (step : FsStep cfg s a s') : Counted none s' [] [] := by
  obtain ⟨p, call⟩ := a
  obtain ⟨running, result⟩ := step
  have balanced : ∀ {α : Type} {x : FsM α}, Fs.Balanced x s → discard x s = .ok ⟨⟩ s' →
      Counted none s' [] [] := by
    intro α x balanced result
    have after : Returns (discard x) s fun _ s' => Counted none s' [] [] :=
      Returns.discard_iff.mpr balanced
    exact after _ s' result
  have counts : ∀ {α : Type} {x : FsM α}, Counts none [] [] x (fun _ => []) (fun _ => []) →
      discard x s = .ok ⟨⟩ s' → Counted none s' [] [] :=
    fun counts => balanced ((counts s counted).mono fun _ _ after => after.1)
  cases call with
  | entryPoint junk => exact started.elim
  | fork => exact balanced (Fs.procFork_balanced counted) result
  | exit => exact Fs.procExit_balanced counted _ s' result
  | wait => exact balanced (Fs.procWait_balanced cfg counted) result
  | exec path => exact counts (Fs.procExec_counts cfg path) result
  | «open» path mode junk => exact balanced (Fs.sysOpen_balanced cfg counted running path mode junk) result
  | close fd => exact balanced (Fs.sysClose_balanced cfg counted fd) result
  | read fd len typed => exact counts (Fs.sysRead_counts cfg fd len typed) result
  | write fd len src => exact counts (Fs.sysWrite_counts cfg fd len src) result
  | lseek fd offset flag => exact counts (Fs.sysLseek_counts fd offset flag) result
  | dup fd => exact balanced (Fs.sysDup_balanced counted running fd) result
  | fstat fd => exact counts (Fs.sysFstat_counts fd) result
  | getDentries fd len => exact counts (Fs.sysGetDentries_counts cfg fd len) result
  | mkdir path junk => exact counts (Fs.sysMkdir_counts cfg path junk) result
  | chdir path => exact balanced (Fs.sysChdir_balanced cfg counted path) result
  | printCwd junk => exact counts (Fs.sysPrintCwd_counts cfg junk) result
  | link oldPath newPath junk => exact counts (Fs.pathLink_counts cfg oldPath newPath junk) result
  | unlink path junk => exact counts (.of_trades [] (Fs.pathUnlink_trades cfg p path junk)) result

/-- From the start of the first process on, all reference counters are exact between calls. -/
theorem refs_exact {disk : Disk} {junk : Bytes} {calls : List (ℕ × Call)} {s₀ s : FsState}
    (start : (Call.entryPoint junk).run cfg 0 (FsState.init disk) = .ok ⟨⟩ s₀)
    (run : Run (Guarded Started (FsStep cfg)) s₀ calls s) : RefsExact s := by
  have first : Counted none s₀ [] [] := Fs.procEntryPoint_balanced cfg junk disk _ s₀ start
  have last := run.invariant (P := fun s => Counted none s [] [])
    (fun _ _ _ step counted => call_counted counted step.1 step.2) first
  exact last.refsExact

/-- The descriptor of a file that is created is handed on to a child, which copies it. -/
theorem refs_exact_shared : ∃ s₀ s, (Call.entryPoint fun _ => 0).run ⟨mkfsSuperBlock, false⟩ 0
      (FsState.init Mkfs.disk) = .ok ⟨⟩ s₀ ∧
    Run (Guarded Started (FsStep ⟨mkfsSuperBlock, false⟩)) s₀
      [(0, .open [0x2F, 0x78] (openCreate ||| openWrite) fun _ => 0), (0, .fork), (1, .dup 1)] s ∧
    (s.fileTable 1).ref = 3 ∧ RefsExact s := by
  obtain ⟨s, run, thrice⟩ := exists_run ⟨mkfsSuperBlock, false⟩
    [(0, .entryPoint fun _ => 0), (0, .open [0x2F, 0x78] (openCreate ||| openWrite) fun _ => 0), (0, .fork),
      (1, .dup 1)] (FsState.init Mkfs.disk) (fun s => (s.fileTable 1).ref == 3) (by decide +kernel)
  cases run with
  | cons first rest =>
    have started : Run (Guarded Started (FsStep ⟨mkfsSuperBlock, false⟩)) _
        [(0, .open [0x2F, 0x78] (openCreate ||| openWrite) fun _ => 0), (0, .fork), (1, .dup 1)] s :=
      rest.guarded (by simp [Started])
    exact ⟨_, s, first.2, started, by simpa using thrice, refs_exact first.2 started⟩

end LabKernel
