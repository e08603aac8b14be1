import LabKernel.Fs.Holding
import LabKernel.Fs.Syscall
import LabKernel.Lib.Counting

/-! # Open files and working directories

Every open file and every working directory holds a reference to a slot of the inode cache, so the
slot stays with its inode, and stays loaded, for as long as the file is open. This holds in every
state that the file-system calls of all processes reach. With it go the permissions of a file, which
`file_open` computes once and every copy of the descriptor shares, and the cached records that each
call looks at.
-/

namespace LabKernel

/-- The references of a place that may hold a slot. -/
def slotRefs (ip : Option ℕ) (i : ℕ) : ℕ := if ip = some i then 1 else 0

/-- The open files and working directories that hold slot `i`. -/
def holders (s : FsState) (i : ℕ) : ℕ :=
  ∑ f ∈ Finset.range nFile, slotRefs (s.fileTable f).ip i +
    ∑ p ∈ Finset.range nProc, slotRefs (s.procPool p).cwd i

/-- The permissions are those that `file_open` gives for the mode. -/
def File.Moded (f : File) : Prop :=
  f.readable = decide (f.mode &&& openWrite = 0) ∧
    f.writable = decide (f.mode &&& openReadWrite ≠ 0)

/-- The permissions that `file_open` computes. -/
theorem File.moded_open (ip : Option ℕ) (mode offset : U32) (ref : ℕ) (loaded : Bool) :
    File.Moded ⟨ip, if mode &&& openWrite ≠ 0 then false else true,
      decide (mode &&& openWrite ≠ 0) || decide (mode &&& openReadWrite ≠ 0), offset, ref, mode,
      loaded⟩ := by
  have write : mode &&& openWrite ≠ 0 → mode &&& openReadWrite ≠ 0 := by
    intro write both
    refine write ?_
    have part : mode &&& openWrite = mode &&& openReadWrite &&& openWrite := by
      rw [BitVec.and_assoc]
      rfl
    rw [part, both]
    exact BitVec.zero_and
  refine ⟨?_, ?_⟩
  · by_cases bit : mode &&& openWrite = 0 <;> simp [bit]
  · by_cases bit : mode &&& openWrite = 0
    · simp [bit]
    · rw [decide_eq_true bit, decide_eq_true (write bit), Bool.true_or]

/-- The record was loaded, and is that of the slot's own inode. -/
def Inode.Loaded (ip : Inode) : Prop := ip.validInfo = true ∧ ip.FromDisk

/-- Every cached record looked at in between was loaded. -/
def UsesLoaded (s s' : FsState) : Prop :=
  ∃ new, s'.uses = new ++ s.uses ∧ ∀ u ∈ new, u.2.Loaded

theorem UsesLoaded.of_same {s s' : FsState} (same : s'.uses = s.uses) : UsesLoaded s s' :=
  ⟨[], same, by simp⟩

theorem UsesLoaded.trans {s s' s'' : FsState} (first : UsesLoaded s s') (second : UsesLoaded s' s'') :
    UsesLoaded s s'' := by
  obtain ⟨new, uses, loaded⟩ := first
  obtain ⟨new', uses', loaded'⟩ := second
  refine ⟨new' ++ new, by rw [uses', uses, List.append_assoc], fun u mem => ?_⟩
  exact (List.mem_append.mp mem).elim (loaded' u) (loaded u)

/-- What holds between calls, and inside a call that holds the references `held` itself. -/
structure Settled (s : FsState) (held : List ℕ) : Prop where
  refs : ∀ i, holders s i + held.count i ≤ (s.inodeCache i).ref
  genuine : ∀ i, (s.inodeCache i).Genuine
  loaded : ∀ f i, f < nFile → (s.fileTable f).ip = some i → (s.fileTable f).loaded = true →
    (s.inodeCache i).validInfo = true
  opened : ∀ p fd f, (s.procPool p).openFile fd = some f → f < nFile ∧ (s.fileTable f).Moded
  cwd : ∀ p i, (s.procPool p).cwd = some i → p < nProc
  running : ∀ p, (s.procPool p).state = .running → p < nProc

private theorem slotRefs_self (i : ℕ) : slotRefs (some i) i = 1 := if_pos rfl

theorem slotRefs_eq_count (ip : Option ℕ) (i : ℕ) : slotRefs ip i = ip.toList.count i := by
  cases ip with
  | none => rfl
  | some j => simp [slotRefs, List.count_singleton]

private theorem holders_file {s : FsState} {f i : ℕ} (bound : f < nFile) (ip : (s.fileTable f).ip = some i) :
    0 < holders s i := by
  have part : slotRefs (s.fileTable f).ip i ≤ ∑ f ∈ Finset.range nFile, slotRefs (s.fileTable f).ip i :=
    Finset.single_le_sum (f := fun f => slotRefs (s.fileTable f).ip i) (fun _ _ => Nat.zero_le _)
      (Finset.mem_range.mpr bound)
  rw [ip, slotRefs_self] at part
  unfold holders
  omega

theorem holders_setFile (s : FsState) {f : ℕ} (bound : f < nFile) (file : File) (i : ℕ) :
    holders (s.setFile f file) i + slotRefs (s.fileTable f).ip i = holders s i + slotRefs file.ip i := by
  have sum := sum_change (f := fun g => slotRefs (s.fileTable g).ip i)
    (g := fun g => slotRefs ((s.setFile f file).fileTable g).ip i) (Finset.mem_range.mpr bound)
    fun g _ other => by rw [FsState.setFile_other _ _ _ other]
  simp only [FsState.setFile_same] at sum
  simp only [holders, FsState.setFile_procPool]
  omega

theorem holders_setProc (s : FsState) {p : ℕ} (bound : p < nProc) (proc : Proc) (i : ℕ) :
    holders (s.setProc p proc) i + slotRefs (s.procPool p).cwd i = holders s i + slotRefs proc.cwd i := by
  have sum := sum_change (f := fun q => slotRefs (s.procPool q).cwd i)
    (g := fun q => slotRefs ((s.setProc p proc).procPool q).cwd i) (Finset.mem_range.mpr bound)
    fun q _ other => by rw [FsState.setProc_other _ _ _ other]
  simp only [FsState.setProc_same] at sum
  simp only [holders, FsState.setProc_fileTable]
  omega

namespace Settled

variable {s s' : FsState} {held held' given taken : List ℕ}

theorem exchange (more : List ℕ) (settled : Settled s (more ++ given)) (exchange : Exchange s given s' taken) :
    Settled s' (more ++ taken) where
  refs i := by
    have before := settled.refs i
    have change := exchange.ref i
    simp only [holders, exchange.fileTable, exchange.procPool, List.count_append] at before ⊢
    omega
  genuine := exchange.genuine settled.genuine
  loaded f i bound ip loaded := by
    rw [exchange.fileTable] at ip loaded
    have some := holders_file bound ip
    have refs := settled.refs i
    rw [List.count_append] at refs
    exact (exchange.kept i (by omega)).2 (settled.loaded f i bound ip loaded)
  opened p fd f opened := by
    rw [exchange.procPool] at opened
    rw [exchange.fileTable]
    exact settled.opened p fd f opened
  cwd p i cwd := by
    rw [exchange.procPool] at cwd
    exact settled.cwd p i cwd
  running p running := by
    rw [exchange.procPool] at running
    exact settled.running p running

private theorem setFile (settled : Settled s held) {f : ℕ} (bound : f < nFile) {file : File}
    (refs : ∀ i, slotRefs file.ip i + held'.count i ≤ slotRefs (s.fileTable f).ip i + held.count i)
    (loaded : ∀ i, file.ip = some i → file.loaded = true → (s.inodeCache i).validInfo = true)
    (moded : (s.fileTable f).Moded → file.Moded) : Settled (s.setFile f file) held' where
  refs i := by
    have change := holders_setFile s bound file i
    have before := settled.refs i
    have given := refs i
    rw [FsState.setFile_inodeCache]
    omega
  genuine := settled.genuine
  loaded g i bound ip flag := by
    by_cases other : g = f
    · subst other
      rw [FsState.setFile_same] at ip flag
      exact loaded i ip flag
    · rw [FsState.setFile_other _ _ _ other] at ip flag
      exact settled.loaded g i bound ip flag
  opened p fd g opened := by
    obtain ⟨bound, before⟩ := settled.opened p fd g opened
    refine ⟨bound, ?_⟩
    by_cases other : g = f
    · subst other
      rw [FsState.setFile_same]
      exact moded before
    · rwa [FsState.setFile_other _ _ _ other]
  cwd := settled.cwd
  running := settled.running

theorem setProc (settled : Settled s held) {p : ℕ} (bound : p < nProc) {proc : Proc}
    (refs : ∀ i, slotRefs proc.cwd i + held'.count i ≤ slotRefs (s.procPool p).cwd i + held.count i)
    (opened : ∀ fd f, proc.openFile fd = some f → f < nFile ∧ (s.fileTable f).Moded) :
    Settled (s.setProc p proc) held' where
  refs i := by
    have change := holders_setProc s bound proc i
    have before := settled.refs i
    have given := refs i
    rw [FsState.setProc_inodeCache]
    omega
  genuine := settled.genuine
  loaded := settled.loaded
  opened q fd f := by
    rw [FsState.setProc_fileTable]
    by_cases other : q = p
    · subst other
      rw [FsState.setProc_same]
      exact opened fd f
    · rw [FsState.setProc_other _ _ _ other]
      exact settled.opened q fd f
  cwd q i := by
    by_cases other : q = p
    · exact fun _ => other ▸ bound
    · rw [FsState.setProc_other _ _ _ other]
      exact settled.cwd q i
  running q := by
    by_cases other : q = p
    · exact fun _ => other ▸ bound
    · rw [FsState.setProc_other _ _ _ other]
      exact settled.running q

theorem note (settled : Settled s held) (site : UseSite) (i : ℕ) :
    Returns (note site i) s fun _ s' => Settled s' held ∧ s'.uses = (site, s.inodeCache i) :: s.uses ∧
      s'.inodeCache = s.inodeCache := by
  rw [LabKernel.note, Returns.modify_iff]
  exact ⟨⟨settled.refs, settled.genuine, settled.loaded, settled.opened, settled.cwd,
    settled.running⟩, rfl, rfl⟩

/-- A slot marked loaded is loaded. -/
theorem isLoaded (settled : Settled s held) {i : ℕ} (valid : (s.inodeCache i).validInfo = true) :
    (s.inodeCache i).Loaded :=
  ⟨valid, settled.genuine i valid⟩

theorem init (d : Disk) : Settled (FsState.init d) [] where
  refs i := by
    simp [holders, FsState.init, slotRefs]
  genuine i loaded := by simp [FsState.init] at loaded
  loaded f i _ ip := by simp [FsState.init] at ip
  opened p fd f opened := by simp [FsState.init] at opened
  cwd p i cwd := by simp [FsState.init] at cwd
  running p running := by
    by_cases first : p = 0
    · rw [first]
      decide
    · simp [FsState.init, first] at running

end Settled

/-- The program keeps what holds between calls, turns the references `held` into `held'` and looks at
no cached record. -/
def Upholds {α : Type} (held : List ℕ) (x : FsM α) (held' : α → List ℕ) : Prop :=
  ∀ s, Settled s held → Returns x s fun a s' => Settled s' (held' a) ∧ s'.uses = s.uses

namespace Upholds

variable {α β : Type} {held : List ℕ} {x : FsM α} {held' middle : α → List ℕ}

theorem pure {a : α} (same : held = held' a) : Upholds held (pure a : FsM α) held' := by
  intro s settled
  rw [Returns.pure_iff, ← same]
  exact ⟨settled, rfl⟩

theorem throw (e : Fault) : Upholds held (throw e : FsM α) held' := by
  intro s _
  simp

theorem bind {f : α → FsM β} {held' : β → List ℕ} (first : Upholds held x middle)
    (next : ∀ a, Upholds (middle a) (f a) held') : Upholds held (x >>= f) held' := by
  intro s settled
  rw [Returns.bind_iff]
  refine (first s settled).mono fun a s' ⟨left, uses⟩ => ?_
  exact (next a s' left).mono fun b s'' ⟨right, uses'⟩ => ⟨right, uses'.trans uses⟩

/-- Composition through a list of files given by name. -/
theorem via {f : α → FsM β} {held' : β → List ℕ} (middle : α → List ℕ)
    (first : Upholds held x middle) (next : ∀ a, Upholds (middle a) (f a) held') :
    Upholds held (x >>= f) held' := first.bind next

theorem ite {c : Prop} [Decidable c] {y : FsM α} (yes : Upholds held x held')
    (no : Upholds held y held') : Upholds held (if c then x else y) held' := by
  split
  · exact yes
  · exact no

/-- Reading the state changes nothing. -/
theorem get_bind {f : FsState → FsM β} {held' : β → List ℕ}
    (next : ∀ s, Settled s held → Upholds held (f s) held') : Upholds held (get >>= f) held' := by
  intro s settled
  rw [Returns.bind_iff, Returns.get_iff]
  exact next s settled s settled

theorem of_trades {given : List ℕ} {taken : α → List ℕ} (more : List ℕ)
    (trades : Trades given x taken) : Upholds (more ++ given) x fun a => more ++ taken a :=
  fun s settled => (trades s).mono fun _ _ exchange => ⟨settled.exchange more exchange, exchange.uses⟩

/-- A program that trades nothing. -/
theorem of_idle (trades : Trades [] x fun _ => []) : Upholds held x fun _ => held := by
  have frame := of_trades held trades
  simpa only [List.append_nil] using frame

/-- A change of the offset of a file. -/
theorem setOffset {f : ℕ} (bound : f < nFile) (offset : U32) :
    Upholds held (modify fun s => s.setFile f { s.fileTable f with offset := offset })
      fun _ => held := by
  intro s settled
  rw [Returns.modify_iff]
  exact ⟨settled.setFile bound (fun _ => le_refl _) (fun i ip flag => settled.loaded f i bound ip flag)
    id, rfl⟩

end Upholds

namespace Fs

variable (cfg : FsConfig)

/-! ## Files -/

theorem fileAlloc_spec (s : FsState) : Returns fileAlloc s fun r s' =>
    (r = none → s' = s) ∧ ∀ f, r = some f → f < nFile ∧ (s.fileTable f).ref = 0 ∧
      s' = s.setFile f ⟨none, false, false, 0, 1, 0, false⟩ := by
  rw [fileAlloc, Returns.bind_iff, Returns.get_iff]
  split
  · simp
  · rename_i f found
    have mem := List.mem_of_find?_eq_some found
    have free := List.find?_some found
    simp only [Returns.bind_iff, Returns.modify_iff, Returns.pure_iff]
    refine ⟨(by simp), ?_⟩
    rintro _ ⟨⟩
    exact ⟨List.mem_range.mp mem, by simpa using free, rfl⟩

/-- `file_open` hands the reference to the inode on to the file, or gives it up. -/
theorem openInode_settled (ip : ℕ) (openMode : U32) {s : FsState} (settled : Settled s [ip]) :
    Returns (openInode cfg ip openMode) s fun r s' => (Settled s' [] ∧ s'.uses = s.uses) ∧
      ∀ f, r = some f → f < nFile ∧ (s'.fileTable f).Moded := by
  have give : ∀ s, Settled s [ip] → Returns (do
      sleeplockRelease ip
      inodePut cfg ip
      pure none) s fun (r : Option ℕ) s' => (Settled s' [] ∧ s'.uses = s.uses) ∧
        ∀ f, r = some f → f < nFile ∧ (s'.fileTable f).Moded := by
    intro s settled
    have put : Upholds [ip] (do sleeplockRelease ip; inodePut cfg ip) fun _ => [] :=
      .bind (.of_idle (sleeplockRelease_trades ip)) fun _ => .of_trades [] (inodePut_trades cfg ip)
    have after := put s settled
    simp only [Returns.bind_iff, Returns.pure_iff] at after ⊢
    exact after.mono fun _ s1 rest => rest.mono fun _ s2 kept => ⟨kept, (by simp)⟩
  rw [openInode, diskInfo]
  simp only [Returns.bind_iff, Returns.get_iff, Returns.pure_iff]
  refine .ite (fun _ => give s settled) fun _ => .ite (fun _ => give s settled) fun _ => ?_
  rw [Returns.bind_iff]
  refine (fileAlloc_spec s).mono fun r s1 result => ?_
  obtain ⟨unchanged, taken⟩ := result
  cases r with
  | none =>
    rw [unchanged rfl]
    exact give s settled
  | some f =>
    obtain ⟨bound, -, rfl⟩ := taken f rfl
    simp only [Returns.bind_iff, Returns.modify_iff, Returns.pure_iff, FsState.setFile_same,
      FsState.setFile_setFile, FsState.setFile_inodeCache]
    have moded := File.moded_open (some ip) openMode (if openMode &&& openAppend ≠ 0 ∧
      (s.inodeCache ip).diskInfo.type = inodeTypeData then (s.inodeCache ip).diskInfo.size else 0) 1
      (s.inodeCache ip).validInfo
    have file : Settled (s.setFile f _) [] := settled.setFile bound (fun i => by
        simp [slotRefs, List.count_singleton]) (fun i => by
        rintro ⟨⟩ valid
        exact valid) fun _ => moded
    refine (sleeplockRelease_trades ip _).mono fun _ s2 released => ?_
    refine ⟨⟨file.exchange [] released, released.uses⟩, ?_⟩
    rintro _ ⟨⟩
    rw [released.fileTable, FsState.setFile_same]
    exact ⟨bound, moded⟩

/-- A lookup of an inode, and whether the inode is loaded. -/
theorem openedInode_spec (p : ℕ) (path : List U8) (openMode : U32) (junk : Bytes) (s : FsState) :
    Returns (openedInode cfg p path openMode junk) s fun r s' => Exchange s [] s' r.toList ∧
      (openMode &&& openCreate ≠ 0 ∨ PathLoaded cfg s p path →
        ∀ i, r = some i → (s'.inodeCache i).validInfo = true) := by
  unfold openedInode
  refine .ite (fun create => ?_) fun plain => ?_
  · exact ((pathCreateInode_trades cfg p path inodeTypeData 0 0 junk s).and
      (pathCreateInode_valid cfg p path inodeTypeData 0 0 junk s)).mono fun _ _ ⟨exchange, valid⟩ =>
        ⟨exchange, fun _ => valid⟩
  · intro r s' result
    exact ⟨pathToInode_trades cfg p path s r s' result, fun careful =>
      pathToInode_valid cfg (careful.resolve_left plain) r s' result⟩

/-- The slot handed over by a lookup is locked and looked at. -/
theorem lookAt_spec (site : UseSite) {s s1 : FsState} {ip : ℕ} (settled : Settled s [])
    (found : Exchange s [] s1 [ip]) :
    Returns (do sleeplockAcquire ip; note site ip) s1 fun _ s2 => Settled s2 [ip] ∧
      ((s1.inodeCache ip).validInfo = true → UsesLoaded s s2) := by
  have held : Settled s1 [ip] := settled.exchange [] found
  rw [Returns.bind_iff]
  refine (sleeplockAcquire_trades ip s1).mono fun _ s2 locked => ?_
  have held' : Settled s2 [ip] := held.exchange [ip] locked
  refine (held'.note site ip).mono fun _ s3 ⟨after, uses, _⟩ => ⟨after, fun valid => ?_⟩
  have refs := held.refs ip
  rw [List.count_singleton_self] at refs
  refine ⟨[(site, s2.inodeCache ip)], ?_, ?_⟩
  · rw [uses, locked.uses, found.uses]
    rfl
  · rintro u mem
    obtain rfl := List.mem_singleton.mp mem
    exact held'.isLoaded ((locked.kept ip (by simp; omega)).2 valid)

theorem fileOpen_settled (p : ℕ) (path : List U8) (openMode : U32) (junk : Bytes) {s : FsState}
    (settled : Settled s []) : Returns (fileOpen cfg p path openMode junk) s fun r s' =>
      Settled s' [] ∧ (∀ f, r = some f → f < nFile ∧ (s'.fileTable f).Moded) ∧
        (openMode &&& openCreate ≠ 0 ∨ PathLoaded cfg s p path → UsesLoaded s s') := by
  rw [fileOpen, Returns.bind_iff]
  refine (openedInode_spec cfg p path openMode junk s).mono fun r s1 result => ?_
  obtain ⟨found, valid⟩ := result
  cases r with
  | none =>
    rw [Returns.pure_iff]
    exact ⟨settled.exchange [] found, (by simp), fun _ => .of_same found.uses⟩
  | some ip =>
    have look := lookAt_spec .fileOpen settled found
    simp only [Returns.bind_iff] at look ⊢
    refine look.mono fun _ s2 rest => rest.mono fun _ s3 result => ?_
    obtain ⟨held, uses⟩ := result
    refine (openInode_settled cfg ip openMode held).mono fun r s4 result => ?_
    obtain ⟨⟨after, same⟩, file⟩ := result
    exact ⟨after, file, fun careful => (uses (valid careful ip rfl)).trans (.of_same same)⟩

variable {f : ℕ} (bound : f < nFile)

include bound

theorem fileClose_upholds : Upholds [] (fileClose cfg f) fun _ => [] := by
  intro s settled
  rw [fileClose, Returns.bind_iff, Returns.get_iff]
  refine .ite (fun _ => by simp) fun _ => .ite (fun _ => ?_) fun _ => ?_
  · rw [Returns.set_iff]
    exact ⟨settled.setFile bound (fun _ => le_refl _) (fun i ip => settled.loaded f i bound ip) id, rfl⟩
  · rw [Returns.bind_iff, Returns.set_iff]
    have file : Settled (s.setFile f { s.fileTable f with ref := 0, ip := none })
        (s.fileTable f).ip.toList :=
      settled.setFile bound (fun i => by simp [slotRefs_eq_count]) nofun id
    split
    · rename_i none
      rw [none] at file
      rw [Returns.pure_iff]
      exact ⟨file, rfl⟩
    · rename_i ip some
      rw [some] at file
      exact (inodePut_trades cfg ip _).mono fun _ s' put => ⟨file.exchange [] put, put.uses⟩

omit bound in
theorem fileDup_upholds (f : ℕ) (bound : f < nFile) {s : FsState} (settled : Settled s []) :
    Returns (fileDup f) s fun r s' => (Settled s' [] ∧ s'.uses = s.uses) ∧ r = f ∧
      ((s.fileTable f).Moded → (s'.fileTable f).Moded) := by
  rw [fileDup, Returns.bind_iff, Returns.get_iff]
  refine .ite (fun _ => by simp) fun _ => ?_
  simp only [Returns.bind_iff, Returns.modify_iff, Returns.pure_iff]
  refine ⟨⟨settled.setFile bound (fun _ => le_refl _) (fun i ip => settled.loaded f i bound ip) id,
    rfl⟩, trivial, fun moded => ?_⟩
  rw [FsState.setFile_same]
  exact moded

omit bound in
theorem deviceReadData_trades (major : U16) (len : U32) (typed : List U8) :
    Trades [] (deviceReadData major len typed) fun _ => [] := by
  unfold deviceReadData
  refine .ite ?_ (.ite (.pure rfl) (.pure rfl))
  split
  · exact .pure rfl
  · exact .throw _

omit bound in
theorem deviceWriteData_trades (major : U16) (len : U32) :
    Trades [] (deviceWriteData major len) fun _ => [] :=
  .ite (.pure rfl) (.pure rfl)

/-- A file looks at the inode it holds. -/
theorem lookAtFile_spec (site : UseSite) {s : FsState} {ip : ℕ} (settled : Settled s [])
    (file : (s.fileTable f).ip = some ip) : Returns (note site ip) s fun _ s' => Settled s' [] ∧
      ((s.fileTable f).loaded = true → UsesLoaded s s') := by
  refine (settled.note site ip).mono fun _ s' ⟨after, uses, _⟩ => ⟨after, fun flag => ?_⟩
  refine ⟨[(site, s.inodeCache ip)], uses, ?_⟩
  rintro u mem
  obtain rfl := List.mem_singleton.mp mem
  exact settled.isLoaded (settled.loaded f ip bound file flag)

theorem fileRead_settled (len : U32) (typed : List U8) {s : FsState} (settled : Settled s []) :
    Returns (fileRead cfg f len typed) s fun _ s' => Settled s' [] ∧
      (((s.fileTable f).readable = true → (s.fileTable f).loaded = true) → UsesLoaded s s') := by
  rw [fileRead, Returns.bind_iff, Returns.get_iff]
  refine .ite (fun _ => ?_) fun readable => ?_
  · rw [Returns.pure_iff]
    exact ⟨settled, fun _ => .of_same rfl⟩
  · rw [Bool.not_eq_false] at readable
    rw [Returns.bind_iff, fileInode]
    split
    · simp
    · rename_i ip file
      have tail : Upholds [] (do
          let info ← diskInfo ip
          if info.type = inodeTypeDevice then
            let n ← deviceReadData info.major len typed
            pure (n, fun i => typed.getD i 0)
          else
            sleeplockAcquire ip
            let r ← inodeReadData cfg ip (s.fileTable f).offset len (fun _ => 0)
            modify fun s' => s'.setFile f
              { s'.fileTable f with offset := (s.fileTable f).offset + r.1 }
            sleeplockRelease ip
            pure r) fun _ => [] := by
        refine .bind (.of_idle (diskInfo_trades ip)) fun info => .ite ?_ ?_
        · exact .bind (.of_idle (deviceReadData_trades _ _ _)) fun _ => .pure rfl
        · exact .bind (.of_idle (sleeplockAcquire_trades ip)) fun _ =>
            .bind (.of_idle (inodeReadData_trades cfg ip _ _ _)) fun _ =>
              .bind (.setOffset bound _) fun _ => .bind (.of_idle (sleeplockRelease_trades ip)) fun _ =>
                .pure rfl
      simp only [Returns.pure_iff]
      rw [Returns.bind_iff]
      refine (lookAtFile_spec bound .fileRead settled file).mono fun _ s1 result => ?_
      obtain ⟨after, uses⟩ := result
      refine (tail s1 after).mono fun _ s2 result => ?_
      obtain ⟨after', same⟩ := result
      refine ⟨after', fun careful => ?_⟩
      exact (uses (careful readable)).trans (.of_same same)

theorem fileWrite_settled (len : U32) (src : Bytes) {s : FsState} (settled : Settled s []) :
    Returns (fileWrite cfg f len src) s fun _ s' => Settled s' [] ∧
      (((s.fileTable f).writable = true → (s.fileTable f).loaded = true) → UsesLoaded s s') := by
  rw [fileWrite, Returns.bind_iff, Returns.get_iff]
  refine .ite (fun _ => ?_) fun writable => ?_
  · rw [Returns.pure_iff]
    exact ⟨settled, fun _ => .of_same rfl⟩
  · rw [Bool.not_eq_false] at writable
    rw [Returns.bind_iff, fileInode]
    split
    · simp
    · rename_i ip file
      have tail : Upholds [] (do
          let info ← diskInfo ip
          if info.type = inodeTypeDevice then deviceWriteData info.major len
          else
            sleeplockAcquire ip
            let n ← inodeWriteData cfg ip (s.fileTable f).offset len src
            modify fun s' => s'.setFile f { s'.fileTable f with offset := (s.fileTable f).offset + n }
            sleeplockRelease ip
            pure n) fun _ => [] := by
        refine .bind (.of_idle (diskInfo_trades ip)) fun info => .ite ?_ ?_
        · exact .of_idle (deviceWriteData_trades _ _)
        · exact .bind (.of_idle (sleeplockAcquire_trades ip)) fun _ =>
            .bind (.of_idle (inodeWriteData_trades cfg ip _ _ _)) fun _ =>
              .bind (.setOffset bound _) fun _ => .bind (.of_idle (sleeplockRelease_trades ip)) fun _ =>
                .pure rfl
      simp only [Returns.pure_iff]
      rw [Returns.bind_iff]
      refine (lookAtFile_spec bound .fileWrite settled file).mono fun _ s1 result => ?_
      obtain ⟨after, uses⟩ := result
      refine (tail s1 after).mono fun _ s2 result => ?_
      obtain ⟨after', same⟩ := result
      refine ⟨after', fun careful => ?_⟩
      exact (uses (careful writable)).trans (.of_same same)

omit bound in
theorem fileInode_trades (file : File) : Trades [] (fileInode file) fun _ => [] := by
  unfold fileInode
  split
  · exact .throw _
  · exact .pure rfl

theorem fileLseek_upholds (lseekOffset : U32) (flag : Option LseekFlag) :
    Upholds [] (fileLseek f lseekOffset flag) fun _ => [] := by
  refine .get_bind fun s _ => .bind (.of_idle (fileInode_trades _)) fun ip =>
    .bind (.of_idle (sleeplockAcquire_trades ip)) fun _ => .bind (.of_idle (diskInfo_trades ip))
      fun info => ?_
  split
  · exact .bind (.of_idle (sleeplockRelease_trades ip)) fun _ => .pure rfl
  · exact .bind (.setOffset bound _) fun _ => .bind (.of_idle (sleeplockRelease_trades ip)) fun _ =>
      .pure rfl

omit bound in
theorem fileGetStat_upholds (f : ℕ) : Upholds [] (fileGetStat f) fun _ => [] :=
  .get_bind fun _ _ => .bind (.of_idle (fileInode_trades _)) fun ip =>
    .bind (.of_idle (sleeplockAcquire_trades ip)) fun _ => .get_bind fun _ _ =>
      .bind (.of_idle (sleeplockRelease_trades ip)) fun _ => .pure rfl

end Fs

end LabKernel
