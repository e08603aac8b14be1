import LabKernel.Fs.OpenFiles
import LabKernel.Fs.Image

/-! # Calls of all processes

Each file-system call of a running process keeps what holds between calls, so every run does. The
records that a call looks at were loaded, provided that the path it resolves leads to an inode that
is loaded when it is handed over, or that the file it uses was opened so.
-/

namespace LabKernel

namespace Exchange

/-- The processes play no part in an exchange. -/
theorem setProc {s s' : FsState} {given taken : List ℕ} (exchange : Exchange s given s' taken) (p : ℕ)
    (proc : Proc) : Exchange (s.setProc p proc) given (s'.setProc p proc) taken where
  fileTable := exchange.fileTable
  procPool := by rw [FsState.setProc, FsState.setProc, exchange.procPool]
  uses := exchange.uses
  ref := exchange.ref
  kept := exchange.kept
  genuine := exchange.genuine

end Exchange

namespace Settled

variable {s s' : FsState} {held taken : List ℕ}

/-- The reference that a process holds in its working directory is given away, and the directory
replaced. -/
theorem replaceCwd (settled : Settled s held) {p i : ℕ} (bound : p < nProc)
    (old : (s.procPool p).cwd = some i) {new : Option ℕ} (exchange : Exchange s [i] s' [])
    (mine : ∀ j, taken.count j + new.toList.count j ≤ held.count j) :
    Settled (s'.setProc p { s.procPool p with cwd := new }) taken := by
  have moved : Settled (s.setProc p { s.procPool p with cwd := new }) (taken ++ [i]) := by
    refine settled.setProc bound (fun j => ?_) (settled.opened p)
    have mine := mine j
    simp only [slotRefs_eq_count, old, Option.toList_some, List.count_append]
    omega
  have after := moved.exchange taken (exchange.setProc p { s.procPool p with cwd := new })
  rwa [List.append_nil] at after

/-- Processes may change in what does not concern their files. -/
theorem setProcs (settled : Settled s held) {procPool : ℕ → Proc}
    (cwd : ∀ q, (procPool q).cwd = (s.procPool q).cwd)
    (openFile : ∀ q, (procPool q).openFile = (s.procPool q).openFile)
    (running : ∀ q, (procPool q).state = .running → (s.procPool q).state = .running) :
    Settled { s with procPool := procPool } held where
  refs i := by
    have refs := settled.refs i
    simpa only [holders, cwd] using refs
  genuine := settled.genuine
  loaded := settled.loaded
  opened p fd f opened := settled.opened p fd f (by rwa [← openFile])
  cwd p i some := settled.cwd p i (by rwa [← cwd])
  running p run := settled.running p (running p run)

/-- A descriptor that is in range and open refers to a file of the table. -/
theorem openedFile (settled : Settled s held) {p : ℕ} {fd : ℤ} {f : ℕ}
    (opened : Fs.openedFile (s.procPool p) fd = some f) : f < nFile ∧ (s.fileTable f).Moded := by
  unfold Fs.openedFile at opened
  split at opened
  · cases opened
  · exact settled.opened p _ f opened

end Settled

namespace Fs

variable (cfg : FsConfig)

theorem getProc_trades (p : ℕ) : Trades [] (getProc p) fun _ => [] := .get_bind fun _ => .pure rfl

/-- A place in the table of open files of a process is filled or emptied. -/
theorem setOpenFile_settled {s : FsState} {held : List ℕ} (settled : Settled s held) {p : ℕ}
    (bound : p < nProc) (fd : ℕ) {file : Option ℕ}
    (opened : ∀ f, file = some f → f < nFile ∧ (s.fileTable f).Moded) :
    Returns (setOpenFile p fd file) s fun _ s' => Settled s' held ∧ s'.uses = s.uses := by
  rw [setOpenFile, updateProc, Returns.modify_iff]
  refine ⟨settled.setProc bound (fun _ => le_refl _) fun fd' f some => ?_, rfl⟩
  dsimp only at some
  by_cases same : fd' = fd
  · rw [same, Function.update_self] at some
    exact opened f some
  · rw [Function.update_of_ne same] at some
    exact settled.opened p fd' f some

/-- The working directory of a process becomes a slot that is held. -/
theorem setCwd_settled {s : FsState} {i : ℕ} (settled : Settled s [i]) {p : ℕ} (bound : p < nProc) :
    Returns (updateProc p fun proc => { proc with cwd := some i }) s fun _ s' =>
      Settled s' [] ∧ s'.uses = s.uses := by
  rw [updateProc, Returns.modify_iff]
  refine ⟨settled.setProc bound (fun j => ?_) (settled.opened p), rfl⟩
  simp [slotRefs_eq_count]

/-! ## The system calls -/

variable {p : ℕ} (bound : p < nProc)

include bound

private theorem sysOpen_settled (path : List U8) (mode : U32) (junk : Bytes) {s : FsState}
    (settled : Settled s []) : Returns (sysOpen cfg p path mode junk) s fun _ s' => Settled s' [] ∧
      (mode &&& openCreate ≠ 0 ∨ PathLoaded cfg s p path → UsesLoaded s s') := by
  rw [sysOpen, Returns.bind_iff]
  refine (fileOpen_settled cfg p path mode junk settled).mono fun r s1 result => ?_
  obtain ⟨after, file, uses⟩ := result
  cases r with
  | none =>
    rw [Returns.pure_iff]
    exact ⟨after, uses⟩
  | some f =>
    obtain ⟨inside, moded⟩ := file f rfl
    simp only [getProc, Returns.bind_iff, Returns.get_iff, Returns.pure_iff]
    split
    · rw [Returns.bind_iff]
      refine (setOpenFile_settled after bound _ ?_).mono fun _ s2 result => ?_
      · rintro _ ⟨⟩
        exact ⟨inside, moded⟩
      · obtain ⟨after', same⟩ := result
        rw [Returns.pure_iff]
        exact ⟨after', fun careful => (uses careful).trans (.of_same same)⟩
    · rw [Returns.bind_iff]
      refine (fileClose_upholds cfg inside s1 after).mono fun _ s2 result => ?_
      obtain ⟨after', same⟩ := result
      rw [Returns.pure_iff]
      exact ⟨after', fun careful => (uses careful).trans (.of_same same)⟩

private theorem sysClose_upholds (fd : ℤ) : Upholds [] (sysClose cfg p fd) fun _ => [] := by
  intro s settled
  simp only [sysClose, getProc, Returns.bind_iff, Returns.get_iff, Returns.pure_iff]
  split
  · rw [Returns.pure_iff]
    exact ⟨settled, rfl⟩
  · rename_i f opened
    obtain ⟨inside, -⟩ := settled.openedFile opened
    simp only [Returns.bind_iff, Returns.pure_iff]
    refine (fileClose_upholds cfg inside s settled).mono fun _ s1 result => ?_
    obtain ⟨after, same⟩ := result
    have empty : ∀ g, none = some g → g < nFile ∧ (s1.fileTable g).Moded := by simp
    refine (setOpenFile_settled after bound _ empty).mono fun _ s2 result => ?_
    obtain ⟨after', same'⟩ := result
    exact ⟨after', same'.trans same⟩

private theorem sysDup_upholds (fd : ℤ) : Upholds [] (sysDup p fd) fun _ => [] := by
  intro s settled
  simp only [sysDup, getProc, Returns.bind_iff, Returns.get_iff, Returns.pure_iff]
  split
  · rw [Returns.pure_iff]
    exact ⟨settled, rfl⟩
  · rename_i f opened
    obtain ⟨inside, moded⟩ := settled.openedFile opened
    split
    · rw [Returns.pure_iff]
      exact ⟨settled, rfl⟩
    · simp only [Returns.bind_iff, Returns.pure_iff]
      refine (fileDup_upholds f inside settled).mono fun r s1 result => ?_
      obtain ⟨⟨after, same⟩, copy, kept⟩ := result
      refine (setOpenFile_settled after bound _ ?_).mono fun _ s2 result => ?_
      · rintro _ ⟨⟩
        rw [copy]
        exact ⟨inside, kept moded⟩
      · obtain ⟨after', same'⟩ := result
        exact ⟨after', same'.trans same⟩

omit bound in
private theorem sysRead_settled (fd : ℤ) (len : U32) (typed : List U8) {s : FsState} (settled : Settled s []) :
    Returns (sysRead cfg p fd len typed) s fun _ s' => Settled s' [] ∧
      ((∀ f, openedFile (s.procPool p) fd = some f → (s.fileTable f).readable = true →
        (s.fileTable f).loaded = true) → UsesLoaded s s') := by
  simp only [sysRead, getProc, Returns.bind_iff, Returns.get_iff, Returns.pure_iff]
  split
  · rw [Returns.pure_iff]
    exact ⟨settled, fun _ => .of_same rfl⟩
  · rename_i f opened
    obtain ⟨inside, -⟩ := settled.openedFile opened
    simp only [Returns.bind_iff, Returns.pure_iff]
    refine (fileRead_settled cfg inside len typed settled).mono fun _ s1 result => ?_
    obtain ⟨after, uses⟩ := result
    exact ⟨after, fun careful => uses (careful f opened)⟩

omit bound in
private theorem sysWrite_settled (fd : ℤ) (len : U32) (src : Bytes) {s : FsState} (settled : Settled s []) :
    Returns (sysWrite cfg p fd len src) s fun _ s' => Settled s' [] ∧
      ((∀ f, openedFile (s.procPool p) fd = some f → (s.fileTable f).writable = true →
        (s.fileTable f).loaded = true) → UsesLoaded s s') := by
  simp only [sysWrite, getProc, Returns.bind_iff, Returns.get_iff, Returns.pure_iff]
  split
  · rw [Returns.pure_iff]
    exact ⟨settled, fun _ => .of_same rfl⟩
  · rename_i f opened
    obtain ⟨inside, -⟩ := settled.openedFile opened
    refine (fileWrite_settled cfg inside len src settled).mono fun _ s1 result => ?_
    obtain ⟨after, uses⟩ := result
    exact ⟨after, fun careful => uses (careful f opened)⟩

omit bound in
private theorem sysLseek_upholds (fd : ℤ) (offset : U32) (flag : ℕ) :
    Upholds [] (sysLseek p fd offset flag) fun _ => [] := by
  intro s settled
  simp only [sysLseek, getProc, Returns.bind_iff, Returns.get_iff, Returns.pure_iff]
  split
  · rw [Returns.pure_iff]
    exact ⟨settled, rfl⟩
  · rename_i f opened
    exact fileLseek_upholds (settled.openedFile opened).1 offset _ s settled

omit bound in
private theorem sysFstat_upholds (fd : ℤ) : Upholds [] (sysFstat p fd) fun _ => [] := by
  refine .bind (.of_idle (getProc_trades p)) fun proc => ?_
  split
  · exact .pure rfl
  · exact .bind (fileGetStat_upholds _) fun _ => .pure rfl

omit bound in
theorem dentryTransmit_trades (i : ℕ) (len : U32) : ∀ fuel off de out,
    Trades [] (dentryTransmitFrom cfg i len fuel off de out) fun _ => [] := by
  intro fuel
  induction fuel with
  | zero => exact fun _ _ _ => .throw _
  | succ fuel ih =>
    intro off de out
    exact .bind (diskInfo_trades i) fun _ => .ite
      (.bind (inodeReadData_trades cfg i _ _ _) fun _ => ih _ _ _) (.pure rfl)

omit bound in
private theorem sysGetDentries_settled (fd : ℤ) (len : U32) {s : FsState} (settled : Settled s []) :
    Returns (sysGetDentries cfg p fd len) s fun _ s' => Settled s' [] ∧
      ((∀ f, openedFile (s.procPool p) fd = some f → (s.fileTable f).loaded = true) →
        UsesLoaded s s') := by
  simp only [sysGetDentries, getProc, Returns.bind_iff, Returns.get_iff, Returns.pure_iff]
  refine .ite (fun _ => by simp) fun range => ?_
  split
  · rw [Returns.pure_iff]
    exact ⟨settled, fun _ => .of_same rfl⟩
  · rename_i f opened
    have same : openedFile (s.procPool p) fd = some f := by rw [openedFile, if_neg range, opened]
    obtain ⟨inside, -⟩ := settled.openedFile same
    simp only [Returns.bind_iff, Returns.get_iff, fileInode]
    split
    · simp
    · rename_i ip file
      have tail : Upholds [] (do
          let info ← diskInfo ip
          if info.type ≠ inodeTypeDir then pure none
          else
            let out ← dentryTransmitFrom cfg ip len scanFuel 0 (fun _ => 0) []
            pure (some out)) fun _ => [] :=
        .bind (.of_idle (diskInfo_trades ip)) fun _ => .ite (.pure rfl)
          (.bind (.of_idle (dentryTransmit_trades cfg ip len _ _ _ _)) fun _ => .pure rfl)
      rw [Returns.pure_iff]
      refine (lookAtFile_spec inside .sysGetDentries settled file).mono fun _ s1 result => ?_
      obtain ⟨after, uses⟩ := result
      have rest := tail s1 after
      rw [Returns.bind_iff] at rest
      refine rest.mono fun _ s2 last => last.mono fun _ s3 result => ?_
      obtain ⟨after', same'⟩ := result
      exact ⟨after', fun careful => (uses (careful f same)).trans (.of_same same')⟩

omit bound in
private theorem sysMkdir_upholds (path : List U8) (junk : Bytes) :
    Upholds [] (sysMkdir cfg p path junk) fun _ => [] := by
  refine .bind (.of_trades [] (pathCreateInode_trades cfg p path inodeTypeDir 0 0 junk)) fun r => ?_
  match r with
  | none => exact .pure rfl
  | some ip => exact .bind (.of_trades [] (inodePut_trades cfg ip)) fun _ => .pure rfl

omit bound in
/-- The slot handed over to a caller that looks at it without its lock. -/
theorem lookAtUnlocked_spec (site : UseSite) {s s1 : FsState} {ip : ℕ} (settled : Settled s [])
    (found : Exchange s [] s1 [ip]) : Returns (note site ip) s1 fun _ s2 => Settled s2 [ip] ∧
      s2.procPool = s1.procPool ∧ ((s1.inodeCache ip).validInfo = true → UsesLoaded s s2) := by
  have held : Settled s1 [ip] := settled.exchange [] found
  have noted := held.note site ip
  rw [note, Returns.modify_iff] at noted ⊢
  refine ⟨noted.1, rfl, fun valid => ⟨[(site, s1.inodeCache ip)], ?_, ?_⟩⟩
  · rw [noted.2.1, found.uses]
    rfl
  · rintro u mem
    obtain rfl := List.mem_singleton.mp mem
    exact held.isLoaded valid

private theorem sysChdir_settled (path : List U8) {s : FsState} (settled : Settled s []) :
    Returns (sysChdir cfg p path) s fun _ s' => Settled s' [] ∧
      (PathLoaded cfg s p path → UsesLoaded s s') := by
  rw [sysChdir, Returns.bind_iff]
  intro r s1 result
  have found := pathToInode_trades cfg p path s r s1 result
  cases r with
  | none =>
    rw [Returns.pure_iff]
    exact ⟨settled.exchange [] found, fun _ => .of_same found.uses⟩
  | some ip =>
    simp only [Returns.bind_iff, diskInfo, getProc, Returns.get_iff, Returns.pure_iff]
    refine (lookAtUnlocked_spec .sysChdir settled found).mono fun _ s2 result => ?_
    obtain ⟨held, -, uses⟩ := result
    have loaded : PathLoaded cfg s p path → UsesLoaded s s2 := fun careful =>
      uses (pathToInode_valid cfg careful _ s1 result ip rfl)
    refine .ite (fun _ => ?_) fun _ => ?_
    · simp only [Returns.bind_iff, Returns.pure_iff]
      exact (inodePut_trades cfg ip s2).mono fun _ s3 put =>
        ⟨held.exchange [] put, fun careful => (loaded careful).trans (.of_same put.uses)⟩
    · simp only [Returns.bind_iff, Returns.get_iff, Returns.pure_iff]
      split
      · simp
      · rename_i old cwd
        simp only [Returns.bind_iff, updateProc, Returns.modify_iff, Returns.pure_iff]
        refine (inodePut_trades cfg old s2).mono fun _ s3 put => ?_
        rw [put.procPool]
        refine ⟨held.replaceCwd bound cwd put fun j => ?_,
          fun careful => (loaded careful).trans (.of_same put.uses)⟩
        simp

omit bound in
private theorem dentrySearch2From_trades (i : ℕ) (inodeNum : U32) (junk : Bytes) : ∀ fuel off,
    Trades [] (dentrySearch2From cfg i inodeNum junk fuel off) fun _ => [] := by
  intro fuel
  induction fuel with
  | zero => exact fun _ => .throw _
  | succ fuel ih =>
    intro off
    refine .bind (diskInfo_trades i) fun _ => .ite (.bind (readDentry_trades cfg i off) fun r => ?_)
      (.pure rfl)
    cases r with
    | none => exact .pure rfl
    | some de => exact .ite (.pure rfl) (ih _)

omit bound in
/-- The walk up hands the reference to the current directory on to its parent. -/
theorem inodeToPathFrom_trades (junk : Bytes) : ∀ fuel curr text,
    Trades [curr] (inodeToPathFrom cfg p junk fuel curr text) fun r => (r.map Prod.fst).toList := by
  intro fuel
  induction fuel with
  | zero => exact fun _ _ => .throw _
  | succ fuel ih =>
    intro curr text
    refine .get_bind fun s => .ite (.pure rfl) ?_
    refine .bind ((pathToInode_trades cfg p _).frame [curr]) fun r => ?_
    match r with
    | none => exact .bind (inodePut_trades cfg curr) fun _ => .pure rfl
    | some parent =>
      refine .bind (.idle (dentrySearch2From_trades cfg parent _ _ _ _)) fun name => ?_
      split
      · exact .throw _
      · refine .ite (.throw _) (.bind ?_ fun _ => ih parent _)
        exact ((inodePut_trades cfg curr).frame [parent]).weaken
          (fun j => by simp [List.count_cons]; omega) fun _ j => by simp [List.count_cons]; omega

omit bound in
private theorem sysPrintCwd_upholds (junk : Bytes) : Upholds [] (sysPrintCwd cfg p junk) fun _ => [] := by
  refine .bind (.of_idle (getProc_trades p)) fun proc => ?_
  split
  · exact .throw _
  · rename_i cwd _
    refine .bind (.of_idle (diskInfo_trades cwd)) fun _ => .ite (.pure rfl) ?_
    refine .bind (.of_trades [] (inodeDup_trades cwd)) fun curr => ?_
    refine .bind (.of_trades [] (inodeToPathFrom_trades cfg junk _ curr _)) fun r => ?_
    match r with
    | none => exact .pure rfl
    | some (last, text) => exact .bind (.of_trades [] (inodePut_trades cfg last)) fun _ => .pure rfl

omit bound in
/-- The second look of `path_link` at the inode follows `inode_lock`. -/
theorem pathLink_settled (oldPath newPath : List U8) (junk : Bytes) {s : FsState}
    (settled : Settled s []) : Returns (pathLink cfg p oldPath newPath junk) s fun _ s' =>
      Settled s' [] ∧ (PathLoaded cfg s p oldPath → UsesLoaded s s') := by
  rw [pathLink, Returns.bind_iff]
  intro r s1 result
  have found := pathToInode_trades cfg p oldPath s r s1 result
  cases r with
  | none =>
    rw [Returns.pure_iff]
    exact ⟨settled.exchange [] found, fun _ => .of_same found.uses⟩
  | some ip =>
    have give : Upholds [ip] (do inodePut cfg ip; pure minusOne) fun _ => [] :=
      .bind (.of_trades [] (inodePut_trades cfg ip)) fun _ => .pure rfl
    have drop : ∀ dp, Upholds [ip, dp] (do inodePut cfg dp; inodePut cfg ip; pure minusOne)
        fun _ => [] := fun dp =>
      .bind (.of_trades [ip] (inodePut_trades cfg dp)) fun _ => give
    rw [Returns.bind_iff]
    refine (lookAtUnlocked_spec .pathLink settled found).mono fun _ s2 looked => ?_
    obtain ⟨held, -, uses⟩ := looked
    have loaded : PathLoaded cfg s p oldPath → UsesLoaded s s2 := fun careful =>
      uses (pathToInode_valid cfg careful _ s1 result ip rfl)
    have silent : ∀ {x : FsM U32} {held : List ℕ} {s3 : FsState}, Settled s3 held →
        (PathLoaded cfg s p oldPath → UsesLoaded s s3) → Upholds held x (fun _ => []) →
        Returns x s3 fun _ s' => Settled s' [] ∧ (PathLoaded cfg s p oldPath → UsesLoaded s s') := by
      intro x held s3 settled loaded upholds
      refine (upholds _ settled).mono fun _ s' kept => ?_
      exact ⟨kept.1, fun careful => (loaded careful).trans (.of_same kept.2)⟩
    simp only [Returns.bind_iff, diskInfo, Returns.get_iff, Returns.pure_iff]
    refine .ite (fun _ => ?_) fun _ => ?_
    · have after := silent held loaded give
      simpa only [Returns.bind_iff, Returns.pure_iff] using after
    · simp only [Returns.bind_iff]
      refine (pathToParentInode_trades cfg p newPath junk s2).mono fun r s3 parent => ?_
      have held3 : Settled s3 ([ip] ++ parentSlot r) := held.exchange [ip] parent
      have loaded3 : PathLoaded cfg s p oldPath → UsesLoaded s s3 := fun careful =>
        (loaded careful).trans (.of_same parent.uses)
      cases r with
      | none =>
        have after := silent held3 loaded3 give
        simpa only [Returns.bind_iff, Returns.pure_iff] using after
      | some r =>
        obtain ⟨dp, name⟩ := r
        simp only [Returns.bind_iff]
        have enter : Upholds [ip, dp] (do inodeLock cfg dp; dentrySearch cfg dp name)
            fun _ => [ip, dp] :=
          .bind (.of_idle (inodeLock_trades cfg dp)) fun _ =>
            .of_idle (dentrySearch_trades cfg dp name)
        have entered := enter s3 held3
        rw [Returns.bind_iff] at entered
        refine entered.mono fun _ s4 rest => rest.mono fun found s5 result => ?_
        obtain ⟨held5, same⟩ := result
        have loaded5 : PathLoaded cfg s p oldPath → UsesLoaded s s5 := fun careful =>
          (loaded3 careful).trans (.of_same same)
        refine .ite (fun _ => ?_) fun _ => ?_
        · exact silent held5 loaded5
            (.bind (.of_idle (inodeUnlock_trades dp)) fun _ => drop dp)
        · simp only [Returns.bind_iff, Returns.get_iff]
          have create : Upholds [ip, dp] (dentryCreate cfg dp (s5.inodeCache ip).inodeNum name)
              fun _ => [ip, dp] := .of_idle (dentryCreate_trades cfg dp _ name)
          refine (create s5 held5).mono fun _ s6 result => ?_
          obtain ⟨held6, same6⟩ := result
          have lock : Upholds [ip, dp] (inodeLock cfg ip) fun _ => [ip, dp] :=
            .of_idle (inodeLock_trades cfg ip)
          refine ((lock s6 held6).and (inodeLock_valid cfg ip s6)).mono
            fun _ s7 result => ?_
          obtain ⟨⟨held7, same7⟩, valid⟩ := result
          refine (held7.note .pathLink ip).mono fun _ s8 result => ?_
          obtain ⟨held8, uses8, -⟩ := result
          have loaded8 : PathLoaded cfg s p oldPath → UsesLoaded s s8 := fun careful => by
            refine ((loaded5 careful).trans (.of_same (same7.trans same6))).trans
              ⟨[(.pathLink, s7.inodeCache ip)], uses8, ?_⟩
            rintro u mem
            obtain rfl := List.mem_singleton.mp mem
            exact held7.isLoaded valid
          have finish : Upholds [ip, dp] (do
              updateNlink cfg ip (· + 1)
              inodeUnlock ip
              inodeUnlock dp
              inodePut cfg dp
              inodePut cfg ip
              pure (0 : U32)) fun _ => [] :=
            .bind (.of_idle (updateNlink_trades cfg ip _)) fun _ =>
              .bind (.of_idle (inodeUnlock_trades ip)) fun _ =>
                .bind (.of_idle (inodeUnlock_trades dp)) fun _ =>
                  .bind (.of_trades [ip] (inodePut_trades cfg dp)) fun _ =>
                    .bind (.of_trades [] (inodePut_trades cfg ip)) fun _ => .pure rfl
          have after := silent held8 loaded8 finish
          simpa only [Returns.bind_iff, Returns.pure_iff] using after

omit bound in
private theorem loadSegmentFrom_trades (i : ℕ) (va : U64) (offset sz : ℕ) : ∀ fuel done image,
    Trades [] (loadSegmentFrom cfg i va offset sz fuel done image) fun _ => [] := by
  intro fuel
  induction fuel with
  | zero => exact fun _ _ => .pure rfl
  | succ fuel ih =>
    intro done image
    exact .ite (.bind (inodeReadData_trades cfg i _ _ _) fun _ => .ite (.pure rfl) (ih _ _))
      (.pure rfl)

omit bound in
theorem loadSegments_trades (i : ℕ) : ∀ count off loaded,
    Trades [] (loadSegments cfg i count off loaded) fun _ => [] := by
  intro count
  induction count with
  | zero => exact fun _ _ => .pure rfl
  | succ count ih =>
    intro off loaded
    refine .bind (inodeReadData_trades cfg i _ _ _) fun _ => .ite (.pure rfl) <|
      .ite (ih _ _) <| .ite (.pure rfl) (.bind (loadSegmentFrom_trades cfg i _ _ _ _ _ _) fun r => ?_)
    cases r with
    | none => exact .pure rfl
    | some image => exact ih _ _

omit bound in
private theorem procExec_settled (path : List U8) {s : FsState} (settled : Settled s []) :
    Returns (procExec cfg p path) s fun _ s' => Settled s' [] ∧
      (PathLoaded cfg s p path → UsesLoaded s s') := by
  rw [procExec, Returns.bind_iff]
  intro r s1 result
  have found := pathToInode_trades cfg p path s r s1 result
  cases r with
  | none =>
    rw [Returns.pure_iff]
    exact ⟨settled.exchange [] found, fun _ => .of_same found.uses⟩
  | some ip =>
    have look := lookAt_spec .procExec settled found
    simp only [Returns.bind_iff] at look ⊢
    refine look.mono fun _ s2 rest => rest.mono fun _ s3 result => ?_
    obtain ⟨held, uses⟩ := result
    have tail : Upholds [ip] (do
        let r ← inodeReadData cfg ip 0 elfhdrSize (fun _ => 0)
        let elf := Elfhdr.decode r.2
        if r.1 ≠ elfhdrSize ∨ elf.magic ≠ elfMagic then
          sleeplockRelease ip
          inodePut cfg ip
          pure none
        else
          let segments ← loadSegments cfg ip elf.phnum.toNat (BitVec.ofNat 32 elf.phoff.toNat) []
          sleeplockRelease ip
          inodePut cfg ip
          pure (segments.map fun list => (⟨elf, list⟩ : ElfImage))) fun _ => [] := by
      refine .bind (.of_idle (inodeReadData_trades cfg ip _ _ _)) fun _ => .ite ?_ ?_
      · exact .bind (.of_idle (sleeplockRelease_trades ip)) fun _ =>
          .bind (.of_trades [] (inodePut_trades cfg ip)) fun _ => .pure rfl
      · exact .bind (.of_idle (loadSegments_trades cfg ip _ _ _)) fun _ =>
          .bind (.of_idle (sleeplockRelease_trades ip)) fun _ =>
            .bind (.of_trades [] (inodePut_trades cfg ip)) fun _ => .pure rfl
    have after := tail s3 held
    rw [Returns.bind_iff] at after
    refine after.mono fun _ s4 rest => rest.mono fun _ s5 result => ?_
    obtain ⟨after', same⟩ := result
    exact ⟨after', fun careful => (uses (pathToInode_valid cfg careful _ s1 result ip rfl)).trans (.of_same same)⟩

/-! ## Processes -/

/-- The child gets copies of descriptors that refer to files of the table. -/
theorem forkFiles_upholds (q : ℕ) : ∀ n fd, Upholds [] (forkFiles q p n fd) fun _ => [] := by
  intro n
  induction n with
  | zero => exact fun _ => .pure rfl
  | succ n ih =>
    intro fd s settled
    simp only [forkFiles, getProc, Returns.bind_iff, Returns.get_iff, Returns.pure_iff]
    split
    · exact ih _ s settled
    · rename_i f opened
      obtain ⟨inside, moded⟩ := settled.opened q fd f opened
      simp only [Returns.bind_iff]
      refine (fileDup_upholds f inside settled).mono fun r s1 result => ?_
      obtain ⟨⟨after, same⟩, copy, kept⟩ := result
      refine (setOpenFile_settled after bound _ ?_).mono fun _ s2 result => ?_
      · rintro _ ⟨⟩
        rw [copy]
        exact ⟨inside, kept moded⟩
      · obtain ⟨after', same'⟩ := result
        refine (ih _ s2 after').mono fun _ s3 result => ?_
        obtain ⟨after'', same''⟩ := result
        exact ⟨after'', same''.trans (same'.trans same)⟩

omit bound in
private theorem procFork_upholds (p : ℕ) : Upholds [] (procFork p) fun _ => [] := by
  intro s settled
  rw [procFork, Returns.bind_iff, Returns.get_iff]
  split
  · rw [Returns.pure_iff]
    exact ⟨settled, rfl⟩
  · rename_i child found
    have inside : child < nProc := List.mem_range.mp (List.mem_of_find?_eq_some found)
    have run : Upholds [] (do
        updateProc child fun proc => { proc with state := .running, parent := some p }
        pure (some child)) fun _ => [] := by
      refine .via (fun _ => []) (fun s settled => ?_) fun _ => .pure rfl
      rw [updateProc, Returns.modify_iff]
      exact ⟨settled.setProc inside (fun _ => le_refl _) (settled.opened child), rfl⟩
    have files : Upholds [] (do
        forkFiles p child nOpenFile 0
        updateProc child fun proc => { proc with state := .running, parent := some p }
        pure (some child)) fun _ => [] :=
      .bind (forkFiles_upholds inside p _ _) fun _ => run
    have reset : Settled (s.setProc child ⟨.unused, none, none, fun _ => none⟩) [] :=
      settled.setProc inside (fun _ => by simp [slotRefs]) (by simp)
    rw [Returns.bind_iff, updateProc, Returns.modify_iff]
    split
    · exact files _ reset
    · rename_i i _
      have dup : Upholds [] (inodeDup i) fun j => [j] := .of_trades [] (inodeDup_trades i)
      rw [Returns.bind_iff]
      refine (dup _ reset).mono fun j s1 result => ?_
      obtain ⟨held, same⟩ := result
      rw [Returns.bind_iff]
      refine (setCwd_settled held inside).mono fun _ s2 result => ?_
      obtain ⟨after, same'⟩ := result
      refine (files s2 after).mono fun _ s3 result => ?_
      obtain ⟨after', same''⟩ := result
      exact ⟨after', same''.trans (same'.trans same)⟩

omit bound in
private theorem procExit_upholds (p : ℕ) : Upholds [] (procExit p) fun _ => [] := by
  refine .ite (.throw _) fun s settled => ?_
  rw [Returns.modify_iff]
  refine ⟨settled.setProcs (fun q => ?_) (fun q => ?_) fun q => ?_, rfl⟩
  · dsimp only
    split_ifs <;> rfl
  · dsimp only
    split_ifs <;> rfl
  · dsimp only
    split_ifs <;> simp

private theorem closeFiles_upholds : ∀ n fd, Upholds [] (closeFiles cfg p n fd) fun _ => [] := by
  intro n
  induction n with
  | zero => exact fun _ => .pure rfl
  | succ n ih =>
    intro fd s settled
    simp only [closeFiles, getProc, Returns.bind_iff, Returns.get_iff, Returns.pure_iff]
    split
    · exact ih _ s settled
    · rename_i f opened
      obtain ⟨inside, -⟩ := settled.opened p fd f opened
      simp only [Returns.bind_iff]
      refine (fileClose_upholds cfg inside s settled).mono fun _ s1 result => ?_
      obtain ⟨after, same⟩ := result
      have empty : ∀ g, none = some g → g < nFile ∧ (s1.fileTable g).Moded := by simp
      refine (setOpenFile_settled after bound _ empty).mono fun _ s2 result => ?_
      obtain ⟨after', same'⟩ := result
      refine (ih _ s2 after').mono fun _ s3 result => ?_
      obtain ⟨after'', same''⟩ := result
      exact ⟨after'', same''.trans (same'.trans same)⟩

private theorem procFree_upholds : Upholds [] (procFree cfg p) fun _ => [] := by
  intro s settled
  have rest : Upholds [] (do
      closeFiles cfg p nOpenFile 0
      updateProc p fun proc => { proc with state := .unused, parent := none }) fun _ => [] := by
    refine .bind (closeFiles_upholds cfg bound _ _) fun _ s settled => ?_
    rw [updateProc, Returns.modify_iff]
    exact ⟨settled.setProc bound (fun _ => le_refl _) (settled.opened p), rfl⟩
  simp only [procFree, getProc, Returns.bind_iff, Returns.get_iff, Returns.pure_iff]
  split
  · simpa only [Returns.bind_iff] using rest s settled
  · rename_i i cwd
    simp only [Returns.bind_iff]
    refine (inodePut_trades cfg i s).mono fun _ s1 put => ?_
    rw [updateProc, Returns.modify_iff, put.procPool]
    have cleared : Settled (s1.setProc p { s.procPool p with cwd := none }) [] :=
      settled.replaceCwd bound cwd put fun _ => by simp
    have after := rest _ cleared
    rw [Returns.bind_iff] at after
    refine after.mono fun _ s2 last => last.mono fun _ s3 result => ?_
    obtain ⟨after', same⟩ := result
    refine ⟨after', ?_⟩
    exact same.trans put.uses

omit bound in
private theorem procWait_upholds (p : ℕ) : Upholds [] (procWait cfg p) fun _ => [] := by
  refine .get_bind fun s _ => ?_
  split
  · rename_i q found
    have inside : q < nProc := List.mem_range.mp (List.mem_of_find?_eq_some found)
    exact .bind (procFree_upholds cfg inside) fun _ => .pure rfl
  · exact .ite (.throw _) (.pure rfl)

omit bound in
private theorem enterRoot_upholds : Upholds [] (enterRoot cfg) fun _ => [] := by
  refine .bind (.of_trades [] (inodeGet_trades cfg rootInode)) fun root s settled => ?_
  exact setCwd_settled settled (by decide)

omit bound in
private theorem openStandard_settled (fd : ℕ) (name : List U8) (mode : U32) (junk : Bytes) {s : FsState}
    (settled : Settled s []) : Returns (openStandard cfg fd name mode junk) s fun _ s' =>
      Settled s' [] ∧ (PathLoaded cfg s 0 (devPath name) → UsesLoaded s s') := by
  rw [openStandard, Returns.bind_iff]
  refine (fileOpen_settled cfg 0 (devPath name) mode junk settled).mono
    fun r s1 ⟨after, file, uses⟩ => ?_
  exact (setOpenFile_settled after (by decide) fd file).mono fun _ s2 ⟨after', same⟩ =>
    ⟨after', fun careful => (uses (Or.inr careful)).trans (.of_same same)⟩

/-- The standard files lead to loaded inodes, one after the other. -/
def StandardLoaded (s : FsState) (junk : Bytes) : Prop :=
  Returns (enterRoot cfg) s fun _ s1 => PathLoaded cfg s1 0 (devPath stdinName) ∧
    Returns (openStandard cfg 0 stdinName openRead junk) s1 fun _ s2 =>
      PathLoaded cfg s2 0 (devPath stdoutName) ∧
        Returns (openStandard cfg 1 stdoutName openWrite junk) s2 fun _ s3 =>
          PathLoaded cfg s3 0 (devPath stderrName)

omit bound in
instance (s : FsState) (junk : Bytes) : Decidable (StandardLoaded cfg s junk) :=
  by delta StandardLoaded; infer_instance

omit bound in
private theorem procEntryPoint_settled (junk : Bytes) {s : FsState} (settled : Settled s []) :
    Returns (procEntryPoint cfg junk) s fun _ s' => Settled s' [] ∧
      (StandardLoaded cfg s junk → UsesLoaded s s') := by
  rw [procEntryPoint, Returns.bind_iff]
  intro _ s1 first
  obtain ⟨after1, same⟩ := enterRoot_upholds cfg s settled _ s1 first
  rw [Returns.bind_iff]
  intro _ s2 second
  obtain ⟨after2, uses2⟩ := openStandard_settled cfg 0 stdinName openRead junk after1 _ s2 second
  rw [Returns.bind_iff]
  intro _ s3 third
  obtain ⟨after3, uses3⟩ := openStandard_settled cfg 1 stdoutName openWrite junk after2 _ s3 third
  refine (openStandard_settled cfg 2 stderrName openWrite junk after3).mono
    fun _ s4 ⟨after4, uses4⟩ => ⟨after4, fun careful => ?_⟩
  obtain ⟨stdin, rest⟩ := careful _ s1 first
  obtain ⟨stdout, rest⟩ := rest _ s2 second
  have stderr := rest _ s3 third
  exact (((UsesLoaded.of_same same).trans (uses2 stdin)).trans (uses3 stdout)).trans (uses4 stderr)

end Fs

/-! ## Runs -/

/-- What a call depends on if every cached record it looks at is to be loaded: the last `inode_get` for its
path finds the inode loaded, or the file it uses was opened on such an inode. -/
def HandedLoaded (cfg : FsConfig) (s : FsState) : ℕ × Call → Prop
  | (_, .entryPoint junk) => Fs.StandardLoaded cfg s junk
  | (p, .open path mode _) => mode &&& openCreate ≠ 0 ∨ Fs.PathLoaded cfg s p path
  | (p, .exec path) => Fs.PathLoaded cfg s p path
  | (p, .chdir path) => Fs.PathLoaded cfg s p path
  | (p, .link oldPath _ _) => Fs.PathLoaded cfg s p oldPath
  | (p, .read fd _ _) => ∀ f ∈ Fs.openedFile (s.procPool p) fd,
      (s.fileTable f).readable = true → (s.fileTable f).loaded = true
  | (p, .write fd _ _) => ∀ f ∈ Fs.openedFile (s.procPool p) fd,
      (s.fileTable f).writable = true → (s.fileTable f).loaded = true
  | (p, .getDentries fd _) => ∀ f ∈ Fs.openedFile (s.procPool p) fd, (s.fileTable f).loaded = true
  | _ => True

instance (cfg : FsConfig) (s : FsState) (a : ℕ × Call) : Decidable (HandedLoaded cfg s a) := by
  obtain ⟨p, call⟩ := a
  cases call <;> dsimp only [HandedLoaded] <;> infer_instance

variable {cfg : FsConfig} {s s' : FsState}

/-- One call keeps what holds between calls. -/
theorem call_settled (settled : Settled s []) {a : ℕ × Call} (step : FsStep cfg s a s') :
    Settled s' [] ∧ (HandedLoaded cfg s a → UsesLoaded s s') := by
  obtain ⟨p, call⟩ := a
  obtain ⟨running, result⟩ := step
  have bound := settled.running p running
  have silent : ∀ {α : Type} {x : FsM α}, Upholds [] x (fun _ => []) → discard x s = .ok ⟨⟩ s' →
      Settled s' [] ∧ (True → UsesLoaded s s') := by
    intro α x upholds result
    have after : Returns (discard x) s fun _ s' => Settled s' [] ∧ s'.uses = s.uses :=
      Returns.discard_iff.mpr (upholds s settled)
    obtain ⟨after, same⟩ := after _ s' result
    exact ⟨after, fun _ => .of_same same⟩
  have looks : ∀ {α : Type} {x : FsM α} {c : Prop}, (Returns x s fun _ s' => Settled s' [] ∧
      (c → UsesLoaded s s')) → discard x s = .ok ⟨⟩ s' → Settled s' [] ∧ (c → UsesLoaded s s') := by
    intro α x c returns result
    have after : Returns (discard x) s fun _ s' => Settled s' [] ∧ (c → UsesLoaded s s') :=
      Returns.discard_iff.mpr returns
    exact after _ s' result
  cases call with
  | entryPoint junk => exact Fs.procEntryPoint_settled cfg junk settled _ s' result
  | fork => exact silent (Fs.procFork_upholds p) result
  | exit =>
    obtain ⟨after, same⟩ := Fs.procExit_upholds p s settled _ s' result
    exact ⟨after, fun _ => .of_same same⟩
  | wait => exact silent (Fs.procWait_upholds cfg p) result
  | exec path => exact looks (Fs.procExec_settled cfg path settled) result
  | «open» path mode junk => exact looks (Fs.sysOpen_settled cfg bound path mode junk settled) result
  | close fd => exact silent (Fs.sysClose_upholds cfg bound fd) result
  | read fd len typed => exact looks (Fs.sysRead_settled cfg fd len typed settled) result
  | write fd len src => exact looks (Fs.sysWrite_settled cfg fd len src settled) result
  | lseek fd offset flag => exact silent (Fs.sysLseek_upholds fd offset flag) result
  | dup fd => exact silent (Fs.sysDup_upholds bound fd) result
  | fstat fd => exact silent (Fs.sysFstat_upholds fd) result
  | getDentries fd len => exact looks (Fs.sysGetDentries_settled cfg fd len settled) result
  | mkdir path junk => exact silent (Fs.sysMkdir_upholds cfg path junk) result
  | chdir path => exact looks (Fs.sysChdir_settled cfg bound path settled) result
  | printCwd junk => exact silent (Fs.sysPrintCwd_upholds cfg junk) result
  | link oldPath newPath junk => exact looks (Fs.pathLink_settled cfg oldPath newPath junk settled) result
  | unlink path junk =>
    exact silent (Upholds.of_trades [] (Fs.pathUnlink_trades cfg p path junk)) result

/-- What holds between calls holds in every state that calls reach. -/
theorem run_settled {disk : Disk} {calls : List (ℕ × Call)}
    (run : Run (FsStep cfg) (FsState.init disk) calls s) : Settled s [] :=
  run.invariant (P := fun s => Settled s []) (fun _ _ _ step settled => (call_settled settled step).1) (.init disk)

end LabKernel
