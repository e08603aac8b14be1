import LabKernel.Fs.Dentry
import LabKernel.Fs.InodeData

/-! # References to cached inodes

Every function that works on cached inodes takes some references to slots and comes back with
others: `inode_get` produces one, `inode_put` consumes one, a path walk trades the directory it
starts from for the inode it finds. Whatever a function does, it leaves every slot alone that
someone else refers to: the slot keeps its inode number, and its record stays loaded.
-/

namespace LabKernel

/-- The record is that of the slot's own inode: the one that `inode_rw` last saw in that inode's place
on the disk, up to blocks that were attached since. -/
def Inode.FromDisk (ip : Inode) : Prop :=
  ∃ record, ip.source = some (ip.inodeNum, record) ∧ ip.diskInfo = { record with index := ip.diskInfo.index }

/-- If the record is marked loaded, it is the record of the slot's own inode. -/
def Inode.Genuine (ip : Inode) : Prop := ip.validInfo = true → ip.FromDisk

/-- What happens to the cache when the references `given` are turned into `taken`. -/
structure Exchange (s : FsState) (given : List ℕ) (s' : FsState) (taken : List ℕ) : Prop where
  fileTable : s'.fileTable = s.fileTable
  procPool : s'.procPool = s.procPool
  uses : s'.uses = s.uses
  ref : ∀ i, given.count i ≤ (s.inodeCache i).ref →
    (s.inodeCache i).ref + taken.count i = (s'.inodeCache i).ref + given.count i
  kept : ∀ i, given.count i < (s.inodeCache i).ref →
    (s'.inodeCache i).inodeNum = (s.inodeCache i).inodeNum ∧
      ((s.inodeCache i).validInfo = true → (s'.inodeCache i).validInfo = true)
  genuine : (∀ i, (s.inodeCache i).Genuine) → ∀ i, (s'.inodeCache i).Genuine

namespace Exchange

variable {s s' s'' : FsState} {given middle taken : List ℕ}

theorem refl (s : FsState) (given : List ℕ) : Exchange s given s given :=
  ⟨rfl, rfl, rfl, fun _ _ => rfl, fun _ _ => ⟨rfl, id⟩, id⟩

theorem trans (first : Exchange s given s' middle) (second : Exchange s' middle s'' taken) :
    Exchange s given s'' taken where
  fileTable := second.fileTable.trans first.fileTable
  procPool := second.procPool.trans first.procPool
  uses := second.uses.trans first.uses
  ref i enough := by
    have left := first.ref i enough
    have right := second.ref i (by omega)
    omega
  kept i other := by
    have left := first.ref i (by omega)
    obtain ⟨num, valid⟩ := first.kept i other
    obtain ⟨num', valid'⟩ := second.kept i (by omega)
    exact ⟨num'.trans num, fun loaded => valid' (valid loaded)⟩
  genuine all := second.genuine (first.genuine all)

/-- References that are not touched stay. -/
theorem frame (more : List ℕ) (exchange : Exchange s given s' taken) :
    Exchange s (more ++ given) s' (more ++ taken) where
  fileTable := exchange.fileTable
  procPool := exchange.procPool
  uses := exchange.uses
  ref i enough := by
    simp only [List.count_append] at enough ⊢
    have ref := exchange.ref i (by omega)
    omega
  kept i other := exchange.kept i (by
    simp only [List.count_append] at other
    omega)
  genuine := exchange.genuine

/-- The same references more may go in and come out. -/
theorem weaken {given' taken' : List ℕ} (exchange : Exchange s given s' taken)
    (more : ∀ i, given.count i ≤ given'.count i)
    (both : ∀ i, taken'.count i + given.count i = taken.count i + given'.count i) :
    Exchange s given' s' taken' where
  fileTable := exchange.fileTable
  procPool := exchange.procPool
  uses := exchange.uses
  ref i enough := by
    have more := more i
    have ref := exchange.ref i (by omega)
    have both := both i
    omega
  kept i other := exchange.kept i (lt_of_le_of_lt (more i) other)
  genuine := exchange.genuine

/-- A step that changes one slot and the disk. -/
theorem of_setInode {i : ℕ} (ip : Inode) (d : Disk)
    (others : ∀ j, j ≠ i → taken.count j = given.count j)
    (ref : given.count i ≤ (s.inodeCache i).ref →
      (s.inodeCache i).ref + taken.count i = ip.ref + given.count i)
    (kept : given.count i < (s.inodeCache i).ref → ip.inodeNum = (s.inodeCache i).inodeNum ∧
      ((s.inodeCache i).validInfo = true → ip.validInfo = true))
    (genuine : (s.inodeCache i).Genuine → ip.Genuine) :
    Exchange s given ((s.setDisk d).setInode i ip) taken where
  fileTable := rfl
  procPool := rfl
  uses := rfl
  ref j enough := by
    by_cases other : j = i
    · subst other
      simpa using ref enough
    · rw [FsState.setInode_other _ _ _ other, others j other]
      rfl
  kept j held := by
    by_cases other : j = i
    · subst other
      simpa using kept held
    · rw [FsState.setInode_other _ _ _ other]
      exact ⟨rfl, id⟩
  genuine all j := by
    by_cases other : j = i
    · subst other
      simpa using genuine (all j)
    · rw [FsState.setInode_other _ _ _ other]
      exact all j

private theorem of_setDisk (s : FsState) (d : Disk) (given : List ℕ) :
    Exchange s given (s.setDisk d) given :=
  ⟨rfl, rfl, rfl, fun _ _ => rfl, fun _ _ => ⟨rfl, id⟩, id⟩

end Exchange

/-- The program turns the references `given` into `taken`. -/
def Trades {α : Type} (given : List ℕ) (x : FsM α) (taken : α → List ℕ) : Prop :=
  ∀ s, Returns x s fun a s' => Exchange s given s' (taken a)

namespace Trades

variable {α β : Type} {given : List ℕ} {x : FsM α} {taken middle : α → List ℕ}

theorem pure {a : α} (same : given = taken a) : Trades given (pure a : FsM α) taken := by
  intro s
  rw [Returns.pure_iff, ← same]
  exact .refl s _

theorem throw (e : Fault) : Trades given (throw e : FsM α) taken := by
  intro s
  simp

theorem bind {f : α → FsM β} {taken : β → List ℕ} (first : Trades given x middle)
    (next : ∀ a, Trades (middle a) (f a) taken) : Trades given (x >>= f) taken := by
  intro s
  rw [Returns.bind_iff]
  refine (first s).mono fun a s' left => (next a s').mono fun b s'' right => left.trans right

/-- Composition through a list of references given by name. -/
theorem via {f : α → FsM β} {taken : β → List ℕ} (middle : α → List ℕ)
    (first : Trades given x middle) (next : ∀ a, Trades (middle a) (f a) taken) :
    Trades given (x >>= f) taken := first.bind next

/-- Reading the state trades nothing. -/
theorem get_bind {f : FsState → FsM β} {taken : β → List ℕ}
    (next : ∀ s, Trades given (f s) taken) : Trades given (get >>= f) taken := by
  intro s
  rw [Returns.bind_iff, Returns.get_iff]
  exact next s s

theorem frame (more : List ℕ) (trades : Trades given x taken) :
    Trades (more ++ given) x fun a => more ++ taken a :=
  fun s => (trades s).mono fun _ _ exchange => exchange.frame more

theorem weaken {given' : List ℕ} {taken' : α → List ℕ} (trades : Trades given x taken)
    (more : ∀ i, given.count i ≤ given'.count i)
    (both : ∀ a i, (taken' a).count i + given.count i = (taken a).count i + given'.count i) :
    Trades given' x taken' :=
  fun s => (trades s).mono fun a _ exchange => exchange.weaken more (both a)

/-- A program that trades nothing leaves any references as they are. -/
theorem idle {given : List ℕ} (trades : Trades [] x fun _ => []) : Trades given x fun _ => given :=
  trades.weaken (fun _ => Nat.zero_le _) fun _ i => by simp

/-- A change of one slot. -/
theorem of_update {i : ℕ} {f : Inode → Inode} {given taken : List ℕ}
    (others : ∀ j, j ≠ i → taken.count j = given.count j)
    (ref : ∀ ip : Inode, given.count i ≤ ip.ref →
      ip.ref + taken.count i = (f ip).ref + given.count i)
    (kept : ∀ ip : Inode, given.count i < ip.ref → (f ip).inodeNum = ip.inodeNum ∧
      (ip.validInfo = true → (f ip).validInfo = true))
    (genuine : ∀ ip : Inode, ip.Genuine → (f ip).Genuine) :
    Trades given (Fs.updateInode i f) fun _ => taken := by
  intro s
  rw [Fs.updateInode, Returns.modify_iff]
  exact .of_setInode (f (s.inodeCache i)) s.disk others (ref _) (kept _) (genuine _)

theorem ite {c : Prop} [Decidable c] {y : FsM α} (yes : Trades given x taken)
    (no : Trades given y taken) : Trades given (if c then x else y) taken := by
  split
  · exact yes
  · exact no

end Trades

namespace Fs

variable (cfg : FsConfig) (i : ℕ)

/-! ## The inode cache -/

theorem sleeplockAcquire_trades : Trades [] (sleeplockAcquire i) fun _ => [] := by
  refine .get_bind fun s => .ite (.throw _) ?_
  exact .of_update (fun _ _ => rfl) (fun _ _ => rfl) (fun _ _ => ⟨rfl, id⟩) fun _ => id

theorem sleeplockRelease_trades : Trades [] (sleeplockRelease i) fun _ => [] :=
  .of_update (fun _ _ => rfl) (fun _ _ => rfl) (fun _ _ => ⟨rfl, id⟩) fun _ => id

private theorem inodeRwRead_trades : Trades [] (inodeRwRead cfg i) fun _ => [] := by
  intro s
  rw [inodeRwRead, Returns.modify_iff]
  exact .of_setInode _ s.disk (fun _ _ => rfl) (fun _ => rfl) (fun _ => ⟨rfl, fun _ => rfl⟩)
    fun _ _ => ⟨_, rfl, rfl⟩

theorem inodeLock_trades : Trades [] (inodeLock cfg i) fun _ => [] := by
  refine .get_bind fun s => .ite (.throw _) (.bind (sleeplockAcquire_trades i) fun _ => ?_)
  exact .get_bind fun s => .ite (inodeRwRead_trades cfg i) (.pure rfl)

theorem inodeUnlock_trades : Trades [] (inodeUnlock i) fun _ => [] :=
  .get_bind fun _ => .ite (.throw _) (sleeplockRelease_trades i)

/-- A locked inode is loaded. -/
theorem inodeLock_valid (s : FsState) :
    Returns (inodeLock cfg i) s fun _ s' => (s'.inodeCache i).validInfo = true := by
  simp only [inodeLock, sleeplockAcquire, updateInode, inodeRwRead, Returns.bind_iff, Returns.get_iff]
  refine .ite (fun _ => by simp) fun _ => ?_
  simp only [Returns.bind_iff, Returns.get_iff]
  refine .ite (fun _ => by simp) fun _ => ?_
  simp only [Returns.modify_iff]
  refine .ite (fun _ => by simp) fun loaded => ?_
  simpa using loaded

theorem cachedSlot_spec {s : FsState} {inodeNum : U32} {i : ℕ}
    (found : cachedSlot s inodeNum = some i) :
    (s.inodeCache i).inodeNum = inodeNum ∧ (s.inodeCache i).validInfo = true := by
  have hit := List.find?_some found
  simpa using hit

theorem freeSlot_spec {s : FsState} {i : ℕ} (found : freeSlot s = some i) :
    (s.inodeCache i).ref = 0 := by
  have free := List.find?_some found
  simpa using free

theorem inodeGet_trades (inodeNum : U32) : Trades [] (inodeGet cfg inodeNum) fun i => [i] := by
  intro s
  rw [inodeGet, Returns.bind_iff, Returns.get_iff]
  split
  · rename_i i found
    rw [Returns.bind_iff, updateInode, Returns.modify_iff, Returns.pure_iff]
    exact .of_setInode _ s.disk (fun j other => by simp [other.symm]) (by simp)
      (fun _ => ⟨rfl, id⟩) id
  · split
    · simp
    · rename_i i found
      have free := freeSlot_spec found
      have taken : Exchange s [] (s.setInode i { s.inodeCache i with
          inodeNum := inodeNum, ref := 1, validInfo := false }) [i] :=
        .of_setInode _ s.disk (fun j other => by simp [other.symm]) (by simp [free])
          (fun held => by simp [free] at held) (fun _ loaded => by simp at loaded)
      rw [Returns.bind_iff, updateInode, Returns.modify_iff]
      refine .ite (fun _ => ?_) fun _ => ?_
      · have loaded : Trades [i] (do inodeLock cfg i; inodeUnlock i; pure i) fun i => [i] :=
          .bind (.idle (inodeLock_trades cfg i)) fun _ => .bind (.idle (inodeUnlock_trades i)) fun _ =>
            .pure rfl
        exact (loaded _).mono fun _ _ exchange => taken.trans exchange
      · rw [Returns.pure_iff]
        exact taken

theorem inodeDup_trades : Trades [] (inodeDup i) fun i => [i] := by
  refine .via (fun _ => [i]) (.of_update ?_ ?_ ?_ fun _ => id) fun _ =>
    .pure rfl
  · intro j other
    simp [other.symm]
  · intro ip
    simp
  · exact fun _ _ => ⟨rfl, id⟩

theorem inodePut_trades : Trades [i] (inodePut cfg i) fun _ => [] := by
  intro s
  rw [inodePut, Returns.bind_iff, Returns.get_iff]
  refine .ite (fun last => ?_) fun _ => ?_
  · simp only [inodeLock, sleeplockAcquire, updateInode, inodeRwRead, inodeDelete, inodeUnlock,
      sleeplockRelease, Returns.bind_iff, Returns.get_iff]
    refine .ite (fun _ => by simp) fun _ => ?_
    simp only [Returns.bind_iff, Returns.get_iff]
    refine .ite (fun _ => by simp) fun _ => ?_
    simp only [FsState.setInode_same, last, Bool.true_eq_false, ↓reduceIte, Returns.pure_iff,
      Returns.modify_iff]
    refine .ite (fun _ => by simp) fun _ => ?_
    simp only [Returns.modify_iff, FsState.setInode_setDisk, FsState.setInode_setInode,
      FsState.setInode_same]
    exact .of_setInode _ _ (fun j other => by simp [other.symm]) (by simp [last]) (by simp [last])
      fun _ loaded => by simp at loaded
  · rw [updateInode, Returns.modify_iff]
    exact .of_setInode _ s.disk (fun j other => by simp [other.symm]) (by simp; omega)
      (fun _ => ⟨rfl, id⟩) id

/-- A read changes the index table of the record at most. -/
theorem inodeReadData_record (sb : SuperBlock) (info : InodeDisk) (offset len : U32) (dst : Bytes) (d : Disk) :
    let r := LabKernel.inodeReadData sb info offset len dst d
    r.2.1 = { info with index := r.2.1.index } := by
  unfold LabKernel.inodeReadData
  dsimp only
  split <;> rfl

theorem inodeReadData_trades (offset len : U32) (dst : Bytes) :
    Trades [] (inodeReadData cfg i offset len dst) fun _ => [] := by
  intro s
  rw [inodeReadData, Returns.bind_iff, Returns.get_iff]
  simp only [Returns.bind_iff, Returns.set_iff, Returns.pure_iff]
  refine .of_setInode _ _ (fun _ _ => rfl) (fun _ => rfl) (fun _ => ⟨rfl, id⟩) fun genuine loaded => ?_
  obtain ⟨record, source, same⟩ := genuine loaded
  refine ⟨record, source, ?_⟩
  have read := inodeReadData_record cfg.sb (s.inodeCache i).diskInfo offset len dst s.disk
  dsimp only at read ⊢
  rw [same] at read
  rw [same]
  exact read

/-- A write that leaves the size as it is changes the index table at most, and a write of a file that grows
stores the record. -/
theorem inodeWriteData_record (sb : SuperBlock) (inodeNum : U32) (info : InodeDisk) (offset len : U32)
    (src : Bytes) (d : Disk) :
    let r := LabKernel.inodeWriteData sb inodeNum info offset len src d
    if r.2.1.size = info.size then r.2.1 = { info with index := r.2.1.index }
    else inodeRead sb inodeNum r.2.2 = r.2.1 := by
  unfold LabKernel.inodeWriteData
  dsimp only
  split
  · rename_i grown
    rw [if_neg]
    · exact inodeRead_inodeWrite ..
    · intro same
      dsimp only at same
      rw [same] at grown
      exact absurd grown.2 (BitVec.lt_irrefl _)
  · exact (if_pos rfl).mpr rfl

theorem inodeWriteData_trades (offset len : U32) (src : Bytes) :
    Trades [] (inodeWriteData cfg i offset len src) fun _ => [] := by
  intro s
  rw [inodeWriteData, Returns.bind_iff, Returns.get_iff]
  simp only [Returns.bind_iff, Returns.set_iff, Returns.pure_iff]
  refine .of_setInode _ _ (fun _ _ => rfl) (fun _ => rfl) (fun _ => ⟨rfl, id⟩) fun genuine loaded => ?_
  have wrote := inodeWriteData_record cfg.sb (s.inodeCache i).inodeNum (s.inodeCache i).diskInfo offset len
    src s.disk
  dsimp only at wrote
  split at wrote
  · rename_i same
    obtain ⟨record, source, kept⟩ := genuine loaded
    refine ⟨record, (if_pos same).trans source, ?_⟩
    rw [Inode.written_diskInfo]
    rw [kept] at wrote ⊢
    exact wrote
  · rename_i grown
    exact ⟨_, if_neg grown, by rw [Inode.written_diskInfo, wrote]⟩

/-- A changed record, written to its inode's place. -/
theorem storeRecord_trades (f : InodeDisk → InodeDisk) : Trades [] (do
    updateInode i fun r => { r with diskInfo := f r.diskInfo }
    inodeRwWrite cfg i) fun _ => [] := by
  intro s
  simp only [updateInode, inodeRwWrite, Returns.bind_iff, Returns.modify_iff,
    FsState.setInode_setDisk, FsState.setInode_setInode, FsState.setInode_same]
  exact .of_setInode _ _ (fun _ _ => rfl) (fun _ => rfl) (fun _ => ⟨rfl, id⟩) fun _ _ => ⟨_, rfl, by simp⟩

private theorem inodeCreate_trades (type major minor : U16) :
    Trades [] (inodeCreate cfg type major minor) fun r => r.toList := by
  intro s
  rw [inodeCreate, Returns.bind_iff, Returns.get_iff]
  simp only [Returns.bind_iff, Returns.set_iff]
  have alloc := Exchange.of_setDisk s (bitmapAllocInode cfg.sb s.disk).2 []
  have rest : Trades [] (if (bitmapAllocInode cfg.sb s.disk).1 = minusOne then pure none else do
      let i ← inodeGet cfg (bitmapAllocInode cfg.sb s.disk).1
      inodeLock cfg i
      updateInode i fun ip => { ip with diskInfo := newInode type major minor }
      inodeRwWrite cfg i
      inodeUnlock i
      pure (some i)) fun r => r.toList := by
    refine .ite (.pure rfl) (.bind (inodeGet_trades cfg _) fun i => ?_)
    refine .bind (.idle (inodeLock_trades cfg i)) fun _ => ?_
    have stored := storeRecord_trades cfg i fun _ => newInode type major minor
    have tail : Trades [i] (do inodeUnlock i; pure (some i)) fun r => r.toList :=
      .bind (.idle (inodeUnlock_trades i)) fun _ => .pure rfl
    have all := Trades.bind (.idle stored) fun _ => tail
    simpa only [bind_assoc] using all
  exact (rest _).mono fun _ _ exchange => alloc.trans exchange

/-! ## Directories -/

theorem diskInfo_trades : Trades [] (diskInfo i) fun _ => [] := .get_bind fun _ => .pure rfl

theorem readDentry_trades (off : U32) : Trades [] (readDentry cfg i off) fun _ => [] :=
  .bind (inodeReadData_trades cfg i _ _ _) fun _ => .pure rfl

theorem dentrySearch_trades (name : Bytes) : Trades [] (dentrySearch cfg i name) fun _ => [] := by
  have scan : ∀ fuel off, Trades [] (dentrySearchFrom cfg i name fuel off) fun _ => [] := by
    intro fuel
    induction fuel with
    | zero => exact fun _ => .throw _
    | succ fuel ih =>
      intro off
      refine .bind (diskInfo_trades i) fun _ => .ite (.bind (readDentry_trades cfg i off) fun r => ?_)
        (.pure rfl)
      cases r with
      | none => exact .pure rfl
      | some de => exact .ite (.pure rfl) (ih _)
  exact .bind (diskInfo_trades i) fun _ => .ite (.pure rfl) (scan _ _)

theorem dentryCreate_trades (inodeNum : U32) (name : Bytes) :
    Trades [] (dentryCreate cfg i inodeNum name) fun _ => [] := by
  have scan : ∀ fuel off emptyOff,
      Trades [] (dentryCreateScan cfg i name fuel off emptyOff) fun _ => [] := by
    intro fuel
    induction fuel with
    | zero => exact fun _ _ => .throw _
    | succ fuel ih =>
      intro off emptyOff
      refine .bind (diskInfo_trades i) fun _ => .ite (.bind (readDentry_trades cfg i off) fun r => ?_)
        (.pure rfl)
      cases r with
      | none => exact .pure rfl
      | some de => exact .ite (ih _ _) (.ite (.pure rfl) (ih _ _))
  refine .bind (diskInfo_trades i) fun _ => .ite (.pure rfl) (.bind (scan _ _ _) fun r => ?_)
  cases r with
  | none => exact .pure rfl
  | some emptyOff =>
    exact .bind (diskInfo_trades i) fun _ => .bind (inodeWriteData_trades cfg i _ _ _) fun _ => .pure rfl

private theorem dentryDelete_trades (name : Bytes) : Trades [] (dentryDelete cfg i name) fun _ => [] := by
  have scan : ∀ fuel off, Trades [] (dentryDeleteFrom cfg i name fuel off) fun _ => [] := by
    intro fuel
    induction fuel with
    | zero => exact fun _ => .throw _
    | succ fuel ih =>
      intro off
      refine .bind (diskInfo_trades i) fun _ => .ite (.bind (readDentry_trades cfg i off) fun r => ?_)
        (.pure rfl)
      cases r with
      | none => exact .pure rfl
      | some de =>
        exact .ite (.bind (inodeWriteData_trades cfg i _ _ _) fun _ => .pure rfl) (ih _)
  exact .bind (diskInfo_trades i) fun _ => .ite (.pure rfl) (scan _ _)

/-! ## Paths -/

theorem pathStart_trades (p : ℕ) (path : List U8) : Trades [] (pathStart cfg p path) fun i => [i] := by
  refine .ite (inodeGet_trades cfg _) (.get_bind fun s => ?_)
  split
  · exact .throw _
  · exact inodeDup_trades _

theorem pathDown_trades (name : Bytes) :
    Trades [i] (pathDown cfg i name) fun r => r.toList := by
  have give : Trades [i] (do inodePut cfg i; pure none) fun r : Option ℕ => r.toList :=
    .bind (inodePut_trades cfg i) fun _ => .pure rfl
  refine .bind (.idle (inodeLock_trades cfg i)) fun _ => .bind (.idle (diskInfo_trades i)) fun _ =>
    .ite (.bind (.idle (inodeUnlock_trades i)) fun _ => give) ?_
  refine .bind (.idle (dentrySearch_trades cfg i name)) fun _ =>
    .bind (.idle (inodeUnlock_trades i)) fun _ => .ite give ?_
  refine .bind ((inodeGet_trades cfg _).frame [i]) fun next => ?_
  refine .via (fun _ => [next]) ?_ fun _ => .pure rfl
  exact ((inodePut_trades cfg i).frame [next]).weaken
    (fun j => by simp [List.count_cons]; omega) fun _ j => by simp [List.count_cons]; omega

theorem pathToInode_trades (p : ℕ) (path : List U8) :
    Trades [] (pathToInode cfg p path) fun r => r.toList := by
  have walk : ∀ names i, Trades [i] (pathWalk cfg names i) fun r => r.toList := by
    intro names
    induction names with
    | nil => exact fun _ => .pure rfl
    | cons name rest ih =>
      intro i
      refine .bind (pathDown_trades cfg i _) fun r => ?_
      cases r with
      | none => exact .pure rfl
      | some next => exact ih next
  exact .bind (pathStart_trades cfg p path) fun i => walk _ i

/-- The slot that a lookup of a parent directory holds. -/
def parentSlot (r : Option (ℕ × Bytes)) : List ℕ := (r.map Prod.fst).toList

theorem pathToParentInode_trades (p : ℕ) (path : List U8) (name : Bytes) :
    Trades [] (pathToParentInode cfg p path name) parentSlot := by
  have walk : ∀ names i name, Trades [i] (parentWalk cfg names i name) parentSlot := by
    intro names
    induction names with
    | nil => exact fun _ _ => .pure rfl
    | cons element rest ih =>
      intro i name
      refine .bind (pathDown_trades cfg i _) fun r => ?_
      cases r with
      | none => exact .pure rfl
      | some next => exact ih next _
  refine .bind (pathStart_trades cfg p path) fun i => ?_
  split
  · exact .pure rfl
  · exact walk _ i _

theorem updateNlink_trades (f : U16 → U16) : Trades [] (updateNlink cfg i f) fun _ => [] :=
  storeRecord_trades cfg i fun info => { info with nlink := f info.nlink }

private theorem enterInode_trades (dp ip : ℕ) (type : U16) (name : Bytes) :
    Trades [dp] (enterInode cfg dp ip type name) fun _ => [] := by
  have finish : ∀ s : FsState, Trades [dp] (do
      let _ ← dentryCreate cfg dp (s.inodeCache ip).inodeNum name
      inodeUnlock ip
      inodeUnlock dp
      inodePut cfg dp) fun _ => [] := fun s =>
    .bind (.idle (dentryCreate_trades cfg dp _ _)) fun _ => .bind (.idle (inodeUnlock_trades ip))
      fun _ => .bind (.idle (inodeUnlock_trades dp)) fun _ => inodePut_trades cfg dp
  refine .bind (.idle (inodeLock_trades cfg ip)) fun _ =>
    .bind (.idle (updateNlink_trades cfg ip _)) fun _ => .get_bind fun s => .ite ?_ (finish s)
  exact .bind (.idle (dentryCreate_trades cfg ip _ _)) fun _ =>
    .bind (.idle (dentryCreate_trades cfg ip _ _)) fun _ =>
      .bind (.idle (updateNlink_trades cfg ip _)) fun _ => finish s

private theorem dropLink_trades (dp ip : ℕ) : Trades [] (dropLink cfg dp ip) fun _ => [] :=
  .bind (diskInfo_trades ip) fun _ => .ite (.bind (updateNlink_trades cfg ip _) fun _ =>
    .ite (updateNlink_trades cfg dp _) (.pure rfl)) (.pure rfl)

theorem pathCreateInode_trades (p : ℕ) (path : List U8) (type major minor : U16) (junk : Bytes) :
    Trades [] (pathCreateInode cfg p path type major minor junk) fun r => r.toList := by
  have give : ∀ dp, Trades [dp] (do inodeUnlock dp; inodePut cfg dp; pure none)
      fun r : Option ℕ => r.toList := fun dp =>
    .bind (.idle (inodeUnlock_trades dp)) fun _ => .bind (inodePut_trades cfg dp) fun _ => .pure rfl
  refine .bind (pathToParentInode_trades cfg p path junk) fun r => ?_
  match r with
  | none => exact .pure rfl
  | some (dp, name) =>
    refine .bind (.idle (inodeLock_trades cfg dp)) fun _ =>
      .bind (.idle (dentrySearch_trades cfg dp name)) fun _ => .ite (give dp) ?_
    refine .bind ((inodeCreate_trades cfg type major minor).frame [dp]) fun r => ?_
    match r with
    | none => exact give dp
    | some ip =>
      refine .via (fun _ => [ip]) ?_ fun _ => .pure rfl
      exact ((enterInode_trades cfg dp ip type name).frame [ip]).weaken
        (fun j => by simp [List.count_cons]; omega) fun _ j => by simp [List.count_cons]; omega

theorem pathUnlink_trades (p : ℕ) (path : List U8) (junk : Bytes) :
    Trades [] (pathUnlink cfg p path junk) fun _ => [] := by
  have give : ∀ dp, Trades [dp] (do inodeUnlock dp; inodePut cfg dp; pure minusOne) fun _ => [] :=
    fun dp => .bind (.idle (inodeUnlock_trades dp)) fun _ =>
      .bind (inodePut_trades cfg dp) fun _ => .pure rfl
  refine .bind (pathToParentInode_trades cfg p path junk) fun r => ?_
  match r with
  | none => exact .pure rfl
  | some (dp, name) =>
    refine .bind (.idle (inodeLock_trades cfg dp)) fun _ => .ite (give dp) ?_
    refine .bind (.idle (dentryDelete_trades cfg dp name)) fun _ => .ite (give dp) ?_
    refine .bind ((inodeGet_trades cfg _).frame [dp]) fun ip => ?_
    refine .bind (.idle (inodeLock_trades cfg ip)) fun _ => .bind (.idle (dropLink_trades cfg dp ip))
      fun _ => .bind (.idle (inodeUnlock_trades ip)) fun _ => ?_
    refine .bind ((inodePut_trades cfg ip).frame [dp]) fun _ => ?_
    exact .bind (.idle (inodeUnlock_trades dp)) fun _ => .bind (inodePut_trades cfg dp) fun _ => .pure rfl

/-- `inode_create` returns a slot whose record is loaded. -/
theorem inodeCreate_valid (type major minor : U16) (s : FsState) :
    Returns (inodeCreate cfg type major minor) s fun r s' =>
      ∀ i, r = some i → (s'.inodeCache i).validInfo = true := by
  rw [inodeCreate, Returns.bind_iff, Returns.get_iff]
  simp only [Returns.bind_iff, Returns.set_iff]
  refine .ite (fun _ => by simp) fun _ => ?_
  simp only [Returns.bind_iff]
  intro i s1 _
  refine (inodeLock_valid cfg i s1).mono fun _ s2 loaded => ?_
  simp only [updateInode, inodeRwWrite, inodeUnlock, sleeplockRelease, Returns.bind_iff,
    Returns.modify_iff, Returns.get_iff]
  refine .ite (fun _ => by simp) fun _ => ?_
  rw [Returns.modify_iff, Returns.pure_iff]
  rintro _ ⟨⟩
  simpa using loaded

/-- `path_create_inode` returns a slot whose record is loaded. -/
theorem pathCreateInode_valid (p : ℕ) (path : List U8) (type major minor : U16) (junk : Bytes)
    (s : FsState) : Returns (pathCreateInode cfg p path type major minor junk) s fun r s' =>
      ∀ i, r = some i → (s'.inodeCache i).validInfo = true := by
  rw [pathCreateInode, Returns.bind_iff]
  refine (pathToParentInode_trades cfg p path junk s).mono fun r s1 parent => ?_
  cases r with
  | none => simp
  | some r =>
    obtain ⟨dp, name⟩ := r
    simp only [Returns.bind_iff]
    have lock : Trades [dp] (inodeLock cfg dp) fun _ => [dp] := .idle (inodeLock_trades cfg dp)
    have search : Trades [dp] (dentrySearch cfg dp name) fun _ => [dp] :=
      .idle (dentrySearch_trades cfg dp name)
    refine (lock s1).mono fun _ s2 locked => (search s2).mono fun found s3 searched => ?_
    have before := (parent.trans locked).trans searched
    refine .ite (fun _ => ?_) fun _ => ?_
    · simp only [Returns.bind_iff, Returns.pure_iff]
      intro _ _ _ _ _ _ _ none
      cases none
    · rw [Returns.bind_iff]
      refine (((inodeCreate_trades cfg type major minor).frame [dp] s3).and
        (inodeCreate_valid cfg type major minor s3)).mono fun r s4 result => ?_
      obtain ⟨created, valid⟩ := result
      cases r with
      | none =>
        simp only [Returns.bind_iff, Returns.pure_iff]
        intro _ _ _ _ _ _ _ none
        cases none
      | some ip =>
        simp only [Returns.bind_iff, Returns.pure_iff]
        refine (enterInode_trades cfg dp ip type name s4).mono fun _ s5 entered => ?_
        rintro _ ⟨⟩
        -- the slot has a reference besides the one to the parent
        have refs := (before.trans created).ref ip
        refine (entered.kept ip ?_).2 (valid ip rfl)
        simp [List.count_cons] at refs ⊢
        omega

/-! ## The inode that a path names -/

/-- A step down up to its `inode_get`: the number that it gets, with the directory still held. -/
def nextNumber (i : ℕ) (name : Bytes) : FsM (Option U32) := do
  inodeLock cfg i
  let info ← diskInfo i
  if info.type ≠ inodeTypeDir then
    inodeUnlock i
    inodePut cfg i
    pure none
  else
    let nextInum ← dentrySearch cfg i name
    inodeUnlock i
    if nextInum = minusOne then
      inodePut cfg i
      pure none
    else pure (some nextInum)

private theorem pathDown_eq (name : Bytes) : pathDown cfg i name = (do
    match ← nextNumber cfg i name with
    | none => pure none
    | some n =>
      let next ← inodeGet cfg n
      inodePut cfg i
      pure (some next)) := by
  simp only [pathDown, nextNumber, bind_assoc]
  refine bind_congr fun _ => bind_congr fun info => ?_
  split
  · simp only [bind_assoc, pure_bind]
  · simp only [bind_assoc]
    refine bind_congr fun n => bind_congr fun _ => ?_
    split
    · simp only [bind_assoc, pure_bind]
    · simp only [pure_bind]

private theorem pathWalk_snoc (names : List (List U8)) (last : List U8) : pathWalk cfg (names ++ [last]) i = (do
    match ← pathWalk cfg names i with
    | none => pure none
    | some i => pathDown cfg i (setName (fun _ => 0) last)) := by
  induction names generalizing i with
  | nil =>
    simp only [List.nil_append, pathWalk, pure_bind]
    refine (bind_congr fun r => ?_).trans (bind_pure _)
    cases r <;> rfl
  | cons name rest ih =>
    simp only [List.cons_append, pathWalk, bind_assoc]
    refine bind_congr fun r => ?_
    cases r with
    | none => simp only [pure_bind]
    | some next => exact ih next

/-- `path_to_inode` up to its last `inode_get`: the number that it gets. -/
def pathNumber (p : ℕ) (path : List U8) : FsM (Option U32) :=
  match (elements path).getLast? with
  | none => pure (some rootInode)
  | some last => do
    let i ← pathStart cfg p path
    match ← pathWalk cfg (elements path).dropLast i with
    | none => pure none
    | some i => nextNumber cfg i (setName (fun _ => 0) last)

/-- The last `inode_get` of `path_to_inode` finds its inode in the cache, loaded; the path that stays in the
working directory finds that loaded. -/
def PathLoaded (s : FsState) (p : ℕ) (path : List U8) : Prop :=
  if elements path = [] ∧ path.head? ≠ some slash then
    ∀ c ∈ (s.procPool p).cwd, (s.inodeCache c).validInfo = true
  else Returns (pathNumber cfg p path) s fun r s' => ∀ n ∈ r, cachedSlot s' n ≠ none

instance (s : FsState) (p : ℕ) (path : List U8) : Decidable (PathLoaded cfg s p path) := by
  -- not through all numbers
  have (s' : FsState) (r : Option U32) : Decidable (∀ n ∈ r, cachedSlot s' n ≠ none) := Option.decidableForallMem r
  delta PathLoaded
  infer_instance

/-- An inode that is in the cache is got with its record loaded. -/
theorem inodeGet_valid {s : FsState} {inodeNum : U32} (cached : cachedSlot s inodeNum ≠ none) :
    Returns (inodeGet cfg inodeNum) s fun j s' => (s'.inodeCache j).validInfo = true ∧
      (s'.inodeCache j).ref = (s.inodeCache j).ref + 1 := by
  obtain ⟨j, found⟩ := Option.ne_none_iff_exists'.mp cached
  have valid := (cachedSlot_spec found).2
  simp only [inodeGet, found, updateInode, Returns.bind_iff, Returns.get_iff, Returns.modify_iff, Returns.pure_iff,
    FsState.setInode_same]
  exact ⟨valid, trivial⟩

/-- A step down that finds a number still holds the directory. -/
theorem nextNumber_held (name : Bytes) (s : FsState) :
    Returns (nextNumber cfg i name) s fun r s' => r ≠ none → 0 < (s'.inodeCache i).ref := by
  rw [nextNumber, Returns.bind_iff]
  intro _ s₁ _
  simp only [diskInfo, Returns.bind_iff, Returns.get_iff, Returns.pure_iff]
  refine .ite (fun _ => ?_) fun _ => ?_
  · simp only [Returns.bind_iff, Returns.pure_iff]
    exact fun _ _ _ _ _ _ some => absurd rfl some
  · simp only [Returns.bind_iff]
    intro n s₂ _
    simp only [inodeUnlock, sleeplockRelease, updateInode, Returns.bind_iff, Returns.get_iff]
    refine .ite (fun _ => by simp) fun held => ?_
    simp only [Returns.modify_iff]
    refine .ite (fun _ => ?_) fun _ => ?_
    · simp only [Returns.bind_iff, Returns.pure_iff]
      exact fun _ _ _ some => absurd rfl some
    · rw [Returns.pure_iff, FsState.setInode_same]
      dsimp only
      omega

/-- The inode that a path names is handed over loaded if the last `inode_get` finds it so. -/
theorem pathToInode_valid {p : ℕ} {path : List U8} {s : FsState} (loaded : PathLoaded cfg s p path) :
    Returns (pathToInode cfg p path) s fun r s' => ∀ i, r = some i → (s'.inodeCache i).validInfo = true := by
  rw [PathLoaded] at loaded
  rw [pathToInode]
  rcases List.eq_nil_or_concat' (elements path) with none | ⟨names, last, split⟩
  · rw [none, Returns.bind_iff, pathStart]
    simp only [pathWalk, Returns.pure_iff]
    refine .ite (fun absolute => ?_) fun relative => ?_
    · rw [if_neg fun start => start.2 absolute, pathNumber, none] at loaded
      have cached := (Returns.pure_iff.mp loaded) _ rfl
      exact (inodeGet_valid cfg cached).mono fun i s' got _ same => Option.some.inj same ▸ got.1
    · rw [if_pos ⟨none, relative⟩] at loaded
      rw [Returns.bind_iff, Returns.get_iff]
      split
      · simp
      · rename_i c cwd
        simp only [inodeDup, updateInode, Returns.bind_iff, Returns.modify_iff, Returns.pure_iff]
        rintro _ ⟨⟩
        rw [FsState.setInode_same]
        exact loaded c cwd
  · rw [if_neg fun start => List.append_ne_nil_of_right_ne_nil names (List.cons_ne_nil last []) (split ▸ start.1),
      pathNumber, split, List.getLast?_concat, List.dropLast_concat] at loaded
    rw [split, Returns.bind_iff]
    rw [Returns.bind_iff] at loaded
    intro i s₁ start
    have loaded := Returns.bind_iff.mp (loaded i s₁ start)
    rw [pathWalk_snoc, Returns.bind_iff]
    intro r s₂ walk
    have loaded := loaded r s₂ walk
    dsimp only at loaded
    cases r with
    | none => simp
    | some i =>
      dsimp only
      rw [pathDown_eq, Returns.bind_iff]
      refine (loaded.and (nextNumber_held cfg i _ s₂)).mono ?_
      rintro n s₃ ⟨cached, held⟩
      cases n with
      | none => simp
      | some n =>
        have held := held (Option.some_ne_none n)
        simp only [Returns.bind_iff, Returns.pure_iff]
        refine ((inodeGet_valid cfg (cached n rfl)).and (inodeGet_trades cfg n s₃)).mono ?_
        rintro j s₄ ⟨⟨valid, counted⟩, got⟩
        refine (inodePut_trades cfg i s₄).mono ?_
        intro _ s₅ put _ same
        cases same
        -- the slot has a reference besides the one to the directory
        refine (put.kept j ?_).2 valid
        by_cases same : j = i
        · rw [same] at counted ⊢
          rw [List.count_singleton_self]
          omega
        · rw [List.count_eq_zero.mpr (by simpa using same)]
          omega

end Fs

end LabKernel
