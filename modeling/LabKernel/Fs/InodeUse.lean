import LabKernel.Fs.Holding
import LabKernel.Lib.Counting
import LabKernel.Lib.Transition

/-! # Concurrent use of the inode cache

The processes run the functions of the inode layer and the directory searches side by side. Each
critical section of `lk_inode_cache`, each acquisition of a sleeplock, each load, deletion and
directory operation is one step; between the steps of a process the others run. The steps of
`inode_lock`, `inode_put` and `inode_create` add up to the functions as they are called one at a time.
-/

namespace LabKernel

namespace Fs

variable (cfg : FsConfig) (i : ℕ)

/-- The part of `inode_lock` before the record is looked at. -/
def lockSection : FsM Unit := do
  let s ← get
  if (s.inodeCache i).ref < 1 then throw (.panic "inode_lock")
  else sleeplockAcquire i

/-- The rest of `inode_lock`. -/
def loadSection : FsM Unit := do
  let s ← get
  if (s.inodeCache i).validInfo = false then inodeRwRead cfg i
  else pure ()

/-- The first critical section of `inode_put`: whether the inode is to be deleted. -/
def putSection : FsM Bool := do
  let s ← get
  let ip := s.inodeCache i
  if ip.ref = 1 ∧ ip.validInfo = true ∧ ip.diskInfo.nlink = 0 then pure true
  else
    updateInode i fun ip => { ip with ref := ip.ref - 1 }
    pure false

/-- The record of a deleted inode is no longer valid. -/
def invalidate : FsM Unit := updateInode i fun ip => { ip with validInfo := false }

/-- The second critical section of `inode_put`. -/
def dropSection : FsM Unit := updateInode i fun ip => { ip with ref := ip.ref - 1 }

/-- The bitmap search of `inode_create`: the number of the new inode, unless there is none left. -/
def allocSection : FsM U32 := do
  let s ← get
  let r := bitmapAllocInode cfg.sb s.disk
  set (s.setDisk r.2)
  pure r.1

/-- A new record, written to its place on disk. -/
def fillSection (info : InodeDisk) : FsM Unit := do
  updateInode i fun ip => { ip with diskInfo := info }
  inodeRwWrite cfg i

theorem inodeLock_sections : inodeLock cfg i = (do
    lockSection i
    loadSection cfg i) := by
  unfold inodeLock lockSection loadSection
  simp only [bind_assoc]
  congr 1
  funext s
  split
  · rfl
  · rfl

theorem inodePut_sections : inodePut cfg i = (do
    if ← putSection i then
      inodeLock cfg i
      inodeDelete cfg i
      invalidate i
      inodeUnlock i
      dropSection i) := by
  unfold inodePut putSection
  simp only [bind_assoc]
  congr 1
  funext s
  split
  · rfl
  · rfl

theorem inodeCreate_sections (type major minor : U16) : inodeCreate cfg type major minor = (do
    let inodeNum ← allocSection cfg
    if inodeNum = minusOne then pure none
    else
      let i ← inodeGet cfg inodeNum
      inodeLock cfg i
      fillSection cfg i (newInode type major minor)
      inodeUnlock i
      pure (some i)) := by
  simp only [inodeCreate, allocSection, fillSection, bind_assoc, pure_bind]

end Fs

/-- A step of a process inside one of the functions. -/
inductive InodeAct where
  | get (inodeNum : U32)
  | dup (i : ℕ)
  | lock (i : ℕ)
  | load (i : ℕ)
  | unlock (i : ℕ)
  | put (i : ℕ)
  | delete (i : ℕ)
  | invalidate (i : ℕ)
  | drop (i : ℕ)
  | alloc (type major minor : U16)
  | create (inodeNum : U32) (type major minor : U16)
  | fill (i : ℕ) (info : InodeDisk)
  | search (i : ℕ) (name : Bytes)
  | enter (i : ℕ) (inodeNum : U32) (name : Bytes)
  | remove (i : ℕ) (name : Bytes)

def InodeAct.slot : InodeAct → Option ℕ
  | .dup i | .lock i | .load i | .unlock i | .put i | .delete i | .invalidate i | .drop i | .fill i _
  | .search i _ | .enter i _ _ | .remove i _ => some i
  | .get _ | .alloc _ _ _ | .create _ _ _ _ => none

/-- What a process calls: a function, or an operation on a directory or record that it has locked.
`ignore` leaves the number that a directory search found unused. -/
inductive InodeCall where
  | get (inodeNum : U32)
  | dup (i : ℕ)
  | lock (i : ℕ)
  | unlock (i : ℕ)
  | put (i : ℕ)
  | create (type major minor : U16)
  | fill (i : ℕ) (info : InodeDisk)
  | search (i : ℕ) (name : Bytes)
  | enter (i : ℕ) (inodeNum : U32) (name : Bytes)
  | remove (i : ℕ) (name : Bytes)
  | ignore

/-- The first steps of a call; `inode_put` and `inode_create` find out about the others. -/
def InodeCall.steps : InodeCall → List InodeAct
  | .get inodeNum => [.get inodeNum]
  | .dup i => [.dup i]
  | .lock i => [.lock i, .load i]
  | .unlock i => [.unlock i]
  | .put i => [.put i]
  | .create type major minor => [.alloc type major minor]
  | .fill i info => [.fill i info]
  | .search i name => [.search i name]
  | .enter i inodeNum name => [.enter i inodeNum name]
  | .remove i name => [.remove i name]
  | .ignore => []

/-- The file system, the slots that each process refers to and those it has locked, the number that
its last directory search found, and the steps of its call that are left. -/
structure InodeUse where
  fs : FsState
  refs : Fin nProc → List ℕ
  locks : Fin nProc → List ℕ
  found : Fin nProc → Option U32
  todo : Fin nProc → List InodeAct

namespace InodeUse

def init (d : Disk) : InodeUse := ⟨.init d, fun _ => [], fun _ => [], fun _ => none, fun _ => []⟩

/-- Functions take slots that the process refers to; records and directories are worked on by
processes that have locked them. -/
def Allowed (refs locks : List ℕ) : InodeCall → Prop
  | .dup i | .lock i | .put i => i ∈ refs
  | .unlock i | .fill i _ | .search i _ | .enter i _ _ | .remove i _ => i ∈ refs ∧ i ∈ locks
  | .get _ | .create _ _ _ | .ignore => True

instance (refs locks : List ℕ) (call : InodeCall) : Decidable (Allowed refs locks call) := by
  cases call <;> unfold Allowed <;> infer_instance

def start (u : InodeUse) (p : Fin nProc) (call : InodeCall) : Option InodeUse :=
  if (u.todo p).isEmpty ∧ Allowed (u.refs p) (u.locks p) call then
    some { u with
      found := match call with
        | .ignore => Function.update u.found p none
        | _ => u.found
      todo := Function.update u.todo p call.steps }
  else none

section

variable (u : InodeUse) (p : Fin nProc)

/-- Run a part of a function, which leaves steps for later. -/
def goOn {α : Type} (x : FsM α) (f : α → InodeUse → InodeUse) (todo : α → List InodeAct) :
    Option InodeUse :=
  match x u.fs with
  | .ok a fs => some (f a { u with fs := fs, todo := Function.update u.todo p (todo a) })
  | .error _ _ => none

def gain (i : ℕ) (u : InodeUse) : InodeUse :=
  { u with refs := Function.update u.refs p (i :: u.refs p) }

def lose (i : ℕ) (u : InodeUse) : InodeUse :=
  { u with refs := Function.update u.refs p ((u.refs p).erase i) }

/-- The process knows a number from a directory, or none. -/
def find (n : Option U32) (u : InodeUse) : InodeUse :=
  { u with found := Function.update u.found p n }

def holding (locks : List ℕ) (u : InodeUse) : InodeUse :=
  { u with locks := Function.update u.locks p locks }

end

/-- A step of a process, with the rest of the list behind it. A step that panics, or waits for a
sleeplock, is not taken. -/
def act (sb : SuperBlock) (u : InodeUse) (p : Fin nProc) (rest : List InodeAct) :
    InodeAct → Option InodeUse
  | .get n =>
    u.goOn p (Fs.inodeGet ⟨sb, false⟩ n)
      (fun i u => (u.gain p i).find p (if u.found p = some n then none else u.found p)) fun _ => rest
  | .dup i => u.goOn p (Fs.inodeDup i) (fun i u => u.gain p i) fun _ => rest
  | .lock i => u.goOn p (Fs.lockSection i) (fun _ u => u.holding p (i :: u.locks p)) fun _ => rest
  | .load i => u.goOn p (Fs.loadSection ⟨sb, false⟩ i) (fun _ u => u) fun _ => rest
  | .unlock i =>
    if i ∈ u.locks p then
      u.goOn p (Fs.inodeUnlock i) (fun _ u => u.holding p ((u.locks p).erase i)) fun _ => rest
    else none
  | .put i => u.goOn p (Fs.putSection i) (fun last u => if last then u else u.lose p i) fun last =>
      if last then [.lock i, .load i, .delete i, .invalidate i, .unlock i, .drop i] else []
  | .delete i => u.goOn p (Fs.inodeDelete ⟨sb, false⟩ i) (fun _ u => u) fun _ => rest
  | .invalidate i => u.goOn p (Fs.invalidate i) (fun _ u => u) fun _ => rest
  | .drop i => u.goOn p (Fs.dropSection i) (fun _ u => u.lose p i) fun _ => []
  | .alloc type major minor =>
    u.goOn p (Fs.allocSection ⟨sb, false⟩) (fun _ u => u) fun n =>
      if n = minusOne then [] else [.create n type major minor]
  | .create n type major minor =>
    u.goOn p (Fs.inodeGet ⟨sb, false⟩ n) (fun i u => u.gain p i) fun i =>
      [.lock i, .load i, .fill i (newInode type major minor), .unlock i]
  | .fill i info => u.goOn p (Fs.fillSection ⟨sb, false⟩ i info) (fun _ u => u) fun _ => rest
  | .search i name =>
    u.goOn p (Fs.dentrySearch ⟨sb, false⟩ i name)
      (fun n u => u.find p (if n = minusOne then none else some n)) fun _ => rest
  | .enter i n name => u.goOn p (Fs.dentryCreate ⟨sb, false⟩ i n name) (fun _ u => u) fun _ => rest
  | .remove i name =>
    u.goOn p (Fs.dentryDelete ⟨sb, false⟩ i name)
      (fun n u => u.find p (if n = minusOne then none else some n)) fun _ => rest

def step (sb : SuperBlock) (u : InodeUse) (input : Fin nProc × Option InodeCall) : Option InodeUse :=
  match input.2 with
  | some call => u.start input.1 call
  | none =>
    match u.todo input.1 with
    | [] => none
    | a :: rest => u.act sb input.1 rest a

def Step (sb : SuperBlock) (u : InodeUse) (input : Fin nProc × Option InodeCall) (u' : InodeUse) :
    Prop := u.step sb input = some u'

end InodeUse

/-! ## What a step does to the slots -/

/-- What the uniqueness of slots is about. -/
@[ext]
structure SlotInfo where
  inodeNum : U32
  ref : ℕ
  validInfo : Bool

def FsState.slots (s : FsState) (i : ℕ) : SlotInfo :=
  ⟨(s.inodeCache i).inodeNum, (s.inodeCache i).ref, (s.inodeCache i).validInfo⟩

private theorem FsState.slots_setInode (s : FsState) (i : ℕ) (ip : Inode) :
    (s.setInode i ip).slots = Function.update s.slots i ⟨ip.inodeNum, ip.ref, ip.validInfo⟩ := by
  funext j
  rcases eq_or_ne j i with rfl | other
  · rw [Function.update_self, slots, setInode_same]
  · rw [Function.update_of_ne other, slots, setInode_other _ _ _ other, slots]

private theorem FsState.slots_setInode_same (s : FsState) (i : ℕ) (ip : Inode)
    (same : (⟨ip.inodeNum, ip.ref, ip.validInfo⟩ : SlotInfo) = s.slots i) :
    (s.setInode i ip).slots = s.slots := by
  rw [slots_setInode, same, Function.update_eq_self]

@[simp] theorem FsState.slots_setDisk (s : FsState) (d : Disk) : (s.setDisk d).slots = s.slots := rfl

/-- The program leaves the slots as they are. -/
def Keeps {α : Type} (x : FsM α) : Prop := ∀ s, Returns x s fun _ s' => s'.slots = s.slots

namespace Keeps

variable {α β : Type} {x : FsM α}

private theorem pure {a : α} : Keeps (pure a : FsM α) := by
  intro s
  rw [Returns.pure_iff]

private theorem throw (e : Fault) : Keeps (throw e : FsM α) := by
  intro s
  simp

private theorem bind {f : α → FsM β} (first : Keeps x) (next : ∀ a, Keeps (f a)) : Keeps (x >>= f) := by
  intro s
  rw [Returns.bind_iff]
  exact (first s).mono fun a s' left => (next a s').mono fun _ _ right => right.trans left

private theorem get_bind {f : FsState → FsM β} (next : ∀ s, Keeps (f s)) : Keeps (get >>= f) := by
  intro s
  rw [Returns.bind_iff, Returns.get_iff]
  exact next s s

private theorem ite {c : Prop} [Decidable c] {y : FsM α} (yes : Keeps x) (no : Keeps y) :
    Keeps (if c then x else y) := by
  split
  · exact yes
  · exact no

/-- A change of one slot that none of its fields in question takes part in. -/
theorem update {i : ℕ} {f : Inode → Inode} (num : ∀ ip, (f ip).inodeNum = ip.inodeNum)
    (ref : ∀ ip, (f ip).ref = ip.ref) (valid : ∀ ip, (f ip).validInfo = ip.validInfo) :
    Keeps (Fs.updateInode i f) := by
  intro s
  rw [Fs.updateInode, Returns.modify_iff]
  exact s.slots_setInode_same i _ (SlotInfo.ext (num _) (ref _) (valid _))

end Keeps

namespace Fs

variable (cfg : FsConfig) (i : ℕ)

private theorem lockSection_keeps : Keeps (lockSection i) := by
  refine .get_bind fun s => .ite (.throw _) (.get_bind fun s => .ite (.throw _) ?_)
  exact .update (fun _ => rfl) (fun _ => rfl) fun _ => rfl

private theorem inodeUnlock_keeps : Keeps (inodeUnlock i) :=
  .get_bind fun _ => .ite (.throw _) (.update (fun _ => rfl) (fun _ => rfl) fun _ => rfl)

private theorem inodeDelete_keeps : Keeps (inodeDelete cfg i) := by
  intro s
  rw [inodeDelete, Returns.modify_iff]
  exact FsState.slots_setInode_same _ i _ rfl

private theorem allocSection_keeps : Keeps (allocSection cfg) := by
  intro s
  rw [allocSection, Returns.bind_iff, Returns.get_iff]
  simp only [Returns.bind_iff, Returns.set_iff, Returns.pure_iff, FsState.slots_setDisk]

private theorem fillSection_keeps (info : InodeDisk) : Keeps (fillSection cfg i info) := by
  refine .bind (.update (fun _ => rfl) (fun _ => rfl) fun _ => rfl) fun _ s => ?_
  rw [inodeRwWrite, Returns.modify_iff]
  exact FsState.slots_setInode_same _ i _ rfl

private theorem inodeReadData_keeps (offset len : U32) (dst : Bytes) :
    Keeps (inodeReadData cfg i offset len dst) := by
  intro s
  rw [inodeReadData, Returns.bind_iff, Returns.get_iff]
  simp only [Returns.bind_iff, Returns.set_iff, Returns.pure_iff]
  exact FsState.slots_setInode_same _ i _ rfl

private theorem inodeWriteData_keeps (offset len : U32) (src : Bytes) :
    Keeps (inodeWriteData cfg i offset len src) := by
  intro s
  rw [inodeWriteData, Returns.bind_iff, Returns.get_iff]
  simp only [Returns.bind_iff, Returns.set_iff, Returns.pure_iff]
  exact FsState.slots_setInode_same _ i _ rfl

private theorem diskInfo_keeps : Keeps (diskInfo i) := .get_bind fun _ => .pure

private theorem readDentry_keeps (off : U32) : Keeps (readDentry cfg i off) :=
  .bind (inodeReadData_keeps cfg i _ _ _) fun _ => .pure

private theorem dentrySearch_keeps (name : Bytes) : Keeps (dentrySearch cfg i name) := by
  have scan : ∀ fuel off, Keeps (dentrySearchFrom cfg i name fuel off) := by
    intro fuel
    induction fuel with
    | zero => exact fun _ => .throw _
    | succ fuel ih =>
      intro off
      refine .bind (diskInfo_keeps i) fun _ => .ite (.bind (readDentry_keeps cfg i off) fun r => ?_) .pure
      cases r with
      | none => exact .pure
      | some de => exact .ite .pure (ih _)
  exact .bind (diskInfo_keeps i) fun _ => .ite .pure (scan _ _)

private theorem dentryCreate_keeps (inodeNum : U32) (name : Bytes) : Keeps (dentryCreate cfg i inodeNum name) := by
  have scan : ∀ fuel off emptyOff, Keeps (dentryCreateScan cfg i name fuel off emptyOff) := by
    intro fuel
    induction fuel with
    | zero => exact fun _ _ => .throw _
    | succ fuel ih =>
      intro off emptyOff
      refine .bind (diskInfo_keeps i) fun _ => .ite (.bind (readDentry_keeps cfg i off) fun r => ?_) .pure
      cases r with
      | none => exact .pure
      | some de => exact .ite (ih _ _) (.ite .pure (ih _ _))
  refine .bind (diskInfo_keeps i) fun _ => .ite .pure (.bind (scan _ _ _) fun r => ?_)
  cases r with
  | none => exact .pure
  | some emptyOff =>
    exact .bind (diskInfo_keeps i) fun _ => .bind (inodeWriteData_keeps cfg i _ _ _) fun _ => .pure

private theorem dentryDelete_keeps (name : Bytes) : Keeps (dentryDelete cfg i name) := by
  have scan : ∀ fuel off, Keeps (dentryDeleteFrom cfg i name fuel off) := by
    intro fuel
    induction fuel with
    | zero => exact fun _ => .throw _
    | succ fuel ih =>
      intro off
      refine .bind (diskInfo_keeps i) fun _ => .ite (.bind (readDentry_keeps cfg i off) fun r => ?_) .pure
      cases r with
      | none => exact .pure
      | some de => exact .ite (.bind (inodeWriteData_keeps cfg i _ _ _) fun _ => .pure) (ih _)
  exact .bind (diskInfo_keeps i) fun _ => .ite .pure (scan _ _)

end Fs

/-- The number that a step asks the cache for. -/
def InodeAct.number : InodeAct → Option U32
  | .get n | .create n _ _ _ => some n
  | _ => none

/-- What a step does to the slots and to the references of the process that takes it. -/
inductive SlotChange (a : InodeAct) (slots : ℕ → SlotInfo) (refs : List ℕ) :
    (ℕ → SlotInfo) → List ℕ → Prop
  | same : SlotChange a slots refs slots refs
  | dup (i) (act : a = .dup i) (held : i ∈ refs) : SlotChange a slots refs
      (Function.update slots i { slots i with ref := (slots i).ref + 1 }) (i :: refs)
  | hit (n i) (asks : a.number = some n) (num : (slots i).inodeNum = n)
      (valid : (slots i).validInfo = true) (within : i < nInode) : SlotChange a slots refs
      (Function.update slots i { slots i with ref := (slots i).ref + 1 }) (i :: refs)
  | miss (n i) (asks : a.number = some n)
      (absent : ∀ j < nInode, (slots j).inodeNum = n → (slots j).validInfo = false)
      (free : (slots i).ref = 0) (within : i < nInode) :
      SlotChange a slots refs (Function.update slots i ⟨n, 1, false⟩) (i :: refs)
  | load (i) (held : i ∈ refs) :
      SlotChange a slots refs (Function.update slots i { slots i with validInfo := true }) refs
  | invalidate (i) :
      SlotChange a slots refs (Function.update slots i { slots i with validInfo := false }) refs
  | lose (i) (act : a = .put i ∨ a = .drop i) (held : i ∈ refs) : SlotChange a slots refs
      (Function.update slots i { slots i with ref := (slots i).ref - 1 }) (refs.erase i)

namespace Fs

variable (sb : SuperBlock) {s : FsState} (refs : List ℕ)

private theorem inodeGet_change (a : InodeAct) {n : U32} (asks : a.number = some n) :
    Returns (inodeGet ⟨sb, false⟩ n) s fun i s' => SlotChange a s.slots refs s'.slots (i :: refs) := by
  rw [inodeGet, Returns.bind_iff, Returns.get_iff]
  split
  · rename_i i found
    obtain ⟨num, valid⟩ := cachedSlot_spec found
    have within : i < nInode := List.mem_range.mp (List.mem_of_find?_eq_some found)
    simp only [Returns.bind_iff, updateInode, Returns.modify_iff, Returns.pure_iff,
      FsState.slots_setInode]
    exact .hit n i asks num valid within
  · rename_i missing
    split
    · simp
    · rename_i i found
      have free := freeSlot_spec found
      have within : i < nInode := List.mem_range.mp (List.mem_of_find?_eq_some found)
      simp only [Returns.bind_iff, updateInode, Returns.modify_iff, Returns.pure_iff,
        FsState.slots_setInode, Bool.false_eq_true, ↓reduceIte]
      refine .miss n i asks (fun j small num => ?_) free within
      have all := List.find?_eq_none.mp missing j (List.mem_range.mpr small)
      simpa [FsState.slots, show (s.inodeCache j).inodeNum = n from num] using all

private theorem inodeDup_change {i : ℕ} (held : i ∈ refs) : Returns (inodeDup i) s fun j s' =>
    SlotChange (.dup i) s.slots refs s'.slots (j :: refs) := by
  simp only [inodeDup, Returns.bind_iff, updateInode, Returns.modify_iff, Returns.pure_iff,
    FsState.slots_setInode]
  exact .dup i rfl held

private theorem loadSection_change {i : ℕ} (held : i ∈ refs) : Returns (loadSection ⟨sb, false⟩ i) s
    fun _ s' => SlotChange (.load i) s.slots refs s'.slots refs := by
  rw [loadSection, Returns.bind_iff, Returns.get_iff]
  refine .ite (fun _ => ?_) fun _ => ?_
  · rw [inodeRwRead, Returns.modify_iff, FsState.slots_setInode]
    exact .load i held
  · rw [Returns.pure_iff]
    exact .same

private theorem putSection_change {i : ℕ} (held : i ∈ refs) : Returns (putSection i) s fun last s' =>
    SlotChange (.put i) s.slots refs s'.slots (if last then refs else refs.erase i) ∧
      (last = true → (s.slots i).ref = 1 ∧ (s.slots i).validInfo = true ∧
        (s.inodeCache i).diskInfo.nlink = 0 ∧ s' = s) := by
  rw [putSection, Returns.bind_iff, Returns.get_iff]
  refine .ite (fun last => ?_) fun _ => ?_
  · rw [Returns.pure_iff]
    exact ⟨.same, fun _ => ⟨last.1, last.2.1, last.2.2, rfl⟩⟩
  · simp only [Returns.bind_iff, updateInode, Returns.modify_iff, Returns.pure_iff,
      FsState.slots_setInode]
    exact ⟨.lose i (Or.inl rfl) held, (by simp)⟩

private theorem invalidate_change (i : ℕ) : Returns (invalidate i) s fun _ s' =>
    SlotChange (.invalidate i) s.slots refs s'.slots refs := by
  rw [invalidate, updateInode, Returns.modify_iff, FsState.slots_setInode]
  exact .invalidate i

private theorem dropSection_change {i : ℕ} (held : i ∈ refs) : Returns (dropSection i) s fun _ s' =>
    SlotChange (.drop i) s.slots refs s'.slots (refs.erase i) := by
  rw [dropSection, updateInode, Returns.modify_iff, FsState.slots_setInode]
  exact .lose i (Or.inr rfl) held

end Fs

namespace InodeUse

variable {sb : SuperBlock} {u u' : InodeUse} {p : Fin nProc} {i : ℕ}

theorem goOn_spec {α : Type} {x : FsM α} {f : α → InodeUse → InodeUse} {todo : α → List InodeAct}
    (result : u.goOn p x f todo = some u') {Q : α → FsState → Prop} (spec : Returns x u.fs Q) :
    ∃ a fs, Q a fs ∧ u' = f a { u with fs := fs, todo := Function.update u.todo p (todo a) } := by
  unfold goOn at result
  split at result
  · rename_i a fs ran
    exact ⟨a, fs, spec a fs ran, (Option.some.inj result).symm⟩
  · cases result

/-- A step of a process: what it does to the slots, and which steps are left for later. -/
structure Outcome (u u' : InodeUse) (p : Fin nProc) (rest : List InodeAct) (a : InodeAct) : Prop where
  change : SlotChange a u.fs.slots (u.refs p) u'.fs.slots (u'.refs p)
  refs : ∀ q, q ≠ p → u'.refs q = u.refs q
  todo : ∀ q, q ≠ p → u'.todo q = u.todo q
  left : (∀ b ∈ rest, ∀ i, b.slot = some i → i ∈ u.refs p) →
    ∀ b ∈ u'.todo p, ∀ i, b.slot = some i → i ∈ u'.refs p

/-- A step that leaves slots and references as they are. -/
theorem Outcome.quiet {α : Type} {x : FsM α} {f : α → InodeUse → InodeUse} {a : InodeAct}
    {rest : List InodeAct} {todo : α → List InodeAct} (result : u.goOn p x f todo = some u')
    (keeps : Keeps x) (silent : ∀ r u, (f r u).fs = u.fs ∧ (f r u).refs = u.refs ∧ (f r u).todo = u.todo)
    (left : ∀ r, ∀ b ∈ todo r, ∀ i, b.slot = some i → b ∈ rest) : Outcome u u' p rest a := by
  obtain ⟨r, fs, same, rfl⟩ := goOn_spec result (keeps u.fs)
  obtain ⟨files, refs, tail⟩ := silent r { u with
    fs := fs, todo := Function.update u.todo p (todo r) }
  refine ⟨?_, fun q _ => ?_, fun q other => ?_, fun busy b within i uses => ?_⟩
  · rw [files, refs, same]
    exact .same
  · rw [refs]
  · rw [tail]
    exact Function.update_of_ne other ..
  · rw [tail] at within
    rw [refs]
    have within : b ∈ todo r := by simpa using within
    exact busy b (left r b within i uses) i uses

private theorem act_outcome {rest : List InodeAct} {a : InodeAct} (result : u.act sb p rest a = some u')
    (held : ∀ i, a.slot = some i → i ∈ u.refs p) : Outcome u u' p rest a := by
  unfold act at result
  cases a with
  | get n =>
    obtain ⟨i, fs, change, rfl⟩ := goOn_spec result (Fs.inodeGet_change sb (u.refs p) (.get n) rfl)
    refine ⟨?_, fun q other => Function.update_of_ne other .., fun q other => Function.update_of_ne other ..,
      ?_⟩
    · simpa [find, gain] using change
    · intro busy b within j uses
      have within : b ∈ rest := by simpa [find, gain] using within
      simpa [find, gain] using Or.inr (busy b within j uses)
  | dup i =>
    obtain ⟨j, fs, change, rfl⟩ := goOn_spec result (Fs.inodeDup_change (u.refs p) (held i rfl))
    refine ⟨?_, fun q other => Function.update_of_ne other .., fun q other => Function.update_of_ne other ..,
      ?_⟩
    · simpa [gain] using change
    · intro busy b within k uses
      have within : b ∈ rest := by simpa [gain] using within
      simpa [gain] using Or.inr (busy b within k uses)
  | lock i =>
    exact .quiet result (Fs.lockSection_keeps i) (fun _ _ => ⟨rfl, rfl, rfl⟩)
      fun _ _ within _ _ => within
  | load i =>
    obtain ⟨-, fs, change, rfl⟩ := goOn_spec result (Fs.loadSection_change sb (u.refs p) (held i rfl))
    refine ⟨change, fun q _ => rfl, fun q other => Function.update_of_ne other .., ?_⟩
    intro busy b within k uses
    exact busy b (by simpa using within) k uses
  | unlock i =>
    dsimp only at result
    split at result
    · exact .quiet result (Fs.inodeUnlock_keeps i) (fun _ _ => ⟨rfl, rfl, rfl⟩)
        fun _ _ within _ _ => within
    · cases result
  | put i =>
    obtain ⟨last, fs, ⟨change, -⟩, rfl⟩ := goOn_spec result (Fs.putSection_change (u.refs p) (held i rfl))
    cases last with
    | true =>
      refine ⟨change, fun q _ => rfl, fun q other => Function.update_of_ne other .., ?_⟩
      intro busy b within k uses
      have within : b ∈ [.lock i, .load i, .delete i, .invalidate i, .unlock i, .drop i] := by
        simpa using within
      simp only [List.mem_cons, List.not_mem_nil, or_false] at within
      rcases within with rfl | rfl | rfl | rfl | rfl | rfl <;> exact held k uses
    | false =>
      refine ⟨?_, fun q other => Function.update_of_ne other .., fun q other => Function.update_of_ne other ..,
      ?_⟩
      · simpa [lose] using change
      · intro busy b within
        simp [lose] at within
  | delete i =>
    exact .quiet result (Fs.inodeDelete_keeps _ i) (fun _ _ => ⟨rfl, rfl, rfl⟩)
      fun _ _ within _ _ => within
  | invalidate i =>
    obtain ⟨-, fs, change, rfl⟩ := goOn_spec result (Fs.invalidate_change (u.refs p) i)
    refine ⟨change, fun q _ => rfl, fun q other => Function.update_of_ne other .., ?_⟩
    intro busy b within k uses
    exact busy b (by simpa using within) k uses
  | drop i =>
    obtain ⟨-, fs, change, rfl⟩ := goOn_spec result (Fs.dropSection_change (u.refs p) (held i rfl))
    refine ⟨?_, fun q other => Function.update_of_ne other .., fun q other => Function.update_of_ne other ..,
      ?_⟩
    · simpa [lose] using change
    · intro busy b within
      simp [lose] at within
  | alloc type major minor =>
    refine .quiet result (Fs.allocSection_keeps _) (fun _ _ => ⟨rfl, rfl, rfl⟩) ?_
    intro n b within j uses
    split at within
    · cases within
    · rw [List.mem_singleton.mp within] at uses
      cases uses
  | create n type major minor =>
    obtain ⟨i, fs, change, rfl⟩ :=
      goOn_spec result (Fs.inodeGet_change sb (u.refs p) (.create n type major minor) rfl)
    refine ⟨?_, fun q other => Function.update_of_ne other .., fun q other => Function.update_of_ne other ..,
      ?_⟩
    · simpa [gain] using change
    · intro busy b within j uses
      have within : b ∈ [.lock i, .load i, .fill i (newInode type major minor), .unlock i] := by
        simpa [gain] using within
      simp only [List.mem_cons, List.not_mem_nil, or_false] at within
      rcases within with rfl | rfl | rfl | rfl <;>
        (obtain rfl : i = j := Option.some.inj uses; simp [gain])
  | fill i info =>
    exact .quiet result (Fs.fillSection_keeps _ i info) (fun _ _ => ⟨rfl, rfl, rfl⟩)
      fun _ _ within _ _ => within
  | search i name =>
    exact .quiet result (Fs.dentrySearch_keeps _ i name) (fun _ _ => ⟨rfl, rfl, rfl⟩)
      fun _ _ within _ _ => within
  | enter i n name =>
    exact .quiet result (Fs.dentryCreate_keeps _ i n name) (fun _ _ => ⟨rfl, rfl, rfl⟩)
      fun _ _ within _ _ => within
  | remove i name =>
    exact .quiet result (Fs.dentryDelete_keeps _ i name) (fun _ _ => ⟨rfl, rfl, rfl⟩)
      fun _ _ within _ _ => within

end InodeUse

/-! ## References and slots -/

/-- The slot has references, or is still found by its number. -/
def SlotInfo.Live (slot : SlotInfo) : Prop := 0 < slot.ref ∨ slot.validInfo = true

/-- No two live slots have the same number. -/
def Unique (slots : ℕ → SlotInfo) : Prop :=
  ∀ i j, (slots i).Live → (slots j).Live → (slots i).inodeNum = (slots j).inodeNum → i = j

/-- A slot that keeps its number and does not come to life. -/
theorem Unique.update {slots : ℕ → SlotInfo} (unique : Unique slots) {i : ℕ} {slot : SlotInfo}
    (num : slot.inodeNum = (slots i).inodeNum) (live : slot.Live → (slots i).Live) :
    Unique (Function.update slots i slot) := by
  have back (j : ℕ) : (Function.update slots i slot j).inodeNum = (slots j).inodeNum ∧
      ((Function.update slots i slot j).Live → (slots j).Live) := by
    rcases eq_or_ne j i with rfl | other
    · rw [Function.update_self]
      exact ⟨num, live⟩
    · rw [Function.update_of_ne other]
      exact ⟨rfl, id⟩
  intro j k left right same
  rw [(back j).1, (back k).1] at same
  exact unique j k ((back j).2 left) ((back k).2 right) same

namespace SlotChange

variable {slots slots' : ℕ → SlotInfo} {refs refs' : List ℕ} {a : InodeAct}

/-- The counters change as the references of the process do. -/
theorem ref (change : SlotChange a slots refs slots' refs')
    (counted : ∀ i, refs.count i ≤ (slots i).ref) (j : ℕ) :
    (slots' j).ref + refs.count j = (slots j).ref + refs'.count j := by
  cases change with
  | same => rfl
  | dup i _ held | hit _ i _ held | miss _ i _ _ held =>
    rcases eq_or_ne j i with rfl | other
    · rw [Function.update_self, List.count_cons_self]
      dsimp only
      omega
    · rw [Function.update_of_ne other, List.count_cons_of_ne other.symm]
  | load i held | invalidate i =>
    rcases eq_or_ne j i with rfl | other
    · rw [Function.update_self]
    · rw [Function.update_of_ne other]
  | lose i _ held =>
    rcases eq_or_ne j i with rfl | other
    · have some := List.count_pos_iff.mpr held
      have counted := counted j
      rw [Function.update_self, List.count_erase_self]
      dsimp only
      omega
    · rw [Function.update_of_ne other, List.count_erase_of_ne other]

/-- Slots beyond the cache are never used. -/
theorem outside (change : SlotChange a slots refs slots' refs')
    (counted : ∀ i, refs.count i ≤ (slots i).ref)
    (start : ∀ i, nInode ≤ i → (slots i).ref = 0 ∧ (slots i).validInfo = false) (j : ℕ)
    (far : nInode ≤ j) : (slots' j).ref = 0 ∧ (slots' j).validInfo = false := by
  have within {i : ℕ} (held : i ∈ refs) : i < nInode := by
    by_contra beyond
    have some := List.count_pos_iff.mpr held
    have counted := counted i
    have none := (start i (Nat.le_of_not_lt beyond)).1
    omega
  cases change with
  | same => exact start j far
  | dup i _ held | load i held =>
    have near := within held
    rw [Function.update_of_ne (by omega)]
    exact start j far
  | hit _ i _ _ _ near | miss _ i _ _ _ near =>
    rw [Function.update_of_ne (by omega)]
    exact start j far
  | invalidate i =>
    rcases eq_or_ne j i with rfl | other
    · rw [Function.update_self]
      exact ⟨(start j far).1, rfl⟩
    · rw [Function.update_of_ne other]
      exact start j far
  | lose i _ held =>
    have near := within held
    rw [Function.update_of_ne (by omega)]
    exact start j far

/-- If the slot with references that has the number asked for is valid, no second slot gets it. -/
theorem unique (change : SlotChange a slots refs slots' refs') (unique : Unique slots)
    (counted : ∀ i, refs.count i ≤ (slots i).ref)
    (start : ∀ i, nInode ≤ i → (slots i).ref = 0 ∧ (slots i).validInfo = false)
    (fresh : ∀ n, a.number = some n → ∀ j, (slots j).inodeNum = n → 0 < (slots j).ref →
      (slots j).validInfo = true) : Unique slots' := by
  have live {i : ℕ} (held : i ∈ refs) : (slots i).Live :=
    Or.inl (lt_of_lt_of_le (List.count_pos_iff.mpr held) (counted i))
  cases change with
  | same => exact unique
  | dup i _ held => exact unique.update rfl fun _ => live held
  | hit n i _ _ valid => exact unique.update rfl fun _ => Or.inr valid
  | miss n i asks absent free =>
    -- no live slot has the number yet
    have none (j : ℕ) (num : (slots j).inodeNum = n) : ¬(slots j).Live := by
      have invalid : (slots j).validInfo = false := by
        rcases lt_or_ge j nInode with near | far
        · exact absent j near num
        · exact (start j far).2
      rintro (some | valid)
      · rw [fresh n asks j num some] at invalid
        cases invalid
      · rw [valid] at invalid
        cases invalid
    intro j k left right same
    rcases eq_or_ne j i with rfl | apart
    · rcases eq_or_ne k j with rfl | other
      · rfl
      · rw [Function.update_self, Function.update_of_ne other] at same
        rw [Function.update_of_ne other] at right
        exact absurd right (none k same.symm)
    · rcases eq_or_ne k i with rfl | other
      · rw [Function.update_self, Function.update_of_ne apart] at same
        rw [Function.update_of_ne apart] at left
        exact absurd left (none j same)
      · rw [Function.update_of_ne apart, Function.update_of_ne other] at same
        rw [Function.update_of_ne apart] at left
        rw [Function.update_of_ne other] at right
        exact unique j k left right same
  | load i held => exact unique.update rfl fun _ => live held
  | invalidate i =>
    refine unique.update rfl ?_
    rintro (some | valid)
    · exact Or.inl some
    · cases valid
  | lose i _ held => exact unique.update rfl fun _ => live held

end SlotChange

namespace InodeUse

variable {sb : SuperBlock} {u u' : InodeUse} {p : Fin nProc} {i : ℕ}

/-- What holds between any two steps: the counters count the references, and no step is left that
works on a slot its process does not refer to. -/
structure Sound (u : InodeUse) : Prop where
  refs : ∀ i, (u.fs.slots i).ref = ∑ p, (u.refs p).count i
  busy : ∀ p, ∀ a ∈ u.todo p, ∀ i, a.slot = some i → i ∈ u.refs p
  outside : ∀ i, nInode ≤ i → (u.fs.slots i).ref = 0 ∧ (u.fs.slots i).validInfo = false

theorem init_sound (d : Disk) : (init d).Sound where
  refs _ := (Finset.sum_eq_zero fun _ _ => List.count_nil).symm
  busy _ _ within := absurd within List.not_mem_nil
  outside _ _ := ⟨rfl, rfl⟩

theorem Sound.counted (sound : u.Sound) (p : Fin nProc) (i : ℕ) :
    (u.refs p).count i ≤ (u.fs.slots i).ref := by
  rw [sound.refs]
  exact Finset.single_le_sum (f := fun p => (u.refs p).count i) (fun _ _ => Nat.zero_le _) (Finset.mem_univ p)

theorem Sound.act (sound : u.Sound) {rest : List InodeAct} {a : InodeAct}
    (todo : u.todo p = a :: rest) (outcome : Outcome u u' p rest a) : u'.Sound := by
  have counted := sound.counted p
  refine ⟨fun i => ?_, fun q b within i uses => ?_, outcome.change.outside counted sound.outside⟩
  · have total := sum_change (g := fun q => (u'.refs q).count i) (Finset.mem_univ p)
      fun q _ other => congrArg (List.count i) (outcome.refs q other)
    have ref := outcome.change.ref counted i
    rw [sound.refs i] at ref
    omega
  · rcases eq_or_ne q p with rfl | other
    · refine outcome.left (fun b within => sound.busy q b ?_) b within i uses
      exact todo ▸ List.mem_cons_of_mem _ within
    · rw [outcome.todo q other] at within
      rw [outcome.refs q other]
      exact sound.busy q b within i uses

/-- A call starts with steps on slots that the process refers to. -/
theorem allowed_slot {refs locks : List ℕ} {call : InodeCall} (allowed : Allowed refs locks call)
    {a : InodeAct} (within : a ∈ call.steps) (uses : a.slot = some i) : i ∈ refs := by
  cases call with
  | get n | create type major minor =>
    obtain rfl := List.mem_singleton.mp within
    cases uses
  | ignore => cases within
  | lock j =>
    simp only [InodeCall.steps, List.mem_cons, List.not_mem_nil, or_false] at within
    obtain rfl | rfl := within
    · obtain rfl := Option.some.inj uses
      exact allowed
    · obtain rfl := Option.some.inj uses
      exact allowed
  | dup j | put j =>
    obtain rfl := List.mem_singleton.mp within
    obtain rfl := Option.some.inj uses
    exact allowed
  | unlock j | fill j info | search j name | enter j n name | remove j name =>
    obtain rfl := List.mem_singleton.mp within
    obtain rfl := Option.some.inj uses
    exact allowed.1

theorem start_spec {call : InodeCall} (result : u.start p call = some u') :
    u.todo p = [] ∧ Allowed (u.refs p) (u.locks p) call ∧ u'.fs = u.fs ∧ u'.refs = u.refs ∧
      u'.todo = Function.update u.todo p call.steps ∧
      (u'.found = u.found ∨ u'.found = Function.update u.found p none) := by
  unfold InodeUse.start at result
  split at result
  · rename_i ok
    obtain rfl := Option.some.inj result
    refine ⟨List.isEmpty_iff.mp ok.1, ok.2, rfl, rfl, rfl, ?_⟩
    cases call with
    | ignore => exact Or.inr rfl
    | _ => exact Or.inl rfl
  · cases result

theorem Sound.start (sound : u.Sound) {call : InodeCall} (result : u.start p call = some u') :
    u'.Sound := by
  obtain ⟨-, allowed, files, refs, todo, -⟩ := start_spec result
  refine ⟨fun i => ?_, fun q b within i uses => ?_, fun i far => ?_⟩
  · rw [files, refs]
    exact sound.refs i
  · rw [refs]
    rw [todo] at within
    rcases eq_or_ne q p with rfl | other
    · rw [Function.update_self] at within
      exact allowed_slot allowed within uses
    · rw [Function.update_of_ne other] at within
      exact sound.busy q b within i uses
  · rw [files]
    exact sound.outside i far

/-- A step is the start of a call, or what is next in a call. -/
theorem step_cases {input : Fin nProc × Option InodeCall} (step : Step sb u input u') :
    (∃ call, input.2 = some call ∧ u.start input.1 call = some u') ∨
    ∃ a rest, input.2 = none ∧ u.todo input.1 = a :: rest ∧ u.act sb input.1 rest a = some u' := by
  obtain ⟨p, call⟩ := input
  cases call with
  | some call => exact Or.inl ⟨call, rfl, step⟩
  | none =>
    unfold Step InodeUse.step at step
    dsimp only at step
    split at step
    · cases step
    · rename_i a rest todo
      exact Or.inr ⟨a, rest, rfl, todo, step⟩

theorem Sound.outcome (sound : u.Sound) {a : InodeAct} {rest : List InodeAct}
    (todo : u.todo p = a :: rest) (result : u.act sb p rest a = some u') : Outcome u u' p rest a :=
  act_outcome result fun i uses => sound.busy p a (todo ▸ List.mem_cons_self) i uses

theorem Sound.step (sound : u.Sound) {input : Fin nProc × Option InodeCall}
    (step : Step sb u input u') : u'.Sound := by
  obtain ⟨call, -, result⟩ | ⟨a, rest, -, todo, result⟩ := step_cases step
  · exact sound.start result
  · exact sound.act todo (sound.outcome todo result)

/-- No slot with references that has the number `inode_get` asks for now waits for its record. -/
def Fresh (u : InodeUse) (input : Fin nProc × Option InodeCall) : Prop :=
  input.2 = none → ∀ a ∈ (u.todo input.1).head?, ∀ n, a.number = some n → ∀ i,
    (u.fs.slots i).inodeNum = n → 0 < (u.fs.slots i).ref → (u.fs.slots i).validInfo = true

/-- At most one referenced slot has a number, and so the holders of an inode share its slot. -/
def Shared (u : InodeUse) : Prop :=
  (∀ i j, 0 < (u.fs.slots i).ref → 0 < (u.fs.slots j).ref →
    (u.fs.slots i).inodeNum = (u.fs.slots j).inodeNum → i = j) ∧
  ∀ p q, ∀ i ∈ u.refs p, ∀ j ∈ u.refs q,
    (u.fs.slots i).inodeNum = (u.fs.slots j).inodeNum → i = j

private theorem Sound.shared (sound : u.Sound) (unique : Unique u.fs.slots) : u.Shared := by
  have live (p : Fin nProc) (i : ℕ) (held : i ∈ u.refs p) : (u.fs.slots i).Live :=
    Or.inl (lt_of_lt_of_le (List.count_pos_iff.mpr held) (sound.counted p i))
  refine ⟨fun i j left right same => unique i j (Or.inl left) (Or.inl right) same, ?_⟩
  exact fun p q i left j right same => unique i j (live p i left) (live q j right) same

/-- In a run where each `inode_get` finds no referenced slot with its number whose record was not
loaded yet, no two referenced slots have the same number. -/
theorem slots_unique (sb : SuperBlock) (d : Disk) (inputs : List (Fin nProc × Option InodeCall))
    (t : InodeUse) (run : Run (Guarded Fresh (Step sb)) (init d) inputs t) : t.Shared := by
  have both := run.invariant (P := fun u => u.Sound ∧ Unique u.fs.slots) ?_
    ⟨init_sound d, ?_⟩
  · exact both.1.shared both.2
  · rintro u ⟨p, call⟩ u' ⟨fresh, step⟩ ⟨sound, unique⟩
    refine ⟨sound.step step, ?_⟩
    obtain ⟨call, -, result⟩ | ⟨a, rest, goes, todo, result⟩ := step_cases step
    · rw [(start_spec result).2.2.1]
      exact unique
    · refine (sound.outcome todo result).change.unique unique (sound.counted p) sound.outside ?_
      exact fun n asks => fresh goes a (by rw [todo]; rfl) n asks
  · rintro i j (some | valid)
    · exact absurd some (Nat.lt_irrefl 0)
    · cases valid

/-- The condition on the slots of the cache only. -/
def freshBelow (u : InodeUse) (input : Fin nProc × Option InodeCall) : Bool :=
  input.2.isSome || (u.todo input.1).head?.all fun a => a.number.all fun n =>
    (List.range nInode).all fun i =>
      (u.fs.slots i).inodeNum != n || (u.fs.slots i).ref == 0 || (u.fs.slots i).validInfo

/-- No other slot is ever referred to. -/
theorem Sound.fresh (sound : u.Sound) {input : Fin nProc × Option InodeCall}
    (below : freshBelow u input = true) : Fresh u input := by
  intro goes a head n asks i number referred
  have inside : i < nInode := by
    by_contra beyond
    rw [(sound.outside i (Nat.le_of_not_lt beyond)).1] at referred
    exact Nat.lt_irrefl 0 referred
  rw [freshBelow, goes, Option.isSome_none, Bool.false_or, head, Option.all_some, asks, Option.all_some,
    List.all_eq_true] at below
  have slot := below i (List.mem_range.mpr inside)
  have some : ((u.fs.slots i).ref == 0) = false := beq_eq_false_iff_ne.mpr referred.ne'
  rwa [number, bne_self_eq_false, some, Bool.false_or, Bool.false_or] at slot

/-- One process gets inode 5, loads it under its lock and unlocks it. Another process that gets inode 5 then
shares its slot. -/
theorem slots_unique_share : ∃ t, Run (Guarded Fresh (Step mkfsSuperBlock)) (init fun _ _ => 0)
    [(0, some (.get 5)), (0, none), (0, some (.lock 0)), (0, none), (0, none), (0, some (.unlock 0)), (0, none),
      (1, some (.get 5)), (1, none)] t ∧
    t.refs 0 = [0] ∧ t.refs 1 = [0] ∧ (t.fs.slots 0).ref = 2 ∧ (t.fs.slots 0).inodeNum = 5 ∧ t.Shared := by
  obtain ⟨t, run, held⟩ := Run.exists_guarded freshBelow (InodeUse.step mkfsSuperBlock) (init fun _ _ => 0)
    [(0, some (.get 5)), (0, none), (0, some (.lock 0)), (0, none), (0, none), (0, some (.unlock 0)), (0, none),
      (1, some (.get 5)), (1, none)]
    (fun t => t.refs 0 == [0] && t.refs 1 == [0] && (t.fs.slots 0).ref == 2 && (t.fs.slots 0).inodeNum == 5)
    (by decide +kernel)
  have guarded : Run (Guarded Fresh (Step mkfsSuperBlock)) _ _ t :=
    run.refine (P := Sound) (init_sound _) fun u a u' sound step =>
      ⟨⟨sound.fresh step.1, step.2⟩, sound.step step.2⟩
  simp only [Bool.and_eq_true, beq_iff_eq] at held
  obtain ⟨⟨⟨first, second⟩, both⟩, number⟩ := held
  exact ⟨t, guarded, first, second, both, number, slots_unique mkfsSuperBlock _ _ t guarded⟩

/-- Two processes ask for inode 5, one after the other, before either loads its record. -/
theorem slots_split : ¬∀ d inputs t, Run (Step mkfsSuperBlock) (init d) inputs t → t.Shared := by
  intro always
  obtain ⟨t, run, split⟩ := Run.exists_of_test (InodeUse.step mkfsSuperBlock) (init fun _ _ => 0)
    [(0, some (.get 5)), (0, none), (1, some (.get 5)), (1, none)]
    (fun t => (t.fs.slots 0).ref == 1 && (t.fs.slots 1).ref == 1 &&
      (t.fs.slots 0).inodeNum == (t.fs.slots 1).inodeNum) (by decide +kernel)
  simp only [Bool.and_eq_true, beq_iff_eq] at split
  obtain ⟨⟨left, right⟩, same⟩ := split
  have one := (always _ _ t run).1 0 1 (by omega) (by omega) same
  exact absurd one (by decide)

end InodeUse

end LabKernel
