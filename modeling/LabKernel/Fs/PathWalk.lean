import LabKernel.Fs.Holding
import LabKernel.Fs.ImageGraph

/-! # Path resolution

The directories on a disk form a graph: the entries of a directory are its outgoing edges. A path is
split into its components, and `path_to_inode` follows them from the root or from the working
directory, holding at most two inodes at a time. On its way it changes no file and leaves the
references of everybody else as they are.
-/

namespace LabKernel

open BlockTrees

variable {sb : SuperBlock} {cfg : FsConfig}

/-! ## Components -/

/-- The components of a path: its maximal runs of bytes other than `'/'`. -/
def components (path : List U8) : List (List U8) := (path.splitOn slash).filter (· ≠ [])

theorem components_slash (a b : List U8) : components (a ++ slash :: b) = components a ++ components b := by
  rw [components, List.splitOn_append_cons_self, List.filter_append]
  rfl

@[simp] theorem components_nil : components [] = [] := by
  simp [components]

/-- A run without slashes is one component. -/
theorem components_run {run : List U8} (some : run ≠ []) (slashless : slash ∉ run) :
    components run = [run] := by
  rw [components, List.splitOn_eq_singleton slashless, List.filter_cons_of_pos (by simpa using some)]
  rfl

theorem components_dropWhile (path : List U8) :
    components (path.dropWhile (· == slash)) = components path := by
  induction path with
  | nil => rfl
  | cons b rest ih =>
    by_cases same : b = slash
    · rw [List.dropWhile_cons_of_pos (by simpa using same), ih, same, ← List.nil_append (slash :: rest),
        components_slash, components_nil, List.nil_append]
    · rw [List.dropWhile_cons_of_neg (by simpa using same)]

private theorem dropWhile_head {p : U8 → Bool} {text rest : List U8} {b : U8}
    (start : text.dropWhile p = b :: rest) : p b = false := by
  have first := List.head?_dropWhile_not p text
  rw [start] at first
  exact first

/-- `get_element` takes the first component off a path. -/
theorem components_getElement (path : List U8) : components path =
    match getElement path with
    | none => []
    | some (element, rest) => element :: components rest := by
  rw [← components_dropWhile path, getElement]
  cases start : path.dropWhile (· == slash) with
  | nil => rfl
  | cons b rest =>
    have other : b ≠ slash := by simpa using dropWhile_head start
    simp only []
    generalize whole : b :: rest = text
    have some : text.takeWhile (· != slash) ≠ [] := by
      rw [← whole, List.takeWhile_cons_of_pos (by simpa using other)]
      exact List.cons_ne_nil _ _
    have slashless : slash ∉ text.takeWhile (· != slash) := fun member => by
      simpa using List.mem_takeWhile_imp member
    rw [components_dropWhile]
    conv_lhs => rw [← @List.takeWhile_append_dropWhile _ (· != slash) text]
    cases tail : text.dropWhile (· != slash) with
    | nil => rw [List.append_nil, components_run some slashless, components_nil]
    | cons c more =>
      have same : c = slash := by simpa using dropWhile_head tail
      have skipped : components (slash :: more) = components more :=
        (components_slash [] more).trans (by rw [components_nil, List.nil_append])
      rw [same, components_slash, components_run some slashless, skipped]
      rfl

private theorem getElement_length {path element rest : List U8} (found : getElement path = some (element, rest)) :
    rest.length < path.length := by
  rw [getElement] at found
  cases start : path.dropWhile (· == slash) with
  | nil =>
    rw [start] at found
    cases found
  | cons b text =>
    rw [start] at found
    cases found
    have other : b ≠ slash := by simpa using dropWhile_head start
    have whole := congrArg List.length start
    have first := (path.dropWhile_suffix (· == slash)).length_le
    have second := (text.dropWhile_suffix (· != slash)).length_le
    have third := ((text.dropWhile (· != slash)).dropWhile_suffix (· == slash)).length_le
    rw [List.dropWhile_cons_of_pos (by simpa using other)]
    rw [List.length_cons] at whole
    omega

/-- The elements that `get_element` finds are the components. -/
theorem elements_eq (path : List U8) : elements path = components path := by
  have from' (fuel : ℕ) : ∀ path : List U8, path.length ≤ fuel → elementsFrom fuel path = components path := by
    induction fuel with
    | zero =>
      intro path short
      rw [List.length_eq_zero_iff.mp (Nat.le_zero.mp short), components_nil]
      rfl
    | succ fuel ih =>
      intro path short
      rw [elementsFrom, components_getElement]
      cases found : getElement path with
      | none => rfl
      | some r =>
        have shorter := getElement_length found
        exact congrArg _ (ih _ (by omega))
  exact from' _ path (Nat.le_refl _)

/-- The bytes of a component are bytes of the path. -/
theorem mem_component {path c : List U8} (member : c ∈ components path) {b : U8} (inside : b ∈ c) :
    b ∈ path := by
  have part : c ∈ path.splitOn slash := List.mem_of_mem_filter member
  obtain ⟨i, bound, rfl⟩ := List.getElem_of_mem part
  have place := @List.getElem_eq_getElem_intersperse_two_mul _ (path.splitOn slash) [slash] i bound
  have whole : [slash].intercalate (path.splitOn slash) = path := List.intercalate_splitOn slash
  rw [← whole]
  exact List.mem_flatten.mpr ⟨_, place ▸ List.getElem_mem _, inside⟩

private theorem component_ne_nil {path c : List U8} (member : c ∈ components path) : c ≠ [] := by
  simpa using (List.mem_filter.mp member).2

/-! ## Names -/

/-- The name that a component looks up: its first 59 bytes. -/
def cutName (c : List U8) : List U8 := c.take (maxlenFilename - 1)

private theorem setName_take (name : Bytes) (c : List U8) :
    (List.range' 0 (min c.length (maxlenFilename - 1))).map (setName name c) = cutName c := by
  refine List.ext_getElem (by simp [cutName]; omega) fun i insideL insideR => ?_
  have inside : i < min c.length (maxlenFilename - 1) := by simpa using insideL
  have byte : setName name c i = c.getD i 0 := if_pos inside
  simp only [List.getElem_map, List.getElem_range', Nat.zero_add, Nat.one_mul, byte, cutName,
    List.getElem_take]
  exact List.getD_eq_getElem _ _ (by omega)

private theorem setName_stop (name : Bytes) (c : List U8) :
    setName name c (min c.length (maxlenFilename - 1)) = 0 :=
  (if_neg (Nat.lt_irrefl _)).trans (if_pos rfl)

/-- The name buffer after `get_element` holds the component, cut to 59 bytes. -/
theorem nameText_setName (name : Bytes) {c : List U8} (text : ∀ b ∈ c, b ≠ 0) :
    nameText (setName name c) = cutName c := by
  have split : maxlenFilename = min c.length (maxlenFilename - 1) +
      (maxlenFilename - 1 - min c.length (maxlenFilename - 1) + 1) := by
    simp only [maxlenFilename]
    omega
  rw [nameText, split, ← List.range'_append_1, List.map_append, setName_take,
    List.takeWhile_append_of_pos, List.range'_succ, List.map_cons, Nat.zero_add, setName_stop,
    List.takeWhile_cons_of_neg (by simp), List.append_nil]
  exact fun b member => by simpa using text b (List.mem_of_mem_take member)

/-- A component that is not empty gives a name that fits an entry. -/
theorem isName_setName (name : Bytes) {c : List U8} (some : c ≠ []) (text : ∀ b ∈ c, b ≠ 0) :
    IsName (setName name c) := by
  have positive := List.length_pos_of_ne_nil some
  refine ⟨?_, min c.length (maxlenFilename - 1), by simp only [maxlenFilename]; omega, setName_stop name c⟩
  have byte : setName name c 0 = c.getD 0 0 := if_pos (by simp only [maxlenFilename]; omega)
  rw [byte, List.getD_eq_getElem _ _ positive]
  exact text _ (List.getElem_mem positive)

/-! ## Consistent states -/

/-- The inodes `live` form a consistent graph, closed under entries, and no inode is locked. -/
structure Consistent (cfg : FsConfig) (live : U32 → Prop) (s : FsState) : Prop where
  sound : Store.Sound cfg.sb (diskStore cfg.sb s.disk)
  node : ∀ t, live t → Node cfg.sb s.disk t
  closed : ∀ t name u, live t → entry cfg.sb s.disk t name = some u → live u
  cached : ∀ i < nInode, (s.inodeCache i).validInfo = true → live (s.inodeCache i).inodeNum →
    Stands cfg.sb s.disk (s.inodeCache i).inodeNum (s.inodeCache i).diskInfo
  unlocked : ∀ i < nInode, (s.inodeCache i).slk = false

/-- A consistent state stays so when an unlocked slot changes its references, or gets a record that
stands for the one on disk. -/
theorem Consistent.setInode {live : U32 → Prop} {s : FsState} (consistent : Consistent cfg live s) {i : ℕ}
    {ip : Inode} (unlocked : ip.slk = false)
    (stands : ip.validInfo = true → live ip.inodeNum →
      Stands cfg.sb s.disk ip.inodeNum ip.diskInfo) :
    Consistent cfg live (s.setInode i ip) where
  sound := consistent.sound
  node := consistent.node
  closed := consistent.closed
  cached j inside := by
    by_cases here : j = i
    · rw [here, FsState.setInode_same]
      exact stands
    · rw [FsState.setInode_other _ _ _ here]
      exact consistent.cached j inside
  unlocked j inside := by
    by_cases here : j = i
    · rw [here, FsState.setInode_same]
      exact unlocked
    · rw [FsState.setInode_other _ _ _ here]
      exact consistent.unlocked j inside

/-! ## Steps on cached inodes -/

/-- `inode_get` finds every slot of the cache in use. -/
def noInodes : Fault := .panic "inode_get: no inodes"

/-- The inode of a slot with its record loaded. -/
def Inode.loaded (sb : SuperBlock) (d : Disk) (ip : Inode) : Inode :=
  if ip.validInfo = true then ip
  else { ip with
    diskInfo := inodeRead sb ip.inodeNum d
    validInfo := true
    source := some (ip.inodeNum, inodeRead sb ip.inodeNum d) }

@[simp] theorem Inode.loaded_ref (sb : SuperBlock) (d : Disk) (ip : Inode) :
    (ip.loaded sb d).ref = ip.ref := by
  rw [loaded]
  split <;> rfl

@[simp] theorem Inode.loaded_inodeNum (sb : SuperBlock) (d : Disk) (ip : Inode) :
    (ip.loaded sb d).inodeNum = ip.inodeNum := by
  rw [loaded]
  split <;> rfl

@[simp] theorem Inode.loaded_slk (sb : SuperBlock) (d : Disk) (ip : Inode) :
    (ip.loaded sb d).slk = ip.slk := by
  rw [loaded]
  split <;> rfl

theorem Inode.loaded_validInfo (sb : SuperBlock) (d : Disk) (ip : Inode) :
    (ip.loaded sb d).validInfo = true := by
  rw [loaded]
  split
  · assumption
  · rfl

theorem Consistent.stands {live : U32 → Prop} {s : FsState} (consistent : Consistent cfg live s) {i : ℕ}
    (inside : i < nInode) (alive : live (s.inodeCache i).inodeNum) :
    Stands cfg.sb s.disk (s.inodeCache i).inodeNum ((s.inodeCache i).loaded cfg.sb s.disk).diskInfo := by
  rw [Inode.loaded]
  split
  · exact consistent.cached i inside ‹_› alive
  · exact (consistent.node _ alive).stands consistent.sound

namespace Fs

variable {s : FsState} {i : ℕ}

/-- Locking an unlocked inode loads its record. -/
theorem inodeLock_yields (held : 0 < (s.inodeCache i).ref) (unlocked : (s.inodeCache i).slk = false) :
    Yields (inodeLock cfg i) s fun _ s' =>
      s' = s.setInode i { (s.inodeCache i).loaded cfg.sb s.disk with slk := true } := by
  simp only [inodeLock, sleeplockAcquire, updateInode, inodeRwRead, Ends.bind_iff, Ends.get_iff]
  refine Ends.ite (fun none => absurd none (by omega)) fun _ => ?_
  simp only [Ends.bind_iff, Ends.get_iff]
  refine Ends.ite (fun locked => absurd locked (by simp [unlocked])) fun _ => ?_
  simp only [Ends.modify_iff, FsState.setInode_same]
  refine Ends.ite (fun invalid => ?_) fun valid => ?_
  · simp only [Ends.modify_iff, FsState.setInode_same, FsState.setInode_setInode,
      FsState.setInode_disk, Inode.loaded, invalid, Bool.false_eq_true, ↓reduceIte]
  · simp only [Ends.pure_iff, Inode.loaded, Bool.eq_true_of_not_eq_false valid, ↓reduceIte]

theorem inodeUnlock_yields (held : 0 < (s.inodeCache i).ref) (locked : (s.inodeCache i).slk = true) :
    Yields (inodeUnlock i) s fun _ s' => s' = s.setInode i { s.inodeCache i with slk := false } := by
  simp only [inodeUnlock, sleeplockRelease, updateInode, Ends.bind_iff, Ends.get_iff]
  refine Ends.ite (fun bad => ?_) fun _ => rfl
  rcases bad with free | none
  · simp [locked] at free
  · omega

/-- Putting an inode that is linked, or not loaded, or held otherwise too, drops one reference. -/
theorem inodePut_yields (keeps : ¬((s.inodeCache i).ref = 1 ∧ (s.inodeCache i).validInfo = true ∧
      (s.inodeCache i).diskInfo.nlink = 0)) :
    Yields (inodePut cfg i) s fun _ s' =>
      s' = s.setInode i { s.inodeCache i with ref := (s.inodeCache i).ref - 1 } := by
  simp only [inodePut, updateInode, Ends.bind_iff, Ends.get_iff]
  exact Ends.ite (fun last => absurd last keeps) fun _ => rfl

/-- Getting an inode finds it in the cache or takes a free slot for it, if there is one. -/
theorem inodeGet_ends (lazy : cfg.eager = false) (inodeNum : U32) :
    Ends (inodeGet cfg inodeNum) s (fun j s' => j < nInode ∧
      (cachedSlot s inodeNum = some j ∧
          s' = s.setInode j { s.inodeCache j with ref := (s.inodeCache j).ref + 1 } ∨
        cachedSlot s inodeNum = none ∧ (s.inodeCache j).ref = 0 ∧
          s' = s.setInode j { s.inodeCache j with
            inodeNum := inodeNum
            ref := 1
            validInfo := false }))
      fun e => e = noInodes ∧ cachedSlot s inodeNum = none ∧ ∀ k < nInode, 0 < (s.inodeCache k).ref := by
  simp only [inodeGet, Ends.bind_iff, Ends.get_iff]
  cases found : cachedSlot s inodeNum with
  | some j =>
    have inside := List.mem_range.mp (List.mem_of_find?_eq_some found)
    simp only [updateInode, Ends.bind_iff, Ends.modify_iff, Ends.pure_iff]
    exact ⟨inside, Or.inl ⟨trivial, trivial⟩⟩
  | none =>
    dsimp only
    split
    · rename_i none
      refine ⟨rfl, rfl, fun k inside => ?_⟩
      have missed := List.find?_eq_none.mp none k (List.mem_range.mpr inside)
      simp only [beq_iff_eq] at missed
      omega
    · rename_i j found
      have inside := List.mem_range.mp (List.mem_of_find?_eq_some found)
      simp only [updateInode, lazy, Bool.false_eq_true, ↓reduceIte, Ends.bind_iff, Ends.modify_iff,
        Ends.pure_iff]
      exact ⟨inside, Or.inr ⟨trivial, freeSlot_spec found, trivial⟩⟩

theorem inodeGet_yields (lazy : cfg.eager = false) (free : ∃ k < nInode, (s.inodeCache k).ref = 0)
    (inodeNum : U32) :
    Yields (inodeGet cfg inodeNum) s fun j s' => j < nInode ∧
      (cachedSlot s inodeNum = some j ∧
          s' = s.setInode j { s.inodeCache j with ref := (s.inodeCache j).ref + 1 } ∨
        cachedSlot s inodeNum = none ∧ (s.inodeCache j).ref = 0 ∧
          s' = s.setInode j { s.inodeCache j with
            inodeNum := inodeNum
            ref := 1
            validInfo := false }) := by
  refine (inodeGet_ends lazy inodeNum).fails ?_
  rintro e ⟨-, -, full⟩
  obtain ⟨k, inside, empty⟩ := free
  have := full k inside
  omega

end Fs

/-! ## Walks -/

namespace Fs

variable {s : FsState} {i : ℕ} {live : U32 → Prop}

/-- Dropping a reference to an inode of the graph never reclaims it. -/
theorem inodePut_live (consistent : Consistent cfg live s) (inside : i < nInode)
    (alive : live (s.inodeCache i).inodeNum) :
    Yields (inodePut cfg i) s fun _ s' => s'.disk = s.disk ∧ Consistent cfg live s' ∧
      ∀ j, (s'.inodeCache j).inodeNum = (s.inodeCache j).inodeNum := by
  have keeps : ¬((s.inodeCache i).ref = 1 ∧ (s.inodeCache i).validInfo = true ∧
      (s.inodeCache i).diskInfo.nlink = 0) :=
    fun ⟨_, valid, unlinked⟩ => (consistent.node _ alive).linked
      ((consistent.cached i inside valid alive).nlink.symm.trans unlinked)
  refine (inodePut_yields keeps).mono ?_
  rintro _ _ rfl
  refine ⟨rfl, consistent.setInode (consistent.unlocked i inside) (consistent.cached i inside),
    fun j => ?_⟩
  by_cases here : j = i
  · rw [here, FsState.setInode_same]
  · rw [FsState.setInode_other _ _ _ here]

/-- Getting an inode keeps the state consistent and the numbers of the slots in use. -/
theorem inodeGet_live (lazy : cfg.eager = false) (consistent : Consistent cfg live s) (inodeNum : U32) :
    Ends (inodeGet cfg inodeNum) s (fun j s' => j < nInode ∧ s'.disk = s.disk ∧
      Consistent cfg live s' ∧ (s'.inodeCache j).inodeNum = inodeNum ∧
      ∀ k, 0 < (s.inodeCache k).ref → (s'.inodeCache k).inodeNum = (s.inodeCache k).inodeNum)
      fun e => e = noInodes ∧ cachedSlot s inodeNum = none ∧ ∀ k < nInode, 0 < (s.inodeCache k).ref := by
  refine ((inodeGet_ends lazy inodeNum).and (inodeGet_trades cfg inodeNum s)).mono ?_
  rintro j _ ⟨⟨inside, ⟨found, rfl⟩ | ⟨-, -, rfl⟩⟩, exchange⟩
  · have number := (cachedSlot_spec found).1
    exact ⟨inside, rfl, consistent.setInode (consistent.unlocked j inside) (consistent.cached j inside),
      by simpa using number, fun k used => (exchange.kept k used).1⟩
  · exact ⟨inside, rfl, consistent.setInode (consistent.unlocked j inside) nofun, by simp,
      fun k used => (exchange.kept k used).1⟩

/-- One step down follows an edge of the graph. -/
theorem pathDown_ends (sane : cfg.sb.Sane) (lazy : cfg.eager = false)
    (consistent : Consistent cfg live s) (inside : i < nInode) (held : 0 < (s.inodeCache i).ref)
    (alive : live (s.inodeCache i).inodeNum) (name : Bytes) :
    Ends (pathDown cfg i name) s (fun r s' => s'.disk = s.disk ∧ Consistent cfg live s' ∧
      match entry cfg.sb s.disk (s.inodeCache i).inodeNum (nameText name) with
      | none => r = none
      | some u => ∃ j < nInode, r = some j ∧ (s'.inodeCache j).inodeNum = u)
      fun e => e = noInodes ∧ ∀ k < nInode, 0 < (s.inodeCache k).ref := by
  have stands := consistent.stands inside alive
  have unlocked := consistent.unlocked i inside
  generalize number : (s.inodeCache i).inodeNum = t at alive stands
  have node := consistent.node t alive
  -- the state between the lock and the unlock, and the one behind the unlock
  let s₁ := s.setInode i { (s.inodeCache i).loaded cfg.sb s.disk with slk := true }
  let s₂ := s.setInode i { (s.inodeCache i).loaded cfg.sb s.disk with slk := false }
  have after : Consistent cfg live s₂ := by
    refine consistent.setInode rfl fun _ _ => ?_
    dsimp only
    rwa [Inode.loaded_inodeNum, number]
  have number₂ : (s₂.inodeCache i).inodeNum = t := by simp [s₂, number]
  have unlock {E : Fault → Prop} : Ends (inodeUnlock i) s₁ (fun _ s' => s' = s₂) E := by
    refine Ends.of_yields ?_
    refine (inodeUnlock_yields (by simpa [s₁] using held) (by simp [s₁])).mono ?_
    rintro _ _ rfl
    simp [s₁, s₂]
  have give {E : Fault → Prop} :
      Ends (inodePut cfg i) s₂ (fun _ s' => s'.disk = s.disk ∧ Consistent cfg live s') E :=
    .of_yields <| (inodePut_live after inside (number₂ ▸ alive)).mono fun _ _ put => ⟨put.1, put.2.1⟩
  rw [pathDown]
  refine Ends.bind_iff.mpr ((Ends.of_yields (inodeLock_yields held unlocked)).mono ?_)
  rintro _ _ rfl
  simp only [diskInfo, Ends.bind_iff, Ends.get_iff, Ends.pure_iff]
  have record : (s₁.inodeCache i).diskInfo = ((s.inodeCache i).loaded cfg.sb s.disk).diskInfo := by
    simp [s₁]
  refine Ends.ite (fun file => ?_) fun directory => ?_
  · rw [FsState.setInode_same, stands.type] at file
    rw [entry, if_neg file]
    refine Ends.bind_iff.mpr (unlock.mono ?_)
    rintro _ _ rfl
    refine Ends.bind_iff.mpr <| give.mono fun _ _ result => ?_
    obtain ⟨disk, consistent⟩ := result
    exact ⟨disk, consistent, rfl⟩
  · rw [FsState.setInode_same, not_not, stands.type] at directory
    have dir := node.dir directory
    have same := record.trans (stands.dir directory)
    have shows : Caches s₁ i (diskStore cfg.sb s.disk) t :=
      ⟨rfl, by simp [s₁, number], by rw [same, diskStore_image node]⟩
    have search := dentrySearch_yields sane consistent.sound shows (same ▸ dir) name
    refine Ends.bind_iff.mpr ((Ends.of_yields search).mono ?_)
    rintro r _ ⟨rfl, rfl⟩
    refine Ends.bind_iff.mpr (unlock.mono ?_)
    rintro _ _ rfl
    rw [same, entry, if_pos directory]
    cases found : dirMap (diskStore cfg.sb s.disk).trees t (inodeRead cfg.sb t s.disk) (nameText name) with
    | none =>
      rw [Option.getD_none, if_pos rfl]
      refine Ends.bind_iff.mpr <| give.mono fun _ _ result => ?_
      obtain ⟨disk, consistent⟩ := result
      exact ⟨disk, consistent, rfl⟩
    | some u =>
      have next : entry cfg.sb s.disk t (nameText name) = some u := by
        rw [entry, if_pos directory, found]
      have valid := (consistent.node u (consistent.closed t _ u alive next)).ne_minusOne sane
      have used : 0 < (s₂.inodeCache i).ref := by simpa [s₂] using held
      have crowded (k : ℕ) (used₂ : 0 < (s₂.inodeCache k).ref) : 0 < (s.inodeCache k).ref := by
        by_cases here : k = i
        · rwa [here]
        · rwa [FsState.setInode_other _ _ _ here] at used₂
      rw [Option.getD_some, if_neg valid]
      refine Ends.bind_iff.mpr (((inodeGet_live lazy after u).fails
        fun e fault => ⟨fault.1, fun k bound => crowded k (fault.2.2 k bound)⟩).mono ?_)
      rintro j s₃ ⟨bound, disk, consistent₃, number₃, kept⟩
      have alive₃ : live (s₃.inodeCache i).inodeNum := by
        rw [kept i used, number₂]
        exact alive
      refine Ends.bind_iff.mpr ((Ends.of_yields (inodePut_live consistent₃ inside alive₃)).mono ?_)
      rintro _ s₄ ⟨disk₄, consistent₄, numbers⟩
      exact ⟨disk₄.trans disk, consistent₄, j, bound, rfl, (numbers j).trans number₃⟩

end Fs

def spareSlots (s : FsState) : Finset ℕ := {i ∈ Finset.range nInode | (s.inodeCache i).ref = 0}

/-- A call that holds up to two inodes stops for want of a slot only if there were too few. -/
def Crowded (s : FsState) (e : Fault) : Prop := e = noInodes ∧ (spareSlots s).card < 2

theorem not_crowded {s : FsState} (spare : 2 ≤ (spareSlots s).card) {e : Fault} : ¬Crowded s e :=
  fun crowded => absurd spare (Nat.not_le_of_lt crowded.2)

/-- Holding fewer inodes than there are spare slots leaves a free slot. -/
theorem Exchange.free {s₀ s : FsState} {held : List ℕ} (exchange : Exchange s₀ [] s held)
    (few : held.length < (spareSlots s₀).card) : ∃ k < nInode, (s.inodeCache k).ref = 0 := by
  obtain ⟨k, spare, apart⟩ := Finset.exists_mem_notMem_of_card_lt_card
    (Nat.lt_of_le_of_lt held.toFinset_card_le few)
  obtain ⟨inside, empty⟩ := Finset.mem_filter.mp spare
  have ref := exchange.ref k (Nat.zero_le _)
  rw [List.count_eq_zero_of_not_mem fun member => apart (List.mem_toFinset.mpr member), empty,
    List.count_nil] at ref
  exact ⟨k, Finset.mem_range.mp inside, ref.symm⟩

private theorem Exchange.crowded {s₀ s : FsState} {held : List ℕ} (exchange : Exchange s₀ [] s held)
    (few : held.length ≤ 1) (full : ∀ k < nInode, 0 < (s.inodeCache k).ref) : Crowded s₀ noInodes := by
  refine ⟨rfl, Nat.lt_of_not_le fun spare => ?_⟩
  obtain ⟨k, inside, empty⟩ := exchange.free (Nat.lt_of_lt_of_le (Nat.lt_succ_of_le few) spare)
  have := full k inside
  omega

theorem Exchange.held {s₀ s : FsState} {i : ℕ} (exchange : Exchange s₀ [] s [i]) :
    0 < (s.inodeCache i).ref := by
  have ref := exchange.ref i (Nat.zero_le _)
  rw [List.count_singleton_self, List.count_nil] at ref
  omega

/-- Where a lookup starts: at the root, or at the working directory of a process. -/
def StartsAt (s : FsState) (p : ℕ) (path : List U8) (t : U32) : Prop :=
  if path.head? = some slash then t = rootInode
  else ∃ c < nInode, (s.procPool p).cwd = some c ∧ (s.inodeCache c).inodeNum = t

/-- A lookup can take the inode it starts at: `inode_get` finds the root in the cache or a free slot. -/
def Startable (s : FsState) (path : List U8) : Prop :=
  path.head? = some slash → Fs.cachedSlot s rootInode ≠ none ∨ Fs.freeSlot s ≠ none

/-- The inode that a path leads to: its components, each cut to 59 bytes, looked up one by one. -/
def resolve (sb : SuperBlock) (d : Disk) (start : U32) (path : List U8) : Option U32 :=
  ((components path).map cutName).foldlM (entry sb d) start

/-- What a lookup that started in `s₀` has reached: an inode of the graph, held in a slot. -/
structure Walked (cfg : FsConfig) (live : U32 → Prop) (s₀ s : FsState) (held : List ℕ) : Prop where
  disk : s.disk = s₀.disk
  consistent : Consistent cfg live s
  exchange : Exchange s₀ [] s held

namespace Fs

variable {s s₀ : FsState} {i : ℕ} {live : U32 → Prop}

theorem pathStart_ends (lazy : cfg.eager = false) (consistent : Consistent cfg live s) {p : ℕ}
    {path : List U8} {t : U32} (starts : StartsAt s p path t) :
    Ends (pathStart cfg p path) s (fun i s' => i < nInode ∧ Walked cfg live s s' [i] ∧
      (s'.inodeCache i).inodeNum = t) fun e => Crowded s e ∧ ¬Startable s path := by
  have start : Ends (pathStart cfg p path) s (fun i s' => i < nInode ∧ s'.disk = s.disk ∧
      Consistent cfg live s' ∧ (s'.inodeCache i).inodeNum = t) fun e => Crowded s e ∧ ¬Startable s path := ?_
  · refine (start.and (pathStart_trades cfg p path s)).mono ?_
    rintro i s' ⟨⟨inside, disk, consistent, number⟩, exchange⟩
    exact ⟨inside, ⟨disk, consistent, exchange⟩, number⟩
  rw [StartsAt] at starts
  rw [pathStart]
  refine Ends.ite (fun absolute => ?_) fun relative => ?_
  · rw [if_pos absolute] at starts
    refine ((inodeGet_live lazy consistent rootInode).fails ?_).mono ?_
    · rintro _ ⟨rfl, missed, full⟩
      refine ⟨(Exchange.refl s []).crowded (Nat.zero_le 1) full, fun startable => ?_⟩
      obtain ⟨k, found⟩ := Option.ne_none_iff_exists'.mp ((startable absolute).resolve_left (not_not.mpr missed))
      have := full k (List.mem_range.mp (List.mem_of_find?_eq_some found))
      have := freeSlot_spec found
      omega
    rintro i s' ⟨inside, disk, consistent, number, -⟩
    exact ⟨inside, disk, consistent, number.trans starts.symm⟩
  · rw [if_neg relative] at starts
    obtain ⟨c, inside, cwd, number⟩ := starts
    simp only [cwd, inodeDup, updateInode, Ends.bind_iff, Ends.get_iff, Ends.modify_iff, Ends.pure_iff]
    exact ⟨inside, rfl,
      consistent.setInode (consistent.unlocked c inside) (consistent.cached c inside), by simpa using number⟩

/-- One step of a walk. -/
theorem pathDown_walked (sane : cfg.sb.Sane) (lazy : cfg.eager = false)
    (walked : Walked cfg live s₀ s [i]) (inside : i < nInode) (alive : live (s.inodeCache i).inodeNum)
    (name : Bytes) :
    Ends (pathDown cfg i name) s (fun r s' => Walked cfg live s₀ s' r.toList ∧
      match entry cfg.sb s₀.disk (s.inodeCache i).inodeNum (nameText name) with
      | none => r = none
      | some u => live u ∧ ∃ j < nInode, r = some j ∧ (s'.inodeCache j).inodeNum = u) (Crowded s₀) := by
  obtain ⟨disk, consistent, exchange⟩ := walked
  have down := (pathDown_ends sane lazy consistent inside exchange.held alive name).and
    (pathDown_trades cfg i name s)
  refine (down.fails fun e ⟨panics, full⟩ => panics ▸ exchange.crowded (Nat.le_refl 1) full).mono ?_
  rintro r s' ⟨⟨disk', consistent', result⟩, step⟩
  refine ⟨⟨disk'.trans disk, consistent', exchange.trans step⟩, ?_⟩
  rw [← disk]
  cases found : entry cfg.sb s.disk (s.inodeCache i).inodeNum (nameText name) with
  | none => rwa [found] at result
  | some u =>
    rw [found] at result
    exact ⟨consistent.closed _ _ u alive found, result⟩

/-- A walk follows the components. -/
theorem pathWalk_ends (sane : cfg.sb.Sane) (lazy : cfg.eager = false) {names : List (List U8)}
    (text : ∀ c ∈ names, ∀ b ∈ c, b ≠ 0) (walked : Walked cfg live s₀ s [i]) (inside : i < nInode)
    (alive : live (s.inodeCache i).inodeNum) :
    Ends (pathWalk cfg names i) s (fun r s' => Walked cfg live s₀ s' r.toList ∧
      match (names.map cutName).foldlM (entry cfg.sb s₀.disk) (s.inodeCache i).inodeNum with
      | none => r = none
      | some u => live u ∧ ∃ j < nInode, r = some j ∧ (s'.inodeCache j).inodeNum = u) (Crowded s₀) := by
  induction names generalizing s i with
  | nil => exact ⟨walked, alive, i, inside, rfl, rfl⟩
  | cons c rest ih =>
    obtain ⟨here, later⟩ := List.forall_mem_cons.mp text
    rw [pathWalk, List.map_cons, List.foldlM_cons]
    refine Ends.bind_iff.mpr ((pathDown_walked sane lazy walked inside alive _).mono ?_)
    rintro r s' ⟨walked', result⟩
    rw [nameText_setName _ here] at result
    cases found : entry cfg.sb s₀.disk (s.inodeCache i).inodeNum (cutName c) with
    | none =>
      rw [found] at result
      obtain rfl := result
      exact ⟨walked', rfl⟩
    | some u =>
      rw [found] at result
      obtain ⟨alive', j, inside', rfl, rfl⟩ := result
      exact ih later walked' inside' alive'

/-- `path_to_inode` walks to the inode that the path leads to. -/
theorem pathToInode_ends (sane : cfg.sb.Sane) (lazy : cfg.eager = false)
    (consistent : Consistent cfg live s) {p : ℕ} {path : List U8} (text : ∀ b ∈ path, b ≠ 0) {start : U32}
    (starts : StartsAt s p path start) (alive : live start) :
    Ends (pathToInode cfg p path) s (fun r s' => Walked cfg live s s' r.toList ∧
      match resolve cfg.sb s.disk start path with
      | none => r = none
      | some t => live t ∧ ∃ i < nInode, r = some i ∧ (s'.inodeCache i).inodeNum = t) (Crowded s) := by
  refine Ends.bind_iff.mpr (((pathStart_ends lazy consistent starts).fails fun _ => And.left).mono ?_)
  rintro i s₁ ⟨inside, walked, rfl⟩
  rw [elements_eq]
  exact pathWalk_ends sane lazy (fun c member b => text b ∘ mem_component member) walked inside alive

end Fs

/-! ## Reference counts -/

/-- All references to an inode, over all slots with its number. -/
def refsTo (s : FsState) (t : U32) : ℕ :=
  ∑ i ∈ Finset.range nInode, if (s.inodeCache i).inodeNum = t then (s.inodeCache i).ref else 0

/-- Taking one reference counts for the inode of its slot, and nothing else changes the counts. -/
theorem Exchange.refsTo {s s' : FsState} {r : Option ℕ} (exchange : Exchange s [] s' r.toList)
    (inside : ∀ j, r = some j → j < nInode) (t : U32) :
    refsTo s' t = refsTo s t + if r.map (fun j => (s'.inodeCache j).inodeNum) = some t then 1 else 0 := by
  have each (i : ℕ) : (if (s'.inodeCache i).inodeNum = t then (s'.inodeCache i).ref else 0) =
      (if (s.inodeCache i).inodeNum = t then (s.inodeCache i).ref else 0) +
        if r = some i ∧ (s'.inodeCache i).inodeNum = t then 1 else 0 := by
    have ref := exchange.ref i (Nat.zero_le _)
    have count : r.toList.count i = if r = some i then 1 else 0 := by
      cases r with
      | none => rfl
      | some j => simp [List.count_singleton]
    rw [count, List.count_nil, Nat.add_zero] at ref
    rw [← ref]
    rcases Nat.eq_zero_or_pos (s.inodeCache i).ref with free | used
    · by_cases taken : r = some i <;> simp [free, taken]
    · rw [(exchange.kept i used).1]
      by_cases taken : r = some i <;> by_cases here : (s.inodeCache i).inodeNum = t <;> simp [taken, here]
  have one : ∑ i ∈ Finset.range nInode, (if r = some i ∧ (s'.inodeCache i).inodeNum = t then 1 else 0) =
      if r.map (fun j => (s'.inodeCache j).inodeNum) = some t then 1 else 0 := by
    cases r with
    | none => simp
    | some j =>
      have bound := Finset.mem_range.mpr (inside j rfl)
      rw [Finset.sum_eq_single_of_mem j bound fun i _ other => if_neg fun both =>
        other (Option.some.inj both.1).symm]
      simp
  rw [← one]
  exact (Finset.sum_congr rfl fun i _ => each i).trans Finset.sum_add_distrib

/-! ## Lookups -/

/-- A lookup fails at the first component that is missing or is looked up in something that is not a
directory. -/
theorem resolve_eq_none {d : Disk} {start : U32} {path : List U8} :
    resolve sb d start path = none ↔ ∃ before c after t, components path = before ++ c :: after ∧
      (before.map cutName).foldlM (entry sb d) start = some t ∧
      ((inodeRead sb t d).type ≠ inodeTypeDir ∨
        dirMap (diskStore sb d).trees t (inodeRead sb t d) (cutName c) = none) := by
  have edge (t : U32) (name : List U8) : entry sb d t name = none ↔
      (inodeRead sb t d).type ≠ inodeTypeDir ∨
        dirMap (diskStore sb d).trees t (inodeRead sb t d) name = none := by
    rw [entry]
    split
    · rename_i directory
      exact (or_iff_right (not_not.mpr directory)).symm
    · rename_i file
      exact iff_of_true rfl (Or.inl file)
  simp only [← edge, resolve]
  generalize components path = names
  induction names generalizing start with
  | nil => simp
  | cons c rest ih =>
    rw [List.map_cons, List.foldlM_cons]
    cases first : entry sb d start (cutName c) with
    | none => exact iff_of_true rfl ⟨[], c, rest, start, rfl, rfl, first⟩
    | some u =>
      refine (@ih u).trans ?_
      constructor
      · rintro ⟨before, c', after, t, rfl, reached, missing⟩
        refine ⟨c :: before, c', after, t, rfl, ?_, missing⟩
        rw [List.map_cons, List.foldlM_cons, first]
        exact reached
      · rintro ⟨before, c', after, t, split, reached, missing⟩
        cases before with
        | nil =>
          obtain ⟨rfl, rfl⟩ := List.cons.inj split
          obtain rfl := Option.some.inj reached
          rw [first] at missing
          cases missing
        | cons b before =>
          obtain ⟨rfl, rfl⟩ := List.cons.inj split
          rw [List.map_cons, List.foldlM_cons, first] at reached
          exact ⟨before, c', after, t, rfl, reached, missing⟩

/-- Slashes that are repeated, before or behind a path do not matter. -/
theorem resolve_slashes (d : Disk) (start : U32) (a b : List U8) :
    resolve sb d start (a ++ slash :: slash :: b) = resolve sb d start (a ++ slash :: b) ∧
      resolve sb d start (slash :: a) = resolve sb d start a ∧
      resolve sb d start (a ++ [slash]) = resolve sb d start a := by
  have leading (a : List U8) : components (slash :: a) = components a :=
    (components_slash [] a).trans (by rw [components_nil, List.nil_append])
  simp only [resolve, components_slash, leading, components_nil, List.append_nil, and_self]

/-- Path resolution is the walk through the directories: it finds the inode that the components lead
to, it fails exactly when one of them is missing or is looked up in something that is not a
directory, and it takes one reference to its result and leaves all other counts as they are. -/
theorem path_resolution (sane : sb.Sane) {live : U32 → Prop} {s : FsState}
    (consistent : Consistent ⟨sb, false⟩ live s) (spare : 2 ≤ (spareSlots s).card) {p : ℕ}
    {path : List U8} (text : ∀ b ∈ path, b ≠ 0) {start : U32} (starts : StartsAt s p path start)
    (alive : live start) :
    ∃ r s', Fs.pathToInode ⟨sb, false⟩ p path s = .ok r s' ∧
      (match resolve sb s.disk start path with
      | none => r = none
      | some t => ∃ i < nInode, r = some i ∧ (s'.inodeCache i).inodeNum = t) ∧
      (r = none ↔ ∃ before c after t, components path = before ++ c :: after ∧
        (before.map cutName).foldlM (entry sb s.disk) start = some t ∧
        ((inodeRead sb t s.disk).type ≠ inodeTypeDir ∨
          dirMap (diskStore sb s.disk).trees t (inodeRead sb t s.disk) (cutName c) = none)) ∧
      (∀ a b, resolve sb s.disk start (a ++ slash :: slash :: b) =
          resolve sb s.disk start (a ++ slash :: b) ∧
        resolve sb s.disk start (slash :: a) = resolve sb s.disk start a ∧
        resolve sb s.disk start (a ++ [slash]) = resolve sb s.disk start a) ∧
      ∀ t, refsTo s' t = refsTo s t + if resolve sb s.disk start path = some t then 1 else 0 := by
  have walk := (Fs.pathToInode_ends sane rfl consistent text starts alive).yields fun _ => not_crowded spare
  obtain ⟨r, s', result, walked, found⟩ := walk.result
  have same := fun a b => @resolve_slashes sb s.disk start a b
  rw [← resolve_eq_none]
  cases target : resolve sb s.disk start path with
  | none =>
    rw [target] at found
    refine ⟨r, s', result, found, iff_of_true found rfl, same, fun t => ?_⟩
    rw [walked.exchange.refsTo (by simp [found]) t, found]
    rfl
  | some u =>
    rw [target] at found
    refine ⟨r, s', result, found.2, ?_, same, fun t => ?_⟩
    · obtain ⟨-, i, inside, rfl, number⟩ := found
      exact iff_of_false nofun nofun
    · obtain ⟨-, i, inside, rfl, number⟩ := found
      rw [walked.exchange.refsTo (by simpa using inside) t, Option.map_some, number]

/-- The seven inodes of the image of `mkfs` are consistent when the kernel starts. -/
theorem mkfs_consistent :
    Consistent ⟨mkfsSuperBlock, false⟩ (fun t => t.toNat < 7) (FsState.init Mkfs.disk) where
  sound := Mkfs.sound_disk
  node _ inside := Mkfs.node_disk inside
  closed _ _ _ inside found := (Mkfs.closed_disk inside found).1
  cached _ _ valid := absurd valid Bool.false_ne_true
  unlocked _ _ := rfl

theorem spareSlots_init (d : Disk) : (spareSlots (FsState.init d)).card = nInode := by
  have all : spareSlots (FsState.init d) = Finset.range nInode := Finset.filter_eq_self.mpr fun _ _ => rfl
  rw [all, Finset.card_range]

def stdinPath : List U8 := [0x2F, 0x64, 0x65, 0x76, 0x2F, 0x2F, 0x73, 0x74, 0x64, 0x69, 0x6E]

/-- On the image of `mkfs`, `/dev//stdin` is inode 2. -/
theorem path_resolution_stdin :
    ∃ r s', Fs.pathToInode ⟨mkfsSuperBlock, false⟩ 0 stdinPath (FsState.init Mkfs.disk) = .ok r s' ∧
      (∃ i < nInode, r = some i ∧ (s'.inodeCache i).inodeNum = 2) ∧ refsTo s' 2 = 1 := by
  have two : resolve mkfsSuperBlock (FsState.init Mkfs.disk).disk rootInode stdinPath = some 2 := by
    decide +kernel
  have spare : 2 ≤ (spareSlots (FsState.init Mkfs.disk)).card := by
    rw [spareSlots_init]
    decide
  have text : ∀ b ∈ stdinPath, b ≠ 0 := by decide
  have starts : StartsAt (FsState.init Mkfs.disk) 0 stdinPath rootInode := rfl
  obtain ⟨r, s', result, found, -, -, refs⟩ :=
    path_resolution mkfsSuperBlock_sane mkfs_consistent spare text starts (by decide)
  rw [two] at found
  refine ⟨r, s', result, found, ?_⟩
  rw [refs, two, if_pos rfl]
  rfl

/-! ## Parents -/

/-- The directory that a path names an entry of: all components but the last, looked up one by one. -/
def resolveParent (sb : SuperBlock) (d : Disk) (start : U32) (path : List U8) : Option U32 :=
  ((components path).dropLast.map cutName).foldlM (entry sb d) start

/-- The name of this entry; for a path without components it is whatever the name buffer held. -/
def lastName (junk : Bytes) (path : List U8) : List U8 :=
  ((components path).getLast?.map cutName).getD (nameText junk)

namespace Fs

variable {s s₀ : FsState} {i : ℕ} {live : U32 → Prop}

/-- What a lookup of a parent finds. -/
def FoundParent (sb : SuperBlock) (live : U32 → Prop) (s : FsState) (start : U32) (path : List U8)
    (junk : Bytes) (s' : FsState) (r : Option (ℕ × Bytes)) : Prop :=
  match resolveParent sb s.disk start path with
  | none => r = none
  | some t => live t ∧ ∃ i < nInode, ∃ name, r = some (i, name) ∧ (s'.inodeCache i).inodeNum = t ∧
      nameText name = lastName junk path ∧ (components path ≠ [] → IsName name)

/-- The walk to a parent follows the component in the name buffer and all later ones but the last. -/
private theorem parentWalk_ends (sane : cfg.sb.Sane) (lazy : cfg.eager = false) {c : List U8} {rest : List (List U8)}
    (text : ∀ c' ∈ c :: rest, c' ≠ [] ∧ ∀ b ∈ c', b ≠ 0) (walked : Walked cfg live s₀ s [i])
    (inside : i < nInode) (alive : live (s.inodeCache i).inodeNum) (name : Bytes) :
    Ends (parentWalk cfg rest i (setName name c)) s (fun r s' => Walked cfg live s₀ s' (parentSlot r) ∧
      match ((c :: rest).dropLast.map cutName).foldlM (entry cfg.sb s₀.disk) (s.inodeCache i).inodeNum with
      | none => r = none
      | some t => live t ∧ ∃ i < nInode, ∃ name, r = some (i, name) ∧ (s'.inodeCache i).inodeNum = t ∧
          some (nameText name) = (c :: rest).getLast?.map cutName ∧ IsName name) (Crowded s₀) := by
  induction rest generalizing c s i name with
  | nil =>
    obtain ⟨some, bytes⟩ := text c (List.mem_cons_self ..)
    exact ⟨walked, alive, i, inside, _, rfl, rfl, congrArg _ (nameText_setName name bytes),
      isName_setName name some bytes⟩
  | cons e rest ih =>
    obtain ⟨⟨-, bytes⟩, later⟩ := List.forall_mem_cons.mp text
    rw [parentWalk, List.dropLast_cons_of_ne_nil (List.cons_ne_nil e rest), List.map_cons,
      List.foldlM_cons]
    refine Ends.bind_iff.mpr ((pathDown_walked sane lazy walked inside alive _).mono ?_)
    rintro r s' ⟨walked', result⟩
    rw [nameText_setName name bytes] at result
    cases found : entry cfg.sb s₀.disk (s.inodeCache i).inodeNum (cutName c) with
    | none =>
      rw [found] at result
      obtain rfl := result
      exact ⟨walked', rfl⟩
    | some u =>
      rw [found] at result
      obtain ⟨alive', j, inside', rfl, rfl⟩ := result
      rw [List.getLast?_cons_cons]
      exact ih later walked' inside' alive' _

/-- `path_to_parent_inode` walks to the parent. -/
theorem pathToParentInode_ends (sane : cfg.sb.Sane) (lazy : cfg.eager = false)
    (consistent : Consistent cfg live s) {p : ℕ} {path : List U8} (text : ∀ b ∈ path, b ≠ 0) {start : U32}
    (starts : StartsAt s p path start) (alive : live start) (junk : Bytes) :
    Ends (pathToParentInode cfg p path junk) s (fun r s' => Walked cfg live s s' (parentSlot r) ∧
      FoundParent cfg.sb live s start path junk s' r) (Crowded s) := by
  refine Ends.bind_iff.mpr (((pathStart_ends lazy consistent starts).fails fun _ => And.left).mono ?_)
  rintro i s₁ ⟨inside, walked, rfl⟩
  unfold FoundParent resolveParent lastName
  rw [elements_eq]
  have bytes (c : List U8) (member : c ∈ components path) : c ≠ [] ∧ ∀ b ∈ c, b ≠ 0 :=
    ⟨component_ne_nil member, fun b => text b ∘ mem_component member⟩
  cases names : components path with
  | nil => exact ⟨walked, alive, i, inside, junk, rfl, rfl, rfl, fun some => absurd rfl some⟩
  | cons c rest =>
    rw [names] at bytes
    refine (parentWalk_ends sane lazy bytes walked inside alive junk).mono ?_
    rintro r s' ⟨walked', found⟩
    refine ⟨walked', ?_⟩
    split at found
    · exact found
    · obtain ⟨alive', j, inside', name, result, number, last, isName⟩ := found
      refine ⟨alive', j, inside', name, result, number, ?_, fun _ => isName⟩
      rw [← last]
      rfl

theorem pathToParentInode_yields (sane : cfg.sb.Sane) (lazy : cfg.eager = false)
    (consistent : Consistent cfg live s) (spare : 2 ≤ (spareSlots s).card) {p : ℕ} {path : List U8}
    (text : ∀ b ∈ path, b ≠ 0) {start : U32} (starts : StartsAt s p path start) (alive : live start)
    (junk : Bytes) :
    Yields (pathToParentInode cfg p path junk) s fun r s' =>
      Walked cfg live s s' (parentSlot r) ∧ FoundParent cfg.sb live s start path junk s' r :=
  (pathToParentInode_ends sane lazy consistent text starts alive junk).yields fun _ => not_crowded spare

end Fs

end LabKernel
