import LabKernel.Fs.InodeData
import LabKernel.Lib.Transition

/-! # Block ownership

A store is a disk with one in-memory image per allocated inode. Creating, writing, reading and
deleting inodes keeps every entered block owned: it lies in the data area, its bit is set, and one
place of one inode enters it. Deletion clears bits of blocks of the deleted inode only, however far
its recursion gets.
-/

namespace LabKernel

open BlockTrees

variable {sb : SuperBlock}

/-! ## Freeing -/

/-- A change of the data bitmap that touches only bits in `freed`. -/
structure Freed (sb : SuperBlock) (freed : ℕ → Prop) (d d' : Disk) : Prop where
  other : ∀ b, b < sb.dataBitmapFirstblock ∨ sb.dataFirstblock ≤ b → d' b = d b
  kept : ∀ k < sb.dataBlocks, ¬freed k → d'.used sb k = d.used sb k

/-- Block `k` of the data area is entered somewhere in the tree of inode `t`. -/
def InTree (sb : SuperBlock) (s : BlockTrees) (t : U32) (k : ℕ) : Prop :=
  ∃ p, Place.Valid p ∧ s.block t p ≠ 0 ∧ (s.block t p).toNat = sb.dataFirstblock + k

/-- Block `k` of the data area is entered at a place or below it. -/
def Subtree (sb : SuperBlock) (s : BlockTrees) (t : U32) (p : Place) (k : ℕ) : Prop :=
  ∃ q, Place.Valid q ∧ p ∈ q.path ∧ s.block t q ≠ 0 ∧ (s.block t q).toNat = sb.dataFirstblock + k

/-- A change of the data bitmap that clears the bits in `gone` and no others. -/
structure Erased (sb : SuperBlock) (gone : ℕ → Prop) (d d' : Disk) : Prop where
  other : ∀ b, b < sb.dataBitmapFirstblock ∨ sb.dataFirstblock ≤ b → d' b = d b
  used : ∀ k, d'.used sb k = true ↔ d.used sb k = true ∧ ¬gone k

namespace Erased

variable {gone gone' : ℕ → Prop} {d d' d'' : Disk}

private theorem refl (none : ∀ k, ¬gone k) (d : Disk) : Erased sb gone d d :=
  ⟨fun _ _ => rfl, fun k => (and_iff_left (none k)).symm⟩

private theorem trans (first : Erased sb gone d d') (second : Erased sb gone' d' d'') :
    Erased sb (fun k => gone k ∨ gone' k) d d'' := by
  refine ⟨fun b outside => (second.other b outside).trans (first.other b outside), fun k => ?_⟩
  rw [second.used, first.used, not_or, and_assoc]

private theorem congr (erased : Erased sb gone d d') (same : ∀ k, gone k ↔ gone' k) : Erased sb gone' d d' :=
  ⟨erased.other, fun k => by rw [erased.used, same k]⟩

private theorem freed (erased : Erased sb gone d d') : Freed sb gone d d' := by
  refine ⟨erased.other, fun k _ kept => ?_⟩
  rw [Bool.eq_iff_iff, erased.used, and_iff_left kept]

end Erased

/-- Below a place are its entries and what is below them. -/
theorem Place.path_split {p q : Place} : p ∈ q.path ↔ p = q ∨ ∃ j, Place.sub p j ∈ q.path := by
  induction q with
  | root i => simp [path]
  | sub r i ih =>
    simp only [path, List.mem_append, List.mem_singleton, ih, sub.injEq]
    constructor
    · rintro ((rfl | ⟨j, below⟩) | rfl)
      · exact Or.inr ⟨i, Or.inr ⟨rfl, rfl⟩⟩
      · exact Or.inr ⟨j, Or.inl below⟩
      · exact Or.inl rfl
    · rintro (rfl | ⟨j, below | ⟨rfl, rfl⟩⟩)
      · exact Or.inr rfl
      · exact Or.inl (Or.inr ⟨j, below⟩)
      · exact Or.inl (Or.inl rfl)

theorem Subtree.root {s : BlockTrees} {t : U32} {k : ℕ} :
    InTree sb s t k ↔ ∃ i < inodeIndex3, Subtree sb s t (.root i) k := by
  constructor
  · rintro ⟨q, valid, filled, number⟩
    obtain ⟨rest, path, -⟩ := q.path_eq
    exact ⟨q.top, valid.top, q, valid, path ▸ List.mem_cons_self .., filled, number⟩
  · rintro ⟨i, -, q, valid, -, filled, number⟩
    exact ⟨q, valid, filled, number⟩

/-- All places on the way to an entered block are filled. -/
theorem block_path {s : BlockTrees} {t : U32} {p q : Place} (on : p ∈ q.path)
    (filled : s.block t q ≠ 0) : s.block t p ≠ 0 := by
  induction q with
  | root i =>
    obtain rfl := List.mem_singleton.mp on
    exact filled
  | sub r j ih =>
    rcases List.mem_append.mp on with above | here
    · exact ih above (block_parent filled)
    · obtain rfl := List.mem_singleton.mp here
      exact filled

/-- Below an empty place there is no block. -/
theorem Subtree.empty {s : BlockTrees} {t : U32} {p : Place} (empty : s.block t p = 0) (k : ℕ) :
    ¬Subtree sb s t p k := by
  rintro ⟨q, -, below, filled, -⟩
  exact block_path below filled empty

private theorem bitmapFreeBlock_erased (sane : sb.Sane) {k : ℕ} (inside : k < sb.dataBlocks) {b : U32}
    (number : b.toNat = sb.dataFirstblock + k) (d : Disk) :
    Erased sb (· = k) d (bitmapFreeBlock sb b d) := by
  have top := sane.dataEnd
  have offset : (b - BitVec.ofNat 32 sb.dataFirstblock).toNat = k := by
    rw [BitVec.toNat_sub, BitVec.toNat_ofNat, Nat.mod_eq_of_lt (by omega : sb.dataFirstblock < 2 ^ 32),
      number]
    omega
  have cleared : bitmapFreeBlock sb b d = d.clearBitAt sb.dataBitmapFirstblock k := by
    rw [bitmapFreeBlock, offset]
    rfl
  have before := bitmap_before_data sane inside
  rw [cleared]
  constructor
  · intro b outside
    exact Disk.clearBitAt_other (by omega)
  · intro j
    rw [Disk.used, Disk.bitAt_clearBitAt, Bool.and_eq_true, Bool.not_eq_true', decide_eq_false_iff_not]
    rfl

private theorem forRange_erased (step : ℕ → Disk → Disk) (gone : ℕ → ℕ → Prop) (same : Disk → Prop)
    (kept : ∀ i d d', same d → Erased sb (gone i) d d' → same d') (n i : ℕ) {d : Disk} (start : same d)
    (each : ∀ j d, j < i + n → same d → Erased sb (gone j) d (step j d)) :
    Erased sb (fun k => ∃ j, i ≤ j ∧ j < i + n ∧ gone j k) d (forRange step n i d) := by
  induction n generalizing i d with
  | zero =>
    refine .refl (fun k some => ?_) d
    obtain ⟨j, low, high, -⟩ := some
    omega
  | succ n ih =>
    have first := each i d (by omega) start
    have rest := ih (i + 1) (kept i _ _ start first) fun j d bound => each j d (by omega)
    refine (first.trans rest).congr fun k => ?_
    constructor
    · rintro (here | ⟨j, low, high, later⟩)
      · exact ⟨i, Nat.le_refl i, by omega, here⟩
      · exact ⟨j, by omega, by omega, later⟩
    · rintro ⟨j, low, high, some⟩
      rcases Nat.eq_or_lt_of_le low with rfl | more
      · exact Or.inl some
      · exact Or.inr ⟨j, more, by omega, some⟩

/-- `__free_data_blocks` at a place clears the bits of the block there and of all below it: its loop
goes on behind empty entries. -/
private theorem freeDataBlocksAt_erased (sane : sb.Sane) {s : BlockTrees} (owned : Owned sb s)
    {t : U32} (level : ℕ) {p : Place} (valid : p.Valid) (height : p.level = level) {d : Disk}
    (same : ∀ b, sb.dataFirstblock ≤ b → d b = s.disk b) :
    Erased sb (Subtree sb s t p) d (freeDataBlocksAt sb level (s.block t p) d).2 := by
  induction level generalizing p d with
  | zero =>
    unfold freeDataBlocksAt
    split
    · exact .refl (Subtree.empty ‹_›) d
    · rename_i filled
      obtain ⟨k, inside, number, -⟩ := owned.stored t p valid filled
      refine (bitmapFreeBlock_erased sane inside number d).congr fun j => ?_
      constructor
      · rintro rfl
        exact ⟨p, valid, Place.path_split.mpr (Or.inl rfl), filled, number⟩
      · rintro ⟨q, within, below, -, place⟩
        rcases Place.path_split.mp below with rfl | ⟨i, deeper⟩
        · omega
        · have inner := path_valid within deeper
          have := inner.2.1
          omega
  | succ level ih =>
    unfold freeDataBlocksAt
    split
    · exact .refl (Subtree.empty ‹_›) d
    · rename_i filled
      obtain ⟨k, inside, number, -⟩ := owned.stored t p valid filled
      have tables := forRange_erased
        (fun i d => (freeDataBlocksAt sb level (d.entry (s.block t p).toNat i) d).2)
        (fun i => Subtree sb s t (.sub p i)) (fun d => ∀ b, sb.dataFirstblock ≤ b → d b = s.disk b)
        (fun i d d' same erased b data => (erased.other b (Or.inr data)).trans (same b data))
        1024 0 same fun i d bound same => by
          have entry : d.entry (s.block t p).toNat i = s.block t (.sub p i) := by
            rw [s.block_sub t i filled, Disk.entry, same _ (by omega)]
            rfl
          have below : (Place.sub p i).Valid := ⟨valid, by omega, by omega⟩
          rw [entry]
          refine ih below ?_ same
          rw [Place.level, height, Nat.add_sub_cancel]
      refine (tables.trans (bitmapFreeBlock_erased sane inside number _)).congr fun j => ?_
      constructor
      · rintro (⟨i, -, -, q, within, below, filled', place⟩ | rfl)
        · exact ⟨q, within, Place.path_split.mpr (Or.inr ⟨i, below⟩), filled', place⟩
        · exact ⟨p, valid, Place.path_split.mpr (Or.inl rfl), filled, number⟩
      · rintro ⟨q, within, below, filled', place⟩
        rcases Place.path_split.mp below with rfl | ⟨i, deeper⟩
        · exact Or.inr (by omega)
        · have bound := (path_valid within deeper).2.2
          exact Or.inl ⟨i, Nat.zero_le i, by omega, q, within, deeper, filled', place⟩

theorem freeDataBlocksAt_empty (sb : SuperBlock) (level : ℕ) (b : U32) (d : Disk) :
    (freeDataBlocksAt sb level b d).1 = true ↔ b = 0 := by
  cases level <;> unfold freeDataBlocksAt <;> split <;> simp_all

/-- `free_data_blocks` clears the bits of the trees below the entries up to the first empty one. -/
private theorem freeDataBlocksFrom_erased (sane : sb.Sane) {s : BlockTrees} (owned : Owned sb s)
    {t : U32} (n i : ℕ) (range : i + n = inodeIndex3) {index : Index} {d : Disk}
    (rest : ∀ j, i ≤ j → index.get j = (s.index t).get j)
    (same : ∀ b, sb.dataFirstblock ≤ b → d b = s.disk b) :
    Erased sb (fun k => ∃ j, i ≤ j ∧ j < inodeIndex3 ∧ (∀ m, i ≤ m → m < j → (s.index t).get m ≠ 0) ∧
      Subtree sb s t (.root j) k) d (freeDataBlocksFrom sb n i index d).2 := by
  induction n generalizing i index d with
  | zero =>
    refine .refl (fun k some => ?_) d
    obtain ⟨j, low, high, -⟩ := some
    omega
  | succ n ih =>
    have bound : i < inodeIndex3 := by omega
    have erased := freeDataBlocksAt_erased sane owned (t := t) (indexLevel i) (p := .root i) bound rfl same
    have empty := freeDataBlocksAt_empty sb (indexLevel i) (s.block t (.root i)) d
    unfold freeDataBlocksFrom
    rw [rest i (Nat.le_refl i), ← block_root]
    dsimp only
    split
    · rename_i stop
      have stop : s.block t (.root i) = 0 := empty.mp stop
      refine erased.congr fun k => iff_of_false (Subtree.empty stop k) ?_
      rintro ⟨j, low, high, before, some⟩
      rcases Nat.eq_or_lt_of_le low with rfl | more
      · exact Subtree.empty stop k some
      · exact before i (Nat.le_refl i) more stop
    · rename_i goes
      have goes : s.block t (.root i) ≠ 0 := empty.not.mp goes
      have left : ∀ j, i + 1 ≤ j → (index.set i 0).get j = (s.index t).get j := fun j later => by
        rw [Index.get_set bound, if_neg (by omega), rest j (by omega)]
      have later := ih (i + 1) (by omega) left
        fun b data => (erased.other b (Or.inr data)).trans (same b data)
      refine (erased.trans later).congr fun k => ?_
      constructor
      · rintro (here | ⟨j, low, high, before, some⟩)
        · exact ⟨i, Nat.le_refl i, bound, fun m low high => absurd low (by omega), here⟩
        · refine ⟨j, by omega, high, fun m low' high' => ?_, some⟩
          rcases Nat.eq_or_lt_of_le low' with rfl | more
          · exact goes
          · exact before m more high'
      · rintro ⟨j, low, high, before, some⟩
        rcases Nat.eq_or_lt_of_le low with rfl | more
        · exact Or.inl some
        · exact Or.inr ⟨j, more, high, fun m low' high' => before m (by omega) high', some⟩

/-- The blocks that `free_data_blocks` reaches: those below entries with no empty entry before them. -/
def Reached (sb : SuperBlock) (s : BlockTrees) (t : U32) (k : ℕ) : Prop :=
  ∃ j < inodeIndex3, (∀ m < j, (s.index t).get m ≠ 0) ∧ Subtree sb s t (.root j) k

theorem freeDataBlocks_erased (sane : sb.Sane) {s : BlockTrees} (owned : Owned sb s) (t : U32) :
    Erased sb (Reached sb s t) s.disk (freeDataBlocks sb (s.index t) s.disk).2 := by
  refine (freeDataBlocksFrom_erased sane owned inodeIndex3 0 (Nat.zero_add _) (fun _ _ => rfl)
    fun _ _ => rfl).congr fun k => ?_
  simp only [Reached, Nat.zero_le, true_and, forall_const]

/-- `free_data_blocks` clears bits of blocks of the inode only. -/
theorem freeDataBlocks_freed (sane : sb.Sane) {s : BlockTrees} (owned : Owned sb s) (t : U32) :
    Freed sb (InTree sb s t) s.disk (freeDataBlocks sb (s.index t) s.disk).2 := by
  have freed := (freeDataBlocks_erased sane owned t).freed
  refine ⟨freed.other, fun k inside outside => freed.kept k inside ?_⟩
  rintro ⟨j, bound, -, some⟩
  exact outside (Subtree.root.mpr ⟨j, bound, some⟩)

/-- Without one inode and with only its blocks freed, the other trees are as before. -/
theorem block_freed {s : BlockTrees} (owned : Owned sb s) {t u : U32} (other : u ≠ t) {d : Disk}
    (same : ∀ b, sb.dataFirstblock ≤ b → d b = s.disk b) {p : Place} (valid : p.Valid)
    (index : Index) : (s.put t index d).block u p = s.block u p := by
  change (s.put t index d).forest.entry blockOf 0 u p = s.forest.entry blockOf 0 u p
  refine Forest.entry_congr (fun _ _ => Place.Inner.parent) (fun i => ?_) ?_ valid.within
  · change ((s.put t index d).index u).get i = _
    rw [put_index_other _ other]
    rfl
  · intro q a j inner points
    obtain ⟨filled, rfl⟩ := blockOf_eq_some points
    obtain ⟨k, -, number, -⟩ := owned.stored u q inner.1 filled
    have data : sb.dataFirstblock ≤ (s.block u q).toNat := by omega
    exact congrArg (Bytes.u32 · (4 * j)) (same _ data)

theorem block_empty (s : BlockTrees) (t : U32) (d : Disk) (p : Place) :
    (s.put t Index.empty d).block t p = 0 := by
  induction p with
  | root i => rw [block_root, put_index, Index.get_empty]
  | sub q j ih => exact block_sub_of_zero _ t j ih

/-- Deleting an inode leaves the blocks of the others owned. -/
theorem owned_freed {s : BlockTrees} (owned : Owned sb s) {t : U32} {d : Disk}
    (freed : Freed sb (InTree sb s t) s.disk d) : Owned sb (s.put t Index.empty d) := by
  have same (b : ℕ) (data : sb.dataFirstblock ≤ b) : d b = s.disk b := freed.other b (Or.inr data)
  have survivor {u : U32} {p : Place} (filled : (s.put t Index.empty d).block u p ≠ 0) : u ≠ t := by
    rintro rfl
    exact filled (block_empty ..)
  constructor
  · intro u p valid filled
    have other := survivor filled
    rw [block_freed owned other same valid] at filled ⊢
    obtain ⟨k, inside, number, taken⟩ := owned.stored u p valid filled
    refine ⟨k, inside, number, ?_⟩
    rw [put_disk, freed.kept k inside, taken]
    rintro ⟨q, within, -, place⟩
    exact other (owned.once u p t q valid within
      (BitVec.eq_of_toNat_eq (number.trans place.symm)) filled).1
  · intro u p v q validP validQ equal filled
    have left := survivor filled
    have right := survivor (equal ▸ filled)
    rw [block_freed owned left same validP, block_freed owned right same validQ] at equal
    rw [block_freed owned left same validP] at filled
    exact owned.once u p v q validP validQ equal filled

/-! ## Stores -/

/-- A disk and the in-memory images of the allocated inodes. -/
structure Store where
  disk : Disk
  image : U32 → Option InodeDisk

inductive InodeOp where
  | create (type major minor : U16)
  | write (inodeNum : U32) (offset len : U32) (src : Bytes)
  | read (inodeNum : U32) (offset len : U32) (dst : Bytes)
  | delete (inodeNum : U32)

namespace Store

/-- The index tables of the images; an inode without image has no blocks. -/
def trees (s : Store) : BlockTrees := ⟨fun t => ((s.image t).map InodeDisk.index).getD Index.empty, s.disk⟩

/-- Bit of an inode in the inode bitmap. -/
def allocated (sb : SuperBlock) (d : Disk) (t : U32) : Bool :=
  d.bitAt sb.inodeBitmapFirstblock t.toNat

/-- One request; a request on an inode that is not allocated does nothing. -/
def step (sb : SuperBlock) (s : Store) : InodeOp → Store
  | .create type major minor =>
    let r := bitmapAllocInode sb s.disk
    if r.1 = minusOne then { s with disk := r.2 }
    else
      { disk := inodeWrite sb r.1 (newInode type major minor) r.2
        image := Function.update s.image r.1 (some (newInode type major minor)) }
  | .write t offset len src =>
    match s.image t with
    | none => s
    | some info =>
      let r := inodeWriteData sb t info offset len src s.disk
      { disk := r.2.2, image := Function.update s.image t (some r.2.1) }
  | .read t offset len dst =>
    match s.image t with
    | none => s
    | some info =>
      let r := inodeReadData sb info offset len dst s.disk
      { disk := r.2.2.2, image := Function.update s.image t (some r.2.1) }
  | .delete t =>
    match s.image t with
    | none => s
    | some info => { disk := (inodeDelete sb t info s.disk).2, image := Function.update s.image t none }

/-- One image per allocated inode, and no others. -/
def Imaged (sb : SuperBlock) (s : Store) : Prop :=
  ∀ t, (s.image t).isSome ↔ t.toNat < sb.totalInodes ∧ allocated sb s.disk t = true

@[simp] theorem trees_disk (s : Store) : s.trees.disk = s.disk := rfl

theorem trees_index {s : Store} {t : U32} {info : InodeDisk} (image : s.image t = some info) :
    s.trees.index t = info.index := by
  simp [trees, image]

theorem trees_update (s : Store) (t : U32) (info : InodeDisk) (d : Disk) :
    trees ⟨d, Function.update s.image t (some info)⟩ = s.trees.put t info.index d := by
  unfold trees put
  congr 1
  funext u
  by_cases same : u = t
  · subst same
    simp
  · simp [same]

theorem trees_remove (s : Store) (t : U32) (d : Disk) :
    trees ⟨d, Function.update s.image t none⟩ = s.trees.put t Index.empty d := by
  unfold trees put
  congr 1
  funext u
  by_cases same : u = t
  · subst same
    simp
  · simp [same]

/-- The inode bitmap lies before the inode area. -/
theorem inodeBitmap_before (sane : sb.Sane) {k : ℕ} (inside : k < sb.totalInodes) :
    sb.inodeBitmapFirstblock + k / bitPerBlock < sb.inodeFirstblock := by
  have blocks : k / bitPerBlock < sb.inodeBitmapBlocks :=
    Nat.div_lt_of_lt_mul (by rw [Nat.mul_comm]; exact Nat.lt_of_lt_of_le inside sane.inodeBits)
  have := sane.inodeBitmapEnd
  omega

theorem inodeBitmap_low (sane : sb.Sane) {k : ℕ} (inside : k < sb.totalInodes) :
    sb.inodeBitmapFirstblock + k / bitPerBlock < sb.dataBitmapFirstblock := by
  have := inodeBitmap_before sane inside
  have := sane.inodeEnd
  omega

theorem allocated_congr (sane : sb.Sane) {d d' : Disk} {t : U32}
    (inside : t.toNat < sb.totalInodes) (same : ∀ b < sb.inodeFirstblock, d' b = d b) :
    allocated sb d' t = allocated sb d t :=
  Disk.bitAt_congr (same _ (inodeBitmap_before sane inside))

theorem allocated_bitmapFreeInode (d : Disk) (t u : U32) :
    allocated sb (bitmapFreeInode sb t d) u = (allocated sb d u && !decide (u.toNat = t.toNat)) :=
  Disk.bitAt_clearBitAt d sb.inodeBitmapFirstblock t.toNat u.toNat

/-- A request that keeps the inode bitmap and only replaces an image keeps the images matched. -/
private theorem imaged_replace (sane : sb.Sane) {s : Store} (imaged : Imaged sb s) {t : U32}
    {info : InodeDisk} (image : s.image t = some info) (info' : InodeDisk) {d : Disk}
    (same : ∀ b < sb.inodeFirstblock, d b = s.disk b) :
    Imaged sb ⟨d, Function.update s.image t (some info')⟩ := by
  intro u
  have support : (Function.update s.image t (some info') u).isSome = (s.image u).isSome := by
    by_cases here : u = t
    · subst here
      rw [Function.update_self, image]
      rfl
    · rw [Function.update_of_ne here]
  dsimp only
  rw [support, imaged u]
  exact and_congr_right fun inside => by rw [allocated_congr sane inside same]

theorem put_of_other {s s₁ : BlockTrees} {t : U32}
    (other : ∀ u ≠ t, s₁.index u = s.index u) (d : Disk) :
    s.put t (s₁.index t) d = ⟨s₁.index, d⟩ := by
  unfold put
  congr 1
  funext u
  by_cases same : u = t
  · rw [same, Function.update_self]
  · rw [Function.update_of_ne same, other u same]

structure Sound (sb : SuperBlock) (s : Store) : Prop where
  imaged : Imaged sb s
  owned : Owned sb s.trees

theorem inside_of_image {s : Store} (sound : Sound sb s) {t : U32} {info : InodeDisk}
    (image : s.image t = some info) : t.toNat < sb.totalInodes :=
  ((sound.imaged t).mp (by rw [image]; rfl)).1

/-- Writing a record leaves the blocks before the inode area alone. -/
theorem inodeWrite_before {t : U32} {b : ℕ} (before : b < sb.inodeFirstblock)
    (info : InodeDisk) (d : Disk) : inodeWrite sb t info d b = d b := by
  have := inodeBlock_high sb t
  exact inodeWrite_other (by omega) info d

private theorem step_create (sane : sb.Sane) {s : Store} (sound : Sound sb s) (type major minor : U16) :
    Sound sb (s.step sb (.create type major minor)) := by
  have spec := @bitmapAlloc_spec sb.inodeBitmapFirstblock _ _ 0 s.disk sane.inodeBits
  unfold step bitmapAllocInode
  dsimp only
  generalize bitmapAlloc sb.inodeBitmapFirstblock sb.inodeBitmapBlocks sb.totalInodes 0 s.disk = r
    at spec ⊢
  cases spec with
  | full all => exact sound
  | found k inside clear _ =>
    have nums := sane.inodeNums
    have number : (BitVec.ofNat 32 (0 + k)).toNat = k := by
      rw [BitVec.toNat_ofNat, Nat.zero_add, Nat.mod_eq_of_lt (by omega)]
    have valid : BitVec.ofNat 32 (0 + k) ≠ minusOne := by
      intro last
      rw [last, minusOne, BitVec.toNat_ofNat] at number
      omega
    rw [if_neg valid]
    have none : s.image (BitVec.ofNat 32 (0 + k)) = none := by
      by_contra some
      obtain ⟨-, taken⟩ := (sound.imaged _).mp (Option.isSome_iff_ne_none.mpr some)
      rw [allocated, number, clear] at taken
      cases taken
    have record := inodeBlock_low sane (number.symm ▸ inside :
      (BitVec.ofNat 32 (0 + k)).toNat < sb.totalInodes)
    generalize BitVec.ofNat 32 (0 + k) = t at number valid none record
    constructor
    · intro u
      dsimp only
      by_cases new : u = t
      · subst new
        rw [Function.update_self, number]
        refine iff_of_true rfl ⟨inside, ?_⟩
        rw [allocated_congr sane (number.symm ▸ inside) fun b before => inodeWrite_before before ..,
          allocated, number, Disk.bitAt_setBitAt, decide_eq_true rfl, Bool.true_or]
      · have other : u.toNat ≠ k := fun same => new (BitVec.eq_of_toNat_eq (same.trans number.symm))
        rw [Function.update_of_ne new, sound.imaged u]
        refine and_congr_right fun inside => ?_
        rw [allocated_congr sane inside fun b before => inodeWrite_before before ..,
          allocated, allocated, Disk.bitAt_setBitAt, decide_eq_false other, Bool.false_or]
    · have unused : s.trees.index t = Index.empty := by
        simp [trees, none]
      rw [trees_update]
      change Owned sb (s.trees.put t Index.empty _)
      rw [← unused, put_same]
      have first := kept_writeLow sane sound.owned (inodeBitmap_low sane inside)
        ((s.disk (sb.inodeBitmapFirstblock + k / bitPerBlock)).setBit (k % bitPerBlock))
      exact (kept_writeLow sane (first.owned sound.owned) record _).owned (first.owned sound.owned)

/-- A data request leaves the store sound: it keeps the trees and the blocks before the data
bitmap, up to a write of the inode's own record. -/
theorem sound_data (sane : sb.Sane) {s : Store} (sound : Sound sb s) {t : U32}
    {info : InodeDisk} (image : s.image t = some info) {s₁ : BlockTrees} (owned : Owned sb s₁)
    (other : ∀ u ≠ t, s₁.index u = s.trees.index u)
    (low : ∀ b < sb.dataBitmapFirstblock, s₁.disk b = s.disk b) {info' : InodeDisk}
    (index : info'.index = s₁.index t) {d : Disk}
    (disk : d = s₁.disk ∨ d = inodeWrite sb t info' s₁.disk) :
    Sound sb ⟨d, Function.update s.image t (some info')⟩ := by
  have inside := inside_of_image sound image
  constructor
  · refine imaged_replace sane sound.imaged image info' fun b before => ?_
    have := sane.inodeEnd
    rcases disk with rfl | rfl
    · exact low b (by omega)
    · rw [inodeWrite_before before, low b (by omega)]
  · rw [trees_update, index, put_of_other other]
    rcases disk with rfl | rfl
    · exact owned
    · exact (kept_writeLow sane owned (inodeBlock_low sane inside) _).owned owned

theorem step_write (sane : sb.Sane) {s : Store} (sound : Sound sb s) (t : U32) (offset len : U32)
    (src : Bytes) : Sound sb (s.step sb (.write t offset len src)) := by
  cases image : s.image t with
  | none => simpa only [step, image] using sound
  | some info =>
    have limit : (offset + len).toNat ≤ 2 ^ 32 := Nat.le_of_lt (offset + len).isLt
    have handles := handles_writing sane t src offset.toNat limit
    obtain ⟨m, s₁, passes, -, record, disk⟩ := inodeWriteData_spec sane sound.owned
      (trees_index image).symm offset len src
    obtain ⟨-, other, -, low⟩ := passes.kept sane limit handles sound.owned
    simp only [step, image]
    refine sound_data sane sound image (passes.owned sane limit handles sound.owned) other low
      (congrArg InodeDisk.index record) ?_
    split at disk
    · exact Or.inr disk
    · exact Or.inl disk

private theorem step_read (sane : sb.Sane) {s : Store} (sound : Sound sb s) (t : U32) (offset len : U32)
    (dst : Bytes) : Sound sb (s.step sb (.read t offset len dst)) := by
  cases image : s.image t with
  | none => simpa only [step, image] using sound
  | some info =>
    have limit := readStop_le info offset len
    have handles : Handles sb t (readStop info offset len) reading := handles_reading t _
    obtain ⟨m, passes, -, -, -⟩ := inodeReadData_spec sane sound.owned (trees_index image).symm
      offset len dst
    obtain ⟨-, other, -, low⟩ := passes.kept sane limit handles sound.owned
    simp only [step, image]
    exact sound_data sane sound image (passes.owned sane limit handles sound.owned) other low
      (put_index ..).symm (Or.inl rfl)

theorem step_delete (sane : sb.Sane) {s : Store} (sound : Sound sb s) (t : U32) :
    Sound sb (s.step sb (.delete t)) := by
  cases image : s.image t with
  | none => simpa only [step, image] using sound
  | some info =>
    have inside := inside_of_image sound image
    have freed := freeDataBlocks_freed sane sound.owned t
    rw [trees_index image] at freed
    simp only [step, image, inodeDelete]
    change Freed sb _ _ (freeDataBlocks sb info.index s.disk).2 at freed
    generalize freeDataBlocks sb info.index s.disk = r at freed ⊢
    constructor
    · intro u
      dsimp only
      by_cases gone : u = t
      · subst gone
        rw [Function.update_self]
        refine iff_of_false Bool.false_ne_true fun still => ?_
        rw [allocated_bitmapFreeInode, decide_eq_true rfl, Bool.not_true, Bool.and_false] at still
        cases still.2
      · have other : u.toNat ≠ t.toNat := fun same => gone (BitVec.eq_of_toNat_eq same)
        rw [Function.update_of_ne gone, sound.imaged u]
        refine and_congr_right fun inside => ?_
        rw [allocated_bitmapFreeInode, decide_eq_false other, Bool.not_false, Bool.and_true,
          allocated_congr sane inside fun b before => ?_]
        have := sane.inodeEnd
        rw [inodeWrite_before before]
        exact (freed.other b (Or.inl (by omega))).symm
    · rw [trees_remove]
      have first := owned_freed sound.owned freed
      have second := kept_writeLow sane first (inodeBlock_low sane inside) ((r.2 (inodeBlock sb t)).blit
        (inodeOffset t) (InodeDisk.encode { info with index := r.1, size := 0 }) 64)
      exact (kept_writeLow sane (second.owned first) (inodeBitmap_low sane inside) _).owned
        (second.owned first)

/-- Every request keeps a store sound. -/
theorem step_sound (sane : sb.Sane) {s : Store} (sound : Sound sb s) (op : InodeOp) :
    Sound sb (s.step sb op) := by
  cases op with
  | create type major minor => exact step_create sane sound type major minor
  | write t offset len src => exact step_write sane sound t offset len src
  | read t offset len dst => exact step_read sane sound t offset len dst
  | delete t => exact step_delete sane sound t

def run (sb : SuperBlock) (s : Store) (ops : List InodeOp) : Store := ops.foldl (step sb) s

theorem run_sound (sane : sb.Sane) {s : Store} (sound : Sound sb s) (ops : List InodeOp) :
    Sound sb (run sb s ops) := by
  induction ops generalizing s with
  | nil => exact sound
  | cons op ops ih => exact ih (step_sound sane sound op)

/-- Every block that an allocated inode references lies in the data area, has its bit set, and is
referenced from no other place of this or another inode. -/
def BlocksOwned (sb : SuperBlock) (s : Store) : Prop :=
  ∀ t info p, s.image t = some info → Place.Valid p → s.trees.block t p ≠ 0 →
    (∃ k < sb.dataBlocks, (s.trees.block t p).toNat = sb.dataFirstblock + k ∧
      s.disk.used sb k = true) ∧
    ∀ u info' q, s.image u = some info' → Place.Valid q →
      s.trees.block u q = s.trees.block t p → u = t ∧ q = p

private theorem image_of_block {s : Store} {t : U32} {p : Place} (filled : s.trees.block t p ≠ 0) :
    ∃ info, s.image t = some info := by
  cases image : s.image t with
  | some info => exact ⟨info, rfl⟩
  | none =>
    have none : s.trees.index t = Index.empty := by simp [trees, image]
    have empty := block_empty s.trees t s.disk p
    rw [← none, put_same] at empty
    exact absurd empty filled

theorem blocksOwned_iff (s : Store) : BlocksOwned sb s ↔ Owned sb s.trees := by
  constructor
  · intro blocks
    constructor
    · intro t p valid filled
      obtain ⟨info, image⟩ := image_of_block filled
      exact (blocks t info p image valid filled).1
    · intro t p u q validP validQ same filled
      obtain ⟨info, image⟩ := image_of_block filled
      obtain ⟨info', image'⟩ := image_of_block (same ▸ filled)
      obtain ⟨tree, place⟩ := (blocks t info p image validP filled).2 u info' q image' validQ same.symm
      exact ⟨tree.symm, place.symm⟩
  · intro owned t info p _ valid filled
    exact ⟨owned.stored t p valid filled,
      fun u _ q _ validQ same => owned.once u q t p validQ valid same (same ▸ filled)⟩

/-- Block ownership survives every sequence of creations, writes, reads and deletions. -/
theorem blocks_owned (sane : sb.Sane) {s : Store} (imaged : Imaged sb s) (owned : BlocksOwned sb s)
    (ops : List InodeOp) : BlocksOwned sb (run sb s ops) :=
  (blocksOwned_iff _).mpr (run_sound sane ⟨imaged, (blocksOwned_iff s).mp owned⟩ ops).owned

/-- A formatted disk without inodes. -/
def blank : Store := ⟨fun _ _ => 0, fun _ => none⟩

theorem blank_imaged (sb : SuperBlock) : Imaged sb blank := by
  intro t
  refine iff_of_false Bool.false_ne_true fun taken => ?_
  have clear : allocated sb blank.disk t = false := by simp [allocated, Disk.bitAt, Bytes.bit, blank]
  rw [clear] at taken
  cases taken.2

theorem blocks_owned_blank : BlocksOwned mkfsSuperBlock
    (run mkfsSuperBlock blank [.create inodeTypeData 0 0, .write 0 40956 8192 fun _ => 7,
      .create inodeTypeData 0 0, .read 1 0 1 fun _ => 0, .delete 0, .write 1 0 4096 fun _ => 8]) :=
  blocks_owned mkfsSuperBlock_sane (blank_imaged _) (fun _ _ _ image => nomatch image) _

end Store

/-! ## Free inodes -/

/-- `bitmap_alloc_inode` takes the number of an inode that is not allocated, or finds none. -/
theorem bitmapAllocInode_spec (sane : sb.Sane) (d : Disk) :
    (∃ t : U32, t.toNat < sb.totalInodes ∧ Store.allocated sb d t = false ∧ t ≠ minusOne ∧
      bitmapAllocInode sb d = (t, d.setBitAt sb.inodeBitmapFirstblock t.toNat)) ∨
    bitmapAllocInode sb d = (minusOne, d) := by
  have spec := @bitmapAlloc_spec sb.inodeBitmapFirstblock _ _ 0 d sane.inodeBits
  rw [bitmapAllocInode]
  generalize bitmapAlloc sb.inodeBitmapFirstblock sb.inodeBitmapBlocks sb.totalInodes 0 d = r at spec
  cases spec with
  | full all => exact Or.inr rfl
  | found k inside clear _ =>
    have nums := sane.inodeNums
    have number : (BitVec.ofNat 32 (0 + k)).toNat = k := by
      rw [BitVec.toNat_ofNat, Nat.zero_add, Nat.mod_eq_of_lt (by omega)]
    refine Or.inl ⟨BitVec.ofNat 32 (0 + k), by rwa [number], ?_, ?_, by rw [number]⟩
    · rwa [Store.allocated, number]
    · intro last
      rw [last, minusOne, BitVec.toNat_ofNat] at number
      omega

def NoInode (sb : SuperBlock) (d : Disk) : Prop :=
  ∀ t : U32, t.toNat < sb.totalInodes → Store.allocated sb d t = true

theorem noInode_iff (sane : sb.Sane) (d : Disk) :
    NoInode sb d ↔ (bitmapAllocInode sb d).1 = minusOne := by
  constructor
  · intro all
    obtain ⟨t, inside, clear, -⟩ | full := bitmapAllocInode_spec sane d
    · rw [all t inside] at clear
      cases clear
    · rw [full]
  · intro failed
    have spec := @bitmapAlloc_spec sb.inodeBitmapFirstblock _ _ 0 d sane.inodeBits
    rw [bitmapAllocInode] at failed
    generalize bitmapAlloc sb.inodeBitmapFirstblock sb.inodeBitmapBlocks sb.totalInodes 0 d = r at spec failed
    cases spec with
    | full all => exact fun t inside => all t.toNat inside
    | found k inside clear _ =>
      have nums := sane.inodeNums
      have number := congrArg BitVec.toNat failed
      rw [BitVec.toNat_ofNat, Nat.zero_add, Nat.mod_eq_of_lt (by omega), minusOne, BitVec.toNat_ofNat] at number
      omega

end LabKernel
