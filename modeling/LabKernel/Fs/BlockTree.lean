import LabKernel.Fs.Inode
import LabKernel.Lib.TableForest

/-! # Block trees

The index tables of all inodes and the disk form a forest: an entry of an inode's own table or of an
index block below it is a `Place`. Allocation attaches one zeroed block at one empty place. `Filled`
is what a walk down a path does, place by place; `locateOrAddBlock` follows such a walk, and what it
keeps is proved by induction on the walk.
-/

namespace LabKernel

/-- How many levels of index blocks lie below the entry. -/
def Place.level : Place → ℕ
  | .root i => indexLevel i
  | .sub q _ => q.level - 1

/-- The places an index tree really has. -/
def Place.Valid : Place → Prop
  | .root i => i < inodeIndex3
  | .sub q j => q.Valid ∧ 0 < q.level ∧ j < 1024

/-- The entry points to an index block. -/
def Place.Inner (p : Place) : Prop := p.Valid ∧ 0 < p.level

theorem Place.Inner.parent {q : Place} {j : ℕ} (inner : (Place.sub q j).Inner) : q.Inner :=
  ⟨inner.1.1, inner.1.2.1⟩

theorem Place.Valid.within {p : Place} (valid : p.Valid) : Forest.Within Place.Inner p := by
  cases p with
  | root i => trivial
  | sub q j => exact ⟨valid.1, valid.2.1⟩

/-- The places on the way to an entry, the entry last. -/
def Place.path : Place → List Place
  | .root i => [.root i]
  | .sub q j => q.path ++ [.sub q j]

/-- The entry of the inode's own table that an entry lies below. -/
def Place.top : Place → ℕ
  | .root i => i
  | .sub q _ => q.top

/-- A path starts in the inode's own table and leaves it at once. -/
theorem Place.path_eq (p : Place) :
    ∃ rest, p.path = .root p.top :: rest ∧ ∀ i, Place.root i ∉ rest := by
  induction p with
  | root i => exact ⟨[], rfl, fun _ => List.not_mem_nil⟩
  | sub q j ih =>
    obtain ⟨rest, path, below⟩ := ih
    have longer : (Place.sub q j).path = root q.top :: (rest ++ [Place.sub q j]) := by
      change q.path ++ [Place.sub q j] = _
      rw [path, List.cons_append]
    refine ⟨rest ++ [Place.sub q j], longer, fun i within => ?_⟩
    rcases List.mem_append.mp within with early | last
    · exact below i early
    · cases List.mem_singleton.mp last

theorem Place.Valid.top {p : Place} (valid : p.Valid) : p.top < inodeIndex3 := by
  induction p with
  | root i => exact valid
  | sub q j ih => exact ih valid.1

def leafPlace (n : ℕ) : Place :=
  if n < inodeIndex1 then .root n
  else if n - inodeIndex1 < 2 * 1024 then
    .sub (.root (inodeIndex1 + (n - inodeIndex1) / 1024)) ((n - inodeIndex1) % 1024)
  else
    .sub (.sub (.root inodeIndex2) ((n - inodeIndex1 - 2 * 1024) / 1024))
      ((n - inodeIndex1 - 2 * 1024) % 1024)

/-- Logical blocks that an index tree can hold (`INODE_BLOCK_INDEX_3`). -/
def maxBlocks : ℕ := inodeIndex1 + 2 * 1024 + 1024 * 1024

@[simp] theorem indexLevel_direct {i : ℕ} (bound : i < 10) : indexLevel i = 0 := if_pos bound

private theorem indexLevel_single {i : ℕ} (low : 10 ≤ i) (high : i < 12) : indexLevel i = 1 := by
  rw [indexLevel, if_neg (show ¬i < inodeIndex1 from Nat.not_lt.mpr low),
    if_pos (show i < inodeIndex2 from high)]

theorem leafPlace_direct {n : ℕ} (bound : n < 10) : leafPlace n = .root n := if_pos bound

theorem leafPlace_single {m : ℕ} (bound : m < 2 * 1024) :
    leafPlace (10 + m) = .sub (.root (10 + m / 1024)) (m % 1024) := by
  have direct : ¬10 + m < inodeIndex1 := by simp only [inodeIndex1]; omega
  have skip : 10 + m - inodeIndex1 = m := by simp only [inodeIndex1]; omega
  rw [leafPlace, if_neg direct, skip, if_pos bound]
  rfl

theorem leafPlace_double (m : ℕ) :
    leafPlace (10 + 2 * 1024 + m) = .sub (.sub (.root 12) (m / 1024)) (m % 1024) := by
  have direct : ¬10 + 2 * 1024 + m < inodeIndex1 := by simp only [inodeIndex1]; omega
  have skip : 10 + 2 * 1024 + m - inodeIndex1 = 2 * 1024 + m := by simp only [inodeIndex1]; omega
  rw [leafPlace, if_neg direct, skip, if_neg (by omega), Nat.add_sub_cancel_left]
  rfl

/-- The three ranges of logical blocks. -/
theorem logicalBlock_cases (n : ℕ) :
    n < 10 ∨ (∃ m < 2 * 1024, n = 10 + m) ∨ ∃ m, n = 10 + 2 * 1024 + m := by
  by_cases direct : n < 10
  · exact Or.inl direct
  · by_cases single : n < 10 + 2 * 1024
    · exact Or.inr (Or.inl ⟨n - 10, by omega, by omega⟩)
    · exact Or.inr (Or.inr ⟨n - (10 + 2 * 1024), by omega⟩)

theorem leafPlace_valid {n : ℕ} (bound : n < maxBlocks) : (leafPlace n).Valid := by
  obtain direct | ⟨m, single, rfl⟩ | ⟨m, rfl⟩ := logicalBlock_cases n
  · rw [leafPlace_direct direct]
    exact Nat.lt_trans direct (by decide)
  · have low : 10 ≤ 10 + m / 1024 := by omega
    have high : 10 + m / 1024 < 12 := by omega
    rw [leafPlace_single single]
    refine ⟨Nat.lt_trans high (by decide), ?_, Nat.mod_lt _ (by decide)⟩
    rw [Place.level, indexLevel_single low high]
    decide
  · have inside : m < 1024 * 1024 := Nat.lt_of_add_lt_add_left bound
    have table : m / 1024 < 1024 := Nat.div_lt_of_lt_mul inside
    rw [leafPlace_double]
    exact ⟨⟨show 12 < 13 by decide, Nat.two_pos, table⟩, Nat.one_pos, Nat.mod_lt _ (by decide)⟩

theorem leafPlace_level (n : ℕ) : (leafPlace n).level = 0 := by
  obtain direct | ⟨m, single, rfl⟩ | ⟨m, rfl⟩ := logicalBlock_cases n
  · rw [leafPlace_direct direct, Place.level, indexLevel_direct direct]
  · rw [leafPlace_single single, Place.level, Place.level,
      indexLevel_single (by omega) (by omega)]
  · rw [leafPlace_double]
    rfl

/-- Different logical blocks have different places. -/
theorem leafPlace_injective {n m : ℕ} (same : leafPlace n = leafPlace m) : n = m := by
  obtain hn | ⟨n, hn, rfl⟩ | ⟨n, rfl⟩ := logicalBlock_cases n
  · rw [leafPlace_direct hn] at same
    obtain hm | ⟨m, hm, rfl⟩ | ⟨m, rfl⟩ := logicalBlock_cases m
    · rw [leafPlace_direct hm] at same
      exact Place.root.inj same
    · rw [leafPlace_single hm] at same
      cases same
    · rw [leafPlace_double] at same
      cases same
  · rw [leafPlace_single hn] at same
    obtain hm | ⟨m, hm, rfl⟩ | ⟨m, rfl⟩ := logicalBlock_cases m
    · rw [leafPlace_direct hm] at same
      cases same
    · rw [leafPlace_single hm, Place.sub.injEq, Place.root.injEq] at same
      omega
    · rw [leafPlace_double, Place.sub.injEq] at same
      cases same.1
  · rw [leafPlace_double] at same
    obtain hm | ⟨m, hm, rfl⟩ | ⟨m, rfl⟩ := logicalBlock_cases m
    · rw [leafPlace_direct hm] at same
      cases same
    · rw [leafPlace_single hm, Place.sub.injEq] at same
      cases same.1
    · rw [leafPlace_double, Place.sub.injEq, Place.sub.injEq] at same
      omega

/-- The index tables of all inodes and the disk that holds their blocks. -/
structure BlockTrees where
  index : U32 → Index
  disk : Disk

def blockOf (entry : U32) : Option ℕ := if entry = 0 then none else some entry.toNat

@[simp] theorem blockOf_zero : blockOf 0 = none := rfl

theorem blockOf_eq_some {entry : U32} {b : ℕ} (points : blockOf entry = some b) :
    entry ≠ 0 ∧ b = entry.toNat := by
  unfold blockOf at points
  split at points
  · cases points
  · exact ⟨‹_›, (Option.some.inj points).symm⟩

theorem blockOf_of_ne {entry : U32} (filled : entry ≠ 0) : blockOf entry = some entry.toNat :=
  if_neg filled

/-- Bit `k` of the data bitmap. -/
def Disk.used (sb : SuperBlock) (d : Disk) (k : ℕ) : Bool := d.bitAt sb.dataBitmapFirstblock k

namespace BlockTrees

def forest (s : BlockTrees) : Forest U32 ℕ U32 := ⟨fun t i => (s.index t).get i, s.disk.entry⟩

/-- The block entered at a place of an inode's tree, 0 if there is none. -/
def block (s : BlockTrees) (t : U32) (p : Place) : U32 := s.forest.entry blockOf 0 t p

def put (s : BlockTrees) (t : U32) (index : Index) (d : Disk) : BlockTrees :=
  ⟨Function.update s.index t index, d⟩

@[simp] theorem put_disk (s : BlockTrees) (t : U32) (index : Index) (d : Disk) :
    (s.put t index d).disk = d := rfl

@[simp] theorem put_index (s : BlockTrees) (t : U32) (index : Index) (d : Disk) :
    (s.put t index d).index t = index := by
  simp [put]

@[simp] theorem put_same (s : BlockTrees) (t : U32) (d : Disk) :
    s.put t (s.index t) d = ⟨s.index, d⟩ := by
  simp [put]

@[simp] theorem put_put (s : BlockTrees) (t : U32) (a b : Index) (d e : Disk) :
    (s.put t a d).put t b e = s.put t b e := by
  simp [put]

theorem put_index_other (s : BlockTrees) {t u : U32} (other : u ≠ t) (index : Index) (d : Disk) :
    (s.put t index d).index u = s.index u := by
  simp [put, other]

def store (s : BlockTrees) (b : ℕ) (block : Bytes) : BlockTrees := ⟨s.index, s.disk.write b block⟩

@[simp] theorem store_disk (s : BlockTrees) (b : ℕ) (block : Bytes) :
    (s.store b block).disk = s.disk.write b block := rfl

@[simp] theorem block_root (s : BlockTrees) (t : U32) (i : ℕ) :
    s.block t (.root i) = (s.index t).get i := rfl

theorem block_sub (s : BlockTrees) (t : U32) {q : Place} (j : ℕ) (above : s.block t q ≠ 0) :
    s.block t (.sub q j) = s.disk.entry (s.block t q).toNat j := by
  have points : blockOf (s.forest.entry blockOf 0 t q) = some (s.block t q).toNat :=
    blockOf_of_ne above
  change s.forest.entry blockOf 0 t (.sub q j) = _
  simp only [Forest.entry, points]
  rfl

theorem block_sub_of_zero (s : BlockTrees) (t : U32) {q : Place} (j : ℕ) (above : s.block t q = 0) :
    s.block t (.sub q j) = 0 := by
  have points : blockOf (s.forest.entry blockOf 0 t q) = none := by
    change blockOf (s.block t q) = none
    rw [above, blockOf_zero]
  change s.forest.entry blockOf 0 t (.sub q j) = _
  simp only [Forest.entry, points]

/-- A block entered below another one has a parent. -/
theorem block_parent {s : BlockTrees} {t : U32} {q : Place} {j : ℕ}
    (filled : s.block t (.sub q j) ≠ 0) : s.block t q ≠ 0 :=
  fun zero => filled (s.block_sub_of_zero t j zero)

/-- Every entered block lies in the data area with its bit set and is entered at one place only. -/
structure Owned (sb : SuperBlock) (s : BlockTrees) : Prop where
  stored : ∀ t p, p.Valid → s.block t p ≠ 0 →
    ∃ k < sb.dataBlocks, (s.block t p).toNat = sb.dataFirstblock + k ∧ s.disk.used sb k = true
  once : ∀ t p u q, p.Valid → q.Valid → s.block t p = s.block u q → s.block t p ≠ 0 →
    t = u ∧ p = q

/-- An inode without index blocks has its blocks in its own table. -/
theorem block_direct {s : BlockTrees} {t : U32} (direct : ∀ i, 10 ≤ i → (s.index t).get i = 0) {p : Place}
    (valid : p.Valid) (filled : s.block t p ≠ 0) : ∃ i < 10, p = .root i := by
  induction p with
  | root i =>
    refine ⟨i, Nat.lt_of_not_le fun far => filled ?_, rfl⟩
    rw [block_root, direct i far]
  | sub q j ih =>
    obtain ⟨i, near, rfl⟩ := ih valid.1 (block_parent filled)
    have level := valid.2.1
    rw [Place.level, indexLevel_direct near] at level
    omega

/-- Blocks are owned if no inode has index blocks and the entries of the tables are owned. -/
theorem owned_of_direct {sb : SuperBlock} {s : BlockTrees}
    (direct : ∀ t i, 10 ≤ i → (s.index t).get i = 0)
    (stored : ∀ t, ∀ i < 10, (s.index t).get i ≠ 0 → ∃ k < sb.dataBlocks,
      ((s.index t).get i).toNat = sb.dataFirstblock + k ∧ s.disk.used sb k = true)
    (once : ∀ t, ∀ i < 10, ∀ u, ∀ j < 10, (s.index t).get i = (s.index u).get j →
      (s.index t).get i ≠ 0 → t = u ∧ i = j) : Owned sb s := by
  constructor
  · intro t p valid filled
    obtain ⟨i, near, rfl⟩ := block_direct (direct t) valid filled
    exact stored t i near filled
  · intro t p u q validP validQ same filled
    obtain ⟨i, nearI, rfl⟩ := block_direct (direct t) validP filled
    obtain ⟨j, nearJ, rfl⟩ := block_direct (direct u) validQ (same ▸ filled)
    obtain ⟨rfl, rfl⟩ := once t i nearI u j nearJ same filled
    exact ⟨rfl, rfl⟩

end BlockTrees

end LabKernel
