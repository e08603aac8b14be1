import LabKernel.Fs.DirGraph
import LabKernel.Fs.Image

/-! # The graph of the first image

On the disk that `mkfs` builds, seven inodes are allocated. Two of them are directories, and their
entries lead to these seven inodes.
-/

namespace LabKernel

open BlockTrees

namespace Mkfs

def record (t : U32) : InodeDisk := records.getD t.toNat ⟨0, 0, 0, 0, 0, Index.empty⟩

def entries (t : U32) : List (List U8 × U32) :=
  if t = 0 then rootEntries else if t = 1 then devEntries else []

private theorem few {P : U32 → Prop} (each : ∀ k : Fin 7, P (BitVec.ofNat 32 k)) {t : U32}
    (inside : t.toNat < 7) : P t := by
  have same : BitVec.ofNat 32 t.toNat = t := BitVec.eq_of_toNat_eq (by simp)
  exact same ▸ each ⟨t.toNat, inside⟩

/-- What the record and the entries of an inode say -/
private def RecordFacts (t : U32) : Prop :=
  (∀ i : Fin 13, 10 ≤ i.val → (record t).index i = 0) ∧
  (∀ i < 10, (record t).index.get i ≠ 0 → 1028 ≤ ((record t).index.get i).toNat ∧
    ((record t).index.get i).toNat < 1036) ∧
  ((record t).type = inodeTypeDir → (record t).size.toNat / 64 = 5 ∧ (record t).size.toNat = 320 ∧
    (entries t).length = 5 ∧ ((entries t).map Prod.fst).Nodup ∧ (record t).index.get 0 ≠ 0) ∧
  ((record t).type ≠ inodeTypeDir → entries t = []) ∧ (record t).nlink ≠ 0 ∧
  ∀ e ∈ entries t, e.2.toNat < 7 ∧ (e.2 = t → e.1 = nameText dot ∨ e.1 = nameText dotDot)

private instance (t : U32) : Decidable (RecordFacts t) := inferInstanceAs (Decidable (_ ∧ _))

private theorem record_facts {t : U32} (inside : t.toNat < 7) : RecordFacts t := few (by decide +kernel) inside

theorem inodeRead_disk {t : U32} (inside : t.toNat < 7) : inodeRead mkfsSuperBlock t disk = record t := by
  have fields : ∀ k : Fin 7, let t := BitVec.ofNat 32 k
      (inodeRead mkfsSuperBlock t disk).type = (record t).type ∧
      (inodeRead mkfsSuperBlock t disk).major = (record t).major ∧
      (inodeRead mkfsSuperBlock t disk).minor = (record t).minor ∧
      (inodeRead mkfsSuperBlock t disk).nlink = (record t).nlink ∧
      (inodeRead mkfsSuperBlock t disk).size = (record t).size ∧
      ∀ i, (inodeRead mkfsSuperBlock t disk).index i = (record t).index i := by decide +kernel
  refine few (P := fun t => inodeRead mkfsSuperBlock t disk = record t) (fun k => ?_) inside
  obtain ⟨type, major, minor, nlink, size, index⟩ := fields k
  exact InodeDisk.ext type major minor nlink size (funext index)

theorem allocated_disk {t : U32} (inside : t.toNat < mkfsSuperBlock.totalInodes) :
    Store.allocated mkfsSuperBlock disk t = true ↔ t.toNat < 7 := by
  have seven : ∀ j < 8, (0x7F#8 &&& 1#8 <<< j != 0) = decide (j < 7) := by decide
  change t.toNat < 65536 at inside
  change (disk (1 + t.toNat / 32768)).bit (t.toNat % 32768) = true ↔ _
  rw [Bytes.bit]
  by_cases first : t.toNat / 8 = 0
  · have block : t.toNat / 32768 = 0 := by omega
    have bit : t.toNat % 32768 = t.toNat := by omega
    change disk _ _ &&& _ != 0 ↔ _
    rw [block, bit, first]
    change (0x7F#8 &&& 1#8 <<< (t.toNat % 8) != 0) = true ↔ _
    rw [seven _ (by omega), decide_eq_true_eq, Nat.mod_eq_of_lt (by omega)]
  · have zero : disk (1 + t.toNat / 32768) (t.toNat % 32768 / 8) = 0 := by
      obtain block | block : t.toNat / 32768 = 0 ∨ t.toNat / 32768 = 1 := by omega
      · rw [block]
        change (if t.toNat % 32768 / 8 = 0 then 0x7F#8 else 0) = 0
        rw [if_neg (by omega)]
      · rw [block]
        rfl
    rw [zero]
    exact iff_of_false (by simp) (by omega)

private theorem index_disk (t : U32) : (diskStore mkfsSuperBlock disk).trees.index t =
    if t.toNat < 7 then (record t).index else Index.empty := by
  split
  · rename_i inside
    have there := (allocated_disk (Nat.lt_trans inside (by decide))).mpr inside
    rw [Store.trees_index (if_pos ⟨Nat.lt_trans inside (by decide), there⟩), inodeRead_disk inside]
  · rename_i outside
    have none : (diskStore mkfsSuperBlock disk).image t = none :=
      if_neg fun both => outside ((allocated_disk both.1).mp both.2)
    simp only [Store.trees, none, Option.map_none, Option.getD_none]

/-- The image is sound: no block is entered twice, and the bits of all blocks entered are set. -/
theorem sound_disk : Store.Sound mkfsSuperBlock (diskStore mkfsSuperBlock disk) := by
  refine ⟨diskStore_imaged _ _, owned_of_direct (fun t i far => ?_) (fun t i near filled => ?_)
    fun t i nearI u j nearJ same filled => ?_⟩
  · rw [index_disk]
    split
    · rename_i inside
      have zero := (record_facts inside).1
      rw [Index.get]
      split
      · exact zero _ far
      · rfl
    · exact Index.get_empty i
  · rw [index_disk] at filled ⊢
    split at filled
    · rename_i inside
      rw [if_pos inside]
      obtain ⟨low, high⟩ := (record_facts inside).2.1 i near filled
      have used : ∀ k < 8, disk.used mkfsSuperBlock k = true := by decide +kernel
      exact ⟨((record t).index.get i).toNat - 1028, Nat.lt_trans (by omega) (show 8 < 32768 by decide),
        (Nat.add_sub_cancel' low).symm, used _ (by omega)⟩
    · exact absurd (Index.get_empty i) filled
  · rw [index_disk] at filled
    rw [index_disk, index_disk] at same
    split at filled
    · rename_i insideT
      rw [if_pos insideT] at same
      split at same
      · rename_i insideU
        have pairs : ∀ k l : Fin 7, ∀ i j : Fin 10,
            (record (BitVec.ofNat 32 k)).index.get i = (record (BitVec.ofNat 32 l)).index.get j ∧
              (record (BitVec.ofNat 32 k)).index.get i ≠ 0 → k = l ∧ i = j := by decide +kernel
        have number (t : U32) : BitVec.ofNat 32 t.toNat = t := BitVec.eq_of_toNat_eq (by simp)
        have one := pairs ⟨t.toNat, insideT⟩ ⟨u.toNat, insideU⟩ ⟨i, nearI⟩ ⟨j, nearJ⟩
        rw [number, number] at one
        obtain ⟨tree, place⟩ := one ⟨same, filled⟩
        exact ⟨BitVec.eq_of_toNat_eq (Fin.mk.inj tree), Fin.mk.inj place⟩
      · rw [same, Index.get_empty] at filled
        exact absurd rfl filled
    · exact absurd (Index.get_empty i) filled

/-- The entries of the directories, slot by slot. -/
theorem slot_disk {t : U32} (inside : t.toNat < 7) (directory : (record t).type = inodeTypeDir) {k : ℕ}
    (bound : k < 5) :
    (dirTable (diskStore mkfsSuperBlock disk).trees t (record t).size).slot k = (entries t)[k]? :=
  few (P := fun t => ∀ k : Fin 5, (record t).type = inodeTypeDir →
    (dirTable (diskStore mkfsSuperBlock disk).trees t (record t).size).slot k = (entries t)[k]?)
    (by decide +kernel) inside ⟨k, bound⟩ directory

theorem entries_length {t : U32} (inside : t.toNat < 7) : (record t).type = inodeTypeDir →
    (record t).size.toNat / 64 = 5 ∧ (record t).size.toNat = 320 ∧ (entries t).length = 5 ∧
      ((entries t).map Prod.fst).Nodup ∧ (record t).index.get 0 ≠ 0 :=
  (record_facts inside).2.2.1

private theorem entries_file {t : U32} (inside : t.toNat < 7) : (record t).type ≠ inodeTypeDir → entries t = [] :=
  (record_facts inside).2.2.2.1

private theorem mem_entries {t : U32} (inside : t.toNat < 7) (directory : (record t).type = inodeTypeDir)
    {name : List U8} {u : U32} : (name, u) ∈ entries t ↔
      ∃ k < 5, (dirTable (diskStore mkfsSuperBlock disk).trees t (record t).size).slot k = some (name, u) := by
  have length := (entries_length inside directory).2.2.1
  rw [List.mem_iff_getElem?]
  refine exists_congr fun k => ?_
  constructor
  · intro found
    have bound : k < 5 := length ▸ (List.getElem?_eq_some_iff.mp found).1
    exact ⟨bound, (slot_disk inside directory bound).trans found⟩
  · rintro ⟨bound, found⟩
    rwa [slot_disk inside directory bound] at found

private theorem distinct_disk {t : U32} (inside : t.toNat < 7) (directory : (record t).type = inodeTypeDir) :
    (dirTable (diskStore mkfsSuperBlock disk).trees t (record t).size).Distinct := by
  obtain ⟨size, -, length, nodup, -⟩ := entries_length inside directory
  intro i insideI j insideJ name v w left right
  have boundI : i < 5 := Nat.lt_of_lt_of_eq insideI size
  have boundJ : j < 5 := Nat.lt_of_lt_of_eq insideJ size
  rw [slot_disk inside directory boundI] at left
  rw [slot_disk inside directory boundJ] at right
  refine (List.getElem?_inj ?_ nodup).mp ?_
  · rwa [List.length_map, length]
  · rw [List.getElem?_map, List.getElem?_map, left, right]
    rfl

theorem entry_disk {t : U32} (inside : t.toNat < 7) {name : List U8} {u : U32} :
    entry mkfsSuperBlock disk t name = some u ↔ (name, u) ∈ entries t := by
  rw [entry, inodeRead_disk inside]
  split
  · rename_i directory
    rw [mem_entries inside directory, dirMap, SlotTable.lookup_eq_some (distinct_disk inside directory)]
    refine exists_congr fun k => and_congr_left fun _ => ?_
    change k < (record t).size.toNat / 64 ↔ _
    rw [(entries_length inside directory).1]
  · rename_i file
    rw [entries_file inside file]
    exact iff_of_false (by simp) List.not_mem_nil

/-- The seven inodes are nodes of the graph. -/
theorem node_disk {t : U32} (inside : t.toNat < 7) : Node mkfsSuperBlock disk t where
  inside := Nat.lt_trans inside (by decide)
  allocated := (allocated_disk (Nat.lt_trans inside (by decide))).mpr inside
  linked := by
    rw [inodeRead_disk inside]
    exact (record_facts inside).2.2.2.2.1
  dir directory := by
    rw [inodeRead_disk inside] at directory ⊢
    obtain ⟨-, size, -, -, block⟩ := entries_length inside directory
    refine ⟨directory, by rw [size], fun n present => ?_, distinct_disk inside directory⟩
    obtain rfl : n = 0 := by
      simp only [blockSize, size] at present
      omega
    rw [leafPlace_direct (by decide), block_root, index_disk, if_pos inside]
    exact block

/-- Their entries lead to them again, and to the directory itself only as `.` or, in the root, `..`. -/
theorem closed_disk {t u : U32} {name : List U8} (inside : t.toNat < 7)
    (found : entry mkfsSuperBlock disk t name = some u) :
    u.toNat < 7 ∧ (u = t → name = nameText dot ∨ name = nameText dotDot) :=
  (record_facts inside).2.2.2.2.2 (name, u) ((entry_disk inside).mp found)

end Mkfs

end LabKernel
