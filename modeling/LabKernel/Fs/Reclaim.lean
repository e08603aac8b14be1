import LabKernel.Fs.Ownership

/-! # What a deletion reclaims

`inode_delete` frees the blocks of an inode from its index table, whose three loops end at the first
empty entry, while the loops over index blocks go on behind empty entries. So exactly the inodes whose
table has no gap lose all their blocks.
-/

namespace LabKernel

open BlockTrees

variable {sb : SuperBlock}

/-- No entry of the table follows an empty one. -/
def Index.Gapless (index : Index) : Prop :=
  ∀ i j, i < j → j < inodeIndex3 → index.get i = 0 → index.get j = 0

instance (index : Index) : Decidable index.Gapless :=
  decidable_of_iff (∀ j < inodeIndex3, ∀ i < j, index.get i = 0 → index.get j = 0)
    ⟨fun all i j less bound => all j bound i less, fun all j bound i less => all i j less bound⟩

/-- The table that the loops of `free_data_blocks` leave from entry `i` on: zero up to the first empty
entry, as before behind it. -/
private theorem freeDataBlocksFrom_index (sb : SuperBlock) (n i : ℕ) (range : i + n = inodeIndex3)
    (index : Index) (d : Disk) (j : ℕ) (bound : j < inodeIndex3) :
    (freeDataBlocksFrom sb n i index d).1.get j =
      if i ≤ j ∧ ∀ m, i ≤ m → m < j → index.get m ≠ 0 then 0 else index.get j := by
  induction n generalizing i index d with
  | zero =>
    rw [freeDataBlocksFrom, if_neg]
    rintro ⟨low, -⟩
    omega
  | succ n ih =>
    have here : i < 13 := by
      simp only [inodeIndex3] at range
      omega
    have empty := freeDataBlocksAt_empty sb (indexLevel i) (index.get i) d
    unfold freeDataBlocksFrom
    dsimp only
    split
    · rename_i stop
      have stop : index.get i = 0 := empty.mp stop
      dsimp only
      rw [Index.get_set here]
      by_cases same : j = i
      · rw [if_pos same, same, stop, ite_self]
      · rw [if_neg same, if_neg]
        rintro ⟨low, before⟩
        exact before i (Nat.le_refl i) (by omega) stop
    · rename_i goes
      have goes : index.get i ≠ 0 := empty.not.mp goes
      rw [ih (i + 1) (by omega), Index.get_set here]
      by_cases same : j = i
      · rw [if_pos same, ite_self, if_pos]
        exact ⟨by omega, fun m low high => absurd high (by omega)⟩
      · rw [if_neg same]
        refine if_congr ?_ rfl rfl
        constructor
        · rintro ⟨low, before⟩
          refine ⟨by omega, fun m low high => ?_⟩
          rcases Nat.eq_or_lt_of_le low with rfl | more
          · exact goes
          · have later := before m more high
            rwa [Index.get_set here, if_neg (by omega)] at later
        · rintro ⟨low, before⟩
          refine ⟨by omega, fun m low high => ?_⟩
          rw [Index.get_set here, if_neg (by omega)]
          exact before m (by omega) high

/-- `free_data_blocks` clears the table exactly when it has no gap. -/
theorem freeDataBlocks_index (sb : SuperBlock) (index : Index) (d : Disk) :
    (freeDataBlocks sb index d).1 = Index.empty ↔ index.Gapless := by
  have entry := freeDataBlocksFrom_index sb inodeIndex3 0 (Nat.zero_add _) index d
  constructor
  · intro cleared i j less bound gap
    have zero := entry j bound
    change (freeDataBlocks sb index d).1.get j = _ at zero
    rw [cleared, Index.get_empty, if_neg] at zero
    · exact zero.symm
    · rintro ⟨-, before⟩
      exact before i (Nat.zero_le i) less gap
  · intro gapless
    refine Index.ext_get fun j bound => ?_
    rw [Index.get_empty]
    refine (entry j bound).trans ?_
    split
    · rfl
    · rename_i gap
      push Not at gap
      obtain ⟨i, -, less, empty⟩ := gap (Nat.zero_le j)
      exact gapless i j less bound empty

/-- Without a gap, every block of the inode is reached. -/
theorem reached_iff {s : BlockTrees} {t : U32} (gapless : (s.index t).Gapless) (k : ℕ) :
    Reached sb s t k ↔ InTree sb s t k := by
  constructor
  · rintro ⟨j, bound, -, some⟩
    exact Subtree.root.mpr ⟨j, bound, some⟩
  · intro some
    obtain ⟨j, bound, some⟩ := Subtree.root.mp some
    refine ⟨j, bound, fun m less gap => ?_, some⟩
    have empty : s.block t (.root j) = 0 := gapless m j less bound gap
    exact Subtree.empty empty k some

namespace Store

/-- What `inode_delete` is for: it clears the data-bitmap bits of the blocks of the inode and no
others, it empties the index table, and it clears the bit of the inode itself. -/
structure DeletesAll (sb : SuperBlock) (s : Store) (t : U32) (info : InodeDisk) : Prop where
  blocks : ∀ k, (inodeDelete sb t info s.disk).2.used sb k = true ↔
    s.disk.used sb k = true ∧ ¬InTree sb s.trees t k
  table : (inodeDelete sb t info s.disk).1.index = Index.empty
  inodes : ∀ u : U32, u.toNat < sb.totalInodes →
    allocated sb (inodeDelete sb t info s.disk).2 u = (allocated sb s.disk u && !decide (u = t))

/-- The data bitmap lies behind everything that `inode_delete` writes after it freed the blocks. -/
private theorem inodeDelete_used (sane : sb.Sane) {t : U32} (inside : t.toNat < sb.totalInodes)
    (info : InodeDisk) (d : Disk) (k : ℕ) :
    (inodeDelete sb t info d).2.used sb k = (freeDataBlocks sb info.index d).2.used sb k := by
  have behind : sb.dataBitmapFirstblock ≤ sb.dataBitmapFirstblock + k / bitPerBlock :=
    Nat.le_add_right ..
  have bitmap := Nat.lt_of_lt_of_le (inodeBitmap_low sane inside) behind
  have record := Nat.lt_of_lt_of_le (inodeBlock_low sane inside) behind
  refine Disk.bitAt_congr ?_
  have clear := @Disk.clearBitAt_other
    (inodeWrite sb t (inodeDelete sb t info d).1 (freeDataBlocks sb info.index d).2)
    sb.inodeBitmapFirstblock t.toNat (sb.dataBitmapFirstblock + k / bitPerBlock) bitmap.ne'
  exact clear.trans (inodeWrite_other record.ne' ..)

/-- The inode bitmap lies before everything that `inode_delete` writes until it frees the inode. -/
theorem inodeDelete_allocated (sane : sb.Sane) {t u : U32} (inside : u.toNat < sb.totalInodes)
    (info : InodeDisk) {d : Disk}
    (same : ∀ b < sb.dataBitmapFirstblock, (freeDataBlocks sb info.index d).2 b = d b) :
    allocated sb (inodeDelete sb t info d).2 u = (allocated sb d u && !decide (u = t)) := by
  have number : u.toNat = t.toNat ↔ u = t := ⟨BitVec.eq_of_toNat_eq, congrArg _⟩
  have area := sane.inodeEnd
  unfold inodeDelete
  dsimp only
  rw [allocated_bitmapFreeInode, decide_eq_decide.mpr number,
    allocated_congr sane inside fun b before => ?_]
  rw [inodeWrite_before before]
  exact same b (by omega)

/-- Deletion frees everything exactly when the index table of the inode has no gap. -/
theorem deletesAll_iff (sane : sb.Sane) {s : Store} (sound : Sound sb s) {t : U32} {info : InodeDisk}
    (image : s.image t = some info) : DeletesAll sb s t info ↔ info.index.Gapless := by
  have inside := inside_of_image sound image
  have table := trees_index image
  have erased := freeDataBlocks_erased sane sound.owned t
  rw [table] at erased
  change Erased sb _ s.disk (freeDataBlocks sb info.index s.disk).2 at erased
  have cleared := freeDataBlocks_index sb info.index s.disk
  constructor
  · intro all
    exact cleared.mp all.table
  · intro gapless
    constructor
    · intro k
      rw [inodeDelete_used sane inside, erased.used, reached_iff (by rwa [table])]
    · exact cleared.mpr gapless
    · intro u inside
      exact inodeDelete_allocated sane inside info fun b low => erased.other b (Or.inl low)

/-- Two blocks written to a fresh inode in order leave no gap. -/
theorem deletesAll_dense :
    let s := run mkfsSuperBlock blank [.create inodeTypeData 0 0, .write 0 0 4097 fun _ => 7]
    ∃ info, s.image 0 = some info ∧ (DeletesAll mkfsSuperBlock s 0 info ↔ info.index.Gapless) := by
  intro s
  have sound : Sound mkfsSuperBlock s := run_sound mkfsSuperBlock_sane
    ⟨blank_imaged _, (blocksOwned_iff _).mp fun _ _ _ image => nomatch image⟩ _
  have some : (s.image 0).isSome = true := by decide +kernel
  obtain ⟨info, image⟩ := Option.isSome_iff_exists.mp some
  exact ⟨info, image, deletesAll_iff mkfsSuperBlock_sane sound image⟩

/-- One byte written behind the direct blocks of a fresh inode: deletion leaves entry 10 in place. -/
theorem deletesAll_gap :
    let s := run mkfsSuperBlock blank [.create inodeTypeData 0 0, .write 0 40960 1 fun _ => 7]
    ∃ info, s.image 0 = some info ∧ ¬DeletesAll mkfsSuperBlock s 0 info := by
  intro s
  have left : (s.image 0).map (fun info =>
      (inodeDelete mkfsSuperBlock 0 info s.disk).1.index.get 10) = some 1028 := by decide +kernel
  obtain ⟨info, image, entry⟩ := Option.map_eq_some_iff.mp left
  refine ⟨info, image, fun all => ?_⟩
  rw [all.table, Index.get_empty] at entry
  exact absurd entry (by decide)

end Store

end LabKernel
