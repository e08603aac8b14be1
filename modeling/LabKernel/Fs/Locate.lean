import LabKernel.Fs.BlockTree

/-! # Attaching blocks

Both allocation steps of `locateOrAddBlock` attach a free data block, zeroed, at an empty place.
`Filled` is a walk over a list of places that attaches a block at every empty one and stops when no
block is free. Owned trees stay owned, nothing that was entered or stored before is lost, and no
block outside the data area and its bitmap is touched.
-/

namespace LabKernel

namespace BlockTrees

variable {sb : SuperBlock}

def dataBlock (sb : SuperBlock) (k : ℕ) : U32 := BitVec.ofNat 32 (sb.dataFirstblock + k)

theorem dataBlock_toNat (sane : sb.Sane) {k : ℕ} (inside : k < sb.dataBlocks) :
    (dataBlock sb k).toNat = sb.dataFirstblock + k := by
  have := sane.dataEnd
  rw [dataBlock, BitVec.toNat_ofNat, Nat.mod_eq_of_lt (by omega)]

theorem dataBlock_ne_zero (sane : sb.Sane) {k : ℕ} (inside : k < sb.dataBlocks) :
    dataBlock sb k ≠ 0 := by
  intro zero
  have number := dataBlock_toNat sane inside
  have := sane.dataPositive
  rw [zero, show (0 : U32).toNat = 0 from rfl] at number
  omega

private theorem dataBlock_ne_minusOne (sane : sb.Sane) {k : ℕ} (inside : k < sb.dataBlocks) :
    dataBlock sb k ≠ minusOne := by
  intro last
  have number := dataBlock_toNat sane inside
  have := sane.dataEnd
  rw [last, minusOne, BitVec.toNat_ofNat] at number
  omega

/-- The data bitmap lies before the data area. -/
theorem bitmap_before_data (sane : sb.Sane) {k : ℕ} (inside : k < sb.dataBlocks) :
    sb.dataBitmapFirstblock ≤ sb.dataBitmapFirstblock + k / bitPerBlock ∧
      sb.dataBitmapFirstblock + k / bitPerBlock < sb.dataFirstblock := by
  have blocks : k / bitPerBlock < sb.dataBitmapBlocks :=
    Nat.div_lt_of_lt_mul (by rw [Nat.mul_comm]; exact Nat.lt_of_lt_of_le inside sane.dataBits)
  have := sane.dataBitmapEnd
  exact ⟨Nat.le_add_right .., by omega⟩

/-- A write to the data area leaves the data bitmap alone. -/
theorem used_write (sane : sb.Sane) {b k : ℕ} (data : sb.dataFirstblock ≤ b)
    (inside : k < sb.dataBlocks) (d : Disk) (block : Bytes) :
    (d.write b block).used sb k = d.used sb k := by
  have := bitmap_before_data sane inside
  exact Disk.bitAt_congr (Disk.write_other (by omega) d block)

/-- The block `k` of the data area, free until now, is zeroed and entered at an empty place. -/
structure Attach (sb : SuperBlock) (t : U32) (p : Place) (k : ℕ) (s s' : BlockTrees) : Prop where
  valid : p.Valid
  empty : s.block t p = 0
  inside : k < sb.dataBlocks
  free : s.disk.used sb k = false
  used : ∀ j < sb.dataBlocks, s'.disk.used sb j = (decide (j = k) || s.disk.used sb j)
  zeroed : s'.disk (sb.dataFirstblock + k) = fun _ => 0
  low : ∀ b < sb.dataBitmapFirstblock, s'.disk b = s.disk b
  leaf : ∀ u q, q.Valid → q.level = 0 → s.block u q ≠ 0 →
    s'.disk (s.block u q).toNat = s.disk (s.block u q).toNat
  overwrite : Forest.Overwrite blockOf 0 Place.Inner s.forest s'.forest t p (dataBlock sb k)

/-- An entered block is not a free one, nor part of the data bitmap. -/
private theorem stored_apart (sane : sb.Sane) {s : BlockTrees} (owned : Owned sb s) {k : ℕ}
    (inside : k < sb.dataBlocks) (free : s.disk.used sb k = false) {u : U32} {q : Place}
    (valid : q.Valid) (filled : s.block u q ≠ 0) :
    (s.block u q).toNat ≠ sb.dataFirstblock + k ∧
      (s.block u q).toNat ≠ sb.dataBitmapFirstblock + k / bitPerBlock ∧
      sb.dataBitmapFirstblock < (s.block u q).toNat := by
  obtain ⟨m, bound, number, taken⟩ := owned.stored u q valid filled
  have before := bitmap_before_data sane inside
  refine ⟨fun same => ?_, by omega, by omega⟩
  have same : m = k := by omega
  rw [same, free] at taken
  cases taken

private theorem zeroBlock_apply (b : U32) (d : Disk) (x : ℕ) :
    zeroBlock b d x = if x = b.toNat then (fun _ => 0) else d x := rfl

/-- A free block entered in an inode's own table. -/
theorem attach_root (sane : sb.Sane) {s : BlockTrees} (owned : Owned sb s) {t : U32} {i k : ℕ}
    (bound : i < inodeIndex3) (empty : (s.index t).get i = 0) (inside : k < sb.dataBlocks)
    (free : s.disk.used sb k = false) :
    Attach sb t (.root i) k s
      (s.put t ((s.index t).set i (dataBlock sb k))
        (zeroBlock (dataBlock sb k) (s.disk.setBitAt sb.dataBitmapFirstblock k))) := by
  have number := dataBlock_toNat sane inside
  have before := bitmap_before_data sane inside
  have other {b : ℕ} (apart : b ≠ sb.dataFirstblock + k)
      (map : b ≠ sb.dataBitmapFirstblock + k / bitPerBlock) :
      zeroBlock (dataBlock sb k) (s.disk.setBitAt sb.dataBitmapFirstblock k) b = s.disk b := by
    rw [zeroBlock_apply, if_neg (by omega), Disk.setBitAt_other map]
  refine ⟨bound, empty, inside, free, ?_, ?_, ?_, ?_, ?_⟩
  · intro j small
    rw [put_disk, zeroBlock, used_write sane (by omega) small, Disk.used, Disk.bitAt_setBitAt]
    rfl
  · rw [put_disk, zeroBlock_apply, if_pos number.symm]
  · intro b low
    exact other (by omega) (by omega)
  · intro u q valid _ filled
    obtain ⟨apart, map, -⟩ := stored_apart sane owned inside free valid filled
    exact other apart map
  · refine ⟨?_, ?_, ?_, ?_⟩
    · intro u j
      by_cases same : u = t
      · subst same
        change ((s.put u _ _).index u).get j = _
        rw [put_index, Index.get_set bound]
        simp only [true_and, Place.root.injEq]
        rfl
      · change ((s.put t _ _).index u).get j = _
        rw [put_index_other _ same, if_neg (fun both => same both.1)]
        rfl
    · intro u q a j inner points
      obtain ⟨filled, rfl⟩ := blockOf_eq_some points
      obtain ⟨apart, map, -⟩ := stored_apart sane owned inside free inner.1 filled
      rw [if_neg (by simp)]
      change (zeroBlock _ _ (s.block u q).toNat).u32 _ = _
      rw [other apart map]
      rfl
    · intro q j same
      cases same
    · intro _
      refine ⟨?_, fun a j points => ?_⟩
      · change blockOf (s.block t (.root i)) = none
        rw [block_root, empty, blockOf_zero]
      · obtain ⟨-, rfl⟩ := blockOf_eq_some points
        change (zeroBlock _ _ (dataBlock sb k).toNat).u32 _ = _
        rw [zeroBlock_apply, if_pos rfl, Bytes.u32_zero]

/-- A free block entered in an index block. -/
theorem attach_table (sane : sb.Sane) {s : BlockTrees} (owned : Owned sb s) {t : U32} {q : Place}
    {j k : ℕ} (valid : (Place.sub q j).Valid) (above : s.block t q ≠ 0)
    (empty : s.block t (.sub q j) = 0) (inside : k < sb.dataBlocks)
    (free : s.disk.used sb k = false) :
    Attach sb t (.sub q j) k s
      ⟨s.index, zeroBlock (dataBlock sb k)
        ((s.disk.setBitAt sb.dataBitmapFirstblock k).setEntry (s.block t q).toNat j
          (dataBlock sb k))⟩ := by
  have number := dataBlock_toNat sane inside
  have before := bitmap_before_data sane inside
  obtain ⟨tableApart, tableMap, tableHigh⟩ := stored_apart sane owned inside free valid.1 above
  have other {b : ℕ} (apart : b ≠ sb.dataFirstblock + k)
      (map : b ≠ sb.dataBitmapFirstblock + k / bitPerBlock) (table : b ≠ (s.block t q).toNat) :
      zeroBlock (dataBlock sb k)
        ((s.disk.setBitAt sb.dataBitmapFirstblock k).setEntry (s.block t q).toNat j
          (dataBlock sb k)) b = s.disk b := by
    rw [zeroBlock_apply, if_neg (by omega), Disk.setEntry, Disk.write_other table,
      Disk.setBitAt_other map]
  have parent {u : U32} {p : Place} (inner : p.Valid) (filled : s.block u p ≠ 0)
      (same : (s.block u p).toNat = (s.block t q).toNat) : u = t ∧ p = q :=
    owned.once u p t q inner valid.1 (BitVec.eq_of_toNat_eq same) filled
  have tableData : sb.dataFirstblock ≤ (s.block t q).toNat := by
    obtain ⟨m, -, place, -⟩ := owned.stored t q valid.1 above
    omega
  refine ⟨valid, empty, inside, free, ?_, ?_, ?_, ?_, ?_⟩
  · intro m small
    dsimp only
    rw [zeroBlock, used_write sane (by omega) small, Disk.setEntry, used_write sane tableData small,
      Disk.used, Disk.bitAt_setBitAt]
    rfl
  · dsimp only
    rw [zeroBlock_apply, if_pos number.symm]
  · intro b low
    exact other (by omega) (by omega) (by omega)
  · intro u p leaf level filled
    obtain ⟨apart, map, -⟩ := stored_apart sane owned inside free leaf filled
    refine other apart map fun same => ?_
    obtain ⟨-, rfl⟩ := parent leaf filled same
    have := valid.2.1
    omega
  · refine ⟨?_, ?_, ?_, ?_⟩
    · intro u i
      rw [if_neg (by simp)]
      rfl
    · intro u p a m inner points
      obtain ⟨filled, rfl⟩ := blockOf_eq_some points
      change s.block u p ≠ 0 at filled
      obtain ⟨apart, map, -⟩ := stored_apart sane owned inside free inner.1 filled
      change (zeroBlock _ _ (s.block u p).toNat).u32 (4 * m) = _
      by_cases same : (s.block u p).toNat = (s.block t q).toNat
      · obtain ⟨rfl, rfl⟩ := parent inner.1 filled same
        rw [zeroBlock_apply, if_neg (by omega), Disk.setEntry, Disk.write_same]
        by_cases here : m = j
        · subst here
          rw [if_pos ⟨rfl, rfl⟩, Bytes.u32_setU32_same]
        · rw [if_neg (by simp [here]), Bytes.u32_setU32_other _ (by omega),
            Disk.setBitAt_other map]
          rfl
      · rw [other apart map same, if_neg]
        · rfl
        · rintro ⟨rfl, here⟩
          cases here
          exact same rfl
    · intro q' j' same
      cases same
      change blockOf (s.block t q) ≠ none
      rw [blockOf_of_ne above]
      simp
    · intro _
      refine ⟨?_, fun a m points => ?_⟩
      · change blockOf (s.block t (.sub q j)) = none
        rw [empty, blockOf_zero]
      · obtain ⟨-, rfl⟩ := blockOf_eq_some points
        change (zeroBlock _ _ (dataBlock sb k).toNat).u32 _ = _
        rw [zeroBlock_apply, if_pos rfl, Bytes.u32_zero]

/-! ## What an attachment keeps -/

/-- The bytes of a logical block of an inode; a block that is not there reads as zeros. -/
def content (s : BlockTrees) (t : U32) (n : ℕ) : Bytes :=
  if s.block t (leafPlace n) = 0 then fun _ => 0 else s.disk (s.block t (leafPlace n)).toNat

def Full (sb : SuperBlock) (s : BlockTrees) : Prop := ∀ k < sb.dataBlocks, s.disk.used sb k = true

namespace Attach

variable {s s' : BlockTrees} {t : U32} {p : Place} {k : ℕ}

theorem block_eq (attach : Attach sb t p k s s') (u : U32) {q : Place} (valid : q.Valid) :
    s'.block u q = if u = t ∧ q = p then dataBlock sb k else s.block u q :=
  attach.overwrite.entry_eq (fun _ _ => Place.Inner.parent) u valid.within

theorem block_new (attach : Attach sb t p k s s') : s'.block t p = dataBlock sb k := by
  rw [attach.block_eq t attach.valid, if_pos ⟨rfl, rfl⟩]

private theorem block_kept (attach : Attach sb t p k s s') {u : U32} {q : Place} (valid : q.Valid)
    (filled : s.block u q ≠ 0) : s'.block u q = s.block u q := by
  rw [attach.block_eq u valid, if_neg]
  rintro ⟨rfl, rfl⟩
  exact filled attach.empty

/-- Owned trees stay owned. -/
theorem owned (sane : sb.Sane) (attach : Attach sb t p k s s') (before : Owned sb s) :
    Owned sb s' := by
  have fresh {u : U32} {q : Place} (valid : q.Valid) : s.block u q ≠ dataBlock sb k := by
    intro same
    have filled : s.block u q ≠ 0 := by
      rw [same]
      exact dataBlock_ne_zero sane attach.inside
    obtain ⟨m, -, number, taken⟩ := before.stored u q valid filled
    rw [same, dataBlock_toNat sane attach.inside] at number
    obtain rfl : k = m := by omega
    rw [attach.free] at taken
    cases taken
  constructor
  · intro u q valid filled
    rw [attach.block_eq u valid] at filled ⊢
    by_cases here : u = t ∧ q = p
    · rw [if_pos here]
      refine ⟨k, attach.inside, dataBlock_toNat sane attach.inside, ?_⟩
      rw [attach.used k attach.inside, decide_eq_true rfl, Bool.true_or]
    · rw [if_neg here] at filled ⊢
      obtain ⟨m, bound, number, taken⟩ := before.stored u q valid filled
      refine ⟨m, bound, number, ?_⟩
      rw [attach.used m bound, taken, Bool.or_true]
  · intro u q v r validQ validR same filled
    rw [attach.block_eq u validQ, attach.block_eq v validR] at same
    rw [attach.block_eq u validQ] at filled
    by_cases hereQ : u = t ∧ q = p
    · by_cases hereR : v = t ∧ r = p
      · exact ⟨hereQ.1.trans hereR.1.symm, hereQ.2.trans hereR.2.symm⟩
      · rw [if_pos hereQ, if_neg hereR] at same
        exact absurd same.symm (fresh validR)
    · rw [if_neg hereQ] at same filled
      by_cases hereR : v = t ∧ r = p
      · rw [if_pos hereR] at same
        exact absurd same (fresh validQ)
      · rw [if_neg hereR] at same
        exact before.once u q v r validQ validR same filled

/-- A file reads the same before and after. -/
theorem content_eq (sane : sb.Sane) (attach : Attach sb t p k s s') (u : U32) {n : ℕ}
    (bound : n < maxBlocks) : s'.content u n = s.content u n := by
  have valid := leafPlace_valid bound
  unfold content
  by_cases filled : s.block u (leafPlace n) = 0
  · rw [if_pos filled, attach.block_eq u valid]
    by_cases here : u = t ∧ leafPlace n = p
    · rw [if_pos here, if_neg (dataBlock_ne_zero sane attach.inside),
        dataBlock_toNat sane attach.inside, attach.zeroed]
    · rw [if_neg here, if_pos filled]
  · rw [attach.block_kept valid filled, if_neg filled, if_neg filled,
      attach.leaf u _ valid (leafPlace_level n) filled]

/-- Only the inode's own table changes. -/
theorem index_other (attach : Attach sb t p k s s') {u : U32} (other : u ≠ t) :
    s'.index u = s.index u := by
  refine Index.ext_get fun i _ => ?_
  have root := attach.overwrite.root u i
  rwa [if_neg (fun both => other both.1)] at root

end Attach

/-! ## Walks -/

/-- A walk over places of one inode that attaches a block at every empty one; the flag tells whether
it came to the end or found no free block. -/
inductive Filled (sb : SuperBlock) (t : U32) :
    List Place → BlockTrees → Bool → BlockTrees → Prop
  | done (s) : Filled sb t [] s true s
  | present {p ps s ok s'} (filled : s.block t p ≠ 0) (rest : Filled sb t ps s ok s') :
      Filled sb t (p :: ps) s ok s'
  | attach {p ps k s s₁ ok s'} (attach : Attach sb t p k s s₁) (rest : Filled sb t ps s₁ ok s') :
      Filled sb t (p :: ps) s ok s'
  | full {p s} (ps) (empty : s.block t p = 0) (full : Full sb s) : Filled sb t (p :: ps) s false s

namespace Filled

variable {t : U32} {ps qs : List Place} {s s₁ s' : BlockTrees} {ok : Bool}

private theorem append (first : Filled sb t ps s true s₁) (second : Filled sb t qs s₁ ok s') :
    Filled sb t (ps ++ qs) s ok s' := by
  generalize done : true = flag at first
  induction first with
  | done => exact second
  | present filled _ ih => exact .present filled (ih second done)
  | attach step _ ih => exact .attach step (ih second done)
  | full => cases done

private theorem stuck (qs : List Place) (first : Filled sb t ps s false s') :
    Filled sb t (ps ++ qs) s false s' := by
  generalize failed : false = flag at first
  induction first with
  | done => cases failed
  | present filled _ ih => exact .present filled (ih failed)
  | attach step _ ih => exact .attach step (ih failed)
  | full _ empty full => exact .full _ empty full

theorem owned (sane : sb.Sane) (walk : Filled sb t ps s ok s') (before : Owned sb s) :
    Owned sb s' := by
  induction walk with
  | done | full => exact before
  | present _ _ ih => exact ih before
  | attach step _ ih => exact ih (step.owned sane before)

theorem content_eq (sane : sb.Sane) (walk : Filled sb t ps s ok s') (u : U32) {n : ℕ}
    (bound : n < maxBlocks) : s'.content u n = s.content u n := by
  induction walk with
  | done | full => rfl
  | present _ _ ih => exact ih
  | attach step _ ih => rw [ih, step.content_eq sane u bound]

theorem block_kept (walk : Filled sb t ps s ok s') {u : U32} {q : Place} (valid : q.Valid)
    (filled : s.block u q ≠ 0) : s'.block u q = s.block u q := by
  induction walk with
  | done | full => rfl
  | present _ _ ih => exact ih filled
  | attach step _ ih =>
    have kept := step.block_kept valid filled
    rw [ih (by rwa [kept]), kept]

theorem index_other (walk : Filled sb t ps s ok s') {u : U32} (other : u ≠ t) :
    s'.index u = s.index u := by
  induction walk with
  | done | full => rfl
  | present _ _ ih => exact ih
  | attach step _ ih => rw [ih, step.index_other other]

theorem low (walk : Filled sb t ps s ok s') {b : ℕ} (bound : b < sb.dataBitmapFirstblock) :
    s'.disk b = s.disk b := by
  induction walk with
  | done | full => rfl
  | present _ _ ih => exact ih
  | attach step _ ih => rw [ih, step.low b bound]

/-- A place off the walk keeps its entry, a place of another inode as well. -/
theorem block_off (walk : Filled sb t ps s ok s') {u : U32} {q : Place} (valid : q.Valid)
    (off : u ≠ t ∨ q ∉ ps) : s'.block u q = s.block u q := by
  induction walk with
  | done | full => rfl
  | present _ _ ih => exact ih (off.imp_right fun out within => out (List.mem_cons_of_mem _ within))
  | attach step _ ih =>
    rw [ih (off.imp_right fun out within => out (List.mem_cons_of_mem _ within)),
      step.block_eq u valid, if_neg]
    rintro ⟨rfl, rfl⟩
    exact off.elim (fun ne => ne rfl) (fun out => out (List.mem_cons_self ..))

/-- A walk that came to its end left no empty place. -/
theorem block_filled (sane : sb.Sane) (walk : Filled sb t ps s true s') {q : Place}
    (valid : q.Valid) (on : q ∈ ps) : s'.block t q ≠ 0 := by
  generalize done : true = flag at walk
  induction walk with
  | done => cases on
  | present filled rest ih =>
    rcases List.mem_cons.mp on with rfl | later
    · rwa [rest.block_kept valid filled]
    · exact ih later done
  | attach step rest ih =>
    rcases List.mem_cons.mp on with rfl | later
    · have new := dataBlock_ne_zero sane step.inside
      rw [← step.block_new] at new
      rwa [rest.block_kept valid new]
    · exact ih later done
  | full => cases done

end Filled

/-! ## Counting -/

def freeCount (sb : SuperBlock) (s : BlockTrees) : ℕ :=
  ((Finset.range sb.dataBlocks).filter fun k => s.disk.used sb k = false).card

/-- Number of different empty places in a list. -/
def missing (s : BlockTrees) (t : U32) (ps : List Place) : ℕ :=
  (ps.toFinset.filter fun p => s.block t p = 0).card

theorem freeCount_full {s : BlockTrees} (full : Full sb s) : freeCount sb s = 0 := by
  rw [freeCount, Finset.card_eq_zero, Finset.filter_eq_empty_iff]
  intro k inside
  rw [full k (Finset.mem_range.mp inside)]
  decide

theorem Attach.freeCount {s s' : BlockTrees} {t : U32} {p : Place} {k : ℕ}
    (attach : Attach sb t p k s s') : freeCount sb s = freeCount sb s' + 1 := by
  have taken : ((Finset.range sb.dataBlocks).filter fun j => s'.disk.used sb j = false) =
      ((Finset.range sb.dataBlocks).filter fun j => s.disk.used sb j = false).erase k := by
    ext j
    simp only [Finset.mem_filter, Finset.mem_erase, Finset.mem_range]
    constructor
    · rintro ⟨inside, unused⟩
      rw [attach.used j inside, Bool.or_eq_false_iff, decide_eq_false_iff_not] at unused
      exact ⟨unused.1, inside, unused.2⟩
    · rintro ⟨other, inside, unused⟩
      rw [attach.used j inside, unused, decide_eq_false other]
      exact ⟨inside, rfl⟩
  have member : k ∈ (Finset.range sb.dataBlocks).filter fun j => s.disk.used sb j = false :=
    Finset.mem_filter.mpr ⟨Finset.mem_range.mpr attach.inside, attach.free⟩
  rw [BlockTrees.freeCount, BlockTrees.freeCount, taken, Finset.card_erase_add_one member]

private theorem missing_present {s : BlockTrees} {t : U32} {p : Place} (ps : List Place)
    (filled : s.block t p ≠ 0) : s.missing t (p :: ps) = s.missing t ps := by
  rw [missing, missing, List.toFinset_cons, Finset.filter_insert, if_neg filled]

private theorem Attach.missing {s s' : BlockTrees} {t : U32} {p : Place} {k : ℕ} (sane : sb.Sane)
    (attach : Attach sb t p k s s') {ps : List Place} (valid : ∀ q ∈ ps, q.Valid) :
    s.missing t (p :: ps) = s'.missing t ps + 1 := by
  have new : s'.block t p ≠ 0 := by
    rw [attach.block_new]
    exact dataBlock_ne_zero sane attach.inside
  have left : ((p :: ps).toFinset.filter fun q => s.block t q = 0) =
      insert p (ps.toFinset.filter fun q => s'.block t q = 0) := by
    ext q
    simp only [Finset.mem_filter, Finset.mem_insert, List.mem_toFinset, List.mem_cons]
    by_cases here : q = p
    · subst here
      simp only [attach.empty, true_or, and_self]
    · simp only [here, false_or]
      refine and_congr_right fun within => ?_
      rw [attach.block_eq t (valid q within), if_neg (fun both => here both.2)]
  rw [BlockTrees.missing, BlockTrees.missing, left, Finset.card_insert_of_notMem]
  exact fun within => new (Finset.mem_filter.mp within).2

/-- A walk comes to its end exactly when the free blocks suffice for the empty places, and it uses
one for each. -/
theorem Filled.count (sane : sb.Sane) {t : U32} {ps : List Place} {s s' : BlockTrees} {ok : Bool}
    (walk : Filled sb t ps s ok s') (valid : ∀ q ∈ ps, q.Valid) :
    if ok then freeCount sb s = freeCount sb s' + s.missing t ps
    else freeCount sb s < s.missing t ps := by
  induction walk with
  | done s => simp [missing]
  | present filled _ ih =>
    rw [missing_present _ filled]
    exact ih fun q within => valid q (List.mem_cons_of_mem _ within)
  | attach step _ ih =>
    have rest := ih fun q within => valid q (List.mem_cons_of_mem _ within)
    rw [step.freeCount, step.missing sane fun q within => valid q (List.mem_cons_of_mem _ within)]
    split at rest
    · rw [if_pos ‹_›]
      omega
    · rw [if_neg ‹_›]
      omega
  | full ps empty full =>
    rw [freeCount_full full]
    exact Finset.card_pos.mpr ⟨_, Finset.mem_filter.mpr
      ⟨List.mem_toFinset.mpr (List.mem_cons_self ..), empty⟩⟩

theorem Filled.ok_iff (sane : sb.Sane) {t : U32} {ps : List Place} {s s' : BlockTrees} {ok : Bool}
    (walk : Filled sb t ps s ok s') (valid : ∀ q ∈ ps, q.Valid) :
    ok = true ↔ s.missing t ps ≤ freeCount sb s := by
  have count := walk.count sane valid
  cases ok with
  | true =>
    simp only [↓reduceIte] at count
    exact iff_of_true rfl (by omega)
  | false =>
    simp only [Bool.false_eq_true, ↓reduceIte] at count
    exact iff_of_false Bool.false_ne_true (by omega)

theorem missing_le_append (s : BlockTrees) (t : U32) (ps qs : List Place) :
    s.missing t ps ≤ s.missing t (ps ++ qs) := by
  refine Finset.card_le_card fun p => ?_
  simp only [Finset.mem_filter, List.mem_toFinset, List.mem_append]
  exact fun member => ⟨Or.inl member.1, member.2⟩

/-- What a walk that came to its end filled is no longer missing. -/
theorem Filled.missing_append (sane : sb.Sane) {t : U32} {ps qs : List Place} {s s' : BlockTrees}
    (walk : Filled sb t ps s true s') (valid : ∀ q ∈ ps ++ qs, q.Valid) :
    s.missing t (ps ++ qs) = s.missing t ps + s'.missing t qs := by
  generalize done : true = flag at walk
  induction walk with
  | done s => simp [missing]
  | present filled _ ih =>
    rw [List.cons_append, missing_present _ filled, missing_present _ filled]
    exact ih (fun q within => valid q (List.mem_cons_of_mem _ within)) done
  | @attach p ps k s s₁ ok s' step _ ih =>
    have later : ∀ q ∈ ps ++ qs, q.Valid := fun q within => valid q (List.mem_cons_of_mem _ within)
    rw [List.cons_append, step.missing sane later,
      step.missing sane fun q within => later q (List.mem_append_left _ within), ih later done]
    omega
  | full => cases done

/-! ## The walk of `locateOrAddBlock` -/

/-- One allocation: a free block is found, or none is left and nothing changes. -/
theorem bitmapAllocBlock_spec (sane : sb.Sane) (d : Disk) :
    (∃ k < sb.dataBlocks, d.used sb k = false ∧
      bitmapAllocBlock sb d = (dataBlock sb k, d.setBitAt sb.dataBitmapFirstblock k)) ∨
    (∀ k < sb.dataBlocks, d.used sb k = true) ∧ bitmapAllocBlock sb d = (minusOne, d) := by
  have spec := @bitmapAlloc_spec sb.dataBitmapFirstblock _ _ sb.dataFirstblock d sane.dataBits
  rw [bitmapAllocBlock]
  generalize bitmapAlloc sb.dataBitmapFirstblock sb.dataBitmapBlocks sb.dataBlocks
    sb.dataFirstblock d = result at spec
  cases spec with
  | found k inside clear _ => exact Or.inl ⟨k, inside, clear, rfl⟩
  | full all => exact Or.inr ⟨all, rfl⟩

/-- The outcome of an allocation step at a place. -/
def Step (sb : SuperBlock) (t : U32) (p : Place) (s : BlockTrees) (r : Option U32)
    (s' : BlockTrees) : Prop :=
  Filled sb t [p] s r.isSome s' ∧ ∀ b, r = some b → s'.block t p = b ∧ b ≠ 0

private theorem addIndexBlock_step (sane : sb.Sane) {s : BlockTrees} (owned : Owned sb s) (t : U32) {i : ℕ}
    (bound : i < inodeIndex3) :
    let r := addIndexBlock sb (s.index t) i s.disk
    Step sb t (.root i) s r.1 (s.put t r.2.1 r.2.2) := by
  by_cases empty : (s.index t).get i = 0
  · obtain ⟨k, inside, free, result⟩ | ⟨all, result⟩ := bitmapAllocBlock_spec sane s.disk
    · have attach := attach_root sane owned bound empty inside free
      have entered : ((s.index t).set i (dataBlock sb k)).get i = dataBlock sb k := by
        rw [Index.get_set bound, if_pos rfl]
      have outcome : addIndexBlock sb (s.index t) i s.disk =
          (some (dataBlock sb k), (s.index t).set i (dataBlock sb k),
            zeroBlock (dataBlock sb k) (s.disk.setBitAt sb.dataBitmapFirstblock k)) := by
        simp only [addIndexBlock, empty, result, dataBlock_ne_minusOne sane inside, ↓reduceIte,
          entered]
      rw [outcome]
      refine ⟨.attach attach (.done _), ?_⟩
      rintro _ ⟨⟩
      exact ⟨attach.block_new, dataBlock_ne_zero sane inside⟩
    · have outcome : addIndexBlock sb (s.index t) i s.disk = (none, s.index t, s.disk) := by
        simp only [addIndexBlock, empty, result, ↓reduceIte]
      rw [outcome]
      refine ⟨?_, nofun⟩
      rw [put_same]
      exact .full _ empty all
  · have outcome : addIndexBlock sb (s.index t) i s.disk =
        (some ((s.index t).get i), s.index t, s.disk) := if_neg empty
    rw [outcome]
    dsimp only
    rw [put_same]
    refine ⟨.present empty (.done _), ?_⟩
    rintro _ ⟨⟩
    exact ⟨rfl, empty⟩

private theorem addTableBlock_step (sane : sb.Sane) {s : BlockTrees} (owned : Owned sb s) {t : U32}
    {q : Place} {j : ℕ} (valid : (Place.sub q j).Valid) (above : s.block t q ≠ 0) :
    let r := addTableBlock sb (s.block t q) j s.disk
    Step sb t (.sub q j) s r.1 ⟨s.index, r.2⟩ := by
  have place := s.block_sub t j above
  by_cases empty : s.block t (.sub q j) = 0
  · have entry : s.disk.entry (s.block t q).toNat j = 0 := by rw [← place, empty]
    obtain ⟨k, inside, free, result⟩ | ⟨all, result⟩ := bitmapAllocBlock_spec sane s.disk
    · have attach := attach_table sane owned valid above empty inside free
      have outcome : addTableBlock sb (s.block t q) j s.disk =
          (some (dataBlock sb k), zeroBlock (dataBlock sb k)
            ((s.disk.setBitAt sb.dataBitmapFirstblock k).setEntry (s.block t q).toNat j
              (dataBlock sb k))) := by
        simp only [addTableBlock, entry, result, dataBlock_ne_minusOne sane inside, ↓reduceIte]
      rw [outcome]
      refine ⟨.attach attach (.done _), ?_⟩
      rintro _ ⟨⟩
      exact ⟨attach.block_new, dataBlock_ne_zero sane inside⟩
    · have outcome : addTableBlock sb (s.block t q) j s.disk = (none, s.disk) := by
        simp only [addTableBlock, entry, result, ↓reduceIte]
      rw [outcome]
      exact ⟨.full _ empty all, nofun⟩
  · have entry : s.disk.entry (s.block t q).toNat j ≠ 0 := by rwa [← place]
    have outcome : addTableBlock sb (s.block t q) j s.disk =
        (some (s.disk.entry (s.block t q).toNat j), s.disk) := if_neg entry
    rw [outcome]
    refine ⟨.present empty (.done _), ?_⟩
    rintro _ ⟨⟩
    exact ⟨place, entry⟩

/-- The outcome of a walk to a place: the block there, or `-1` where no block is free. -/
def Walk (sb : SuperBlock) (t : U32) (p : Place) (s : BlockTrees) (r : U32)
    (s' : BlockTrees) : Prop :=
  Filled sb t p.path s (decide (r ≠ minusOne)) s' ∧ (r ≠ minusOne → s'.block t p = r)

private theorem stored_ne_minusOne (sane : sb.Sane) {s : BlockTrees} (owned : Owned sb s) {t : U32}
    {p : Place} (valid : p.Valid) (filled : s.block t p ≠ 0) : s.block t p ≠ minusOne := by
  intro last
  obtain ⟨k, inside, number, -⟩ := owned.stored t p valid filled
  have := sane.dataEnd
  rw [last, minusOne, BitVec.toNat_ofNat] at number
  omega

private theorem Walk.found (sane : sb.Sane) {t : U32} {p : Place} {s s' : BlockTrees} {b : U32}
    (owned : Owned sb s') (valid : p.Valid) (walk : Filled sb t p.path s true s')
    (entered : s'.block t p = b) (filled : b ≠ 0) : Walk sb t p s b s' := by
  have present : b ≠ minusOne := by
    rw [← entered] at filled ⊢
    exact stored_ne_minusOne sane owned valid filled
  refine ⟨?_, fun _ => entered⟩
  rwa [decide_eq_true present]

private theorem Walk.none {t : U32} {p : Place} {s s' : BlockTrees}
    (walk : Filled sb t p.path s false s') : Walk sb t p s minusOne s' :=
  ⟨by simpa using walk, fun present => absurd rfl present⟩

/-- `locateOrAddBlock` walks to the place of the logical block. -/
theorem locateOrAddBlock_walk (sane : sb.Sane) {s : BlockTrees} (owned : Owned sb s) (t : U32)
    {n : ℕ} (bound : n < maxBlocks) :
    let r := locateOrAddBlock sb (s.index t) n s.disk
    Walk sb t (leafPlace n) s r.1 (s.put t r.2.1 r.2.2) := by
  have valid := leafPlace_valid bound
  obtain direct | ⟨m, single, rfl⟩ | ⟨m, rfl⟩ := logicalBlock_cases n
  · have step := addIndexBlock_step sane owned t (i := n) (Nat.lt_trans direct (by decide))
    rw [leafPlace_direct direct] at valid ⊢
    rw [locateOrAddBlock, if_pos (show n < inodeIndex1 from direct)]
    dsimp only at step ⊢
    generalize addIndexBlock sb (s.index t) n s.disk = first at step ⊢
    obtain ⟨outcome, index, d⟩ := first
    cases outcome with
    | none => exact .none step.1
    | some b =>
      obtain ⟨entered, filled⟩ := step.2 b rfl
      exact .found sane (step.1.owned sane owned) valid step.1 entered filled
  · have step := addIndexBlock_step sane owned t (i := inodeIndex1 + m / 1024)
      (by simp only [inodeIndex1, inodeIndex3]; omega)
    have skip : 10 + m - inodeIndex1 = m := Nat.add_sub_cancel_left ..
    rw [leafPlace_single single] at valid ⊢
    rw [locateOrAddBlock, if_neg (show ¬10 + m < inodeIndex1 by simp only [inodeIndex1]; omega)]
    dsimp only
    rw [skip, if_pos single]
    dsimp only at step ⊢
    generalize addIndexBlock sb (s.index t) (inodeIndex1 + m / 1024) s.disk = first at step ⊢
    obtain ⟨outcome, index, d⟩ := first
    cases outcome with
    | none => exact .none (step.1.stuck [.sub (.root (10 + m / 1024)) (m % 1024)])
    | some table =>
      obtain ⟨entered, filled⟩ := step.2 table rfl
      dsimp only at step entered ⊢
      have next := addTableBlock_step sane (step.1.owned sane owned) valid
        (by rw [← entered] at filled; exact filled)
      rw [show BlockTrees.block _ t (.root (10 + m / 1024)) = table from entered, put_disk] at next
      dsimp only at next
      generalize addTableBlock sb table (m % 1024) d = second at next ⊢
      obtain ⟨target, d'⟩ := second
      cases target with
      | none => exact .none (step.1.append next.1)
      | some b =>
        obtain ⟨entered, filled⟩ := next.2 b rfl
        exact .found sane (next.1.owned sane (step.1.owned sane owned)) valid
          (step.1.append next.1) entered filled
  · have inside : m < 1024 * 1024 := Nat.lt_of_add_lt_add_left bound
    have step := addIndexBlock_step sane owned t (i := inodeIndex2) (by decide)
    have skip : 10 + 2 * 1024 + m - inodeIndex1 = 2 * 1024 + m := by
      simp only [inodeIndex1]; omega
    rw [leafPlace_double] at valid ⊢
    have upper : (Place.sub (.root 12) (m / 1024)).Valid := valid.1
    rw [locateOrAddBlock,
      if_neg (show ¬10 + 2 * 1024 + m < inodeIndex1 by simp only [inodeIndex1]; omega)]
    dsimp only
    rw [skip, if_neg (by omega), Nat.add_sub_cancel_left, if_pos inside]
    dsimp only at step ⊢
    generalize addIndexBlock sb (s.index t) inodeIndex2 s.disk = first at step ⊢
    obtain ⟨outcome, index, d⟩ := first
    cases outcome with
    | none =>
      exact .none ((step.1.stuck [.sub (.root 12) (m / 1024)]).stuck
        [.sub (.sub (.root 12) (m / 1024)) (m % 1024)])
    | some l2Table =>
      obtain ⟨entered, filled⟩ := step.2 l2Table rfl
      dsimp only at step entered ⊢
      have owned₁ := step.1.owned sane owned
      have second := addTableBlock_step sane owned₁ upper
        (by rw [← entered] at filled; exact filled)
      rw [show BlockTrees.block _ t (.root 12) = l2Table from entered, put_disk] at second
      dsimp only at second
      generalize addTableBlock sb l2Table (m / 1024) d = result at second ⊢
      obtain ⟨outcome, d₂⟩ := result
      cases outcome with
      | none =>
        exact .none ((step.1.append second.1).stuck [.sub (.sub (.root 12) (m / 1024)) (m % 1024)])
      | some l1Block =>
        obtain ⟨entered, filled⟩ := second.2 l1Block rfl
        dsimp only at second entered ⊢
        have owned₂ := second.1.owned sane owned₁
        have third := addTableBlock_step sane owned₂ valid
          (by rw [← entered] at filled; exact filled)
        rw [entered] at third
        dsimp only at third
        generalize addTableBlock sb l1Block (m % 1024) d₂ = result at third ⊢
        obtain ⟨outcome, d₃⟩ := result
        cases outcome with
        | none => exact .none ((step.1.append second.1).append third.1)
        | some b =>
          obtain ⟨entered, filled⟩ := third.2 b rfl
          exact .found sane (third.1.owned sane owned₂) valid
            ((step.1.append second.1).append third.1) entered filled

end BlockTrees

end LabKernel
