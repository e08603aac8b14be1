import LabKernel.Fs.DirMap
import LabKernel.Fs.Syscall

/-! # Listing a directory

`dentry_search` finds the entries whose name is not empty; `dentry_transmit` copies out those whose
number is not 0. But 0 is also the number of the root directory, so an entry that names the root is
found and not listed.
-/

namespace LabKernel

open BlockTrees

/-! ## Two selections of a list -/

/-- The first `k` members that pass two tests are the same exactly when the tests agree on every member
that comes before the first `k` of one of them are complete. -/
theorem take_filter_eq_iff {α : Type*} (p q : α → Bool) (l : List α) (k : ℕ) :
    (l.filter q).take k = (l.filter p).take k ↔
      ∀ j (inside : j < l.length), (l.take j).countP p < k → q l[j] = p l[j] := by
  have foreign {f g : α → Bool} {a : α} {m : List α} {j : ℕ} (out : g a = false) :
      ¬a :: (m.filter f).take j = (m.filter g).take (j + 1) := by
    intro same
    have member : a ∈ m.filter g := List.mem_of_mem_take (same ▸ List.mem_cons_self)
    exact Bool.false_ne_true (out.symm.trans (List.mem_filter.mp member).2)
  induction l generalizing k with
  | nil => simp
  | cons a l ih =>
    cases k with
    | zero => simp
    | succ k =>
      have split : (∀ j (inside : j < (a :: l).length),
          ((a :: l).take j).countP p < k + 1 → q (a :: l)[j] = p (a :: l)[j]) ↔
          q a = p a ∧ ∀ j (inside : j < l.length),
            (l.take j).countP p + (if p a then 1 else 0) < k + 1 → q l[j] = p l[j] := by
        constructor
        · intro each
          refine ⟨each 0 (Nat.zero_lt_succ _) (Nat.zero_lt_succ _), fun j inside few => ?_⟩
          refine each (j + 1) (Nat.succ_lt_succ inside) ?_
          rwa [List.take_succ_cons, List.countP_cons]
        · rintro ⟨first, later⟩ j inside few
          cases j with
          | zero => exact first
          | succ j =>
            refine later j (Nat.lt_of_succ_lt_succ inside) ?_
            rwa [List.take_succ_cons, List.countP_cons] at few
      rw [split, List.filter_cons, List.filter_cons]
      cases first : p a <;> cases second : q a
      · simpa using ih (k + 1)
      · simp only [↓reduceIte, Bool.false_eq_true, List.take_succ_cons]
        exact iff_of_false (foreign first) (by simp)
      · simp only [↓reduceIte, Bool.false_eq_true, List.take_succ_cons]
        exact iff_of_false (fun same => foreign second same.symm) (by simp)
      · simpa using ih k

/-! ## `dentry_transmit` -/

/-- A search can find the entry. -/
def Dentry.live (de : Dentry) : Bool := de.name 0 != 0

/-- The entries of a directory from `k` on, in slot order. -/
def entriesFrom (s : BlockTrees) (t size : U32) (k : ℕ) : List Dentry :=
  (List.range' k (size.toNat / 64 - k)).map (dirEntry s t)

private theorem entriesFrom_step (s : BlockTrees) (t : U32) {size : U32} {k : ℕ} (inside : k < size.toNat / 64) :
    entriesFrom s t size k = dirEntry s t k :: entriesFrom s t size (k + 1) := by
  have length : size.toNat / 64 - k = (size.toNat / 64 - (k + 1)) + 1 := by omega
  rw [entriesFrom, length, List.range'_succ, List.map_cons, entriesFrom]

private theorem entriesFrom_end (s : BlockTrees) (t : U32) {size : U32} {k : ℕ} (past : size.toNat / 64 ≤ k) :
    entriesFrom s t size k = [] := by
  rw [entriesFrom, Nat.sub_eq_zero_of_le past]
  rfl

/-- What a listing should be: the first entries that a search can find, as many as fit. -/
def ListsFirst (entries : List Dentry) (len : U32) (r : U32 × List Dentry) : Prop :=
  r.2 = (entries.filter Dentry.live).take (len.toNat / 64) ∧ r.1.toNat = 64 * r.2.length

namespace Fs

/-- `dentry_transmit`: what it returns, and the entries that it copies one behind the other. -/
def dentryTransmit (cfg : FsConfig) (i : ℕ) (len : U32) : FsM (U32 × List Dentry) := do
  let out ← dentryTransmitFrom cfg i len scanFuel 0 (fun _ => 0) []
  pure (BitVec.ofNat 32 (64 * out.length), out)

variable {cfg : FsConfig} {s : FsState} {i : ℕ} {st : Store} {t : U32}

/-- An entry read over an earlier one. -/
theorem decode_blit {de : Bytes} (clean : ∀ x, 64 ≤ x → de x = 0) (k : ℕ) :
    Dentry.decode (de.blit 0 (fun x => st.trees.fileByte t (64 * k + x)) 64) 0 =
      dirEntry st.trees t k := by
  have same : de.blit 0 (fun x => st.trees.fileByte t (64 * k + x)) 64 =
      Bytes.blit (fun _ => 0) 0 (fun x => st.trees.fileByte t (64 * k + x)) 64 := by
    funext x
    by_cases inside : x < 64
    · rw [Bytes.blit_inside (Nat.zero_le x) (by omega), Bytes.blit_inside (Nat.zero_le x) (by omega)]
    · rw [Bytes.blit_outside (by omega), Bytes.blit_outside (by omega), clean x (by omega)]
  rw [same, dirEntry]

private theorem dentryTransmitFrom_yields (sane : cfg.sb.Sane) (view : DirView cfg s i st t) (len : U32)
    (fuel : ℕ) {k : ℕ} (bound : k ≤ (s.inodeCache i).diskInfo.size.toNat / 64)
    (enough : (s.inodeCache i).diskInfo.size.toNat / 64 - k < fuel) {de : Bytes}
    (clean : ∀ x, 64 ≤ x → de x = 0) (out : List Dentry) :
    Yields (dentryTransmitFrom cfg i len fuel (BitVec.ofNat 32 (64 * k)) de out) s fun r s' => s' = s ∧
      r = out ++ ((entriesFrom st.trees t (s.inodeCache i).diskInfo.size k).filter
        (·.inodeNum != 0)).take (len.toNat / 64 - out.length) := by
  obtain ⟨sound, shows, dir⟩ := view
  induction fuel generalizing k de out with
  | zero => omega
  | succ fuel ih =>
    rw [dentryTransmitFrom]
    simp only [diskInfo, Ends.bind_iff, Ends.get_iff, Ends.pure_iff]
    refine Ends.ite (fun more => ?_) fun stop => ?_
    · have inside := (offset_lt bound dir.size).mp more.1
      have read := st.read_dentry sane sound shows.record dir inside de
      simp only [Fs.inodeReadData, Ends.bind_iff, Ends.get_iff, Ends.set_iff, Ends.pure_iff, shows.disk,
        read]
      rw [← shows.disk, FsState.setDisk_self, FsState.setInode_self, next_offset, decode_blit clean,
        entriesFrom_step st.trees t inside]
      have clean' : ∀ x, 64 ≤ x → de.blit 0 (fun x => st.trees.fileByte t (64 * k + x)) 64 x = 0 :=
        fun x past => (Bytes.blit_outside (by omega)).trans (clean x past)
      refine (ih (by omega) (by omega) clean' _).mono ?_
      rintro _ _ ⟨rfl, rfl⟩
      refine ⟨rfl, ?_⟩
      by_cases named : (dirEntry st.trees t k).inodeNum = 0
      · rw [if_neg (not_not.mpr named), List.filter_cons_of_neg (by simpa using named)]
      · have left : len.toNat / 64 - out.length = len.toNat / 64 - (out.length + 1) + 1 := by omega
        rw [if_pos named, List.filter_cons_of_pos (by simpa using named), List.length_append,
          List.length_singleton, left, List.take_succ_cons, List.append_assoc, List.singleton_append]
    · refine ⟨rfl, ?_⟩
      by_cases past : (s.inodeCache i).diskInfo.size.toNat / 64 ≤ k
      · rw [entriesFrom_end st.trees t past, List.filter_nil, List.take_nil, List.append_nil]
      · have inside := (offset_lt bound dir.size).mpr (Nat.lt_of_not_le past)
        have none : ¬64 * out.length + 64 ≤ len.toNat := fun fits => stop ⟨inside, fits⟩
        have full : len.toNat / 64 - out.length = 0 := by omega
        rw [full, List.take_zero, List.append_nil]

private theorem dentryTransmit_yields (sane : cfg.sb.Sane) (view : DirView cfg s i st t) (len : U32) :
    Yields (dentryTransmit cfg i len) s fun r s' => s' = s ∧
      r.2 = ((entriesFrom st.trees t (s.inodeCache i).diskInfo.size 0).filter
        (·.inodeNum != 0)).take (len.toNat / 64) ∧ r.1.toNat = 64 * r.2.length := by
  refine Ends.bind_iff.mpr ((dentryTransmitFrom_yields sane view len scanFuel (Nat.zero_le _)
    (scanFuel_enough _) (fun _ _ => rfl) []).mono ?_)
  rintro out s' ⟨same, rfl⟩
  refine ⟨same, rfl, ?_⟩
  have small := len.isLt
  have short := List.length_take_le (len.toNat / 64)
    ((entriesFrom st.trees t (s.inodeCache i).diskInfo.size 0).filter (·.inodeNum != 0))
  dsimp only
  rw [List.nil_append, List.length_nil, Nat.sub_zero, BitVec.toNat_ofNat, Nat.mod_eq_of_lt (by omega)]

/-- The entries with a number other than 0 are those that a search can find exactly when the tests agree
up to the last entry that should be listed. -/
theorem listed_iff {info : InodeDisk} {len : U32} {r : U32 × List Dentry}
    (copied : r.2 = ((entriesFrom st.trees t info.size 0).filter (·.inodeNum != 0)).take (len.toNat / 64))
    (count : r.1.toNat = 64 * r.2.length) :
    ListsFirst (entriesFrom st.trees t info.size 0) len r ↔ ∀ k < info.size.toNat / 64,
      (List.range k).countP (fun j => (dirEntry st.trees t j).live) < len.toNat / 64 →
        ((dirEntry st.trees t k).inodeNum ≠ 0 ↔ (dirEntry st.trees t k).name 0 ≠ 0) := by
  have all : entriesFrom st.trees t info.size 0 =
      (List.range (info.size.toNat / 64)).map (dirEntry st.trees t) := by
    rw [entriesFrom, Nat.sub_zero, List.range_eq_range']
  rw [ListsFirst, and_iff_left count, copied, take_filter_eq_iff, all]
  simp only [List.length_map, List.length_range, List.getElem_map, List.getElem_range]
  refine forall₂_congr fun k inside => ?_
  rw [← List.map_take, List.take_range, Nat.min_eq_left inside.le, List.countP_map]
  refine imp_congr_right fun _ => ?_
  rw [Bool.eq_iff_iff, Dentry.live, bne_iff_ne, bne_iff_ne]

/-- A directory is listed as a search sees it exactly when, among the entries up to the last one that
should be listed, those with an empty name are the ones with number 0. -/
theorem dentryTransmit_listed (sane : cfg.sb.Sane) (view : DirView cfg s i st t) (len : U32) :
    ∃ r, dentryTransmit cfg i len s = .ok r s ∧
      (ListsFirst (entriesFrom st.trees t (s.inodeCache i).diskInfo.size 0) len r ↔
        ∀ k < (s.inodeCache i).diskInfo.size.toNat / 64,
          (List.range k).countP (fun j => (dirEntry st.trees t j).live) < len.toNat / 64 →
            ((dirEntry st.trees t k).inodeNum ≠ 0 ↔ (dirEntry st.trees t k).name 0 ≠ 0)) := by
  obtain ⟨r, s', result, same, copied, count⟩ := (dentryTransmit_yields sane view len).result
  exact ⟨r, same ▸ result, listed_iff copied count⟩

def cdName : Bytes := nameOf [0x63, 0x64]

private theorem mapStep_created {m m' : List U8 → Option U32} {n r : U32} {name : Bytes}
    (made : DirOp.MapStep m (.create n name, r) m') (valid : r ≠ minusOne) :
    m' = Function.update m (nameText name) (some n) := by
  change if r = minusOne then m' = m else _ ∧ _ at made
  rw [if_neg valid] at made
  exact made.2

/-- After two creations and the deletion of the first name an empty map has the second name. -/
theorem dirMap_left {m : List U8 → Option U32} (map : Run DirOp.MapStep (fun _ => none)
    [(.create 5 abName, 0), (.create 6 cdName, 64), (.delete abName, 5)] m) :
    m = Function.update (Function.update (fun _ => none) (nameText cdName) (some 6)) (nameText abName) none := by
  cases map with
  | cons first rest =>
    cases rest with
    | cons second rest =>
      obtain rfl := mapStep_created first (by decide)
      obtain rfl := mapStep_created second (by decide)
      obtain ⟨-, rfl⟩ := rest.single
      have other : nameText cdName ≠ nameText abName := by decide
      rw [Function.update_comm other, Function.update_idem, Function.update_comm other]

/-- A directory with a deleted entry in slot 0 and a live one in slot 1: the live one is listed, as the search
sees it. -/
theorem dentryTransmit_listed_deleted : ∃ s st r,
    Run (dirStep ⟨mkfsSuperBlock, false⟩ 0) newDirectory
      [(.create 5 abName, 0), (.create 6 cdName, 64), (.delete abName, 5)] s ∧
    DirView ⟨mkfsSuperBlock, false⟩ s 0 st 0 ∧ (s.inodeCache 0).diskInfo.size = 128 ∧
    dentryTransmit ⟨mkfsSuperBlock, false⟩ 0 128 s = .ok r s ∧ r.1 = 64 ∧
    r.2.map (·.inodeNum) = [6] ∧ ListsFirst (entriesFrom st.trees 0 128 0) 128 r := by
  have isName : IsName cdName := ⟨by decide, 2, by decide, by decide⟩
  obtain ⟨s, run, found⟩ := dirRun_exists ⟨mkfsSuperBlock, false⟩ 0 newDirectory
    [(.create 5 abName, 0), (.create 6 cdName, 64), (.delete abName, 5)]
    (fun s => (s.inodeCache 0).diskInfo.size == 128 &&
      match dentryTransmit ⟨mkfsSuperBlock, false⟩ 0 128 s with
      | .ok r _ => r.1 == 64 && r.2.map (fun de => (de.inodeNum, de.name 0)) == [(6, 0x63)]
      | .error _ _ => false) (by decide +kernel)
  simp only [Bool.and_eq_true, beq_iff_eq] at found
  obtain ⟨size, found⟩ := found
  obtain ⟨st, view, map, -⟩ := directory_map mkfsSuperBlock_sane newDirectory_view
    (by simp [DirOp.Valid, abName_isName, isName]) run
  obtain ⟨r, listing, listed⟩ := dentryTransmit_listed mkfsSuperBlock_sane view 128
  obtain ⟨_, _, again, -, copied, -⟩ := (dentryTransmit_yields mkfsSuperBlock_sane view 128).result
  obtain ⟨rfl, -⟩ := EStateM.Result.ok.inj (again.symm.trans listing)
  rw [listing] at found
  simp only [Bool.and_eq_true, beq_iff_eq] at found
  rw [size] at copied listed
  have left := dirMap_left map
  refine ⟨s, st, _, run, view, size, listing, found.1, ?_, listed.mpr fun k inside _ =>
    ⟨fun named => ?_, fun live => ?_⟩⟩
  · have numbers := congrArg (List.map Prod.fst) found.2
    rwa [List.map_map] at numbers
  · -- the only entry with a number was copied
    have member : dirEntry st.trees 0 k ∈ (entriesFrom st.trees 0 128 0).filter (·.inodeNum != 0) := by
      refine List.mem_filter.mpr ⟨List.mem_map.mpr ⟨k, ?_, rfl⟩, by simpa using named⟩
      rw [List.mem_range'_1]
      omega
    have short : ((entriesFrom st.trees 0 128 0).filter (·.inodeNum != 0)).length ≤ (128 : U32).toNat / 64 :=
      (List.length_filter_le ..).trans (by simp [entriesFrom])
    rw [List.take_of_length_le short] at copied
    rw [← copied] at member
    have pair := found.2 ▸ List.mem_map_of_mem (f := fun de : Dentry => (de.inodeNum, de.name 0)) member
    rw [(Prod.mk.inj (List.mem_singleton.mp pair)).2]
    decide
  · -- the only name that is left is that of inode 6
    have lookup : dirMap st.trees 0 (s.inodeCache 0).diskInfo (nameText (dirEntry st.trees 0 k).name) =
        some (dirEntry st.trees 0 k).inodeNum := by
      refine (SlotTable.lookup_eq_some view.dir.distinct).mpr ⟨k, by rw [size]; exact inside, ?_⟩
      rw [dirTable_slot _ _ (by rw [size]; exact inside), Dentry.slot_of_live live]
    rw [left] at lookup
    intro zero
    rw [zero, Function.update_apply, Function.update_apply] at lookup
    split at lookup
    · cases lookup
    · split at lookup <;> cases lookup

/-- A directory whose `..` is the root: a search finds this entry, and it is not listed. -/
theorem dentryTransmit_root : ∃ (s : FsState) (st : Store),
    DirView ⟨mkfsSuperBlock, false⟩ s 0 st 0 ∧
      dentrySearch ⟨mkfsSuperBlock, false⟩ 0 dotDot s = .ok 0 s ∧
      ∃ r, dentryTransmit ⟨mkfsSuperBlock, false⟩ 0 64 s = .ok r s ∧
        ¬ListsFirst (entriesFrom st.trees 0 (s.inodeCache 0).diskInfo.size 0) 64 r := by
  have isName : IsName dotDot := ⟨by decide, 2, by decide, by decide⟩
  obtain ⟨r, s, st, made, view, creates, map⟩ :=
    newDirectory_view.create mkfsSuperBlock_sane 0 isName
  have value : (match dentryCreate ⟨mkfsSuperBlock, false⟩ 0 0 dotDot newDirectory with
    | .ok r _ => r
    | .error _ _ => minusOne) = 0 := by decide +kernel
  rw [made] at value
  obtain rfl : r = 0 := value
  have valid : (0 : U32) ≠ minusOne := by decide
  rw [if_neg valid] at map
  rw [Creates, if_neg valid] at creates
  obtain ⟨found, search, number⟩ := view.search mkfsSuperBlock_sane dotDot
  rw [map, Function.update_self, Option.getD_some] at number
  obtain ⟨listing, s', result, same, copied, count⟩ :=
    (dentryTransmit_yields mkfsSuperBlock_sane view 64).result
  refine ⟨s, st, view, number ▸ search, listing, same ▸ result, fun all => ?_⟩
  have entry : dirMap st.trees 0 (s.inodeCache 0).diskInfo (nameText dotDot) = some 0 := by
    rw [map, Function.update_self]
  obtain ⟨k, inside, slot⟩ := (SlotTable.lookup_eq_some view.dir.distinct).mp entry
  have one : (s.inodeCache 0).diskInfo.size.toNat = 64 := creates.2.2
  have inside : k < (s.inodeCache 0).diskInfo.size.toNat / 64 := inside
  obtain rfl : k = 0 := by omega
  rw [dirTable_slot _ _ inside, Dentry.slot] at slot
  split at slot
  · cases slot
  · rename_i named
    have zero := (Prod.mk.inj (Option.some.inj slot)).2
    exact ((listed_iff copied count).mp all 0 inside Nat.one_pos).mpr named zero

end Fs

end LabKernel
