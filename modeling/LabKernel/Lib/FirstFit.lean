import Mathlib

/-! # First fit

Blocks in the order of their places leave gaps between them. `firstFit` goes along the blocks with a
candidate, which is the end of the last block passed, and stops in front of the first block that leaves
enough space behind the candidate. The place it stops at is the least one with enough space, so there is
space below a limit exactly if this place is below it.
-/

namespace LabKernel

variable {α β : Type*}

/-- The search has passed the blocks `before`, the last one first: the place, and the blocks before and
behind it. -/
def firstFit [Add α] [LE α] [DecidableLE α] (lo hi : β → α) (size : α) :
    (before : List β) → (candidate : α) → List β → α × List β × List β
  | before, candidate, [] => (candidate, before, [])
  | before, candidate, b :: rest =>
    if candidate + size ≤ lo b then (candidate, before, b :: rest)
    else firstFit lo hi size (b :: before) (hi b) rest

/-- A range from `a` on meets none of the blocks. -/
def Clear [Add α] [Preorder α] (lo hi : β → α) (l : List β) (size a : α) : Prop :=
  ∀ b ∈ l, Disjoint (Set.Ico a (a + size)) (Set.Ico (lo b) (hi b))

section

variable [LinearOrder α]

/-- Blocks of some size in the order of their places from `c` on; neighbours may touch. -/
structure InOrder (lo hi : β → α) (c : α) (l : List β) : Prop where
  from_le : ∀ b ∈ l, c ≤ lo b
  filled : ∀ b ∈ l, lo b < hi b
  apart : l.Pairwise fun a b => hi a ≤ lo b

variable {lo hi : β → α} {size c a : α} {before l : List β} {b : β}

theorem InOrder.tail (order : InOrder lo hi c (b :: l)) : InOrder lo hi (hi b) l :=
  ⟨(List.pairwise_cons.mp order.apart).1, (List.forall_mem_cons.mp order.filled).2,
    (List.pairwise_cons.mp order.apart).2⟩

theorem InOrder.le_hi (order : InOrder lo hi c (b :: l)) : c ≤ hi b :=
  (order.from_le b List.mem_cons_self).trans (order.filled b List.mem_cons_self).le

/-- What is in front of the first block is in front of all. -/
theorem InOrder.in_front (order : InOrder lo hi c (b :: l)) (front : a ≤ lo b) : ∀ r ∈ b :: l, a ≤ lo r :=
  List.forall_mem_cons.mpr ⟨front, fun r within => front.trans
    ((order.filled b List.mem_cons_self).le.trans (order.tail.from_le r within))⟩

variable [AddCommMonoid α]

/-- A range of some size meets no block if it lies in front of it or behind it. -/
theorem clear_iff [AddLeftStrictMono α] (positive : 0 < size) (filled : ∀ b ∈ l, lo b < hi b) :
    Clear lo hi l size a ↔ ∀ b ∈ l, a + size ≤ lo b ∨ hi b ≤ a := by
  refine forall₂_congr fun b within => ?_
  have some : a < a + size := lt_add_of_pos_right a positive
  have block := filled b within
  rw [Set.Ico_disjoint_Ico, min_le_iff, le_max_iff, le_max_iff]
  constructor
  · rintro ((impossible | front) | (behind | impossible))
    · exact absurd impossible some.not_ge
    · exact .inl front
    · exact .inr behind
    · exact absurd impossible block.not_ge
  · rintro (front | behind)
    · exact .inl (.inr front)
    · exact .inr (.inl behind)

/-- The search cuts the list in two. -/
theorem firstFit_cut (lo hi : β → α) (size : α) (before : List β) (c : α) (l : List β) :
    (firstFit lo hi size before c l).2.1.reverse ++ (firstFit lo hi size before c l).2.2 =
      before.reverse ++ l := by
  induction l generalizing before c with
  | nil => rfl
  | cons b rest ih =>
    rw [firstFit]
    split
    · rfl
    · rw [ih, List.reverse_cons, List.append_assoc, List.singleton_append]

/-- The place is the first candidate or the end of a block. -/
theorem firstFit_end (lo hi : β → α) (size : α) (before : List β) (c : α) (l : List β) :
    (firstFit lo hi size before c l).1 = c ∨ ∃ b ∈ l, (firstFit lo hi size before c l).1 = hi b := by
  induction l generalizing before c with
  | nil => exact .inl rfl
  | cons b rest ih =>
    rw [firstFit]
    split
    · exact .inl rfl
    · rcases ih (b :: before) (hi b) with first | ⟨r, within, last⟩
      · exact .inr ⟨b, List.mem_cons_self, first⟩
      · exact .inr ⟨r, List.mem_cons_of_mem b within, last⟩

/-- The blocks passed lie behind the place, and there is space up to the others. -/
theorem firstFit_between (size : α) (order : InOrder lo hi c l) (passed : ∀ b ∈ before, hi b ≤ c) :
    let place := firstFit lo hi size before c l
    (∀ b ∈ place.2.1, hi b ≤ place.1) ∧ ∀ b ∈ place.2.2, place.1 + size ≤ lo b := by
  induction l generalizing before c with
  | nil => exact ⟨passed, List.forall_mem_nil _⟩
  | cons b rest ih =>
    rw [firstFit]
    split
    · rename_i space
      exact ⟨passed, order.in_front space⟩
    · have order' := order.le_hi
      exact ih order.tail (List.forall_mem_cons.mpr ⟨le_rfl, fun r within => (passed r within).trans order'⟩)

variable [IsOrderedAddMonoid α]

/-- The search finds the first place from the candidate on that has enough space. -/
theorem firstFit_least [AddLeftStrictMono α] (before : List β) (positive : 0 < size) (order : InOrder lo hi c l) :
    IsLeast {a | c ≤ a ∧ Clear lo hi l size a} (firstFit lo hi size before c l).1 := by
  induction l generalizing before c with
  | nil => exact ⟨⟨le_rfl, List.forall_mem_nil _⟩, fun a fits => fits.1⟩
  | cons b rest ih =>
    rw [firstFit]
    have filled := order.filled
    by_cases space : c + size ≤ lo b
    · rw [if_pos space]
      exact ⟨⟨le_rfl, (clear_iff positive filled).mpr fun r within => .inl (order.in_front space r within)⟩,
        fun a fits => fits.1⟩
    · rw [if_neg space]
      -- whatever has space from `c` on lies behind the block, where the search goes on
      have same : {a | c ≤ a ∧ Clear lo hi (b :: rest) size a} =
          {a | hi b ≤ a ∧ Clear lo hi rest size a} := by
        ext a
        simp only [Set.mem_ofPred_eq, clear_iff positive filled, clear_iff positive order.tail.filled,
          List.forall_mem_cons]
        constructor
        · rintro ⟨low, front | behind, others⟩
          · exact absurd ((add_le_add_left low size).trans front) space
          · exact ⟨behind, others⟩
        · rintro ⟨behind, others⟩
          exact ⟨order.le_hi.trans behind, .inr behind, others⟩
      rw [same]
      exact ih (b :: before) order.tail

/-- Below a limit there is a place with enough space exactly if the one found lies below it. -/
theorem firstFit_complete [AddLeftStrictMono α] (before : List β) (positive : 0 < size) (order : InOrder lo hi c l)
    (limit : α) :
    (firstFit lo hi size before c l).1 + size ≤ limit ↔
      ∃ a, c ≤ a ∧ a + size ≤ limit ∧ Clear lo hi l size a := by
  obtain ⟨⟨low, clear⟩, least⟩ := firstFit_least before positive order
  constructor
  · exact fun space => ⟨_, low, space, clear⟩
  · rintro ⟨a, low, space, clear⟩
    exact (add_le_add_left (least ⟨low, clear⟩) size).trans space

end

end LabKernel
