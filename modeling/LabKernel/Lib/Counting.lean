import Mathlib

/-! # Counting references

A reference counter equals the number of references that the owners hold together. An operation
changes the references of one owner; these rules say how the sum follows.
-/

namespace LabKernel

variable {α : Type*} [DecidableEq α] {owners : Finset α} {f g : α → ℕ}

/-- The sum changes by what one owner gains and loses. -/
theorem sum_change {a : α} (mem : a ∈ owners) (same : ∀ b ∈ owners, b ≠ a → g b = f b) :
    ∑ b ∈ owners, g b + f a = ∑ b ∈ owners, f b + g a := by
  have others : ∑ b ∈ owners.erase a, g b = ∑ b ∈ owners.erase a, f b :=
    Finset.sum_congr rfl fun b mem =>
      same b (Finset.mem_of_mem_erase mem) (Finset.ne_of_mem_erase mem)
  have left := Finset.sum_erase_add owners g mem
  have right := Finset.sum_erase_add owners f mem
  omega

end LabKernel
