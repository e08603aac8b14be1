import Mathlib

/-! # Code as a list of operations

What a thread has still to do is a list. `Every` relates each operation to what follows it, and
`balance` adds up what the operations count.
-/

namespace LabKernel

variable {α : Type*}

/-- `P` holds of each element of the list and what follows it. -/
def Every (P : α → List α → Prop) : List α → Prop
  | [] => True
  | a :: rest => P a rest ∧ Every P rest

@[simp] theorem every_nil {P : α → List α → Prop} : Every P [] := trivial

@[simp] theorem every_cons {P : α → List α → Prop} {a : α} {rest : List α} :
    Every P (a :: rest) ↔ P a rest ∧ Every P rest := Iff.rfl

theorem every_and {P Q : α → List α → Prop} {code : List α} :
    Every (fun a rest => P a rest ∧ Q a rest) code ↔ Every P code ∧ Every Q code := by
  induction code with
  | nil => simp
  | cons a rest ih =>
    simp only [every_cons, ih]
    tauto

/-- The sum of what the elements count. -/
def balance (count : α → ℤ) (code : List α) : ℤ := (code.map count).sum

variable {count : α → ℤ}

@[simp] theorem balance_nil : balance count [] = 0 := rfl

@[simp] theorem balance_cons (a : α) (rest : List α) :
    balance count (a :: rest) = count a + balance count rest := by
  simp [balance]

@[simp] theorem balance_append (front rest : List α) :
    balance count (front ++ rest) = balance count front + balance count rest := by
  simp [balance]

end LabKernel
