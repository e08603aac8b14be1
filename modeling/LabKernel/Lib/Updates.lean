import Mathlib

/-! # A function changed at several places

Code that saves registers changes memory at one place after another, and code that restores them changes
registers one after another. Where no place is changed twice, the order does not matter: each place has
the value that was meant for it.
-/

namespace LabKernel

variable {κ ι α : Type*} [DecidableEq κ]

/-- `f` with new values, the later ones on top -/
def updates (f : κ → α) (changes : List (κ × α)) : κ → α :=
  changes.foldl (fun f c => Function.update f c.1 c.2) f

variable {f : κ → α} {key : ι → κ} {value : ι → α} {l : List ι}

@[simp] theorem updates_nil (f : κ → α) : updates f [] = f := rfl

@[simp] theorem updates_cons (f : κ → α) (c : κ × α) (changes : List (κ × α)) :
    updates f (c :: changes) = updates (Function.update f c.1 c.2) changes := rfl

theorem updates_other {k : κ} (absent : ∀ i ∈ l, key i ≠ k) :
    updates f (l.map fun i => (key i, value i)) k = f k := by
  induction l generalizing f with
  | nil => rfl
  | cons i l ih =>
    obtain ⟨first, rest⟩ := List.forall_mem_cons.mp absent
    rw [List.map_cons, updates_cons, ih rest, Function.update_of_ne first.symm]

theorem updates_mem (nodup : (l.map key).Nodup) {i : ι} (member : i ∈ l) :
    updates f (l.map fun i => (key i, value i)) (key i) = value i := by
  induction l generalizing f with
  | nil => cases member
  | cons j l ih =>
    obtain ⟨absent, nodup⟩ := List.nodup_cons.mp nodup
    rw [List.map_cons, updates_cons]
    rcases List.mem_cons.mp member with rfl | later
    · rw [updates_other fun i within same => absent (List.mem_map.mpr ⟨i, within, same⟩), Function.update_self]
    · exact ih nodup later

end LabKernel
