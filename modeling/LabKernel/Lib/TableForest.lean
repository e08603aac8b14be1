import Mathlib

/-! # Forests of tables in a heap

A tree is a root table whose entries may point to further tables of a heap; a forest is one root
table for each of several trees over one heap. Index blocks of files and multi-level page tables are
both forests. A `Place` names an entry by the way that leads to it, so a forest reads as a map from
trees and places to entries. Writing one entry changes the map at one place only, also when the new
entry points to an empty table; `Overwrite.entry` is that fact, and it needs no depth bound.
-/

namespace LabKernel

/-- An entry of a tree: entry `i` of its root table, or entry `j` of the table `q` points to. -/
inductive Place where
  | root (i : ℕ)
  | sub (q : Place) (j : ℕ)
deriving DecidableEq, Repr

/-- Root tables indexed by trees, and the tables of the heap indexed by address. -/
structure Forest (τ α ε : Type*) where
  root : τ → ℕ → ε
  table : α → ℕ → ε

namespace Forest

variable {τ α ε : Type*} [DecidableEq τ] (child : ε → Option α) (null : ε)

/-- The entry at a place; below an entry that points to no table it is `null`. -/
def entry (F : Forest τ α ε) (t : τ) : Place → ε
  | .root i => F.root t i
  | .sub q j =>
    match child (F.entry t q) with
    | some a => F.table a j
    | none => null

/-- The places whose parent, if any, is followed. -/
def Within (inner : Place → Prop) : Place → Prop
  | .root _ => True
  | .sub q _ => inner q

/-- `F'` is `F` with entry `e` written at place `place` of tree `tree`. Tables that the forest does
not reach may change freely; a table that `e` points to is reached from now on and must be empty. -/
structure Overwrite (inner : Place → Prop) (F F' : Forest τ α ε) (tree : τ) (place : Place)
    (e : ε) : Prop where
  root : ∀ t i, F'.root t i = if t = tree ∧ .root i = place then e else F.root t i
  table : ∀ t q a j, inner q → child (F.entry child null t q) = some a →
    F'.table a j = if t = tree ∧ .sub q j = place then e else F.table a j
  reached : ∀ q j, place = .sub q j → child (F.entry child null tree q) ≠ none
  fresh : inner place → child (F.entry child null tree place) = none ∧
    ∀ a j, child e = some a → F'.table a j = null

variable {child null} {inner : Place → Prop} {F F' : Forest τ α ε} {tree : τ} {place : Place} {e : ε}

omit [DecidableEq τ] in
/-- Changes off the reached tables of a tree change none of its entries. -/
theorem entry_congr (closed : ∀ q j, inner (.sub q j) → inner q)
    (root : ∀ i, F'.root tree i = F.root tree i)
    (table : ∀ q a j, inner q → child (F.entry child null tree q) = some a →
      F'.table a j = F.table a j) {p : Place} (within : Within inner p) :
    F'.entry child null tree p = F.entry child null tree p := by
  induction p with
  | root i => exact root i
  | sub q j ih =>
    have followed : inner q := within
    have above : Within inner q := by
      cases q with
      | root i => trivial
      | sub q' i => exact closed q' i followed
    simp only [Forest.entry, ih above]
    cases points : child (F.entry child null tree q) with
    | none => rfl
    | some a => exact table q a j followed points

/-- A write changes the entry at its own place and no other. -/
theorem Overwrite.entry_eq (closed : ∀ q j, inner (.sub q j) → inner q)
    (write : Overwrite child null inner F F' tree place e) (t : τ) {p : Place}
    (within : Within inner p) :
    F'.entry child null t p =
      if t = tree ∧ p = place then e else F.entry child null t p := by
  induction p with
  | root i => exact write.root t i
  | sub q j ih =>
    have followed : inner q := within
    have above : Within inner q := by
      cases q with
      | root i => trivial
      | sub q' i => exact closed q' i followed
    have parent := ih above
    by_cases here : t = tree ∧ q = place
    · -- the parent is the written entry: its table is empty before and after
      obtain ⟨rfl, rfl⟩ := here
      obtain ⟨before, empty⟩ := write.fresh followed
      have elsewhere : ¬(t = t ∧ Place.sub q j = q) := by
        rintro ⟨-, same⟩
        have := congrArg sizeOf same
        simp only [Place.sub.sizeOf_spec] at this
        omega
      rw [if_pos ⟨rfl, rfl⟩] at parent
      rw [if_neg elsewhere]
      simp only [Forest.entry, parent, before]
      cases points : child e with
      | none => rfl
      | some a => exact empty a j points
    · rw [if_neg here] at parent
      cases points : child (F.entry child null t q) with
      | none =>
        have elsewhere : ¬(t = tree ∧ Place.sub q j = place) := by
          rintro ⟨rfl, same⟩
          exact write.reached q j same.symm points
        rw [if_neg elsewhere]
        simp only [Forest.entry, parent, points]
      | some a =>
        simp only [Forest.entry, parent, points]
        exact write.table t q a j followed points

omit [DecidableEq τ] in
/-- Some of the trees of a forest are a forest with the same entries. -/
theorem entry_comap {σ : Type*} (f : σ → τ) (F : Forest τ α ε) (t : σ) (p : Place) :
    Forest.entry child null ⟨fun s => F.root (f s), F.table⟩ t p = F.entry child null (f t) p := by
  induction p with
  | root i => rfl
  | sub q j ih => simp only [Forest.entry, ih]

end Forest

end LabKernel
