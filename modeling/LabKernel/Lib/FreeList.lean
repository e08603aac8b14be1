import Mathlib

/-! # Free lists in the cells that are free

An allocator of equal cells needs no memory of its own: each free cell holds the address of the next one,
and the last holds a null address. The chain stands for a list, `push` and `pop` work on the front of
this list, and whoever holds a cell may write to it. Cells are never lost and never given out twice.
-/

namespace LabKernel

/-- The head of a chain, and what each cell has in the place of its link -/
structure FreeList (α : Type*) where
  head : α
  link : α → α

namespace FreeList

variable {α : Type*} {null a b : α} {l held cells : List α} {s : FreeList α}

/-- The links lead from an address through the cells of a list to the null address. -/
def Chained (link : α → α) (null : α) : α → List α → Prop
  | a, [] => a = null
  | a, b :: rest => a = b ∧ b ≠ null ∧ Chained link null (link b) rest

theorem chained_congr {link link' : α → α} (same : ∀ b ∈ l, link' b = link b) (chain : Chained link null a l) :
    Chained link' null a l := by
  induction l generalizing a with
  | nil => exact chain
  | cons b rest ih =>
    obtain ⟨here, more⟩ := List.forall_mem_cons.mp same
    refine ⟨chain.1, chain.2.1, ?_⟩
    rw [here]
    exact ih more chain.2.2

/-- A chain is at its end exactly if it has no cells. -/
theorem chained_null (chain : Chained s.link null s.head l) : s.head = null ↔ l = [] := by
  cases l with
  | nil => exact iff_of_true chain rfl
  | cons b rest =>
    apply iff_of_false
    · rw [chain.1]
      exact chain.2.1
    · exact List.cons_ne_nil b rest

/-- The links determine the list. -/
theorem chained_unique {link : α → α} {l' : List α} (chain : Chained link null a l)
    (chain' : Chained link null a l') : l = l' := by
  induction l generalizing a l' with
  | nil =>
    cases l' with
    | nil => rfl
    | cons b rest => exact absurd (chain'.1.symm.trans chain) chain'.2.1
  | cons b rest ih =>
    cases l' with
    | nil => exact absurd (chain.1.symm.trans chain') chain.2.1
    | cons b' rest' =>
      obtain rfl : b = b' := chain.1.symm.trans chain'.1
      rw [ih chain.2.2 chain'.2.2]

def pop (s : FreeList α) : FreeList α := ⟨s.link s.head, s.link⟩

theorem Chained.pop (chain : Chained s.link null s.head (a :: l)) :
    s.head = a ∧ Chained s.pop.link null s.pop.head l := by
  obtain ⟨head, -, rest⟩ := chain
  refine ⟨head, ?_⟩
  change Chained s.link null (s.link s.head) l
  rw [head]
  exact rest

/-! ## Cells in use -/

/-- The free cells and those that are held are the cells of the allocator, each of them once. -/
def Exact (s : FreeList α) (null : α) (held cells : List α) : Prop :=
  ∃ free, Chained s.link null s.head free ∧ (free ++ held).Perm cells

/-- The free cells, if the chain is known -/
theorem Exact.perm (sound : s.Exact null held cells) (chain : Chained s.link null s.head l) :
    (l ++ held).Perm cells := by
  obtain ⟨free, chain', perm⟩ := sound
  rw [chained_unique chain chain']
  exact perm

theorem Exact.held_subset (sound : s.Exact null held cells) : held ⊆ cells := by
  obtain ⟨free, -, perm⟩ := sound
  exact fun a holds => perm.subset (List.mem_append_right free holds)

/-- What is written to cells that are held, or to others, does not matter. -/
theorem Exact.write (sound : s.Exact null held cells) (nodup : cells.Nodup) {link : α → α}
    (same : ∀ b ∈ cells, b ∉ held → link b = s.link b) : Exact ⟨s.head, link⟩ null held cells := by
  obtain ⟨free, chain, perm⟩ := sound
  refine ⟨free, chained_congr (fun b within => ?_) chain, perm⟩
  apply same b (perm.subset (List.mem_append_left held within))
  exact List.disjoint_of_nodup_append (perm.nodup_iff.mpr nodup) within

/-- The cell in front is held by nobody. -/
theorem Exact.pop (sound : s.Exact null held cells) (nodup : cells.Nodup) (some : s.head ≠ null) :
    s.head ∈ cells ∧ s.head ∉ held ∧ s.pop.Exact null (s.head :: held) cells := by
  obtain ⟨free, chain, perm⟩ := sound
  cases free with
  | nil => exact absurd chain some
  | cons a rest =>
    obtain ⟨rfl, chain'⟩ := chain.pop
    refine ⟨perm.subset List.mem_cons_self, ?_, rest, chain', List.perm_middle.trans perm⟩
    exact List.disjoint_of_nodup_append (perm.nodup_iff.mpr nodup) List.mem_cons_self

/-- There is no free cell exactly if as many are held as there are. -/
theorem Exact.null_iff (sound : s.Exact null held cells) : s.head = null ↔ held.length = cells.length := by
  obtain ⟨free, chain, perm⟩ := sound
  rw [chained_null chain, ← perm.length_eq, List.length_append]
  constructor
  · rintro rfl
    exact (Nat.zero_add _).symm
  · intro same
    apply List.eq_nil_of_length_eq_zero
    omega

/-! ## Giving back -/

variable [DecidableEq α]

def push (s : FreeList α) (a : α) : FreeList α := ⟨a, Function.update s.link a s.head⟩

theorem Chained.push (chain : Chained s.link null s.head l) (fresh : a ∉ l) (real : a ≠ null) :
    Chained (s.push a).link null (s.push a).head (a :: l) := by
  refine ⟨rfl, real, ?_⟩
  change Chained (Function.update s.link a s.head) null (Function.update s.link a s.head a) l
  rw [Function.update_self]
  apply chained_congr _ chain
  intro b within
  apply Function.update_of_ne
  rintro rfl
  exact fresh within

theorem Exact.push (sound : s.Exact null held cells) (nodup : cells.Nodup) (real : null ∉ cells)
    (holds : a ∈ held) : (s.push a).Exact null (held.erase a) cells := by
  obtain ⟨free, chain, perm⟩ := sound
  have fresh : a ∉ free := fun within =>
    List.disjoint_of_nodup_append (perm.nodup_iff.mpr nodup) within holds
  refine ⟨a :: free, chain.push fresh ?_, ?_⟩
  · rintro rfl
    exact real (perm.subset (List.mem_append_right free holds))
  · have back : (a :: (free ++ held.erase a)).Perm (free ++ held) :=
      List.perm_middle.symm.trans ((List.perm_cons_erase holds).symm.append_left free)
    exact back.trans perm

/-- Cells that are pushed one after another -/
theorem Chained.pushes {more : List α} (chain : Chained s.link null s.head l) (nodup : (more ++ l).Nodup)
    (real : null ∉ more) :
    Chained (more.foldl FreeList.push s).link null (more.foldl FreeList.push s).head (more.reverse ++ l) := by
  induction more generalizing s l with
  | nil => exact chain
  | cons a more ih =>
    obtain ⟨fresh, rest⟩ := List.nodup_cons.mp (List.cons_append ▸ nodup)
    obtain ⟨differ, real⟩ := not_or.mp (List.mem_cons.not.mp real)
    have pushed := chain.push (fun within => fresh (List.mem_append_right more within)) (Ne.symm differ)
    have result := ih pushed (List.perm_middle.nodup_iff.mpr (List.nodup_cons.mpr ⟨fresh, rest⟩)) real
    rw [List.foldl_cons, List.reverse_cons, List.append_assoc, List.singleton_append]
    exact result

end FreeList

end LabKernel
