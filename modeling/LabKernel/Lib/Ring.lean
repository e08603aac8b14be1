import Mathlib

/-! # Circular doubly linked lists

Two link fields over a type of addresses, where `none` is the null pointer. `Ring` says that from a
head the `next` fields lead through a list of addresses and back, and the `prev` fields the other
way. Unlinking an address and linking one in behind or before a head change a ring as the operations
on lists do, and leave every ring alone that shares no address with it.
-/

namespace LabKernel

/-- The link fields of all addresses. -/
@[ext] structure Links (α : Type*) where
  next : α → Option α
  prev : α → Option α

namespace Links

variable {α : Type*} [DecidableEq α]

def setNext (links : Links α) (a : α) (b : Option α) : Links α :=
  { links with next := Function.update links.next a b }

def setPrev (links : Links α) (a : α) (b : Option α) : Links α :=
  { links with prev := Function.update links.prev a b }

omit [DecidableEq α] in
/-- From `a` the links lead through the list to `b`, and back. -/
def Chain (links : Links α) (a : α) : List α → α → Prop
  | [], b => links.next a = some b ∧ links.prev b = some a
  | x :: rest, b => (links.next a = some x ∧ links.prev x = some a) ∧ links.Chain x rest b

/-- The links from the head lead through the list and back to the head. -/
structure Ring (links : Links α) (head : α) (list : List α) : Prop where
  nodup : (head :: list).Nodup
  chain : links.Chain head list head

/-- Take an address out of the ring it is on. -/
def unlink (links : Links α) (a : α) : Links α :=
  match links.next a, links.prev a with
  | some x, some y => (links.setPrev x (some y)).setNext y (some x)
  | _, _ => links

/-- Link an address in behind a head. -/
def linkNext (links : Links α) (head a : α) : Links α :=
  match links.next head with
  | some x => (((links.setNext a (some x)).setPrev x (some a)).setPrev a (some head)).setNext head (some a)
  | none => links

/-- Link an address in before a head. -/
def linkPrev (links : Links α) (head a : α) : Links α :=
  match links.prev head with
  | some x => (((links.setPrev a (some x)).setNext x (some a)).setNext a (some head)).setPrev head (some a)
  | none => links

section chains

omit [DecidableEq α]

variable {links links' : Links α} {a b c : α} {xs ys : List α}

theorem chain_append {x : α} :
    links.Chain a (xs ++ x :: ys) b ↔ links.Chain a xs x ∧ links.Chain x ys b := by
  induction xs generalizing a with
  | nil => rfl
  | cons y xs ih =>
    rw [List.cons_append, Chain, Chain, ih]
    exact and_assoc.symm

theorem chain_congr (next : ∀ x ∈ a :: xs, links'.next x = links.next x)
    (prev : ∀ x ∈ xs ++ [b], links'.prev x = links.prev x) (chain : links.Chain a xs b) :
    links'.Chain a xs b := by
  induction xs generalizing a with
  | nil =>
    refine ⟨?_, ?_⟩
    · rw [next a List.mem_cons_self, chain.1]
    · rw [prev b (by simp), chain.2]
  | cons x xs ih =>
    refine ⟨⟨?_, ?_⟩, ih (fun y within => next y (List.mem_cons_of_mem a within))
      (fun y within => prev y (List.mem_cons_of_mem x within)) chain.2⟩
    · rw [next a List.mem_cons_self, chain.1.1]
    · rw [prev x (by simp), chain.1.2]

/-- The address before the end of a chain. -/
def before (a : α) : List α → α
  | [] => a
  | x :: rest => before x rest

theorem before_mem (a : α) (xs : List α) : before a xs ∈ a :: xs := by
  induction xs generalizing a with
  | nil => exact List.mem_cons_self
  | cons x xs ih => exact List.mem_cons_of_mem a (ih x)

theorem Chain.prev_end (chain : links.Chain a xs b) : links.prev b = some (before a xs) := by
  induction xs generalizing a with
  | nil => exact chain.2
  | cons x xs ih => exact ih chain.2

/-- A chain leads elsewhere when its last link does. -/
theorem Chain.redirect (chain : links.Chain a xs b) (nodup : (a :: xs).Nodup)
    (last : links'.next (before a xs) = some c) (back : links'.prev c = some (before a xs))
    (next : ∀ x ∈ a :: xs, x ≠ before a xs → links'.next x = links.next x)
    (prev : ∀ x ∈ xs, links'.prev x = links.prev x) : links'.Chain a xs c := by
  induction xs generalizing a with
  | nil => exact ⟨last, back⟩
  | cons x xs ih =>
    obtain ⟨fresh, later⟩ := List.nodup_cons.mp nodup
    have apart : a ≠ before a (x :: xs) := by
      intro same
      exact fresh (same ▸ before_mem x xs)
    refine ⟨⟨?_, ?_⟩, ih chain.2 later last back
      (fun y within => next y (List.mem_cons_of_mem a within))
      fun y within => prev y (List.mem_cons_of_mem x within)⟩
    · rw [next a List.mem_cons_self apart, chain.1.1]
    · rw [prev x List.mem_cons_self, chain.1.2]

end chains

variable {links : Links α} {head other a x y : α} {list xs ys : List α}

@[simp] theorem setNext_prev (b : Option α) : (links.setNext a b).prev = links.prev := rfl
@[simp] theorem setPrev_next (b : Option α) : (links.setPrev a b).next = links.next := rfl

theorem setNext_next (b : Option α) :
    (links.setNext a b).next x = if x = a then b else links.next x := Function.update_apply ..

theorem setPrev_prev (b : Option α) :
    (links.setPrev a b).prev x = if x = a then b else links.prev x := Function.update_apply ..

/-- An address without links is on no ring, and unlinking it does nothing. -/
theorem unlink_null (null : links.next a = none) : links.unlink a = links := by
  rw [unlink, null]

namespace Ring

omit [DecidableEq α] in
theorem next_mem (ring : links.Ring head list) (mem : x ∈ head :: list) :
    ∃ y ∈ head :: list, links.next x = some y := by
  rcases List.mem_cons.mp mem with rfl | inside
  · cases list with
    | nil => exact ⟨x, mem, ring.chain.1⟩
    | cons y ys => exact ⟨y, by simp, ring.chain.1.1⟩
  · obtain ⟨xs, ys, rfl⟩ := List.append_of_mem inside
    have later := (chain_append.mp ring.chain).2
    cases ys with
    | nil => exact ⟨head, List.mem_cons_self, later.1⟩
    | cons y ys => exact ⟨y, by simp, later.1.1⟩

omit [DecidableEq α] in
theorem prev_mem (ring : links.Ring head list) (mem : x ∈ head :: list) :
    ∃ y ∈ head :: list, links.prev x = some y := by
  rcases List.mem_cons.mp mem with rfl | inside
  · exact ⟨_, before_mem x list, ring.chain.prev_end⟩
  · obtain ⟨xs, ys, rfl⟩ := List.append_of_mem inside
    have earlier := (chain_append.mp ring.chain).1
    refine ⟨_, ?_, earlier.prev_end⟩
    rcases List.mem_cons.mp (before_mem head xs) with here | there
    · rw [here]
      exact List.mem_cons_self
    · exact List.mem_cons_of_mem _ (List.mem_append_left _ there)

omit [DecidableEq α] in
/-- Links that change off the ring keep it. -/
theorem congr {links' : Links α} (ring : links.Ring head list)
    (next : ∀ x ∈ head :: list, links'.next x = links.next x)
    (prev : ∀ x ∈ head :: list, links'.prev x = links.prev x) : links'.Ring head list := by
  refine ⟨ring.nodup, chain_congr next (fun x within => prev x ?_) ring.chain⟩
  rcases List.mem_append.mp within with inside | last
  · exact List.mem_cons_of_mem _ inside
  · rw [List.mem_singleton.mp last]
    exact List.mem_cons_self

theorem unlink (ring : links.Ring head (xs ++ a :: ys)) :
    (links.unlink a).Ring head (xs ++ ys) := by
  obtain ⟨early, late⟩ := chain_append.mp ring.chain
  have distinct := ring.nodup
  have prev : links.prev a = some (before head xs) := early.prev_end
  have nodup : (head :: xs).Nodup := distinct.sublist (by simp)
  have shorter : (head :: (xs ++ ys)).Nodup := distinct.sublist (by simp)
  have predecessor := before_mem head xs
  refine ⟨shorter, ?_⟩
  cases ys with
  | nil =>
    have next : links.next a = some head := late.1
    simp only [Links.unlink, next, prev, List.append_nil]
    refine early.redirect nodup ?_ ?_ (fun x _ apart => ?_) fun x within => ?_
    · rw [setNext_next, if_pos rfl]
    · rw [setNext_prev, setPrev_prev, if_pos rfl]
    · rw [setNext_next, if_neg apart, setPrev_next]
    · rw [setNext_prev, setPrev_prev, if_neg]
      rintro rfl
      exact (List.nodup_cons.mp nodup).1 within
  | cons y ys =>
    have next : links.next a = some y := late.1.1
    simp only [Links.unlink, next, prev]
    have apartHead : y ≠ head := by
      rintro rfl
      simp at distinct
    have notEarly : y ∉ xs := by
      intro within
      have := List.nodup_append.mp (List.nodup_cons.mp distinct).2
      exact this.2.2 y within y (by simp) rfl
    have notLate : y ∉ ys := by
      have := List.nodup_append.mp (List.nodup_cons.mp distinct).2
      simp at this
      tauto
    rw [chain_append]
    constructor
    · refine early.redirect nodup ?_ ?_ (fun x _ apart => ?_) fun x within => ?_
      · rw [setNext_next, if_pos rfl]
      · rw [setNext_prev, setPrev_prev, if_pos rfl]
      · rw [setNext_next, if_neg apart, setPrev_next]
      · rw [setNext_prev, setPrev_prev, if_neg]
        rintro rfl
        exact notEarly within
    · refine chain_congr (fun x within => ?_) (fun x within => ?_) late.2
      · rw [setNext_next, if_neg, setPrev_next]
        rintro rfl
        -- the predecessor is the head or lies before the address, this one lies behind it
        have := List.nodup_cons.mp distinct
        have both := List.nodup_append.mp this.2
        rcases List.mem_cons.mp predecessor with first | inside
        · rw [first] at within
          exact this.1 (List.mem_append_right _ (List.mem_cons_of_mem _ within))
        · exact both.2.2 _ inside _ (List.mem_cons_of_mem _ within) rfl
      · rw [setNext_prev, setPrev_prev, if_neg]
        rintro rfl
        rcases List.mem_append.mp within with inside | last
        · exact notLate inside
        · exact apartHead (List.mem_singleton.mp last)

/-- A ring without the address stays when the address leaves another ring. -/
theorem unlink_other (ring : links.Ring head list) (elsewhere : links.Ring other ys)
    (member : a ∈ ys) (apart : ∀ x ∈ head :: list, x ∉ other :: ys) :
    (links.unlink a).Ring head list := by
  obtain ⟨x, onX, next⟩ := elsewhere.next_mem (List.mem_cons_of_mem other member)
  obtain ⟨y, onY, prev⟩ := elsewhere.prev_mem (List.mem_cons_of_mem other member)
  simp only [Links.unlink, next, prev]
  refine ring.congr (fun z within => ?_) fun z within => ?_
  · rw [setNext_next, if_neg, setPrev_next]
    rintro rfl
    exact apart z within onY
  · rw [setNext_prev, setPrev_prev, if_neg]
    rintro rfl
    exact apart z within onX

theorem linkNext (ring : links.Ring head list) (fresh : a ∉ head :: list) :
    (links.linkNext head a).Ring head (a :: list) := by
  have apart : a ≠ head := fun same => fresh (same ▸ List.mem_cons_self)
  have outside : a ∉ list := fun within => fresh (List.mem_cons_of_mem head within)
  obtain ⟨headOff, nodup⟩ := List.nodup_cons.mp ring.nodup
  refine ⟨?_, ?_⟩
  · rw [List.nodup_cons, List.mem_cons, not_or]
    exact ⟨⟨apart.symm, headOff⟩, List.nodup_cons.mpr ⟨outside, nodup⟩⟩
  · cases list with
    | nil =>
      have next : links.next head = some head := ring.chain.1
      simp only [Links.linkNext, next, Chain, setNext_next, setPrev_prev, setNext_prev, setPrev_next,
        apart, apart.symm, if_true, if_false, and_self]
    | cons x rest =>
      have next : links.next head = some x := ring.chain.1.1
      have xHead : x ≠ head := fun same => headOff (same ▸ List.mem_cons_self)
      have xA : x ≠ a := fun same => outside (same ▸ List.mem_cons_self)
      obtain ⟨xOff, nodup⟩ := List.nodup_cons.mp nodup
      simp only [Links.linkNext, next, Chain, setNext_next, setPrev_prev, setNext_prev, setPrev_next,
        apart, if_true, if_false, xA, true_and]
      refine chain_congr (fun z within => ?_) (fun z within => ?_) ring.chain.2
      · rw [setNext_next, if_neg, setPrev_next, setPrev_next, setNext_next, if_neg]
        · rintro rfl
          exact outside within
        · rintro rfl
          exact headOff within
      · rw [setNext_prev, setPrev_prev, if_neg, setPrev_prev, if_neg, setNext_prev]
        · rintro rfl
          rcases List.mem_append.mp within with inside | last
          · exact xOff inside
          · exact xHead (List.mem_singleton.mp last)
        · rintro rfl
          rcases List.mem_append.mp within with inside | last
          · exact outside (List.mem_cons_of_mem _ inside)
          · exact apart (List.mem_singleton.mp last)

theorem linkPrev (ring : links.Ring head list) (fresh : a ∉ head :: list) :
    (links.linkPrev head a).Ring head (list ++ [a]) := by
  have apart : a ≠ head := fun same => fresh (same ▸ List.mem_cons_self)
  have outside : a ∉ list := fun within => fresh (List.mem_cons_of_mem head within)
  obtain ⟨headOff, nodup⟩ := List.nodup_cons.mp ring.nodup
  have prev := ring.chain.prev_end
  have last := before_mem head list
  have lastA : before head list ≠ a := fun same => fresh (same ▸ last)
  refine ⟨?_, ?_⟩
  · rw [List.nodup_cons, List.mem_append, List.mem_singleton, not_or]
    refine ⟨⟨headOff, apart.symm⟩, List.nodup_append.mpr ⟨nodup, List.nodup_singleton a, ?_⟩⟩
    rintro z within _ member rfl
    rw [List.mem_singleton.mp member] at within
    exact outside within
  · simp only [Links.linkPrev, prev]
    rw [chain_append]
    constructor
    · refine ring.chain.redirect ring.nodup ?_ ?_ (fun z within other => ?_) fun z within => ?_
      · rw [setPrev_next, setNext_next, if_neg lastA, setNext_next, if_pos rfl]
      · rw [setPrev_prev, if_neg apart, setNext_prev, setNext_prev, setPrev_prev, if_pos rfl]
      · rw [setPrev_next, setNext_next, if_neg, setNext_next, if_neg other, setPrev_next]
        rintro rfl
        exact fresh within
      · rw [setPrev_prev, if_neg, setNext_prev, setNext_prev, setPrev_prev, if_neg]
        · rintro rfl
          exact outside within
        · rintro rfl
          exact headOff within
    · refine ⟨?_, ?_⟩
      · rw [setPrev_next, setNext_next, if_pos rfl]
      · rw [setPrev_prev, if_pos rfl]

/-- A ring stays when an address that is not on it is linked in elsewhere. -/
theorem linkNext_other (ring : links.Ring head list) (elsewhere : links.Ring other ys)
    (fresh : a ∉ head :: list) (apart : ∀ x ∈ head :: list, x ∉ other :: ys) :
    (links.linkNext other a).Ring head list := by
  obtain ⟨x, onX, next⟩ := elsewhere.next_mem List.mem_cons_self
  simp only [Links.linkNext, next]
  refine ring.congr (fun z within => ?_) fun z within => ?_
  · rw [setNext_next, if_neg, setPrev_next, setPrev_next, setNext_next, if_neg]
    · rintro rfl
      exact fresh within
    · rintro rfl
      exact apart z within List.mem_cons_self
  · rw [setNext_prev, setPrev_prev, if_neg, setPrev_prev, if_neg, setNext_prev]
    · rintro rfl
      exact apart z within onX
    · rintro rfl
      exact fresh within

theorem linkPrev_other (ring : links.Ring head list) (elsewhere : links.Ring other ys)
    (fresh : a ∉ head :: list) (apart : ∀ x ∈ head :: list, x ∉ other :: ys) :
    (links.linkPrev other a).Ring head list := by
  obtain ⟨x, onX, prev⟩ := elsewhere.prev_mem List.mem_cons_self
  simp only [Links.linkPrev, prev]
  refine ring.congr (fun z within => ?_) fun z within => ?_
  · rw [setPrev_next, setNext_next, if_neg, setNext_next, if_neg, setPrev_next]
    · rintro rfl
      exact apart z within onX
    · rintro rfl
      exact fresh within
  · rw [setPrev_prev, if_neg, setNext_prev, setNext_prev, setPrev_prev, if_neg]
    · rintro rfl
      exact fresh within
    · rintro rfl
      exact apart z within List.mem_cons_self

end Ring

/-- Follow the links from an address until a test succeeds (`some (some _)`) or the head is met
(`some none`); a null link and too many steps give `none`. -/
def seek (links : Links α) (head : α) (test : α → Bool) : (fuel : ℕ) → Option α → Option (Option α)
  | _, none => none
  | 0, _ => none
  | fuel + 1, some a =>
    if a = head then some none
    else if test a then some (some a)
    else links.seek head test fuel (links.next a)

private theorem seek_chain {test : α → Bool} {b : α} (chain : links.Chain a xs b) (off : b ∉ xs)
    {fuel : ℕ} (enough : xs.length < fuel) :
    links.seek b test fuel (links.next a) = some (xs.find? test) := by
  induction xs generalizing a fuel with
  | nil =>
    obtain ⟨fuel, rfl⟩ := Nat.exists_eq_succ_of_ne_zero (Nat.ne_zero_of_lt enough)
    rw [chain.1, seek, if_pos rfl]
    rfl
  | cons x xs ih =>
    obtain ⟨fuel, rfl⟩ := Nat.exists_eq_succ_of_ne_zero (Nat.ne_zero_of_lt enough)
    have apart : x ≠ b := fun same => off (same ▸ List.mem_cons_self)
    rw [chain.1.1, seek, if_neg apart, List.find?_cons]
    cases found : test x with
    | true => rfl
    | false =>
      refine ih chain.2 (fun within => off (List.mem_cons_of_mem x within)) ?_
      rw [List.length_cons] at enough
      omega

/-- On a ring the search meets the first address of the list that passes the test. -/
theorem Ring.seek (ring : links.Ring head list) (test : α → Bool) {fuel : ℕ}
    (enough : list.length < fuel) :
    links.seek head test fuel (links.next head) = some (list.find? test) :=
  seek_chain ring.chain (List.nodup_cons.mp ring.nodup).1 enough

end Links

end LabKernel
