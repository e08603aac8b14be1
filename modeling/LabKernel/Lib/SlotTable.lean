import Mathlib

/-! # Slot tables as finite maps

A table of numbered slots, each empty or holding a key and a value. With distinct keys it represents
a finite map: filling an empty or new slot inserts, clearing a slot removes, and a linear scan looks
up.
-/

namespace LabKernel

variable {α β : Type*}

/-- The slots below `size` count. -/
@[ext] structure SlotTable (α β : Type*) where
  size : ℕ
  slot : ℕ → Option (α × β)

namespace SlotTable

/-- The first slot from `k` on that passes a test. -/
def findFrom (t : SlotTable α β) (test : Option (α × β) → Bool) (k : ℕ) : Option ℕ :=
  (List.range' k (t.size - k)).find? fun i => test (t.slot i)

def find (t : SlotTable α β) (test : Option (α × β) → Bool) : Option ℕ := t.findFrom test 0

theorem findFrom_step {t : SlotTable α β} (test : Option (α × β) → Bool) {k : ℕ} (inside : k < t.size) :
    t.findFrom test k = if test (t.slot k) then some k else t.findFrom test (k + 1) := by
  have length : t.size - k = (t.size - (k + 1)) + 1 := by omega
  rw [findFrom, length, List.range'_succ, List.find?_cons]
  cases test (t.slot k) <;> rfl

theorem findFrom_end {t : SlotTable α β} (test : Option (α × β) → Bool) {k : ℕ} (past : t.size ≤ k) :
    t.findFrom test k = none := by
  rw [findFrom, Nat.sub_eq_zero_of_le past]
  rfl

theorem find_eq_some {t : SlotTable α β} {test : Option (α × β) → Bool} {i : ℕ}
    (found : t.find test = some i) :
    i < t.size ∧ test (t.slot i) = true ∧ ∀ j < i, test (t.slot j) = false := by
  obtain ⟨passed, inside, before⟩ := List.find?_range'_eq_some.mp found
  rw [List.mem_range'_1] at inside
  exact ⟨by omega, passed, fun j less => by simpa using before j (Nat.zero_le j) less⟩

theorem find_eq_none {t : SlotTable α β} {test : Option (α × β) → Bool} :
    t.find test = none ↔ ∀ i < t.size, test (t.slot i) = false := by
  simp [find, findFrom]

variable [DecidableEq α]

/-- The slot holds the key. -/
def holds (a : α) (entry : Option (α × β)) : Bool := decide (entry.map Prod.fst = some a)

theorem holds_iff {a : α} {entry : Option (α × β)} : holds a entry = true ↔ ∃ v, entry = some (a, v) := by
  rw [holds, decide_eq_true_eq]
  constructor
  · intro key
    obtain ⟨⟨b, v⟩, rfl, same⟩ := Option.map_eq_some_iff.mp key
    exact ⟨v, by rw [← show b = a from same]⟩
  · rintro ⟨v, rfl⟩
    rfl

def lookup (t : SlotTable α β) (a : α) : Option β :=
  (t.find (holds a)).bind fun i => (t.slot i).map Prod.snd

def firstFree (t : SlotTable α β) : Option ℕ := t.find Option.isNone

/-- Fill a slot; the one behind the last slot is new. -/
def put (t : SlotTable α β) (i : ℕ) (a : α) (v : β) : SlotTable α β :=
  ⟨max t.size (i + 1), Function.update t.slot i (some (a, v))⟩

def clear (t : SlotTable α β) (i : ℕ) : SlotTable α β := ⟨t.size, Function.update t.slot i none⟩

def Distinct (t : SlotTable α β) : Prop :=
  ∀ i < t.size, ∀ j < t.size, ∀ a v w, t.slot i = some (a, v) → t.slot j = some (a, w) → i = j

variable {t : SlotTable α β} {a b : α} {i : ℕ} {v : β}

theorem lookup_eq_none : t.lookup a = none ↔ ∀ i < t.size, ∀ v, t.slot i ≠ some (a, v) := by
  cases found : t.find (holds a) with
  | none =>
    refine iff_of_true (by rw [lookup, found]; rfl) fun i inside v same => ?_
    have missed := find_eq_none.mp found i inside
    rw [same, holds_iff.mpr ⟨v, rfl⟩] at missed
    cases missed
  | some i =>
    obtain ⟨inside, held, -⟩ := find_eq_some found
    obtain ⟨v, entry⟩ := holds_iff.mp held
    refine iff_of_false ?_ fun none => none i inside v entry
    rw [lookup, found, Option.bind_some, entry]
    exact Option.some_ne_none _

theorem lookup_eq_some (distinct : t.Distinct) :
    t.lookup a = some v ↔ ∃ i < t.size, t.slot i = some (a, v) := by
  constructor
  · intro value
    obtain ⟨i, found, value⟩ := Option.bind_eq_some_iff.mp value
    obtain ⟨inside, held, -⟩ := find_eq_some found
    obtain ⟨w, entry⟩ := holds_iff.mp held
    rw [entry, Option.map_some, Option.some_inj] at value
    exact ⟨i, inside, by rw [entry, show w = v from value]⟩
  · rintro ⟨i, inside, entry⟩
    cases found : t.find (holds a) with
    | none =>
      have missed := find_eq_none.mp found i inside
      rw [holds_iff.mpr ⟨v, entry⟩] at missed
      cases missed
    | some j =>
      obtain ⟨inside', held, -⟩ := find_eq_some found
      obtain ⟨w, entry'⟩ := holds_iff.mp held
      obtain rfl := distinct i inside j inside' a v w entry entry'
      rw [lookup, found, Option.bind_some, entry, Option.map_some]

theorem lookup_ext {t t' : SlotTable α β} (distinct : t.Distinct) (distinct' : t'.Distinct) {a b : α}
    (same : ∀ v, (∃ i < t'.size, t'.slot i = some (a, v)) ↔ ∃ i < t.size, t.slot i = some (b, v)) :
    t'.lookup a = t.lookup b := by
  ext v
  rw [lookup_eq_some distinct, lookup_eq_some distinct', same]

/-- A slot that may be filled: an empty one or the one behind the last. -/
def Vacant (t : SlotTable α β) (i : ℕ) : Prop := i = t.size ∨ i < t.size ∧ t.slot i = none

theorem Distinct.put (distinct : t.Distinct) (absent : t.lookup a = none) (vacant : t.Vacant i)
    (v : β) : (t.put i a v).Distinct := by
  have size : max t.size (i + 1) ≤ t.size + 1 := by
    rcases vacant with rfl | ⟨inside, -⟩ <;> omega
  have absent := lookup_eq_none.mp absent
  have old {j : ℕ} {c : α} {w : β} (other : j ≠ i) (inside : j < max t.size (i + 1))
      (entry : Function.update t.slot i (some (a, v)) j = some (c, w)) :
      j < t.size ∧ t.slot j = some (c, w) := by
    rw [Function.update_of_ne other] at entry
    refine ⟨?_, entry⟩
    rcases vacant with rfl | ⟨inside', -⟩ <;> omega
  intro j insideJ k insideK c w x entryJ entryK
  simp only [SlotTable.put] at insideJ insideK entryJ entryK
  by_cases hereJ : j = i
  · by_cases hereK : k = i
    · rw [hereJ, hereK]
    · obtain ⟨inside, entry⟩ := old hereK insideK entryK
      rw [hereJ, Function.update_self, Option.some.injEq, Prod.mk.injEq] at entryJ
      rw [← entryJ.1] at entry
      exact absurd entry (absent k inside x)
  · obtain ⟨insideJ, entryJ⟩ := old hereJ insideJ entryJ
    by_cases hereK : k = i
    · rw [hereK, Function.update_self, Option.some.injEq, Prod.mk.injEq] at entryK
      rw [← entryK.1] at entryJ
      exact absurd entryJ (absent j insideJ w)
    · obtain ⟨insideK, entryK⟩ := old hereK insideK entryK
      exact distinct j insideJ k insideK c w x entryJ entryK

/-- Filling a vacant slot inserts an absent key. -/
theorem lookup_put (distinct : t.Distinct) (absent : t.lookup a = none) (vacant : t.Vacant i) (v : β)
    (b : α) : (t.put i a v).lookup b = if b = a then some v else t.lookup b := by
  by_cases same : b = a
  · rw [if_pos same, lookup_eq_some (distinct.put absent vacant v), same]
    exact ⟨i, by simp only [put]; omega, by simp [put]⟩
  · rw [if_neg same]
    refine lookup_ext distinct (distinct.put absent vacant v) fun w => ?_
    constructor
    · rintro ⟨j, inside, entry⟩
      simp only [put] at inside entry
      by_cases here : j = i
      · rw [here, Function.update_self, Option.some.injEq, Prod.mk.injEq] at entry
        exact absurd entry.1.symm same
      · rw [Function.update_of_ne here] at entry
        refine ⟨j, ?_, entry⟩
        rcases vacant with rfl | ⟨inside', -⟩ <;> omega
    · rintro ⟨j, inside, entry⟩
      refine ⟨j, by simp only [put]; omega, ?_⟩
      have other : j ≠ i := by
        rintro rfl
        rcases vacant with rfl | ⟨-, none⟩
        · omega
        · rw [none] at entry
          cases entry
      simp only [put, Function.update_of_ne other, entry]

omit [DecidableEq α] in
theorem Distinct.clear (distinct : t.Distinct) (i : ℕ) : (t.clear i).Distinct := by
  have old {j : ℕ} {c : α} {w : β} (entry : Function.update t.slot i none j = some (c, w)) :
      t.slot j = some (c, w) := by
    by_cases here : j = i
    · rw [here, Function.update_self] at entry
      cases entry
    · rwa [Function.update_of_ne here] at entry
  exact fun j insideJ k insideK c w x entryJ entryK =>
    distinct j insideJ k insideK c w x (old entryJ) (old entryK)

/-- Clearing the slot of a key removes it. -/
theorem lookup_clear (distinct : t.Distinct) (inside : i < t.size) (entry : t.slot i = some (a, v))
    (b : α) : (t.clear i).lookup b = if b = a then none else t.lookup b := by
  by_cases same : b = a
  · rw [if_pos same, lookup_eq_none]
    intro j insideJ w entryJ
    simp only [clear] at insideJ entryJ
    by_cases here : j = i
    · rw [here, Function.update_self] at entryJ
      cases entryJ
    · rw [Function.update_of_ne here, same] at entryJ
      exact here (distinct j insideJ i inside a w v entryJ entry)
  · rw [if_neg same]
    refine lookup_ext distinct (distinct.clear i) fun w => ?_
    refine exists_congr fun j => and_congr_right fun _ => ?_
    simp only [clear]
    by_cases here : j = i
    · rw [here, Function.update_self, entry, Option.some.injEq, Prod.mk.injEq]
      exact iff_of_false nofun fun both => same both.1.symm
    · rw [Function.update_of_ne here]

end SlotTable

end LabKernel
