import Mathlib

/-! # Pre- and postconditions of stateful programs

A program that may fail is an `EStateM` action. `Returns x s Q` says that whenever `x`, run from
`s`, returns, its result and the state then satisfy `Q`; a run that fails returns nothing. `Ends`
says in addition how `x` can fail. The rules follow the program: one for each way to build an action.
-/

namespace LabKernel

variable {ε σ α β : Type}

/-- Whenever the program returns from the state, the postcondition holds. -/
def Returns (x : EStateM ε σ α) (s : σ) (Q : α → σ → Prop) : Prop :=
  ∀ a s', x s = .ok a s' → Q a s'

/-- A sequence returns when both parts do. -/
theorem bind_eq_ok {x : EStateM ε σ α} {f : α → EStateM ε σ β} {s t : σ} {b : β} :
    (x >>= f) s = .ok b t ↔ ∃ a s', x s = .ok a s' ∧ f a s' = .ok b t := by
  change (x.bind f) s = _ ↔ _
  rw [EStateM.bind]
  cases x s with
  | ok a s' =>
    refine ⟨fun result => ⟨a, s', rfl, result⟩, ?_⟩
    rintro ⟨_, _, ⟨⟩, result⟩
    exact result
  | error e s' =>
    refine iff_of_false nofun ?_
    rintro ⟨_, _, ⟨⟩, -⟩

/-- Two sequences with a common first part are equal if the rests are, wherever it returns. -/
theorem bind_congr_of {x : EStateM ε σ α} {f g : α → EStateM ε σ β} {s : σ}
    (same : Returns x s fun a s' => f a s' = g a s') : (x >>= f) s = (x >>= g) s := by
  change x.bind f s = x.bind g s
  rw [EStateM.bind, EStateM.bind]
  cases result : x s with
  | ok a s' => exact same a s' result
  | error e s' => rfl

namespace Returns

variable {x : EStateM ε σ α} {s : σ} {Q R : α → σ → Prop}

theorem mono (returns : Returns x s Q) (weaker : ∀ a s', Q a s' → R a s') : Returns x s R :=
  fun a s' result => weaker a s' (returns a s' result)

theorem and (first : Returns x s Q) (second : Returns x s R) :
    Returns x s fun a s' => Q a s' ∧ R a s' :=
  fun a s' result => ⟨first a s' result, second a s' result⟩

@[simp] theorem pure_iff {a : α} : Returns (pure a : EStateM ε σ α) s Q ↔ Q a s := by
  constructor
  · exact fun returns => returns a s rfl
  · rintro holds _ _ ⟨⟩
    exact holds

@[simp] theorem bind_iff {f : α → EStateM ε σ β} {Q : β → σ → Prop} :
    Returns (x >>= f) s Q ↔ Returns x s fun a s' => Returns (f a) s' Q := by
  constructor
  · intro returns a s' first b s'' second
    refine returns b s'' ?_
    change (x.bind f) s = _
    rw [EStateM.bind, first]
    exact second
  · intro returns b s'' result
    change (x.bind f) s = _ at result
    rw [EStateM.bind] at result
    cases first : x s with
    | ok a s' =>
      rw [first] at result
      exact returns a s' first b s'' result
    | error e s' =>
      rw [first] at result
      cases result

/-- A first part with a known result. -/
theorem bind_of_ok {f : α → EStateM ε σ β} {a : α} {s' : σ} {Q : β → σ → Prop} (result : x s = .ok a s')
    (rest : Returns (f a) s' Q) : Returns (x >>= f) s Q := by
  refine bind_iff.mpr fun b t other => ?_
  rw [result] at other
  cases other
  exact rest

@[simp] theorem map_iff {f : α → β} {Q : β → σ → Prop} :
    Returns (f <$> x) s Q ↔ Returns x s fun a s' => Q (f a) s' := by
  have bound : f <$> x = x >>= fun a => pure (f a) := by
    rw [bind_pure_comp]
  rw [bound, bind_iff]
  simp only [pure_iff]

@[simp] theorem discard_iff {Q : PUnit → σ → Prop} :
    Returns (discard x) s Q ↔ Returns x s fun _ s' => Q ⟨⟩ s' := map_iff (f := fun _ => PUnit.unit)

@[simp] theorem get_iff {Q : σ → σ → Prop} : Returns (get : EStateM ε σ σ) s Q ↔ Q s s := by
  constructor
  · exact fun returns => returns s s rfl
  · rintro holds _ _ ⟨⟩
    exact holds

@[simp] theorem set_iff {t : σ} {Q : PUnit → σ → Prop} :
    Returns (set t : EStateM ε σ PUnit) s Q ↔ Q ⟨⟩ t := by
  constructor
  · exact fun returns => returns ⟨⟩ t rfl
  · rintro holds _ _ ⟨⟩
    exact holds

@[simp] theorem trivial_iff : (Returns x s fun _ _ => True) ↔ True := iff_of_true (fun _ _ _ => trivial) trivial

@[simp] theorem modify_iff {f : σ → σ} {Q : PUnit → σ → Prop} :
    Returns (modify f : EStateM ε σ PUnit) s Q ↔ Q ⟨⟩ (f s) := by
  constructor
  · exact fun returns => returns ⟨⟩ (f s) rfl
  · rintro holds _ _ ⟨⟩
    exact holds

@[simp] theorem throw_iff {e : ε} : Returns (throw e : EStateM ε σ α) s Q ↔ True :=
  iff_of_true (fun _ _ result => nomatch result) trivial

theorem ite {c : Prop} [Decidable c] {y : EStateM ε σ α} (yes : c → Returns x s Q)
    (no : ¬c → Returns y s Q) : Returns (if c then x else y) s Q := by
  split
  · exact yes ‹_›
  · exact no ‹_›

instance decidable [∀ a s', Decidable (Q a s')] : Decidable (Returns x s Q) :=
  match result : x s with
  | .ok a s' => decidable_of_iff (Q a s') ⟨fun holds _ _ same => by
      obtain ⟨rfl, rfl⟩ := EStateM.Result.ok.inj (result.symm.trans same)
      exact holds, fun returns => returns a s' result⟩
  | .error _ _ => .isTrue fun _ _ same => nomatch result.symm.trans same

end Returns

/-- The program returns with the postcondition, or fails in one of the given ways. -/
def Ends (x : EStateM ε σ α) (s : σ) (Q : α → σ → Prop) (E : ε → Prop) : Prop :=
  match x s with
  | .ok a s' => Q a s'
  | .error e _ => E e

namespace Ends

variable {x : EStateM ε σ α} {s : σ} {Q R : α → σ → Prop} {E F : ε → Prop}

theorem mono (ends : Ends x s Q E) (weaker : ∀ a s', Q a s' → R a s') : Ends x s R E := by
  simp only [Ends] at ends ⊢
  split
  case h_1 a s' result => exact weaker a s' (by simpa only [result] using ends)
  case h_2 e s' result => simpa only [result] using ends

theorem fails (ends : Ends x s Q E) (more : ∀ e, E e → F e) : Ends x s Q F := by
  simp only [Ends] at ends ⊢
  split
  case h_1 a s' result => simpa only [result] using ends
  case h_2 e s' result => exact more e (by simpa only [result] using ends)

theorem returns (ends : Ends x s Q E) : Returns x s Q := fun a s' result => by
  simpa only [Ends, result] using ends

theorem and (ends : Ends x s Q E) (returns : Returns x s R) :
    Ends x s (fun a s' => Q a s' ∧ R a s') E := by
  simp only [Ends] at ends ⊢
  split
  case h_1 a s' result => exact ⟨by simpa only [result] using ends, returns a s' result⟩
  case h_2 e s' result => simpa only [result] using ends

/-- A program that may fail in any way. -/
theorem of_returns (returns : Returns x s Q) : Ends x s Q fun _ => True := by
  simp only [Ends]
  split
  case h_1 a s' result => exact returns a s' result
  case h_2 => trivial

@[simp] theorem pure_iff {a : α} : Ends (pure a : EStateM ε σ α) s Q E ↔ Q a s := Iff.rfl

@[simp] theorem bind_iff {f : α → EStateM ε σ β} {Q : β → σ → Prop} :
    Ends (x >>= f) s Q E ↔ Ends x s (fun a s' => Ends (f a) s' Q E) E := by
  change Ends (x.bind f) s Q E ↔ _
  simp only [Ends, EStateM.bind]
  cases x s <;> rfl

theorem error (ends : Ends x s Q E) {e : ε} {s' : σ} (result : x s = .error e s') : E e := by
  simpa only [Ends, result] using ends

/-- A first part with a known result. -/
theorem bind_of_ok {f : α → EStateM ε σ β} {a : α} {s' : σ} {Q : β → σ → Prop} (result : x s = .ok a s')
    (rest : Ends (f a) s' Q E) : Ends (x >>= f) s Q E := by
  rw [bind_iff, Ends, result]
  exact rest

@[simp] theorem get_iff {Q : σ → σ → Prop} : Ends (get : EStateM ε σ σ) s Q E ↔ Q s s := Iff.rfl

@[simp] theorem set_iff {t : σ} {Q : PUnit → σ → Prop} :
    Ends (set t : EStateM ε σ PUnit) s Q E ↔ Q ⟨⟩ t := Iff.rfl

@[simp] theorem modify_iff {f : σ → σ} {Q : PUnit → σ → Prop} :
    Ends (modify f : EStateM ε σ PUnit) s Q E ↔ Q ⟨⟩ (f s) := Iff.rfl

@[simp] theorem throw_iff {e : ε} : Ends (throw e : EStateM ε σ α) s Q E ↔ E e := Iff.rfl

theorem ite {c : Prop} [Decidable c] {y : EStateM ε σ α} (yes : c → Ends x s Q E)
    (no : ¬c → Ends y s Q E) : Ends (if c then x else y) s Q E := by
  split
  · exact yes ‹_›
  · exact no ‹_›

end Ends

/-- The program returns, with the postcondition. -/
abbrev Yields (x : EStateM ε σ α) (s : σ) (Q : α → σ → Prop) : Prop := Ends x s Q fun _ => False

theorem Ends.of_yields {x : EStateM ε σ α} {s : σ} {Q : α → σ → Prop} {E : ε → Prop}
    (yields : Yields x s Q) : Ends x s Q E := yields.fails fun _ => False.elim

theorem Ends.yields {x : EStateM ε σ α} {s : σ} {Q : α → σ → Prop} {E : ε → Prop} (ends : Ends x s Q E)
    (never : ∀ e, ¬E e) : Yields x s Q := ends.fails never

theorem Ends.result {x : EStateM ε σ α} {s : σ} {Q : α → σ → Prop} (yields : Yields x s Q) :
    ∃ a s', x s = .ok a s' ∧ Q a s' := by
  simp only [Ends] at yields
  split at yields
  case h_1 a s' result => exact ⟨a, s', result, yields⟩
  case h_2 => exact absurd yields id

/-! ## Evaluated runs -/

/-- The program returns, and its result and state pass a test. -/
def returnsWith (x : EStateM ε σ α) (s : σ) (test : α → σ → Bool) : Bool :=
  match x s with
  | .ok a t => test a t
  | .error .. => false

/-- The state in which a program returns with this result -/
def returnOf [DecidableEq α] (x : EStateM ε σ α) (s : σ) (r : α) : Option σ :=
  match x s with
  | .ok a t => if a = r then some t else none
  | .error .. => none

theorem returnOf_eq_some [DecidableEq α] {x : EStateM ε σ α} {s t : σ} {r : α} :
    returnOf x s r = some t ↔ x s = .ok r t := by
  rw [returnOf]
  cases x s with
  | ok a u => grind
  | error e u => simp

/-- The state in which a program returns -/
def endOf (x : EStateM ε σ α) (s : σ) : Option σ :=
  match x s with
  | .ok _ t => some t
  | .error .. => none

theorem endOf_eq_some {x : EStateM ε σ α} {s t : σ} : endOf x s = some t ↔ ∃ a, x s = .ok a t := by
  rw [endOf]
  cases x s with
  | ok a u => simp
  | error e u => simp

/-- The program fails, and its error passes a test. -/
def failsWith (x : EStateM ε σ α) (s : σ) (test : ε → Bool) : Bool :=
  match x s with
  | .ok .. => false
  | .error e _ => test e

theorem ok_of_returnsWith {x : EStateM ε σ α} {s : σ} {b : α → σ → Bool}
    (tested : returnsWith x s b = true) : ∃ a t, x s = .ok a t ∧ b a t = true := by
  rw [returnsWith] at tested
  cases result : x s with
  | ok a t =>
    rw [result] at tested
    exact ⟨a, t, rfl, tested⟩
  | error e t =>
    rw [result] at tested
    cases tested

theorem error_of_failsWith {x : EStateM ε σ α} {s : σ} {b : ε → Bool} (tested : failsWith x s b = true) :
    ∃ e t, x s = .error e t ∧ b e = true := by
  rw [failsWith] at tested
  cases result : x s with
  | ok a t =>
    rw [result] at tested
    cases tested
  | error e t =>
    rw [result] at tested
    exact ⟨e, t, rfl, tested⟩

end LabKernel
