import Mathlib

/-! # Runs of a transition system

A run applies a list of inputs one after another. A property that every step keeps holds at the end
of every run; `Guarded` restricts the steps of a run by a condition on the state before and the
input.
-/

namespace LabKernel

variable {σ ι : Type*}

/-- The inputs lead from the first state to the last one. -/
inductive Run (step : σ → ι → σ → Prop) : σ → List ι → σ → Prop
  | nil (s) : Run step s [] s
  | cons {s a s' inputs t} (first : step s a s') (rest : Run step s' inputs t) :
      Run step s (a :: inputs) t

/-- The steps whose input meets a condition in the state before. -/
def Guarded (ok : σ → ι → Prop) (step : σ → ι → σ → Prop) : σ → ι → σ → Prop :=
  fun s a s' => ok s a ∧ step s a s'

namespace Run

variable {step : σ → ι → σ → Prop} {s t u : σ} {inputs more : List ι}

/-- What each step keeps, a run keeps. -/
theorem invariant {P : σ → Prop} (kept : ∀ s a s', step s a s' → P s → P s')
    (run : Run step s inputs t) (start : P s) : P t := by
  induction run with
  | nil => exact start
  | cons first _ ih => exact ih (kept _ _ _ first start)

/-- A run whose steps, as long as an invariant holds, are steps of another system and keep the
invariant. -/
theorem refine {step' : σ → ι → σ → Prop} {P : σ → Prop} (run : Run step s inputs t) (start : P s)
    (kept : ∀ s a s', P s → step s a s' → step' s a s' ∧ P s') : Run step' s inputs t := by
  induction run with
  | nil s => exact .nil s
  | cons first _ ih =>
    obtain ⟨next, after⟩ := kept _ _ _ start first
    exact .cons next (ih after)

/-- A run whose inputs meet a condition in every state. -/
theorem guarded {ok : σ → ι → Prop} (run : Run step s inputs t) (meet : ∀ a ∈ inputs, ∀ s, ok s a) :
    Run (Guarded ok step) s inputs t := by
  induction run with
  | nil s => exact .nil s
  | cons first _ ih =>
    obtain ⟨head, tail⟩ := List.forall_mem_cons.mp meet
    exact .cons ⟨head _, first⟩ (ih tail)

/-- A longer list of inputs continues a run. -/
theorem append (first : Run step s inputs t) (second : Run step t more u) :
    Run step s (inputs ++ more) u := by
  induction first with
  | nil => exact second
  | cons step _ ih => exact .cons step (ih second)

/-- A run over a concatenation passes through a state between its parts. -/
theorem split (run : Run step s (inputs ++ more) u) :
    ∃ t, Run step s inputs t ∧ Run step t more u := by
  induction inputs generalizing s with
  | nil => exact ⟨s, .nil s, run⟩
  | cons a inputs ih =>
    cases run with
    | cons first rest =>
      obtain ⟨t, left, right⟩ := ih rest
      exact ⟨t, .cons first left, right⟩

/-- A run of one step more. -/
theorem snoc {a : ι} (run : Run step s inputs t) (last : step t a u) :
    Run step s (inputs ++ [a]) u := run.append (.cons last (.nil u))

theorem single {a : ι} (run : Run step s [a] t) : step s a t := by
  cases run with
  | cons first rest =>
    cases rest with
    | nil => exact first

end Run

/-- A run of a step function that may fail. -/
theorem Run.of_foldlM (f : σ → ι → Option σ) {s t : σ} {inputs : List ι}
    (result : inputs.foldlM f s = some t) : Run (fun s a s' => f s a = some s') s inputs t := by
  induction inputs generalizing s with
  | nil =>
    obtain rfl : s = t := Option.some.inj result
    exact .nil s
  | cons a inputs ih =>
    obtain ⟨s', first, rest⟩ := Option.bind_eq_some_iff.mp (List.foldlM_cons (m := Option) ▸ result)
    exact .cons first (ih rest)

/-- A run can be found by evaluation. -/
theorem Run.exists_of_test (f : σ → ι → Option σ) (s : σ) (inputs : List ι) (test : σ → Bool)
    (passes : (inputs.foldlM f s).any test = true) :
    ∃ t, Run (fun s a s' => f s a = some s') s inputs t ∧ test t = true := by
  obtain ⟨t, result, passed⟩ := (Option.any_eq_true ..).mp passes
  exact ⟨t, .of_foldlM f result, passed⟩

/-- A run whose steps meet a condition can be found by evaluation. -/
theorem Run.exists_guarded (ok : σ → ι → Bool) (f : σ → ι → Option σ) (s : σ) (inputs : List ι)
    (test : σ → Bool)
    (passes : (inputs.foldlM (fun s a => if ok s a then f s a else none) s).any test = true) :
    ∃ t, Run (Guarded (fun s a => ok s a = true) fun s a s' => f s a = some s') s inputs t ∧
      test t = true := by
  obtain ⟨t, run, passed⟩ := Run.exists_of_test _ s inputs test passes
  refine ⟨t, run.refine (P := fun _ => True) trivial fun s a s' _ first => ⟨?_, trivial⟩, passed⟩
  rcases meets : ok s a with _ | _
  · simp [meets] at first
  · rw [meets, if_pos rfl] at first
    exact ⟨meets, first⟩

/-- The runs of a step function. -/
theorem Run.of_foldl (f : σ → ι → σ) (s : σ) (inputs : List ι) :
    Run (fun s a s' => s' = f s a) s inputs (inputs.foldl f s) := by
  induction inputs generalizing s with
  | nil => exact .nil s
  | cons a inputs ih => exact .cons rfl (ih (f s a))

end LabKernel
