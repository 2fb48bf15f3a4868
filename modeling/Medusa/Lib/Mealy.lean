import Mathlib.Data.List.Basic

/-! # Deterministic machines with outputs

A machine is a step function `σ → ι → ο × σ`; `run` feeds it a list of inputs and collects the
outputs.  `run_append` splits a run.  Two machines are compared by their outputs: `run_sim` is
forward simulation, with a condition on the inputs that may depend on the abstract state. -/

namespace Mealy

variable {σ τ ι ο : Type}

/-- The outputs and the final state of a run. -/
def run (step : σ → ι → ο × σ) : List ι → σ → List ο × σ
  | [], s => ([], s)
  | i :: l, s =>
    ((step s i).1 :: (run step l (step s i).2).1, (run step l (step s i).2).2)

section run
variable (step : σ → ι → ο × σ)

@[simp] theorem run_nil (s : σ) : run step [] s = ([], s) := rfl

theorem run_cons (i : ι) (l : List ι) (s : σ) :
    run step (i :: l) s =
      ((step s i).1 :: (run step l (step s i).2).1, (run step l (step s i).2).2) := rfl

theorem run_append (l l' : List ι) (s : σ) :
    run step (l ++ l') s =
      ((run step l s).1 ++ (run step l' (run step l s).2).1, (run step l' (run step l s).2).2) := by
  induction l generalizing s with
  | nil => rfl
  | cons i l ih => simp only [List.cons_append, run_cons, ih]

/-- What no step lowers, no run lowers. -/
theorem le_run {f : σ → ℕ} (h : ∀ s i, f s ≤ f (step s i).2) (l : List ι) (s : σ) :
    f s ≤ f (run step l s).2 := by
  induction l generalizing s with
  | nil => exact Nat.le_refl _
  | cons i l ih => exact Nat.le_trans (h s i) (ih _)

end run

/-- Every input of the run is allowed in the state it is fed to. -/
def Allowed (step : σ → ι → ο × σ) (ok : σ → ι → Prop) : List ι → σ → Prop
  | [], _ => True
  | i :: l, s => ok s i ∧ Allowed step ok l (step s i).2

theorem Allowed.append {step : σ → ι → ο × σ} {ok : σ → ι → Prop} {l l' : List ι} {s : σ} :
    Allowed step ok (l ++ l') s ↔ Allowed step ok l s ∧ Allowed step ok l' (run step l s).2 := by
  induction l generalizing s with
  | nil => simp [Allowed]
  | cons i l ih => simp only [List.cons_append, Allowed, ih, run_cons, and_assoc]

/-- **Forward simulation**: when related states give equal outputs and related successors on every
allowed input, related states give equal outputs on every allowed run. -/
theorem run_sim {step : σ → ι → ο × σ} {step' : τ → ι → ο × τ} {R : σ → τ → Prop}
    {ok : τ → ι → Prop}
    (hstep : ∀ s t i, R s t → ok t i → (step s i).1 = (step' t i).1 ∧ R (step s i).2 (step' t i).2)
    {l : List ι} {s : σ} {t : τ} (hR : R s t) (hok : Allowed step' ok l t) :
    (run step l s).1 = (run step' l t).1 ∧ R (run step l s).2 (run step' l t).2 := by
  induction l generalizing s t with
  | nil => exact ⟨rfl, hR⟩
  | cons i l ih =>
    obtain ⟨h1, h2⟩ := hstep s t i hR hok.1
    obtain ⟨h3, h4⟩ := ih h2 hok.2
    exact ⟨by rw [run_cons, run_cons, h1, h3], h4⟩

end Mealy
