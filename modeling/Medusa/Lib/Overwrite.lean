import Mathlib.Data.Option.Basic
import Mathlib.Data.List.Basic

/-! # Steps that overwrite

A state is looked at through a family of places (`view : σ → ι → β`).  A step *overwrites* when it
sets some places to values of its own and leaves the others as they are, whatever the state.  Such
steps are closed under composition and over lists (`Overwrites.foldl`), and doing one twice is doing
it once (`Overwrites.twice`), although the states in between differ. -/

variable {σ ι β : Type} {view : σ → ι → β}

/-- The step sets some places, each to a fixed value, and leaves the others alone. -/
def Overwrites (view : σ → ι → β) (step : σ → σ) : Prop :=
  ∃ put : ι → Option β, ∀ s i, view (step s) i = (put i).getD (view s i)

namespace Overwrites

theorem id : Overwrites view (fun s => s) := ⟨fun _ => none, fun _ _ => rfl⟩

/-- One value at all the places that satisfy `q`. -/
theorem of_if {step : σ → σ} {q : ι → Prop} [DecidablePred q] {b : β}
    (h : ∀ s i, view (step s) i = if q i then b else view s i) : Overwrites view step := by
  refine ⟨fun i => if q i then some b else none, fun s i => ?_⟩
  rw [h]
  dsimp only
  split <;> rfl

theorem comp {step step' : σ → σ} (h : Overwrites view step) (h' : Overwrites view step') :
    Overwrites view (fun s => step' (step s)) := by
  obtain ⟨put, hput⟩ := h
  obtain ⟨put', hput'⟩ := h'
  refine ⟨fun i => (put' i).or (put i), fun s i => ?_⟩
  rw [hput', hput]
  dsimp only
  cases put' i <;> rfl

theorem foldl {γ : Type} {step : σ → γ → σ} {l : List γ}
    (h : ∀ c ∈ l, Overwrites view (fun s => step s c)) :
    Overwrites view (fun s => l.foldl step s) := by
  induction l with
  | nil => exact id
  | cons c l ih =>
    exact (h c List.mem_cons_self).comp (ih fun d hd => h d (List.mem_cons_of_mem _ hd))

/-- What the step left anywhere, it leaves again on a state that looks like the one it left. -/
theorem again {step : σ → σ} (h : Overwrites view step) {r : β → β → Prop} (hr : ∀ b, r b b)
    {s t : σ} {i : ι} (hst : r (view t i) (view (step s) i)) :
    r (view (step t) i) (view (step s) i) := by
  obtain ⟨put, hput⟩ := h
  rw [hput] at hst
  rw [hput, hput]
  cases hi : put i with
  | none => simpa [hi] using hst
  | some b => exact hr b

/-- **Twice is once.** -/
theorem twice {step : σ → σ} (h : Overwrites view step) (s : σ) (i : ι) :
    view (step (step s)) i = view (step s) i := h.again (r := Eq) (fun _ => rfl) rfl

end Overwrites
