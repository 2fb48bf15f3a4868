import Mathlib.Data.Option.Basic

/-! # Operations that fail, and a stop between them

A procedure on a device (`σ`) whose operations may fail, and which may be stopped before any of them.
`Faulty.Proc` is such a procedure: it changes the device, and returns a value unless it was stopped.

`Leaves x d q` says that `x`, started on `d`, leaves the device and the returned value (`none` when it was
stopped) in `q`; `Leaves.bind` and `Leaves.guard` are the rules for its steps. -/

namespace Faulty

variable {σ α β Op : Type}

/-- A procedure on a device. -/
def Proc (σ α : Type) : Type := σ → σ × Option α

instance : Monad (Proc σ) where
  pure a := fun d => (d, some a)
  bind x f := fun d => (x d).2.elim ((x d).1, none) fun a => f a (x d).1

/-- Which operations fail, and before which one the procedure is stopped. -/
structure Faults (Op : Type) where
  fails : Op → Bool
  stop : Option Op

/-- One operation, and whether it worked: its effect, and what it does to the device when it fails. -/
def attempt [DecidableEq Op] (f : Faults Op) (op : Op) (effect failure : σ → σ) : Proc σ Bool := fun d =>
  if f.stop = some op then (d, none)
  else if f.fails op then (failure d, some false)
  else (effect d, some true)

/-- What a procedure leaves. -/
def Leaves (x : Proc σ α) (d : σ) (q : σ → Option α → Prop) : Prop := q (x d).1 (x d).2

namespace Leaves
variable {x : Proc σ α} {d : σ} {q : σ → Option α → Prop}

theorem pure {a : α} (h : q d (some a)) : Leaves (Pure.pure a : Proc σ α) d q := h

/-- Two procedures one after the other; nothing runs after a stop. -/
theorem bind {f : α → Proc σ β} {q : σ → Option β → Prop}
    (h : Leaves x d fun d' r => r.elim (q d' none) fun a => Leaves (f a) d' q) :
    Leaves (x >>= f) d q := by
  unfold Leaves at h ⊢
  change q ((x d).2.elim ((x d).1, none) fun a => f a (x d).1).1
    ((x d).2.elim ((x d).1, none) fun a => f a (x d).1).2
  cases hx : (x d).2 with
  | none =>
    rw [hx] at h
    exact h
  | some a =>
    rw [hx] at h
    exact h

/-- An operation is not reached, fails, or works. -/
theorem attempt [DecidableEq Op] {f : Faults Op} {op : Op} {effect failure : σ → σ}
    {q : σ → Option Bool → Prop} (hstop : q d none)
    (hfails : f.fails op = true → q (failure d) (some false))
    (hworks : f.fails op = false → q (effect d) (some true)) :
    Leaves (Faulty.attempt f op effect failure) d q := by
  unfold Leaves Faulty.attempt
  split
  · exact hstop
  · split
    · next h => exact hfails h
    · next h => exact hworks (by simpa using h)

/-- Going on, or not, depending on whether an operation worked. -/
theorem guard [DecidableEq Op] {f : Faults Op} {op : Op} {effect failure : σ → σ} {y : Proc σ α}
    (hstop : q d none) (hfails : f.fails op = true → Leaves y (failure d) q)
    (hworks : f.fails op = false → Leaves x (effect d) q) :
    Leaves (do if ← Faulty.attempt f op effect failure then x else y) d q :=
  bind (attempt hstop (fun h => by simpa using hfails h) fun h => by simpa using hworks h)

end Leaves

end Faulty
