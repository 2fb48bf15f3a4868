import Mathlib.Logic.Function.Basic
import Mathlib.Data.List.Basic

/-! # Logs of keyed changes

An event is about one key: `finds` is what it expects to be stored there, and `leaves` is what it leaves.
Replaying a log applies its events one after another, and every event finds what it expects.

* `replays_iff`: **a log replays when it does for every key alone**, so the order of events about
  different keys does not matter. -/

namespace EventLog

variable {E K V : Type} (key : E → K) (finds : E → V → Prop) (leaves : E → V)

/-- The events, all about one key, lead from a value to another. -/
def ReplaysAt : V → List E → V → Prop
  | v, [], v' => v = v'
  | v, e :: log, v' => finds e v ∧ ReplaysAt (leaves e) log v'

variable {finds leaves} in
theorem ReplaysAt.snoc {v v' : V} {log : List E} (h : ReplaysAt finds leaves v log v') {e : E}
    (he : finds e v') : ReplaysAt finds leaves v (log ++ [e]) (leaves e) := by
  induction log generalizing v with
  | nil =>
    obtain rfl : v = v' := h
    exact ⟨he, rfl⟩
  | cons e' log ih => exact ⟨h.1, ih h.2⟩

variable [DecidableEq K]

/-- The events lead from a content to another. -/
def Replays : (K → V) → List E → (K → V) → Prop
  | m, [], m' => m = m'
  | m, e :: log, m' => finds e (m (key e)) ∧ Replays (Function.update m (key e) (leaves e)) log m'

/-- **Every key depends on its own events only.** -/
theorem replays_iff (m m' : K → V) (log : List E) : Replays key finds leaves m log m' ↔
    ∀ k, ReplaysAt finds leaves (m k) (log.filter fun e => key e = k) (m' k) := by
  induction log generalizing m with
  | nil => exact funext_iff
  | cons e log ih =>
    rw [Replays, ih]
    constructor
    · rintro ⟨he, hlog⟩ k
      by_cases hk : key e = k
      · subst hk
        rw [List.filter_cons_of_pos (by simp)]
        refine ⟨he, ?_⟩
        simpa using hlog (key e)
      · rw [List.filter_cons_of_neg (by simpa using hk)]
        simpa [Ne.symm hk] using hlog k
    · intro hlog
      have hkey := hlog (key e)
      rw [List.filter_cons_of_pos (by simp)] at hkey
      refine ⟨hkey.1, fun k => ?_⟩
      by_cases hk : key e = k
      · subst hk
        simpa using hkey.2
      · have hrest := hlog k
        rw [List.filter_cons_of_neg (by simpa using hk)] at hrest
        simpa [Ne.symm hk] using hrest

end EventLog
