import Mathlib.Data.Nat.Notation

/-! # Fenced locks

A lock that hands out a number with every fresh acquisition.  At most one party holds it; acquiring it
again returns the holder's number, releasing it keeps the number, and every fresh acquisition gets the
next one. -/

namespace FencedLock

/-- The number of the last fresh acquisition, and the party that holds the lock. -/
structure Lock (H : Type) where
  fence : ℕ
  holder : Option H
deriving DecidableEq, Repr

variable {H : Type} [DecidableEq H]

/-- A lock nobody has taken yet. -/
def Lock.init : Lock H := ⟨0, none⟩

/-- Acquire: the number, unless another party holds the lock. -/
def Lock.acquire (l : Lock H) (h : H) : Option ℕ × Lock H :=
  match l.holder with
  | none => (some (l.fence + 1), ⟨l.fence + 1, some h⟩)
  | some h' => if h' = h then (some l.fence, l) else (none, l)

/-- Release: whether the party held the lock. -/
def Lock.release (l : Lock H) (h : H) : Bool × Lock H :=
  if l.holder = some h then (true, { l with holder := none }) else (false, l)

theorem acquire_free {l : Lock H} (hl : l.holder = none) (h : H) :
    l.acquire h = (some (l.fence + 1), ⟨l.fence + 1, some h⟩) := by
  simp [Lock.acquire, hl]

theorem acquire_holder {l : Lock H} {h : H} (hl : l.holder = some h) :
    l.acquire h = (some l.fence, l) := by
  simp [Lock.acquire, hl]

theorem acquire_held {l : Lock H} {h h' : H} (hl : l.holder = some h') (hne : h' ≠ h) :
    l.acquire h = (none, l) := by
  simp [Lock.acquire, hl, hne]

theorem release_fst {l : Lock H} {h : H} : (l.release h).1 = true ↔ l.holder = some h := by
  unfold Lock.release
  split <;> simp [*]

/-- The number an acquire returns is the lock's afterwards. -/
theorem acquire_fence {l : Lock H} {h : H} {n : ℕ} (hn : (l.acquire h).1 = some n) :
    (l.acquire h).2.fence = n := by
  cases hl : l.holder with
  | none =>
    rw [acquire_free hl] at hn ⊢
    exact Option.some.inj hn
  | some h' =>
    by_cases hsame : h' = h
    · rw [acquire_holder (hsame ▸ hl)] at hn ⊢
      exact Option.some.inj hn
    · rw [acquire_held hl hsame] at hn
      cases hn

/-- The numbers never go down. -/
theorem fence_le_acquire (l : Lock H) (h : H) : l.fence ≤ (l.acquire h).2.fence := by
  unfold Lock.acquire
  split
  · exact Nat.le_succ _
  · split <;> exact Nat.le_refl _

theorem fence_release (l : Lock H) (h : H) : (l.release h).2.fence = l.fence := by
  unfold Lock.release
  split <;> rfl

end FencedLock
