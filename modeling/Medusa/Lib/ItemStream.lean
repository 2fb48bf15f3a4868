import Mathlib.Data.List.Basic

/-! # Streams of items

`next` takes one item off the front of a stream, or finds none there; `scan` takes items as long as there
are any.  `enc` is how items are written, one behind the other.

* `scan_flatMap`: **the items that were written are taken in order**, up to a rest with no item at its
  front.
* `flatMap_scan`: what was taken, written again, and the rest make up the stream.
* `next_scan`: the rest has no item at its front, if there were enough rounds.
* `cut_flatMap`: where a cut through a stream of items falls. -/

namespace ItemStream

variable {α β : Type}

/-- Take at most `fuel` items: the items, and the rest of the stream. -/
def scan (next : List α → Option (β × List α)) : ℕ → List α → List β × List α
  | 0, s => ([], s)
  | fuel + 1, s =>
    match next s with
    | none => ([], s)
    | some (x, rest) => (x :: (scan next fuel rest).1, (scan next fuel rest).2)

section scan
variable {next : List α → Option (β × List α)} {enc : β → List α}

theorem scan_none {s : List α} (h : next s = none) (fuel : ℕ) : scan next fuel s = ([], s) := by
  cases fuel with
  | zero => rfl
  | succ fuel => simp only [scan, h]

theorem scan_some {s rest : List α} {x : β} (h : next s = some (x, rest)) (fuel : ℕ) :
    scan next (fuel + 1) s = (x :: (scan next fuel rest).1, (scan next fuel rest).2) := by
  simp only [scan, h]

/-- **Items come back as they were written.** -/
theorem scan_flatMap {xs : List β} {tail : List α}
    (hnext : ∀ x ∈ xs, ∀ more, next (enc x ++ more) = some (x, more)) (htail : next tail = none)
    (fuel : ℕ) :
    scan next fuel (xs.flatMap enc ++ tail) = (xs.take fuel, (xs.drop fuel).flatMap enc ++ tail) := by
  induction xs generalizing fuel with
  | nil => simp [scan_none htail]
  | cons x xs ih =>
    cases fuel with
    | zero => rfl
    | succ fuel =>
      have hx := hnext x List.mem_cons_self (xs.flatMap enc ++ tail)
      rw [← List.append_assoc, ← List.flatMap_cons] at hx
      rw [scan_some hx, ih fun y hy => hnext y (List.mem_cons_of_mem _ hy)]
      rfl

/-- Nothing is lost: an item that is taken was there as it would be written. -/
theorem flatMap_scan {s : List α} (hnext : ∀ t x rest, t <:+ s → next t = some (x, rest) → t = enc x ++ rest)
    (fuel : ℕ) : (scan next fuel s).1.flatMap enc ++ (scan next fuel s).2 = s := by
  induction fuel generalizing s with
  | zero => rfl
  | succ fuel ih =>
    cases h : next s with
    | none => simp [scan_none h]
    | some r =>
      obtain ⟨x, rest⟩ := r
      have hs := hnext s x rest List.suffix_rfl h
      have hrest : rest <:+ s := ⟨enc x, hs.symm⟩
      rw [scan_some h, List.flatMap_cons, List.append_assoc,
        ih fun t y rest' ht => hnext t y rest' (ht.trans hrest)]
      exact hs.symm

/-- Every item takes up room, so as many rounds as the stream is long take all the items. -/
theorem next_scan (hnext : ∀ s x rest, next s = some (x, rest) → rest.length < s.length) {s : List α}
    {fuel : ℕ} (hfuel : s.length ≤ fuel) : next (scan next fuel s).2 = none := by
  induction fuel generalizing s with
  | zero =>
    cases h : next s with
    | none => rwa [scan]
    | some r => exact absurd (hnext s r.1 r.2 h) (by omega)
  | succ fuel ih =>
    cases h : next s with
    | none => rwa [scan_none h]
    | some r =>
      obtain ⟨x, rest⟩ := r
      have hlt := hnext s x rest h
      rw [scan_some h]
      exact ih (by omega)

/-- Rounds after the last item do nothing. -/
theorem scan_eq_of_le {s : List α} {fuel fuel' : ℕ} (hend : next (scan next fuel s).2 = none)
    (hle : fuel ≤ fuel') : scan next fuel' s = scan next fuel s := by
  induction fuel generalizing s fuel' with
  | zero => exact scan_none hend fuel'
  | succ fuel ih =>
    obtain ⟨k, rfl⟩ : ∃ k, fuel' = k + 1 := ⟨fuel' - 1, by omega⟩
    cases h : next s with
    | none => rw [scan_none h, scan_none h]
    | some r =>
      obtain ⟨x, rest⟩ := r
      rw [scan_some h] at hend ⊢
      rw [scan_some h, ih hend (by omega)]

end scan

/-- A cut through a stream of items falls at its end or inside one item: before it there are whole items,
and after them a beginning of the next one. -/
theorem cut_flatMap {enc : β → List α} {xs : List β} {s : List α} (hs : s <+: xs.flatMap enc) :
    ∃ k tail, k ≤ xs.length ∧ s = (xs.take k).flatMap enc ++ tail ∧
      (k = xs.length → tail = []) ∧ ∀ x, xs[k]? = some x → tail <+: enc x ∧ tail ≠ enc x := by
  induction xs generalizing s with
  | nil => exact ⟨0, [], Nat.le_refl 0, by simpa using hs, fun _ => rfl, by simp⟩
  | cons x xs ih =>
    rw [List.flatMap_cons] at hs
    rcases List.prefix_or_prefix_of_prefix hs (List.prefix_append _ _) with hbefore | hafter
    · by_cases heq : s = enc x
      · -- the cut is at the end of the first item
        obtain ⟨k, tail, hk, hrest, hend, hnext⟩ := ih (List.nil_prefix (l := xs.flatMap enc))
        obtain ⟨h1, h2⟩ := List.append_eq_nil_iff.mp hrest.symm
        refine ⟨k + 1, tail, by simpa using hk, ?_, fun h => hend (by simpa using h), by simpa using hnext⟩
        rw [List.take_succ_cons, List.flatMap_cons, h1, h2, heq, List.append_nil, List.append_nil]
      · refine ⟨0, s, Nat.zero_le _, rfl, fun h => by simp at h, fun y hy => ?_⟩
        cases (Option.some.inj hy : x = y)
        exact ⟨hbefore, heq⟩
    · obtain ⟨rest, rfl⟩ := hafter
      obtain ⟨k, tail, hk, hrest, hend, hnext⟩ := ih ((List.prefix_append_right_inj _).mp hs)
      refine ⟨k + 1, tail, by simpa using hk, ?_, fun h => hend (by simpa using h), by simpa using hnext⟩
      rw [List.take_succ_cons, List.flatMap_cons, List.append_assoc, ← hrest]

end ItemStream
