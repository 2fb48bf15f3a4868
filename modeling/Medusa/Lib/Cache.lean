import Mathlib.Logic.Function.Basic

/-! # A cache over a backing store

Writes go to memory and to the backing store.  A read that misses in memory loads the record and keeps
it.  An update works on what is in memory.  Entries are evicted from memory at any time.

`Less` compares a state with the one that would have been reached without the evictions.

* `Less.evict`: an eviction keeps them comparable.
* `Less.run`: **a call returns the same in both, except an update of an entry that is only among the
  records.** -/

namespace Cache

variable {K V O : Type}

/-- What is in memory, and the records of the backing store. -/
structure State (K V : Type) where
  mem : K → Option V
  record : K → Option V

/-- A call.  An update computes from the value in memory what to write, if anything, and its result. -/
inductive Call (K V O : Type) where
  | put (k : K) (v : V)
  | get (k : K)
  | remove (k : K)
  | update (k : K) (f : Option V → Option (Option V) × O)

/-- What a call returns. -/
inductive Reply (V O : Type) where
  | done
  | value (v : Option V)
  | out (o : O)

section run
variable [DecidableEq K]

/-- Write through. -/
def State.write (s : State K V) (k : K) (d : Option V) : State K V :=
  ⟨Function.update s.mem k d, Function.update s.record k d⟩

/-- Write through, if there is something to write. -/
def State.writeIf (s : State K V) (k : K) : Option (Option V) → State K V
  | none => s
  | some d => s.write k d

/-- One call. -/
def Call.run : Call K V O → State K V → Reply V O × State K V
  | put k v, s => (.done, s.write k (some v))
  | get k, s =>
    match s.mem k with
    | some v => (.value (some v), s)
    | none => (.value (s.record k), { s with mem := Function.update s.mem k (s.record k) })
  | remove k, s => (.done, s.write k none)
  | update k f, s => (.out (f (s.mem k)).2, s.writeIf k (f (s.mem k)).1)

/-- A read returns what is in memory, or else the record, and leaves it in memory. -/
theorem run_get (k : K) (s : State K V) : (Call.get k : Call K V O).run s =
    (.value ((s.mem k).or (s.record k)),
      { s with mem := Function.update s.mem k ((s.mem k).or (s.record k)) }) := by
  cases hk : s.mem k with
  | none => simp [Call.run, hk]
  | some v =>
    have hmem : Function.update s.mem k (some v) = s.mem := by rw [← hk, Function.update_eq_self]
    simp [Call.run, hk, hmem]

end run

/-- The state `s` is `t` with entries missing in memory; and memory has nothing that the backing store
has not. -/
structure Less (s t : State K V) : Prop where
  record : s.record = t.record
  mem : ∀ k, s.mem k = t.mem k ∨ s.mem k = none
  held : ∀ k v, t.mem k = some v → t.record k = some v

section less
variable {s s' t : State K V}

/-- An eviction drops entries from memory. -/
theorem Less.evict (h : Less s t) (hrecord : s'.record = s.record)
    (hmem : ∀ k, s'.mem k = s.mem k ∨ s'.mem k = none) : Less s' t where
  record := hrecord.trans h.record
  held := h.held
  mem k := by
    rcases hmem k with hk | hk
    · exact (h.mem k).imp hk.trans hk.trans
    · exact Or.inr hk

/-- What a read finds, in memory or among the records. -/
theorem Less.found (h : Less s t) (k : K) :
    (s.mem k).or (s.record k) = (t.mem k).or (t.record k) := by
  rw [h.record]
  rcases h.mem k with hk | hk
  · rw [hk]
  · rw [hk, Option.none_or]
    cases ht : t.mem k with
    | none => rfl
    | some v => exact h.held k v ht

/-- An entry that is missing only where there is no record is not missing. -/
theorem Less.resident (h : Less s t) {k : K} (hk : s.mem k = none → s.record k = none) :
    s.mem k = t.mem k := by
  rcases h.mem k with heq | hnone
  · exact heq
  · cases ht : t.mem k with
    | none => exact hnone
    | some v =>
      have hrecord := h.held k v ht
      rw [← h.record, hk hnone] at hrecord
      cases hrecord

section run
variable [DecidableEq K]

theorem Less.write (h : Less s t) (k : K) (d : Option V) : Less (s.write k d) (t.write k d) where
  record := by simp only [State.write, h.record]
  mem j := by
    by_cases hj : j = k
    · subst hj
      exact Or.inl (by simp [State.write])
    · simpa [State.write, hj] using h.mem j
  held j v := by
    by_cases hj : j = k
    · subst hj
      simp [State.write]
    · simpa [State.write, hj] using h.held j v

theorem Less.run_get (h : Less s t) (k : K) :
    ((Call.get k : Call K V O).run s).1 = ((Call.get k : Call K V O).run t).1 ∧
      Less ((Call.get k : Call K V O).run s).2 ((Call.get k : Call K V O).run t).2 := by
  rw [Cache.run_get, Cache.run_get, h.found k]
  refine ⟨rfl, h.record, fun j => ?_, fun j v hv => ?_⟩
  · by_cases hj : j = k
    · subst hj
      exact Or.inl (by simp)
    · simpa [hj] using h.mem j
  · by_cases hj : j = k
    · subst hj
      simp only [Function.update_self] at hv
      cases ht : t.mem j with
      | none => rwa [ht] at hv
      | some x => rw [ht] at hv; exact h.held j v (ht.trans hv)
    · exact h.held j v (by simpa [hj] using hv)

/-- **A call returns the same in both states**, unless it updates an entry that is only among the
records. -/
theorem Less.run (h : Less s t) (c : Call K V O)
    (hc : ∀ k f, c = .update k f → s.mem k = none → s.record k = none) :
    (c.run s).1 = (c.run t).1 ∧ Less (c.run s).2 (c.run t).2 := by
  cases c with
  | put k v => exact ⟨rfl, h.write k _⟩
  | get k => exact h.run_get k
  | remove k => exact ⟨rfl, h.write k _⟩
  | update k f =>
    simp only [Call.run, h.resident (hc k f rfl)]
    refine ⟨trivial, ?_⟩
    cases (f (t.mem k)).1 with
    | none => exact h
    | some d => exact h.write k d

end run

end less

end Cache
