import Mathlib.Data.List.Basic

/-! # Resources that are leased and returned

Resources are numbered in the order in which they are made.  Each is idle in a pool, leased to one client,
or given up; `hold` says what a client has.

* `Leases.grow`, `Leases.lease`, `Leases.give`, `Leases.drop`, `Leases.discard`: what is done with a
  resource keeps that none has two clients, or a client while it is idle. -/

namespace Lease

variable {ι : Type}

/-- Nothing is leased twice, or both idle and leased. -/
structure Leases (hold : ι → Option ℕ) (pool : List ℕ) (next : ℕ) : Prop where
  idle_lt : ∀ k ∈ pool, k < next
  held_lt : ∀ i k, hold i = some k → k < next
  nodup : pool.Nodup
  apart : ∀ i k, hold i = some k → k ∉ pool
  alone : ∀ i j k, hold i = some k → hold j = some k → i = j

namespace Leases

theorem none (hold : ι → Option ℕ) (h : ∀ i, hold i = .none) : Leases hold [] 0 where
  idle_lt k hk := by cases hk
  held_lt i k hk := by rw [h] at hk; cases hk
  nodup := List.nodup_nil
  apart i k hk := by rw [h] at hk; cases hk
  alone i j k hk := by rw [h] at hk; cases hk

/-- The oldest idle resource is given up. -/
theorem discard {hold : ι → Option ℕ} {pool : List ℕ} {next k : ℕ} (h : Leases hold (k :: pool) next) :
    Leases hold pool next where
  idle_lt k' hk' := h.idle_lt k' (List.mem_cons_of_mem _ hk')
  held_lt := h.held_lt
  nodup := (List.nodup_cons.mp h.nodup).2
  apart j k' hj hk' := h.apart j k' hj (List.mem_cons_of_mem _ hk')
  alone := h.alone

/-- The oldest idle resource is idle once, and leased to nobody. -/
theorem head {hold : ι → Option ℕ} {pool : List ℕ} {next k : ℕ} (h : Leases hold (k :: pool) next) :
    k < next ∧ k ∉ pool ∧ ∀ i, hold i ≠ some k :=
  ⟨h.idle_lt k List.mem_cons_self, (List.nodup_cons.mp h.nodup).1,
    fun i hi => h.apart i k hi List.mem_cons_self⟩

/-- A resource is made. -/
theorem grow {hold : ι → Option ℕ} {pool : List ℕ} {next : ℕ} (h : Leases hold pool next) :
    Leases hold pool (next + 1) :=
  { h with
    idle_lt := fun k hk => Nat.lt_succ_of_lt (h.idle_lt k hk)
    held_lt := fun i k hk => Nat.lt_succ_of_lt (h.held_lt i k hk) }

variable [DecidableEq ι] {hold : ι → Option ℕ} {pool : List ℕ} {next : ℕ} {i : ι} {k : ℕ}

/-- What the client holds is replaced by nothing, or by a resource that is neither idle nor leased. -/
theorem update (h : Leases hold pool next) (i : ι) {v : Option ℕ}
    (hv : ∀ k, v = some k → k < next ∧ k ∉ pool ∧ ∀ j, hold j ≠ some k) :
    Leases (Function.update hold i v) pool next where
  idle_lt := h.idle_lt
  held_lt j k hj := by
    by_cases hij : j = i
    · rw [hij, Function.update_self] at hj
      exact (hv k hj).1
    · exact h.held_lt j k (by rwa [Function.update_of_ne hij] at hj)
  nodup := h.nodup
  apart j k hj := by
    by_cases hij : j = i
    · rw [hij, Function.update_self] at hj
      exact (hv k hj).2.1
    · exact h.apart j k (by rwa [Function.update_of_ne hij] at hj)
  alone j j' k hj hj' := by
    by_cases hij : j = i <;> by_cases hij' : j' = i
    · rw [hij, hij']
    · rw [hij, Function.update_self] at hj
      rw [Function.update_of_ne hij'] at hj'
      exact absurd hj' ((hv k hj).2.2 j')
    · rw [hij', Function.update_self] at hj'
      rw [Function.update_of_ne hij] at hj
      exact absurd hj ((hv k hj').2.2 j)
    · rw [Function.update_of_ne hij] at hj
      rw [Function.update_of_ne hij'] at hj'
      exact h.alone j j' k hj hj'

/-- The client gives its resource up, if it has one. -/
theorem drop (h : Leases hold pool next) (i : ι) : Leases (Function.update hold i Option.none) pool next :=
  h.update i fun _ hk => nomatch hk

/-- A client gets a resource that is neither idle nor leased. -/
theorem lease (h : Leases hold pool next) (i : ι) (hlt : k < next) (hpool : k ∉ pool)
    (hfree : ∀ j, hold j ≠ some k) : Leases (Function.update hold i (some k)) pool next := by
  refine h.update i fun k' hk' => ?_
  obtain rfl := Option.some.inj hk'
  exact ⟨hlt, hpool, hfree⟩

/-- A client returns its resource to the pool. -/
theorem give (h : Leases hold pool next) (hi : hold i = some k) :
    Leases (Function.update hold i Option.none) (pool ++ [k]) next where
  idle_lt k' hk' := by
    rcases List.mem_append.mp hk' with hk' | hk'
    · exact h.idle_lt k' hk'
    · rw [List.mem_singleton.mp hk']
      exact h.held_lt i k hi
  held_lt := (h.drop i).held_lt
  nodup := by
    refine List.nodup_append.mpr ⟨h.nodup, by simp, fun k' hk' x hx heq => ?_⟩
    rw [List.mem_singleton.mp hx] at heq
    exact h.apart i k hi (heq ▸ hk')
  apart j k' hj hk' := by
    rcases List.mem_append.mp hk' with hk' | hk'
    · exact (h.drop i).apart j k' hj hk'
    · rw [List.mem_singleton.mp hk'] at hj
      by_cases hij : j = i
      · rw [hij, Function.update_self] at hj; cases hj
      · rw [Function.update_of_ne hij] at hj
        exact hij (h.alone j i k hj hi)
  alone := (h.drop i).alone

end Leases

end Lease
