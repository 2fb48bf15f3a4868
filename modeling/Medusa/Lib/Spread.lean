import Mathlib.Combinatorics.SimpleGraph.Connectivity.Connected
import Mathlib.Combinatorics.SimpleGraph.Paths

/-! # Spreading what is known, in rounds

A view `V a` is the set of parties that `a` knows of.  In a round everybody that `a` knows of at its
beginning learns what `a` knows (`Spreads`).  Nothing is assumed about the order within the round, or
about what else is learnt in it.

`Spreads.mem_of_walk`: after `r ≥ 1` rounds `a` knows of everybody within distance `r` in the graph
that joins two parties when one of them knew of the other at first.  So when this graph is connected
everybody knows of everybody after as many rounds as there are parties (`Spreads.complete`). -/

variable {ι : Type}

/-- Everybody that `a` knows of learns what `a` knows. -/
def Spreads (V V' : ι → Set ι) : Prop := ∀ a b, b ∈ V a → V a ⊆ V' b

/-- Who knows of whom, in either direction. -/
def Spreads.knows (V : ι → Set ι) : SimpleGraph ι := SimpleGraph.fromRel (fun a b => b ∈ V a)

namespace Spreads
variable {V : ℕ → ι → Set ι} {k : ℕ}

/-- A party that knows of itself forgets nobody. -/
theorem mono (hself : ∀ a, a ∈ V 0 a) (hV : ∀ r < k, Spreads (V r) (V (r + 1))) {r s : ℕ}
    (hrs : r ≤ s) (hs : s ≤ k) (a : ι) : V r a ⊆ V s a := by
  have hmem : ∀ r ≤ k, a ∈ V r a := by
    intro r
    induction r with
    | zero => exact fun _ => hself a
    | succ r ih =>
      intro hr
      have ha := ih (Nat.le_of_succ_le hr)
      exact hV r hr a a ha ha
  induction s, hrs using Nat.le_induction with
  | base => exact subset_rfl
  | succ s hrs ih =>
    have hs' := Nat.le_of_succ_le hs
    exact (ih hs').trans (hV s hs a a (hmem s hs'))

/-- A walk of length `r` is learnt in `r` rounds. -/
theorem mem_of_walk (hself : ∀ a, a ∈ V 0 a) (hV : ∀ r < k, Spreads (V r) (V (r + 1))) {a b : ι}
    (p : (knows (V 0)).Walk a b) {r : ℕ} (hr : 1 ≤ r) (hrk : r ≤ k) (hp : p.length ≤ r) :
    b ∈ V r a := by
  -- after the first round neighbours know of each other
  have hfirst : ∀ {a b : ι}, (knows (V 0)).Adj a b → b ∈ V 1 a := by
    intro a b hab
    have h0 : 0 < k := hr.trans hrk
    rcases ((SimpleGraph.fromRel_adj _ a b).mp hab).2 with h | h
    · exact hV 0 h0 a a (hself a) h
    · exact hV 0 h0 b a h (hself b)
  induction p generalizing r with
  | nil => exact mono hself hV (Nat.zero_le r) hrk _ (hself _)
  | @cons a c b hac q ih =>
    rw [SimpleGraph.Walk.length_cons] at hp
    obtain ⟨r, rfl⟩ : ∃ r', r = r' + 1 := ⟨r - 1, by omega⟩
    have hq : q.length ≤ r := Nat.le_of_succ_le_succ hp
    rcases Nat.eq_zero_or_pos r with rfl | hr1
    · cases q with
      | nil => exact hfirst hac
      | cons _ _ => simp at hq
    · -- `c` knows of `b` after `r` rounds, and of `a`, whom it tells
      have hc : b ∈ V r c := ih hr1 (Nat.le_of_succ_le hrk) hq
      have ha : a ∈ V r c :=
        mono hself hV hr1 (Nat.le_of_succ_le hrk) c (hfirst hac.symm)
      exact hV r hrk c a ha hc

/-- **Everybody knows of everybody** after as many rounds as there are parties. -/
theorem complete [Fintype ι] (hself : ∀ a, a ∈ V 0 a)
    (hV : ∀ r < k, Spreads (V r) (V (r + 1))) (hconn : (knows (V 0)).Connected) {r : ℕ}
    (hr : Fintype.card ι ≤ r) (hrk : r ≤ k) (a b : ι) : b ∈ V r a := by
  classical
  obtain ⟨p, hp⟩ := (hconn.preconnected a b).exists_isPath
  have hlt := hp.length_lt
  exact mem_of_walk hself hV p (by omega) hrk (by omega)

end Spreads
