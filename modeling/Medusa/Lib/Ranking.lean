import Mathlib.Data.List.Sort

/-! # Rankings

Members of a list ranked by a total order `r` (`ranked`), and the `k` best of them (`top`).  The
ranking depends on the set only (`ranked_eq_of_perm`), commutes with deleting members
(`ranked_filter`), and the top of a set is closed upwards (`mem_top_of_le`).  Deleting members
never pushes a remaining one out of the top (`mem_top_of_subset`).  Deleting one member from the top
moves the next one up and changes nothing else (`top_erase`, `erase_top_isPrefix`). -/

namespace Ranking

variable {α : Type} (r : α → α → Prop) [DecidableRel r]

/-- The members of `l`, best first. -/
def ranked (l : List α) : List α := l.insertionSort r

/-- The `k` best members of `l`. -/
def top (k : ℕ) (l : List α) : List α := (ranked r l).take k

theorem ranked_perm (l : List α) : (ranked r l).Perm l := List.perm_insertionSort r l

@[simp] theorem mem_ranked {l : List α} {x : α} : x ∈ ranked r l ↔ x ∈ l :=
  (ranked_perm r l).mem_iff

@[simp] theorem length_ranked (l : List α) : (ranked r l).length = l.length :=
  (ranked_perm r l).length_eq

theorem ranked_nodup {l : List α} (h : l.Nodup) : (ranked r l).Nodup :=
  (ranked_perm r l).nodup_iff.mpr h

theorem mem_of_mem_top {k : ℕ} {l : List α} {x : α} (h : x ∈ top r k l) : x ∈ l :=
  (mem_ranked r).mp (List.mem_of_mem_take h)

theorem top_nodup {k : ℕ} {l : List α} (h : l.Nodup) : (top r k l).Nodup :=
  (ranked_nodup r h).sublist (List.take_sublist _ _)

theorem length_top (k : ℕ) (l : List α) : (top r k l).length = min k l.length := by
  simp [top]

/-- A member of the first `k` of a list stays among the first `k` of a sublist that has it. -/
theorem mem_take_of_sublist {l' l : List α} (hs : l'.Sublist l) (hn : l.Nodup) {k : ℕ} {x : α}
    (hx' : x ∈ l') (hx : x ∈ l.take k) : x ∈ l'.take k := by
  induction hs generalizing k with
  | slnil => cases hx'
  | @cons l₁ l₂ a hs ih =>
    cases k with
    | zero => simp at hx
    | succ k =>
      rw [List.nodup_cons] at hn
      rw [List.take_succ_cons, List.mem_cons] at hx
      have hne : x ≠ a := fun h => hn.1 (h ▸ hs.subset hx')
      have := ih hn.2 hx' (hx.resolve_left hne)
      exact List.mem_of_mem_take (by
        rw [List.take_take, Nat.min_eq_left (Nat.le_succ k)]; exact this :
          x ∈ (l₁.take (k + 1)).take k)
  | @cons_cons l₁ l₂ a hs ih =>
    cases k with
    | zero => simp at hx
    | succ k =>
      rw [List.nodup_cons] at hn
      rw [List.take_succ_cons, List.mem_cons] at hx ⊢
      rcases List.mem_cons.mp hx' with rfl | hx'
      · exact Or.inl rfl
      · have hne : x ≠ a := fun h => hn.1 (h ▸ hs.subset hx')
        exact Or.inr (ih hn.2 hx' (hx.resolve_left hne))

section erase
variable [BEq α] [LawfulBEq α]

/-- The first `k` after a deletion are known from the first `k + 1` before it. -/
theorem take_erase (l : List α) (x : α) (k : ℕ) :
    (l.erase x).take k = ((l.take (k + 1)).erase x).take k := by
  induction l generalizing k with
  | nil => simp
  | cons a l ih =>
    by_cases ha : a = x
    · subst ha
      simp [List.take_take]
    · cases k with
      | zero => simp
      | succ k =>
        rw [List.take_succ_cons, List.erase_cons_tail (by simpa using ha),
          List.erase_cons_tail (by simpa using ha), List.take_succ_cons, List.take_succ_cons, ih]

/-- The members kept stand where they stood, before those that moved up. -/
theorem erase_take_isPrefix (l : List α) (x : α) (k : ℕ) :
    (l.take k).erase x <+: (l.erase x).take k := by
  induction l generalizing k with
  | nil => simp
  | cons a l ih =>
    cases k with
    | zero => simp
    | succ k =>
      rw [List.take_succ_cons]
      by_cases ha : a = x
      · subst ha
        rw [List.erase_cons_head, List.erase_cons_head]
        exact List.take_prefix_take_left (Nat.le_succ k)
      · rw [List.erase_cons_tail (by simpa using ha), List.erase_cons_tail (by simpa using ha),
          List.take_succ_cons]
        exact List.cons_prefix_cons.mpr ⟨rfl, ih k⟩

theorem take_erase_of_notMem {l : List α} {x : α} {k : ℕ} (hx : x ∉ l.take k) :
    (l.erase x).take k = l.take k := by
  induction l generalizing k with
  | nil => simp
  | cons a l ih =>
    cases k with
    | zero => simp
    | succ k =>
      rw [List.take_succ_cons, List.mem_cons, not_or] at hx
      rw [List.erase_cons_tail (by simpa using Ne.symm hx.1), List.take_succ_cons,
        List.take_succ_cons, ih hx.2]

end erase

variable [Std.Total r] [IsTrans α r]

theorem ranked_pairwise (l : List α) : (ranked r l).Pairwise r := List.pairwise_insertionSort r l

variable [Std.Antisymm r]

/-- The top is closed upwards: a member that ranks before a top member is a top member. -/
theorem mem_top_of_le {k : ℕ} {l : List α} {x y : α} (hy : y ∈ l) (hr : r y x)
    (hx : x ∈ top r k l) : y ∈ top r k l := by
  unfold top at *
  by_contra hny
  have hmem : y ∈ ranked r l := (mem_ranked r).mpr hy
  rw [← List.take_append_drop k (ranked r l), List.mem_append] at hmem
  have hd := hmem.resolve_left hny
  have hp := ranked_pairwise r l
  rw [← List.take_append_drop k (ranked r l), List.pairwise_append] at hp
  have : x = y := Std.Antisymm.antisymm x y (hp.2.2 x hx y hd) hr
  exact hny (this ▸ hx)

/-- The ranking is a function of the set of members. -/
theorem ranked_eq_of_perm {l l' : List α} (h : l.Perm l') : ranked r l = ranked r l' :=
  List.Perm.eq_of_pairwise (fun _ _ _ _ h₁ h₂ => Std.Antisymm.antisymm _ _ h₁ h₂)
    (ranked_pairwise r l) (ranked_pairwise r l')
    (((ranked_perm r l).trans h).trans (ranked_perm r l').symm)

/-- Deleting members commutes with ranking. -/
theorem ranked_filter (q : α → Bool) (l : List α) :
    ranked r (l.filter q) = (ranked r l).filter q :=
  List.Perm.eq_of_pairwise (fun _ _ _ _ h₁ h₂ => Std.Antisymm.antisymm _ _ h₁ h₂)
    (ranked_pairwise r _) ((ranked_pairwise r l).filter q)
    ((ranked_perm r _).trans ((ranked_perm r l).symm.filter q))

section erase
variable [BEq α] [LawfulBEq α] {l : List α} (hl : l.Nodup) (x : α) (k : ℕ)
include hl

theorem ranked_erase : ranked r (l.erase x) = (ranked r l).erase x := by
  rw [hl.erase_eq_filter, ranked_filter, (ranked_nodup r hl).erase_eq_filter]

/-- **After a deletion the top is the longer top without the member.** -/
theorem top_erase : top r k (l.erase x) = ((top r (k + 1) l).erase x).take k := by
  rw [top, ranked_erase r hl, take_erase]
  rfl

theorem erase_top_isPrefix : (top r k l).erase x <+: top r k (l.erase x) := by
  rw [top, top, ranked_erase r hl]
  exact erase_take_isPrefix _ x k

theorem top_erase_of_notMem {x : α} {k : ℕ} (hx : x ∉ top r k l) :
    top r k (l.erase x) = top r k l := by
  rw [top, ranked_erase r hl, take_erase_of_notMem hx]
  rfl

end erase

/-- **Deleting members never pushes a remaining one out of the top.** -/
theorem mem_top_of_subset [DecidableEq α] {k : ℕ} {l' l : List α} (hl : l.Nodup) (hl' : l'.Nodup)
    (hs : l' ⊆ l) {x : α} (hx' : x ∈ l') (hx : x ∈ top r k l) : x ∈ top r k l' := by
  have hp : l'.Perm (l.filter (fun y => decide (y ∈ l'))) := by
    apply (List.perm_ext_iff_of_nodup hl' (hl.filter _)).mpr
    intro y
    simp only [List.mem_filter, decide_eq_true_eq]
    exact ⟨fun h => ⟨hs h, h⟩, fun h => h.2⟩
  have e : ranked r l' = (ranked r l).filter (fun y => decide (y ∈ l')) := by
    rw [ranked_eq_of_perm r hp, ranked_filter]
  have hsub : (ranked r l').Sublist (ranked r l) := e ▸ List.filter_sublist
  exact mem_take_of_sublist hsub (ranked_nodup r hl) ((mem_ranked r).mpr hx') hx

end Ranking
