import Medusa.Membership

/-! # Where replicas are placed

The partition table as its users read it: the replica list of a partition is the owner followed by
the backups (`Table.replicas`).

* `newTable_ranks`: **the replica list is the front of the ranking** by rendezvous weight, whatever
  the order in which the members are given.
* `newTable_erase`: **a departure moves the next member up** and changes nothing else; the first
  backup of a departed owner is the new owner, which is also where a leaving owner hands its data. -/

namespace Medusa

open Medusa.Partition

/-- The replicas of partition `p`, the owner first. -/
def Table.replicas (t : Table) (p : PartitionId) : List Bytes :=
  if t.owners p < 0 then [] else t.ownerOf p :: t.backupsOf p

theorem newTable_replicas (ids : List Bytes) (b : ℕ) (p : PartitionId) :
    (newTable ids b).replicas p = holders ids b p := by
  have hslot := slot_nonneg_iff ids p 0
  unfold Table.replicas
  by_cases hids : ids = []
  · subst hids
    rw [if_pos (by simpa [newTable] using hslot)]
    rfl
  · have howner : ¬ (newTable ids b).owners p < 0 :=
      not_lt.mpr (hslot.mpr (List.length_pos_of_ne_nil hids))
    rw [if_neg howner, holders_eq_cons hids]

/-- Member `a` ranks strictly before member `b`: larger weight, then smaller id. -/
def RanksBefore (p : PartitionId) (a b : Bytes) : Prop :=
  hrwWeight b p < hrwWeight a p ∨ (hrwWeight a p = hrwWeight b p ∧ a < b)

theorem outranks_ne {p : PartitionId} {a b : Bytes} (h : outranks p a b) (hne : a ≠ b) :
    RanksBefore p a b := by
  refine h.imp_right (fun ⟨hw, hle⟩ => ⟨hw, ?_⟩)
  by_contra hlt
  exact hne (List.le_antisymm hle (List.not_lt.mp hlt))

theorem replicaIds_pairwise {ids : List Bytes} (hids : ids.Nodup) (p : PartitionId) :
    (replicaIds ids p).Pairwise (RanksBefore p) :=
  (Ranking.ranked_pairwise (outranks p) ids).imp₂ (fun _ _ h hne => outranks_ne h hne)
    (Ranking.ranked_nodup _ hids)

/-- **The table ranks the members**: the replicas are the first `min n (b + 1)` members by decreasing
weight, ties broken by smaller id, in whatever order the members are given.  So replicas are distinct,
their number is known, and nodes with the same members route every key alike. -/
theorem newTable_ranks {ids members : List Bytes} (hids : ids.Nodup) (hperm : members.Perm ids)
    (b : ℤ) (p : PartitionId) :
    let t := newTable members b
    (∃ ranked : List Bytes, ranked.Perm ids ∧ ranked.Pairwise (RanksBefore p) ∧
      t.replicas p = ranked.take (min ids.length (b.toNat + 1)) ∧
      t.ownerOf p = (t.replicas p).headD [] ∧
      ∀ i : ℕ, t.backupAt p i = (t.replicas p)[i + 1]?) ∧
    (t.replicas p).Nodup ∧
    t.numBackups p = min b.toNat (ids.length - 1) ∧
    (∀ i : ℤ, (t.backupAt p i).isSome ↔ 0 ≤ i ∧ i < t.numBackups p) ∧
    ∀ ids', ids'.Nodup → (∀ x, x ∈ ids' ↔ x ∈ ids) → newTable ids' b = t := by
  intro t
  have ht : t = newTable ids (b.toNat : ℤ) := (newTable_perm hperm b).trans (newTable_toNat ids b)
  have hlen : (replicaIds ids p).length = ids.length := Ranking.length_ranked _ _
  have hreplicas : t.replicas p = (replicaIds ids p).take (b.toNat + 1) := by
    rw [ht, newTable_replicas]
    rfl
  have hback : ∀ i : ℕ, t.backupAt p i = (t.replicas p)[i + 1]? := by
    intro i
    rw [hreplicas, ht, newTable_backupAt, List.getElem?_take]
    simp
  have hnum : t.numBackups p = min b.toNat (ids.length - 1) := by rw [ht, newTable_numBackups]
  refine ⟨⟨replicaIds ids p, Ranking.ranked_perm _ ids, replicaIds_pairwise hids p, ?_, ?_, hback⟩,
    ?_, hnum, fun i => ?_, fun ids' hids' hmem => ?_⟩
  · rw [hreplicas, ← hlen, List.take_eq_take_iff]
    omega
  · rw [hreplicas, ht, newTable_ownerOf]
    cases replicaIds ids p <;> rfl
  · rw [ht, newTable_replicas]
    exact Ranking.top_nodup _ hids
  · cases i with
    | ofNat i =>
      rw [Int.ofNat_eq_natCast, hback, hreplicas, hnum, Option.isSome_iff_ne_none, ne_eq,
        List.getElem?_eq_none_iff, List.length_take, hlen]
      omega
    | negSucc i =>
      have hneg : Int.negSucc i < 0 := Int.negSucc_lt_zero i
      rw [Table.backupAt, if_pos (Or.inl hneg)]
      simp only [Option.isSome_none, Bool.false_eq_true, false_iff, not_and]
      omega
  · exact newTable_perm (((List.perm_ext_iff_of_nodup hids' hids).mpr hmem).trans hperm.symm) b

/-- Three members in any order, with more backups than members. -/
theorem newTable_ranks_three :
    (newTable [[99], [97], [98]] 5).numBackups 1 = min 5 2 ∧
      newTable [[98], [97], [99]] 5 = newTable [[99], [97], [98]] 5 :=
  have h := newTable_ranks (by decide : ([[97], [98], [99]] : List Bytes).Nodup)
    (by decide : ([[99], [97], [98]] : List Bytes).Perm [[97], [98], [99]]) 5 1
  ⟨h.2.2.1, h.2.2.2.2 _ (by decide) (by simp; tauto)⟩

/-! ### Departures -/

section erase
variable {ids : List Bytes} (hids : ids.Nodup) {x : Bytes} (b : ℕ) (p : PartitionId)
include hids

theorem replicas_erase : (newTable (ids.erase x) b).replicas p =
    (((newTable ids (b + 1 : ℕ)).replicas p).erase x).take (b + 1) := by
  rw [newTable_replicas, newTable_replicas]
  exact Ranking.top_erase (outranks p) hids x (b + 1)

theorem erase_replicas_isPrefix :
    ((newTable ids b).replicas p).erase x <+: (newTable (ids.erase x) b).replicas p := by
  rw [newTable_replicas, newTable_replicas]
  exact Ranking.erase_top_isPrefix (outranks p) hids x (b + 1)

theorem replicas_erase_of_notMem {b : ℕ} {p : PartitionId}
    (hx : x ∉ (newTable ids b).replicas p) :
    (newTable (ids.erase x) b).replicas p = (newTable ids b).replicas p := by
  rw [newTable_replicas] at hx ⊢
  rw [newTable_replicas]
  exact Ranking.top_erase_of_notMem (outranks p) hids hx

end erase

/-- The owner is the first replica. -/
theorem ownerOf_eq_headD (ids : List Bytes) (b : ℕ) (p : PartitionId) :
    (newTable ids b).ownerOf p = ((newTable ids b).replicas p).headD [] := by
  rw [newTable_replicas, newTable_ownerOf, holders, Ranking.top, ← replicaIds]
  cases replicaIds ids p <;> rfl

/-- **A departure moves the next member up and changes nothing else.**  The replicas without `x` are
those for one backup more, with `x` deleted and cut to length.  So the owner changes only when it is
`x`, the replicas change only when `x` is one, and the others keep their order.  When the owner
departs, its first backup, which `Map` falls back to, becomes the owner, and it is the owner of the
table against which a leaving node hands over. -/
theorem newTable_erase {ids : List Bytes} (hids : ids.Nodup) {x : Bytes} (hx : x ∈ ids) (b : ℕ)
    (p : PartitionId) :
    let t := newTable ids b
    let t' := newTable (ids.erase x) b
    t'.replicas p = (((newTable ids (b + 1 : ℕ)).replicas p).erase x).take (b + 1) ∧
    (t'.ownerOf p ≠ t.ownerOf p → t.ownerOf p = x) ∧
    (t'.replicas p ≠ t.replicas p → x ∈ t.replicas p) ∧
    (t.replicas p).erase x <+: t'.replicas p ∧
    (1 ≤ b → 2 ≤ ids.length → t.ownerOf p = x →
      t.backupAt p 0 = some (t'.ownerOf p) ∧ (t.backupsOf p).head? = t.backupAt p 0) ∧
    ∀ m : Membership, m.backups = b → m.members.keys.Perm ids → m.tableWithout x = t' := by
  intro t t'
  have hpre : (t.replicas p).erase x <+: t'.replicas p := erase_replicas_isPrefix hids b p
  have hcons : t.replicas p = t.ownerOf p :: t.backupsOf p :=
    (newTable_replicas ids b p).trans (holders_eq_cons (List.ne_nil_of_mem hx) b p)
  refine ⟨replicas_erase hids b p, fun hne => ?_, fun hne => ?_, hpre, fun hb htwo howner => ?_,
    fun m hm hkeys => ?_⟩
  · -- an owner other than `x` stays the first replica
    by_contra hown
    rw [hcons, List.erase_cons_tail (by simpa using hown)] at hpre
    obtain ⟨l, hl⟩ := hpre
    exact hne (by rw [ownerOf_eq_headD, ← hl]; rfl)
  · by_contra hmem
    exact hne (replicas_erase_of_notMem hids hmem)
  · rw [hcons, howner, List.erase_cons_head] at hpre
    have hlen : (t.replicas p).length = min (b + 1) ids.length := by
      rw [newTable_replicas]
      exact Ranking.length_top _ _ _
    obtain ⟨y, bs, hbs⟩ : ∃ y bs, t.backupsOf p = y :: bs := by
      refine List.exists_cons_of_ne_nil (fun h0 => ?_)
      rw [hcons, h0] at hlen
      simp only [List.length_cons, List.length_nil] at hlen
      omega
    have hfirst : t.backupAt p 0 = some y := by
      have hget : (t.replicas p)[1]? = (replicaIds ids p)[1]? := by
        rw [newTable_replicas, holders, Ranking.top, ← replicaIds, List.getElem?_take,
          if_pos (by omega)]
      have h := newTable_backupAt ids b 0 p
      rw [if_pos (by omega), ← hget, hcons, hbs] at h
      exact h
    rw [hbs] at hpre
    obtain ⟨l, hl⟩ := hpre
    refine ⟨?_, ?_⟩
    · rw [hfirst, ownerOf_eq_headD, ← hl]
      rfl
    · rw [hfirst, hbs]
      rfl
  · unfold Membership.tableWithout
    rw [hm, newTable_perm (hkeys.filter _)]
    refine newTable_perm (List.Perm.of_eq ?_) _
    rw [hids.erase_eq_filter]
    exact List.filter_congr (fun y _ => by rw [Bool.eq_iff_iff]; simp)

/-- In partition 1 of `a`, `b` and `c` the owner `a` departs, and its first backup `c` takes over. -/
theorem newTable_erase_owner :
    (newTable [[97], [98], [99]] (1 : ℕ)).ownerOf 1 = [97] ∧
      (newTable [[97], [98], [99]] (1 : ℕ)).backupAt 1 0 =
        some ((newTable [[98], [99]] (1 : ℕ)).ownerOf 1) := by
  have howner : (newTable [[97], [98], [99]] (1 : ℕ)).ownerOf 1 = [97] := by decide +kernel
  exact ⟨howner, ((newTable_erase (by decide : ([[97], [98], [99]] : List Bytes).Nodup) (x := [97]) (by decide)
    1 1).2.2.2.2.1 le_rfl (by decide) howner).1⟩

end Medusa
