import Mathlib.Data.Finset.Card
import Mathlib.Data.List.Perm.Subperm
import Medusa.Calls
import Medusa.Totals

/-! # The size cap

`Service.Evict`: count the owned entries, sample as many as there are above the cap, up to a batch, and drop
them one by one.  Counting and sampling go over the shards separately, in any order of the Go maps.  Nothing
else runs meanwhile, messages to the backups may get lost.

* `evictable`: what both go over, and `sampleOwned_ensures`: a sample is a part of it of the right size.
* `evict_silent`: an eviction calls no `MapStore` and emits no event.
* `evictAll_ensures`: the victims are gone from the store and everything else is as before.
* `evict_removes_excess`: **an eviction removes exactly the excess.** -/

namespace Medusa

open Medusa.Partition Store Interleave Service

/-! ### What can be evicted -/

/-- The live entries of ordinary maps in the partitions for which `owned` holds. -/
def evictable (s : Store) (owned : PartitionId → Bool) (now : ℕ) : List Ref :=
  (s.ownedLive owned now fun m => !isReservedMap m).map Entry.ref

section evictable
variable {s : Store} {owned : PartitionId → Bool} {now : ℕ}

theorem length_evictable : (evictable s owned now).length = s.countOwned owned now := List.length_map _

theorem mem_evictable {q : Ref} : q ∈ evictable s owned now ↔
    isReservedMap q.1 = false ∧ ∃ p, owned p = true ∧ ∃ v, s.find p q = some v ∧ v.expired now = false := by
  simp only [evictable, ownedLive, liveEntries, List.mem_map, List.mem_flatMap, List.mem_filter,
    mem_snapshotPartition, List.mem_finRange, true_and, Bool.not_eq_true']
  constructor
  · rintro ⟨e, ⟨p, hp, ⟨hfind, hlive⟩, hname⟩, rfl⟩
    exact ⟨hname, p, hp, e.val, hfind, hlive⟩
  · rintro ⟨hname, p, hp, v, hfind, hlive⟩
    exact ⟨entryOf q v, ⟨p, hp, ⟨hfind, hlive⟩, hname⟩, rfl⟩

/-- Every entry once: it is stored in one partition. -/
theorem nodup_evictable (hs : Placed s) : (evictable s owned now).Nodup := by
  rw [evictable, ownedLive, List.map_flatMap, List.nodup_flatMap]
  refine ⟨fun p _ => ?_, ?_⟩
  · exact (nodup_ref_snapshotPartition s p now).sublist (List.filter_sublist.map _)
  · refine ((List.nodup_finRange Count).filter _).imp fun {p p'} hne q hq hq' => hne ?_
    simp only [liveEntries, List.mem_map, List.mem_filter, mem_snapshotPartition] at hq hq'
    obtain ⟨e, ⟨⟨hfind, -⟩, -⟩, rfl⟩ := hq
    obtain ⟨e', ⟨⟨hfind', -⟩, -⟩, heq⟩ := hq'
    rw [heq] at hfind'
    rw [← hs p _ _ hfind, ← hs p' _ _ hfind']

end evictable

/-- No entry of the store expires between two clock readings. -/
def Unexpiring (s : Store) (now now' : ℕ) : Prop :=
  ∀ p q v, s.find p q = some v → v.expired now' = v.expired now

/-- Dropping some of the entries takes them off the count. -/
theorem countOwned_drop {s s' : Store} {owned : PartitionId → Bool} {now now' : ℕ} {victims : List Ref}
    (hs : Placed s) (hstill : Unexpiring s now now') (hnodup : victims.Nodup)
    (hsub : ∀ q ∈ victims, q ∈ evictable s owned now)
    (hfind : ∀ p q, s'.find p q = if q ∈ victims ∧ p = routedPartition q.1 q.2 then none else s.find p q) :
    s'.countOwned owned now' = s.countOwned owned now - victims.length := by
  have hs' : Placed s' := hs.of_le fun p q v hv => by
    rw [hfind] at hv
    split at hv
    · cases hv
    · exact hv
  have hmem : ∀ q, q ∈ evictable s' owned now' ↔ q ∈ evictable s owned now ∧ q ∉ victims := by
    intro q
    have hrouted : ∀ p, q ∉ victims → s'.find p q = s.find p q := fun p hq => by
      rw [hfind, if_neg fun h => hq h.1]
    rw [mem_evictable, mem_evictable]
    constructor
    · rintro ⟨hname, p, hp, v, hv, hlive⟩
      have hq : q ∉ victims := by
        intro hq
        have hp := (hs' p q v hv).symm
        rw [hfind, if_pos ⟨hq, hp⟩] at hv
        cases hv
      rw [hrouted p hq] at hv
      exact ⟨⟨hname, p, hp, v, hv, hstill p q v hv ▸ hlive⟩, hq⟩
    · rintro ⟨⟨hname, p, hp, v, hv, hlive⟩, hq⟩
      exact ⟨hname, p, hp, v, (hrouted p hq).trans hv, (hstill p q v hv).trans hlive⟩
  have hfinset : (evictable s' owned now').toFinset = (evictable s owned now).toFinset \ victims.toFinset := by
    ext q
    simp [hmem]
  rw [← length_evictable, ← length_evictable, ← List.toFinset_card_of_nodup (nodup_evictable hs'), hfinset,
    Finset.card_sdiff_of_subset, List.toFinset_card_of_nodup (nodup_evictable hs),
    List.toFinset_card_of_nodup hnodup]
  intro q hq
  simpa using hsub q (by simpa using hq)

/-! ### The sample -/

section alone
variable {ok : Choice → Prop}

/-- The sample of the shards still to visit: part of what is there, and as much as fits. -/
theorem sampleLoop_ensures (n : Bytes) (now limit : ℕ) (ps : List PartitionId) (out : List Ref)
    (C : Cluster) (hout : out.length ≤ limit) :
    (sampleLoop n now limit ps out).Ensures exec ok (fun r C' => Aged C C' ∧ ∃ more, r = out ++ more ∧
      more.Subperm ((ps.flatMap fun p =>
        (C.nodes n).store.liveEntries p now fun m => !isReservedMap m).map Entry.ref) ∧
      more.length = min (limit - out.length) (ps.flatMap fun p =>
        (C.nodes n).store.liveEntries p now fun m => !isReservedMap m).length) C := by
  induction ps generalizing out C with
  | nil => exact ⟨Aged.refl C, [], (List.append_nil out).symm, List.Subperm.refl [], (Nat.min_zero _).symm⟩
  | cons p ps ih =>
    intro c _
    have hstep := Aged.on (a := .liveEntries p now fun m => !isReservedMap m) trivial trivial n c C
    have hperm := exec_liveEntries_perm n c C p now fun m => !isReservedMap m
    generalize (exec (.on n (.liveEntries p now fun m => !isReservedMap m)) c C).1 = live at hperm
    have htaken : ((live.take (limit - out.length)).map Entry.ref).Subperm
        (((C.nodes n).store.liveEntries p now fun m => !isReservedMap m).map Entry.ref) :=
      ((List.take_sublist _ _).map _).subperm.trans (hperm.map _).subperm
    have hlen : ((live.take (limit - out.length)).map Entry.ref).length =
        min (limit - out.length) ((C.nodes n).store.liveEntries p now fun m => !isReservedMap m).length := by
      rw [List.length_map, List.length_take, hperm.length_eq]
    simp only [Interleave.Prog.bind, List.flatMap_cons, List.map_append]
    split
    · next hfull =>
        -- the sample is full in this shard
        refine ⟨hstep, _, rfl, htaken.trans (List.sublist_append_left _ _).subperm, ?_⟩
        rw [List.length_append, hlen] at hfull
        rw [hlen, List.length_append]
        omega
    · next hroom =>
        rw [List.length_append] at hroom
        refine (ih _ _ (by rw [List.length_append]; omega)).mono fun r C' hr => ?_
        obtain ⟨haged, more, rfl, hsub, hmore⟩ := hr
        rw [hstep.store] at hsub hmore
        refine ⟨hstep.trans haged, _, List.append_assoc _ _ _, htaken.append hsub, ?_⟩
        rw [List.length_append, List.length_append, hmore, List.length_append, hlen]
        omega

/-- A sample is a part of the evictable entries, of the size asked for or all of them. -/
theorem sampleOwned_ensures (n : Bytes) (tbl : Table) (limit : ℤ) (C : Cluster) :
    (sampleOwned n tbl limit).Ensures exec ok (fun r C' => Aged C C' ∧ ∃ now, ReadBetween C C' n now ∧
      r.Subperm (evictable (C.nodes n).store (fun p => tbl.ownerOf p = n) now) ∧
      r.length = min limit.toNat ((C.nodes n).store.countOwned (fun p => tbl.ownerOf p = n) now)) C := by
  unfold sampleOwned
  split
  · next hlimit =>
      refine ⟨Aged.refl C, _, ⟨le_rfl, le_rfl⟩, List.nil_subperm, ?_⟩
      rw [Int.toNat_eq_zero.mpr hlimit, Nat.zero_min]
      rfl
  · refine now_ensures fun C₁ h₁ => (sampleLoop_ensures n _ _ _ [] C₁ (Nat.zero_le _)).mono fun r C' hr => ?_
    obtain ⟨haged, more, rfl, hsub, hmore⟩ := hr
    rw [h₁.store] at hsub hmore
    exact ⟨h₁.trans haged, _, ⟨h₁.clock n, haged.clock n⟩, hsub, hmore⟩

/-! ### The evictions -/

/-- Node `n` lost the entries in `victims`, and nothing else. -/
structure Dropped (n : Bytes) (victims : List Ref) (C C' : Cluster) : Prop where
  clock : (C.nodes n).clock ≤ (C'.nodes n).clock
  find : ∀ p q, (C'.nodes n).store.find p q =
    if q ∈ victims ∧ p = routedPartition q.1 q.2 then none else (C.nodes n).store.find p q

theorem Dropped.of_aged {C C' : Cluster} (h : Aged C C') (n : Bytes) : Dropped n [] C C' where
  clock := h.clock n
  find p q := by rw [h.store, if_neg fun hq => List.not_mem_nil hq.1]

theorem Dropped.trans {n : Bytes} {l l' : List Ref} {C C' C'' : Cluster} (h : Dropped n l C C')
    (h' : Dropped n l' C' C'') : Dropped n (l ++ l') C C'' where
  clock := h.clock.trans h'.clock
  find p q := by
    rw [h'.find, h.find]
    by_cases hp : p = routedPartition q.1 q.2
    · by_cases hl : q ∈ l <;> by_cases hl' : q ∈ l' <;> simp [hp, hl, hl']
    · simp [hp]

/-- An entry is dropped once. -/
theorem Dropped.again {n : Bytes} {l l' : List Ref} {C C' C'' : Cluster} (h : Dropped n l C C')
    (h' : Dropped n l' C' C'') (hsub : l' ⊆ l) : Dropped n l C C'' where
  clock := h.clock.trans h'.clock
  find p q := by
    have hmem : q ∈ l ++ l' ↔ q ∈ l := by
      rw [List.mem_append, or_iff_left_of_imp fun hq => hsub hq]
    rw [(h.trans h').find]
    simp only [hmem]

/-- The actions that evict `r`. -/
def Action.Sheds (r : Ref) : Action → Prop
  | .on _ .nowNano => True
  | .on _ .table => True
  | .on _ (.addrOf _) => True
  | .on _ (.liveEntries _ _ _) => True
  | .on _ (.remove name key) => (name, key) = r
  | .connect _ => True
  | .reply _ => True
  | _ => False

theorem shedding_sheds (r : Ref) : Shedding (Action.Sheds r) where
  now _ := trivial
  table _ := trivial
  addrOf _ _ := trivial
  connect _ := trivial
  reply _ := trivial
  live _ _ _ _ := trivial

theorem dropped_remove (n : Bytes) (r : Ref) (c : Choice) (C : Cluster) :
    Dropped n [r] C (exec (.on n (.remove r.1 r.2)) c C).2 where
  clock := exec_clock_mono n c C _
  find p q := by
    rw [exec_on_self]
    change ((C.nodes n).store.erase (routedPartition r.1 r.2) r).find p q = _
    rw [find_erase]
    refine if_congr ?_ rfl rfl
    rw [List.mem_singleton]
    constructor
    · rintro ⟨rfl, rfl⟩
      exact ⟨rfl, rfl⟩
    · rintro ⟨rfl, rfl⟩
      exact ⟨rfl, rfl⟩

/-- They drop nothing but `r`, on whichever node they run. -/
theorem Action.Sheds.dropped {r : Ref} {e : Action} (he : e.Sheds r) (n : Bytes) (c : Choice) (C : Cluster) :
    ∃ l, l ⊆ [r] ∧ Dropped n l C (exec e c C).2 := by
  cases e with
  | on m a =>
    cases a with
    | nowNano | table | addrOf | liveEntries =>
      refine ⟨[], List.nil_subset _, Dropped.of_aged ?_ n⟩
      apply Aged.on <;> trivial
    | remove name key =>
      obtain rfl : (name, key) = r := he
      by_cases hn : n = m
      · subst hn
        exact ⟨_, List.Subset.refl _, dropped_remove n (name, key) c C⟩
      · refine ⟨[], List.nil_subset _, exec_clock_mono n c C _, fun p q => ?_⟩
        rw [exec_on_ne _ _ _ _ hn, if_neg fun hq => List.not_mem_nil hq.1]
    | _ => exact he.elim
  | connect | reply => exact ⟨[], List.nil_subset _, Dropped.of_aged (Aged.refl C) n⟩
  | _ => exact he.elim

theorem applyEvict_ensures (n : Bytes) (r : Ref) (C : Cluster) :
    (applyEvict n r.1 r.2).Ensures exec ok (fun _ C' => Dropped n [r] C C') C := by
  intro c _
  refine Prog.Ensures.of_all (P := Action.Sheds r) ?_ (fun e c C' he _ hdropped => ?_)
    (dropped_remove n r c C)
  · exact ((shedding_sheds r).replicate n _ (.remove r.1 r.2) fun _ => rfl).bind fun _ => trivial
  · obtain ⟨l, hl, hd⟩ := he.dropped n c C'
    exact hdropped.again hd hl

/-- **The victims are gone** and nothing else changed. -/
theorem evictAll_ensures (n : Bytes) (victims : List Ref) (C : Cluster) :
    (evictAll n victims).Ensures exec ok (fun _ C' => Dropped n victims C C') C := by
  induction victims generalizing C with
  | nil => exact Dropped.of_aged (Aged.refl C) n
  | cons r victims ih =>
    refine Prog.Ensures.bind (p := applyEvict n r.1 r.2)
      ((applyEvict_ensures n r C).mono fun _ C₁ h₁ => (ih C₁).mono fun _ C₂ h₂ => ?_)
    exact h₁.trans h₂

end alone

/-- An eviction leaves no trace outside the stores: it deletes nothing through and emits no event. -/
theorem evict_silent (n : Bytes) (max batch : ℤ) : (evict n max batch).All fun e =>
    (∀ name key, e ≠ .deleteThrough name key) ∧ ∀ m ev, e ≠ .on m (.emit ev) := by
  have hP : Shedding fun e =>
      (∀ name key, e ≠ .deleteThrough name key) ∧ ∀ m ev, e ≠ .on m (.emit ev) := by
    constructor
    · constructor <;> simp
    · simp
  exact hP.evict n max batch (by simp)

/-! ### The size cap -/

theorem Unexpiring.between {s : Store} {t now t' : ℕ} (h : Unexpiring s t t') (hnow : t ≤ now)
    (hnow' : now ≤ t') : Unexpiring s t now := by
  intro p q v hv
  cases hexp : v.expired now with
  | false => exact (Value.live_of_live_later hexp hnow).symm
  | true => rw [← h p q v hv, Value.expired_mono hexp hnow']

theorem Unexpiring.countOwned {s : Store} {t t' : ℕ} (h : Unexpiring s t t') (hs : Placed s)
    (owned : PartitionId → Bool) : s.countOwned owned t' = s.countOwned owned t :=
  countOwned_drop hs h List.nodup_nil (by simp) (by simp)

theorem Unexpiring.mem_evictable {s : Store} {t t' : ℕ} (h : Unexpiring s t t')
    {owned : PartitionId → Bool} {q : Ref} (hq : q ∈ evictable s owned t') : q ∈ evictable s owned t := by
  rw [Medusa.mem_evictable] at hq ⊢
  obtain ⟨hname, p, hp, v, hv, hlive⟩ := hq
  exact ⟨hname, p, hp, v, hv, h p q v hv ▸ hlive⟩

/-- **An eviction removes exactly the excess.**  Whatever the order of the Go maps and the fate of the
messages to the backups, unless an entry expires meanwhile, `Evict` removes the entries above the cap, up to
`batch`: live entries of ordinary maps in owned partitions.  Everything else stays, no `MapStore` hears of it
and no event is emitted. -/
theorem evict_removes_excess (C : Cluster) (n : Bytes) {max : ℤ} (batch : ℤ) (hmax : 0 < max)
    (hplaced : Placed (C.nodes n).store) (owned : PartitionId → Bool)
    (howned : ∀ p, owned p = decide ((C.nodes n).mem.table.ownerOf p = n)) :
    ((evict n max batch).All fun e =>
      (∀ name key, e ≠ .deleteThrough name key) ∧ ∀ m ev, e ≠ .on m (.emit ev)) ∧
    (evict n max batch).Ensures exec (fun _ => True) (fun removed C' =>
      Unexpiring (C.nodes n).store (C.nodes n).clock (C'.nodes n).clock →
      removed = min batch.toNat ((C.nodes n).store.countOwned owned (C.nodes n).clock - max.toNat) ∧
      (C'.nodes n).store.countOwned owned (C'.nodes n).clock =
        (C.nodes n).store.countOwned owned (C.nodes n).clock - removed ∧
      ∃ victims : List Ref, victims.length = removed ∧ victims.Nodup ∧
        (∀ q ∈ victims, isReservedMap q.1 = false ∧ owned (routedPartition q.1 q.2) = true ∧
          ∃ v, (C.nodes n).store.find (routedPartition q.1 q.2) q = some v ∧
            v.expired (C.nodes n).clock = false) ∧
        ∀ p q, (C'.nodes n).store.find p q =
          if q ∈ victims ∧ p = routedPartition q.1 q.2 then none else (C.nodes n).store.find p q) C := by
  have hfun : (fun p => decide ((C.nodes n).mem.table.ownerOf p = n)) = owned := (funext howned).symm
  refine ⟨evict_silent n max batch, ?_⟩
  unfold evict
  rw [if_neg (not_le.mpr hmax)]
  intro c _
  have htable := Aged.on (a := .table) trivial trivial n c C
  refine Prog.Ensures.bind (p := countOwned n (C.nodes n).mem.table)
    ((countOwned_ensures n _ _).mono fun count C₁ hcounted => ?_)
  obtain ⟨h₁, now₁, hnow₁, rfl⟩ := hcounted
  replace h₁ := htable.trans h₁
  rw [htable.store, hfun]
  -- what was counted, if nothing expires
  have hcount : ∀ {t}, Unexpiring (C.nodes n).store (C.nodes n).clock t → (C₁.nodes n).clock ≤ t →
      (C.nodes n).store.countOwned owned now₁ = (C.nodes n).store.countOwned owned (C.nodes n).clock :=
    fun h ht => (h.between ((htable.clock n).trans hnow₁.1) (hnow₁.2.trans ht)).countOwned hplaced owned
  split
  · next hle =>
      intro hstill
      rw [hcount hstill le_rfl] at hle
      refine ⟨by omega, ?_, [], rfl, List.nodup_nil, by simp, by simp [h₁.store]⟩
      rw [h₁.store, hstill.countOwned hplaced, Nat.sub_zero]
  · next hgt =>
      refine Prog.Ensures.bind (p := sampleOwned n (C.nodes n).mem.table _)
        ((sampleOwned_ensures n _ _ C₁).mono fun victims C₂ hsampled => ?_)
      obtain ⟨h₂, now₂, hnow₂, hsub, hlength⟩ := hsampled
      rw [h₁.store, hfun] at hsub hlength
      refine Prog.Ensures.bind (p := evictAll n victims)
        ((evictAll_ensures n victims C₂).mono fun _ C' hdropped hstill => ?_)
      have hstill₂ := hstill.between ((h₁.clock n).trans hnow₂.1) (hnow₂.2.trans hdropped.clock)
      rw [hcount hstill ((h₂.clock n).trans hdropped.clock)] at hgt hlength
      rw [hstill₂.countOwned hplaced] at hlength
      have hmem : ∀ q ∈ victims, q ∈ evictable (C.nodes n).store owned (C.nodes n).clock :=
        fun q hq => hstill₂.mem_evictable (hsub.subset hq)
      have hnodup : victims.Nodup := by
        obtain ⟨l, hperm, hsublist⟩ := hsub
        exact hperm.nodup_iff.mp ((nodup_evictable hplaced).sublist hsublist)
      have hfind := hdropped.find
      rw [(h₁.trans h₂).store] at hfind
      have hremoved : victims.length =
          min batch.toNat ((C.nodes n).store.countOwned owned (C.nodes n).clock - max.toNat) := by
        rw [hlength]
        split <;> omega
      refine ⟨hremoved, countOwned_drop hplaced hstill hnodup hmem hfind, victims, rfl, hnodup, ?_, hfind⟩
      intro q hq
      obtain ⟨hname, p, hp, v, hv, hlive⟩ := mem_evictable.mp (hmem q hq)
      obtain rfl := hplaced p q v hv
      exact ⟨hname, hp, v, hv, hlive⟩

/-- A node alone with two entries. -/
def crowded : Cluster where
  nodes _ := ⟨0, Membership.new ⟨[97], [97]⟩ 1,
    (Store.empty.set (routedPartition [109] [114]) ([109], [114]) ⟨[118], 0⟩).set
      (routedPartition [109] [115]) ([109], [115]) ⟨[118], 0⟩, none, false, [], fun _ => .none⟩
  listen a := if a = [97] then some [97] else none
  backing _ := none

/-- With room for one, one of them goes. -/
theorem evict_removes_excess_one : (evict [97] 1 5).Ensures exec (fun _ => True) (fun removed C' =>
    removed = 1 ∧ (C'.nodes [97]).store.countOwned (fun _ => true) (C'.nodes [97]).clock = 1) crowded := by
  have hcount : (crowded.nodes [97]).store.countOwned (fun _ => true) 0 = 2 := by decide +kernel
  have hplaced : Placed (crowded.nodes [97]).store := by
    exact (placed_empty.set ([109], [114]) ⟨[118], 0⟩).set ([109], [115]) ⟨[118], 0⟩
  have hstill : ∀ now, Unexpiring (crowded.nodes [97]).store 0 now := by
    intro now p q v hv
    obtain rfl : v = ⟨[118], 0⟩ := by
      change ((Store.empty.set _ _ _).set _ _ _).find p q = some v at hv
      rw [find_set, find_set] at hv
      split at hv
      · exact (Option.some.inj hv).symm
      · split at hv
        · exact (Option.some.inj hv).symm
        · cases hv
    rfl
  have howned : ∀ p, true = decide ((crowded.nodes [97]).mem.table.ownerOf p = [97]) := fun p => by
    rw [show (crowded.nodes [97]).mem.table = newTable [[97]] 1 from rfl, (newTable_single _ _ p).1]
    rfl
  have hclock : (crowded.nodes [97]).clock = 0 := rfl
  -- the cluster is kept abstract, or its runs would be unfolded
  generalize crowded = C at hcount hplaced hstill howned hclock ⊢
  have h := evict_removes_excess C [97] 5 (by decide : (0 : ℤ) < 1) hplaced (fun _ => true) howned
  rw [hclock, hcount] at h
  refine h.2.mono fun removed C' hC' => ?_
  obtain ⟨rfl, hleft, -⟩ := hC' (hstill _)
  exact ⟨rfl, hleft⟩

end Medusa
