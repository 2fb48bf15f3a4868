import Medusa.Map
import Medusa.Replicas
import Medusa.Writes

/-! # Totals over a cluster

`Map.Size` and `Map.Aggregate` ask every member about the entries it owns.  Nothing else runs
meanwhile, so stores, views and listeners stay as they are and only clocks advance (`Aged`); each
member decides at its own clock reading which of its entries are live.

* `ownedEntries`: what one member goes over, and `mem_gathered`, `nodup_gathered`: the members together
  go over every live entry of an owner once, whatever copies other nodes hold.
* `distributed_totals`: **the answer is that of one node with all the owners' live values.** -/

namespace Medusa

open Medusa.Partition Store Interleave Service

/-! ### Clusters at rest -/

/-- Only time passed. -/
structure Aged (C C' : Cluster) : Prop where
  listen : C'.listen = C.listen
  mem : ∀ m, (C'.nodes m).mem = (C.nodes m).mem
  store : ∀ m, (C'.nodes m).store = (C.nodes m).store
  clock : ∀ m, (C.nodes m).clock ≤ (C'.nodes m).clock

theorem Aged.refl (C : Cluster) : Aged C C := ⟨rfl, fun _ => rfl, fun _ => rfl, fun _ => le_rfl⟩

theorem Aged.trans {C C' C'' : Cluster} (h : Aged C C') (h' : Aged C' C'') : Aged C C'' where
  listen := h'.listen.trans h.listen
  mem m := (h'.mem m).trans (h.mem m)
  store m := (h'.store m).trans (h.store m)
  clock m := (h.clock m).trans (h'.clock m)

theorem Aged.on {a : NodeAction} (hr : a.Reads) (hc : a.Calm) (m : Bytes) (c : Choice) (C : Cluster) :
    Aged C (exec (.on m a) c C).2 where
  listen := rfl
  mem n := Action.Calm.mem (e := .on m a) hc c C n
  store n := hr.exec_store m c C n
  clock n := exec_clock_mono n c C _

/-! ### One member -/

/-- The live entries of the map `name` that node `m` owns, at the clock reading `now`. -/
def ownedEntries (C : Cluster) (tbl : Table) (name : Bytes) (now : ℕ) (m : Bytes) : List Entry :=
  (owned m tbl).flatMap (fun p => (C.nodes m).store.liveEntries p now (fun x => x == name))

theorem Aged.ownedEntries {C C' : Cluster} (h : Aged C C') (tbl : Table) (name : Bytes) (now : ℕ)
    (m : Bytes) : ownedEntries C' tbl name now m = ownedEntries C tbl name now m := by
  unfold Medusa.ownedEntries
  rw [h.store]

section alone
variable {ok : Choice → Prop}

theorem countLoop_ensures (m : Bytes) (now : ℕ) (select : Bytes → Bool) (ps : List PartitionId)
    (count : ℕ) (C : Cluster) :
    (countLoop m now select ps count).Ensures exec ok (fun r C' => Aged C C' ∧
      r = count + (ps.flatMap fun p => (C.nodes m).store.liveEntries p now select).length) C := by
  induction ps generalizing count C with
  | nil => exact ⟨Aged.refl C, rfl⟩
  | cons p ps ih =>
    intro c _
    have hstep := Aged.on (a := .liveEntries p now select) trivial trivial m c C
    refine (ih _ _).mono fun r C' hr => ⟨hstep.trans hr.1, ?_⟩
    rw [hr.2, hstep.store, (exec_liveEntries_perm m c C p now select).length_eq, List.flatMap_cons,
      List.length_append, Nat.add_assoc]

theorem collectLoop_ensures (m : Bytes) (now : ℕ) (name : Bytes) (ps : List PartitionId)
    (out : List Bytes) (C : Cluster) :
    (collectLoop m now name ps out).Ensures exec ok (fun r C' => Aged C C' ∧
      r.Perm (out ++ (ps.flatMap fun p =>
        (C.nodes m).store.liveEntries p now (fun x => x == name)).map Entry.value)) C := by
  induction ps generalizing out C with
  | nil => exact ⟨Aged.refl C, by rw [List.flatMap_nil, List.map_nil, List.append_nil]⟩
  | cons p ps ih =>
    intro c _
    have hstep := Aged.on (a := .liveEntries p now (fun x => x == name)) trivial trivial m c C
    refine (ih _ _).mono fun r C' hr => ⟨hstep.trans hr.1, hr.2.trans ?_⟩
    rw [hstep.store, List.flatMap_cons, List.map_append, List.append_assoc]
    exact ((exec_liveEntries_perm m c C p now _).map _).append_right _ |>.append_left _

/-- A clock reading of node `m` between two states. -/
def ReadBetween (C C' : Cluster) (m : Bytes) (now : ℕ) : Prop :=
  (C.nodes m).clock ≤ now ∧ now ≤ (C'.nodes m).clock

/-- A clock reading, before the shards are visited. -/
theorem now_ensures {α : Type} {Q : α → Cluster → Prop} {m : Bytes} {C : Cluster} {f : ℕ → Prog α}
    (h : ∀ C', Aged C C' → (f (C'.nodes m).clock).Ensures exec ok Q C') :
    (do let now : ℕ ← Prog.on m .nowNano
        f now : Prog α).Ensures exec ok Q C := by
  intro c _
  have hnow := Aged.on (a := .nowNano) trivial trivial m c C
  have hread : (exec (.on m .nowNano) c C).1 = ((exec (.on m .nowNano) c C).2.nodes m).clock := by
    rw [exec_on_clock]
    rfl
  rw [hread]
  exact h _ hnow

/-- With nothing else running, the count of a node's service is that of its store at one clock reading. -/
theorem countOwned_ensures (m : Bytes) (tbl : Table) (C : Cluster) :
    (countOwned m tbl).Ensures exec ok (fun r C' => Aged C C' ∧ ∃ now, ReadBetween C C' m now ∧
      r = (C.nodes m).store.countOwned (fun p => tbl.ownerOf p = m) now) C :=
  now_ensures fun C₁ h₁ => (countLoop_ensures m _ _ _ 0 C₁).mono fun r C' hr =>
    ⟨h₁.trans hr.1, _, ⟨h₁.clock m, hr.1.clock m⟩, by rw [hr.2, Nat.zero_add, h₁.store]; rfl⟩

end alone

/-- The table and a clock reading, before the shards are visited. -/
theorem table_now_ensures {α : Type} {Q : α → Cluster → Prop} {m : Bytes} {C : Cluster}
    {f : Table → ℕ → Prog α}
    (h : ∀ C', Aged C C' →
      (f (C.nodes m).mem.table (C'.nodes m).clock).Ensures exec Arrives Q C') :
    (do let tbl : Table ← Prog.on m .table
        let now : ℕ ← Prog.on m .nowNano
        f tbl now : Prog α).Ensures exec Arrives Q C := by
  intro c _
  have htable := Aged.on (a := .table) trivial trivial m c C
  exact now_ensures fun C' hC' => h C' (htable.trans hC')

/-- A member's own share of `Size`. -/
theorem localMapSize_ensures (m name : Bytes) (C : Cluster) :
    (localMapSize m name).Ensures exec Arrives (fun r C' => Aged C C' ∧ ∃ now, ReadBetween C C' m now ∧
      r = (ownedEntries C (C.nodes m).mem.table name now m).length) C := by
  refine table_now_ensures fun C₁ h₁ => ?_
  refine (countLoop_ensures m _ _ _ 0 C₁).mono fun r C' hr => ⟨h₁.trans hr.1, _, ⟨h₁.clock m, hr.1.clock m⟩, ?_⟩
  rw [hr.2, Nat.zero_add, ← h₁.ownedEntries]
  rfl

/-- A member's own share of `Aggregate`. -/
theorem localAggregate_ensures {aggs : AggRegistry} {aggName : Bytes} {agg : Aggregator}
    (hagg : aggs aggName = some agg) (hlawful : agg.Lawful) (m name : Bytes) (C : Cluster) :
    (localAggregate aggs m name aggName).Ensures exec Arrives (fun r C' => Aged C C' ∧
      ∃ now, ReadBetween C C' m now ∧
        r = .ok (agg.reduce ((ownedEntries C (C.nodes m).mem.table name now m).map Entry.value))) C := by
  unfold localAggregate
  rw [hagg]
  refine table_now_ensures (f := fun tbl now => do
    let values ← collectLoop m now name (owned m tbl) []
    return (Except.ok (agg.reduce values) : Except ServiceError Bytes)) fun C₁ h₁ => ?_
  refine Prog.Ensures.bind ((collectLoop_ensures m _ name _ [] C₁).mono fun values C' hr => ?_)
  refine ⟨h₁.trans hr.1, _, ⟨h₁.clock m, hr.1.clock m⟩, ?_⟩
  rw [hlawful.reduce_perm hr.2, List.nil_append, ← h₁.ownedEntries]
  rfl

/-! ### All members -/

/-- One clock reading a member, taken between two states. -/
def Readings (C C' : Cluster) (now : Bytes → ℕ) : Prop := ∀ m, ReadBetween C C' m (now m)

/-- What the members `ms` go over, each at its own clock reading. -/
def gathered (C : Cluster) (tbl : Table) (name : Bytes) (now : Bytes → ℕ) (ms : List Bytes) :
    List Entry :=
  ms.flatMap (fun m => ownedEntries C tbl name (now m) m)

section gather
variable {C C₁ C' : Cluster} {now : Bytes → ℕ} {m : Bytes} {t : ℕ}

theorem Readings.refl (C : Cluster) : Readings C C (fun m => (C.nodes m).clock) :=
  fun _ => ⟨le_rfl, le_rfl⟩

theorem Readings.of_aged (h₁ : Aged C C₁) (hnow : Readings C₁ C' now) : Readings C C' now :=
  fun k => ⟨(h₁.clock k).trans (hnow k).1, (hnow k).2⟩

/-- The reading of the first member, and those of the others. -/
theorem Readings.cons (h₁ : Aged C C₁) (h' : Aged C₁ C') (hm : ReadBetween C C₁ m t)
    (hnow : Readings C₁ C' now) : Readings C C' (Function.update now m t) := by
  intro k
  by_cases hk : k = m
  · rw [hk, Function.update_self]
    exact ⟨hm.1, hm.2.trans (h'.clock m)⟩
  · rw [Function.update_of_ne hk]
    exact hnow.of_aged h₁ k

theorem ownedEntries_update (h₁ : Aged C C₁) (tbl : Table) (name : Bytes) {k : Bytes} (hk : k ≠ m) :
    ownedEntries C tbl name (Function.update now m t k) k = ownedEntries C₁ tbl name (now k) k := by
  rw [Function.update_of_ne hk, h₁.ownedEntries]

theorem gathered_cons (h₁ : Aged C C₁) (tbl : Table) (name : Bytes) {ms : List Bytes} (hm : m ∉ ms) :
    gathered C tbl name (Function.update now m t) (m :: ms) =
      ownedEntries C tbl name t m ++ gathered C₁ tbl name now ms := by
  unfold gathered
  rw [List.flatMap_cons, Function.update_self]
  congr 1
  refine List.flatMap_congr fun k hk => ownedEntries_update h₁ tbl name ?_
  rintro rfl
  exact hm hk

end gather

section members
variable {ids : List Bytes} {b : ℕ} {addr : Bytes → Bytes} {C : Cluster} {n : Bytes} {ms : List Member}

theorem SharedView.aged {C' : Cluster} (hV : SharedView ids b addr C) (h : Aged C C') :
    SharedView ids b addr C' where
  nodup := hV.nodup
  named := hV.named
  addr_inj := hV.addr_inj
  self n hn := by rw [h.mem, hV.self n hn]
  count n hn := by rw [h.mem, hV.count n hn]
  known n hn := by rw [h.mem]; exact hV.known n hn
  full n hn := by rw [h.mem]; exact hV.full n hn
  listen a x := by rw [h.listen, hV.listen a x]

/-- A list of members of the cluster, each once. -/
structure Roster (ids : List Bytes) (addr : Bytes → Bytes) (ms : List Member) : Prop where
  known : ∀ mem ∈ ms, mem.id ∈ ids ∧ mem.addr = addr mem.id
  nodup : (ms.map Member.id).Nodup

theorem Roster.tail {m : Member} (h : Roster ids addr (m :: ms)) :
    Roster ids addr ms :=
  ⟨fun mem hmem => h.known mem (List.mem_cons_of_mem _ hmem), (List.nodup_cons.mp h.nodup).2⟩

theorem sizeLoop_ensures (hV : SharedView ids b addr C) (name : Bytes) (hms : Roster ids addr ms)
    (total : UInt64) :
    (Map.sizeLoop n name ms total none).Ensures exec Arrives (fun r C' => Aged C C' ∧
      ∃ now, Readings C C' now ∧ r = (total + UInt64.ofNat
        (gathered C (newTable ids b) name now (ms.map Member.id)).length, none)) C := by
  induction ms generalizing C total with
  | nil => exact ⟨Aged.refl C, _, Readings.refl C, by simp [gathered]⟩
  | cons m ms ih =>
    obtain ⟨hid, haddr⟩ := hms.known m List.mem_cons_self
    have hnot := (List.nodup_cons.mp hms.nodup).1
    -- the member's own count, then the others
    have hrest : ∀ count C₁, (Aged C C₁ ∧ ∃ now, ReadBetween C C₁ m.id now ∧
        count = (ownedEntries C (C.nodes m.id).mem.table name now m.id).length) →
        (Map.sizeLoop n name ms (total + UInt64.ofNat count) none).Ensures exec Arrives
          (fun r C' => Aged C C' ∧ ∃ now, Readings C C' now ∧ r = (total + UInt64.ofNat
            (gathered C (newTable ids b) name now ((m :: ms).map Member.id)).length, none)) C₁ := by
      rintro count C₁ ⟨h₁, t, ht, rfl⟩
      refine (ih (hV.aged h₁) hms.tail _).mono fun r C' hr => ?_
      obtain ⟨h', now, hnow, rfl⟩ := hr
      refine ⟨h₁.trans h', _, hnow.cons h₁ h' ht, ?_⟩
      rw [List.map_cons, gathered_cons h₁ _ _ hnot, List.length_append, UInt64.ofNat_add,
        UInt64.add_assoc, hV.table hid]
    unfold Map.sizeLoop
    split
    · next hself =>
      subst hself
      exact Prog.Ensures.bind ((localMapSize_ensures m.id name C).mono hrest)
    · rw [haddr]
      refine Prog.Ensures.bind (send_ensures ((hV.listen _ m.id).mpr ⟨hid, rfl⟩) ?_)
      exact Prog.Ensures.bind ((localMapSize_ensures m.id name C).mono hrest)

/-- The partial result of one member. -/
def partialOf (agg : Aggregator) (C : Cluster) (tbl : Table) (name : Bytes) (now : Bytes → ℕ)
    (m : Bytes) : Bytes :=
  agg.reduce ((ownedEntries C tbl name (now m) m).map Entry.value)

theorem aggregateLoop_ensures (hV : SharedView ids b addr C) {aggs : AggRegistry} {aggName : Bytes}
    {agg : Aggregator} (hagg : aggs aggName = some agg) (hlawful : agg.Lawful) (name : Bytes)
    (hms : Roster ids addr ms) (partials : List Bytes) :
    (Map.aggregateLoop aggs n name aggName ms partials none).Ensures exec Arrives
      (fun r C' => Aged C C' ∧ ∃ now, Readings C C' now ∧ r = .ok (partials ++
        (ms.map Member.id).map (partialOf agg C (newTable ids b) name now), none)) C := by
  induction ms generalizing C partials with
  | nil => exact ⟨Aged.refl C, _, Readings.refl C, by simp⟩
  | cons m ms ih =>
    obtain ⟨hid, haddr⟩ := hms.known m List.mem_cons_self
    have hnot := (List.nodup_cons.mp hms.nodup).1
    -- the member's own partial result, then the others
    have hrest : ∀ t C₁, Aged C C₁ → ReadBetween C C₁ m.id t →
        (Map.aggregateLoop aggs n name aggName ms (partials ++ [agg.reduce ((ownedEntries C
          (C.nodes m.id).mem.table name t m.id).map Entry.value)]) none).Ensures exec Arrives
          (fun r C' => Aged C C' ∧ ∃ now, Readings C C' now ∧ r = .ok (partials ++
            ((m :: ms).map Member.id).map (partialOf agg C (newTable ids b) name now), none)) C₁ := by
      intro t C₁ h₁ ht
      refine (ih (hV.aged h₁) hms.tail _).mono fun r C' hr => ?_
      obtain ⟨h', now, hnow, rfl⟩ := hr
      refine ⟨h₁.trans h', _, hnow.cons h₁ h' ht, ?_⟩
      have hothers : (ms.map Member.id).map (partialOf agg C₁ (newTable ids b) name now) =
          (ms.map Member.id).map
            (partialOf agg C (newTable ids b) name (Function.update now m.id t)) := by
        refine List.map_congr_left fun k hk => ?_
        rw [partialOf, partialOf, ownedEntries_update h₁]
        rintro rfl
        exact hnot hk
      rw [hV.table hid, List.append_assoc, List.singleton_append, hothers, List.map_cons,
        List.map_cons, partialOf, Function.update_self]
    unfold Map.aggregateLoop
    split
    · next hself =>
      subst hself
      refine Prog.Ensures.bind ((localAggregate_ensures hagg hlawful m.id name C).mono
        fun r C₁ hr => ?_)
      obtain ⟨h₁, t, ht, rfl⟩ := hr
      exact hrest t C₁ h₁ ht
    · rw [haddr]
      refine Prog.Ensures.bind (send_ensures ((hV.listen _ m.id).mpr ⟨hid, rfl⟩) ?_)
      refine (localAggregate_ensures hagg hlawful m.id name C).mono fun r C₁ hr => ?_
      obtain ⟨h₁, t, ht, rfl⟩ := hr
      exact hrest t C₁ h₁ ht

/-! ### The owners' entries -/

/-- At the readings `now`, the owner of the key's partition has the live value `value` under it. -/
def LiveAtOwner (C : Cluster) (tbl : Table) (now : Bytes → ℕ) (name key value : Bytes) : Prop :=
  (C.nodes (tbl.ownerOf (routedPartition name key))).store.Live (routedPartition name key)
    (now (tbl.ownerOf (routedPartition name key))) (name, key) value

/-- A list of all keys with their values at their owners, each key once. -/
structure Lists (C : Cluster) (tbl : Table) (now : Bytes → ℕ) (name : Bytes)
    (kvs : List (Bytes × Bytes)) : Prop where
  nodup : (kvs.map Prod.fst).Nodup
  mem : ∀ key value, (key, value) ∈ kvs ↔ LiveAtOwner C tbl now name key value

theorem Lists.aged {C' : Cluster} (h : Aged C C') {tbl : Table} {now : Bytes → ℕ} {name : Bytes}
    {kvs : List (Bytes × Bytes)} (hkvs : Lists C tbl now name kvs) : Lists C' tbl now name kvs := by
  refine ⟨hkvs.nodup, fun key value => ?_⟩
  rw [hkvs.mem, LiveAtOwner, LiveAtOwner, h.store]

theorem mem_ownedEntries {tbl : Table} {name m : Bytes} {now : ℕ} {e : Entry} :
    e ∈ ownedEntries C tbl name now m ↔ e.mapName = name ∧ ∃ p, tbl.ownerOf p = m ∧
      (C.nodes m).store.find p e.ref = some e.val ∧ e.val.expired now = false := by
  simp only [ownedEntries, owned, liveEntries, List.mem_flatMap, List.mem_filter,
    List.mem_finRange, true_and, decide_eq_true_eq, mem_snapshotPartition, beq_iff_eq]
  constructor
  · rintro ⟨p, hp, h, hname⟩
    exact ⟨hname, p, hp, h⟩
  · rintro ⟨hname, p, hp, h⟩
    exact ⟨p, hp, h, hname⟩

section placed
variable {tbl : Table} {name : Bytes} {now : Bytes → ℕ} {ms : List Bytes}
  (hplaced : ∀ m ∈ ms, Placed (C.nodes m).store)
include hplaced

/-- The members go over the live entries of the owners, whatever copies they hold besides. -/
theorem mem_gathered (hms : ∀ p, tbl.ownerOf p ∈ ms) {key value : Bytes} :
    (key, value) ∈ (gathered C tbl name now ms).map (fun e => (e.key, e.value)) ↔
      LiveAtOwner C tbl now name key value := by
  simp only [gathered, List.mem_map, List.mem_flatMap, mem_ownedEntries, Prod.mk.injEq]
  constructor
  · rintro ⟨e, ⟨m, hm, rfl, p, rfl, hfind, hlive⟩, rfl, rfl⟩
    have hp : routedPartition e.mapName e.key = p := hplaced _ hm p e.ref e.val hfind
    rw [LiveAtOwner, hp]
    exact ⟨e.val, hfind, hlive, rfl⟩
  · rintro ⟨v, hfind, hlive, rfl⟩
    exact ⟨entryOf (name, key) v, ⟨_, hms _, rfl, _, rfl, hfind, hlive⟩, rfl, rfl⟩

/-- No entry twice. -/
theorem nodup_gathered (hnodup : ms.Nodup) : ((gathered C tbl name now ms).map Entry.ref).Nodup := by
  have hroute : ∀ m ∈ ms, ∀ p, ∀ r ∈ ((C.nodes m).store.liveEntries p (now m)
      (fun x => x == name)).map Entry.ref, routedPartition r.1 r.2 = p := by
    intro m hm p r hr
    obtain ⟨e, he, rfl⟩ := List.mem_map.mp hr
    exact hplaced m hm p e.ref e.val (mem_snapshotPartition.mp (List.mem_filter.mp he).1).1
  simp only [gathered, ownedEntries, List.map_flatMap]
  refine List.nodup_flatMap.mpr ⟨fun m hm => List.nodup_flatMap.mpr ⟨fun p _ => ?_, ?_⟩, ?_⟩
  · exact (nodup_ref_snapshotPartition _ p _).sublist (List.filter_sublist.map _)
  · -- entries of two shards route to different partitions
    have hparts : (owned m tbl).Nodup := (List.nodup_finRange _).filter _
    refine hparts.imp_of_mem fun {p q} _ _ hpq => ?_
    intro r hp hq
    exact hpq ((hroute m hm p r hp).symm.trans (hroute m hm q r hq))
  · -- a partition has one owner
    refine hnodup.imp_of_mem fun {m k} hm hk hmk => ?_
    intro r hrm hrk
    obtain ⟨p, hp, hrp⟩ := List.mem_flatMap.mp hrm
    obtain ⟨q, hq, hrq⟩ := List.mem_flatMap.mp hrk
    have hpq : p = q := (hroute m hm p r hrp).symm.trans (hroute k hk q r hrq)
    have hpm : tbl.ownerOf p = m := by simpa [owned] using hp
    have hqk : tbl.ownerOf q = k := by simpa [owned] using hq
    exact hmk (by rw [← hpm, hpq, hqk])

theorem gathered_perm (hms : ∀ p, tbl.ownerOf p ∈ ms) (hnodup : ms.Nodup)
    {kvs : List (Bytes × Bytes)} (hkvs : Lists C tbl now name kvs) :
    ((gathered C tbl name now ms).map fun e => (e.key, e.value)).Perm kvs := by
  refine (List.perm_ext_iff_of_nodup ?_ (List.Nodup.of_map _ hkvs.nodup)).mpr fun x => ?_
  · -- all entries are of one map, so their keys tell them apart
    have hrefs : ((gathered C tbl name now ms).map Entry.ref).Nodup := nodup_gathered hplaced hnodup
    have hname : ∀ e ∈ gathered C tbl name now ms, e.mapName = name := by
      intro e he
      obtain ⟨m, -, hm⟩ := List.mem_flatMap.mp he
      exact (mem_ownedEntries.mp hm).1
    refine List.Nodup.map_on (fun e he e' he' heq => ?_) hrefs.of_map
    refine List.inj_on_of_nodup_map hrefs he he' ?_
    rw [Entry.ref, Entry.ref, hname e he, hname e' he', (Prod.mk.inj heq).1]
  · exact (mem_gathered hplaced hms).trans (hkvs.mem x.1 x.2).symm

end placed

/-- The members, before they are asked. -/
theorem members_ensures {α : Type} {Q : α → Cluster → Prop} {f : List Member → Prog α}
    (h : ∀ C₁, Aged C C₁ → (f (C.nodes n).mem.listMembers).Ensures exec Arrives Q C₁) :
    (Prog.on n .members >>= f).Ensures exec Arrives Q C :=
  fun c _ => h _ (Aged.on (a := .members) trivial trivial n c C)

/-- The members in any order. -/
theorem SharedView.roster (hV : SharedView ids b addr C) (hn : n ∈ ids)
    (hms : ms.Perm (C.nodes n).mem.listMembers) :
    Roster ids addr ms ∧ ∀ m ∈ ids, m ∈ ms.map Member.id := by
  have hperm : ms.Perm (C.nodes n).mem.snapshotProto := hms.trans (List.perm_insertionSort _ _)
  have hids : (ms.map Member.id).Perm (C.nodes n).mem.members.keys := by
    rw [← Membership.map_id_snapshotProto]
    exact hperm.map _
  refine ⟨⟨fun mem hmem => ?_, hids.nodup_iff.mpr (C.nodes n).mem.members.keys_nodup⟩, fun m hm => ?_⟩
  · exact (hV.known n hn).mem_snapshotProto (hperm.mem_iff.mp hmem)
  · exact hids.mem_iff.mpr (hV.full n hn hm)

section total
variable (hV : SharedView ids b addr C) (hn : n ∈ ids) (hplaced : ∀ m ∈ ids, Placed (C.nodes m).store)
include hV hn hplaced

/-- The entries the members go over, in any order of the members, are those of the owners. -/
theorem SharedView.gathered_perm (hms : ms.Perm (C.nodes n).mem.listMembers) {name : Bytes}
    {now : Bytes → ℕ} {kvs : List (Bytes × Bytes)} (hkvs : Lists C (newTable ids b) now name kvs) :
    ((gathered C (newTable ids b) name now (ms.map Member.id)).map fun e => (e.key, e.value)).Perm
      kvs := by
  obtain ⟨hroster, hall⟩ := hV.roster hn hms
  have hsub : ∀ m ∈ ms.map Member.id, m ∈ ids := by
    intro m hm
    obtain ⟨mem, hmem, rfl⟩ := List.mem_map.mp hm
    exact (hroster.known mem hmem).1
  refine Medusa.gathered_perm (fun m hm => hplaced m (hsub m hm)) (fun p => hall _ ?_)
    hroster.nodup hkvs
  exact mem_of_mem_holders (ownerOf_holder (List.ne_nil_of_mem hn) b p)

theorem sizeLoop_total (hms : ms.Perm (C.nodes n).mem.listMembers) (name : Bytes) :
    (Map.sizeLoop n name ms 0 none).Ensures exec Arrives (fun r C' => ∃ now, Readings C C' now ∧
      ∀ kvs, Lists C (newTable ids b) now name kvs → r = (UInt64.ofNat kvs.length, none)) C := by
  refine (sizeLoop_ensures hV name (hV.roster hn hms).1 0).mono fun r C' hr => ?_
  obtain ⟨-, now, hnow, rfl⟩ := hr
  refine ⟨now, hnow, fun kvs hkvs => ?_⟩
  have hlen := (hV.gathered_perm hn hplaced hms hkvs).length_eq
  rw [List.length_map] at hlen
  rw [UInt64.zero_add, hlen]

theorem aggregateLoop_total {aggs : AggRegistry} {aggName : Bytes} {agg : Aggregator}
    (hagg : aggs aggName = some agg) (hlawful : agg.Lawful) (hms : ms.Perm (C.nodes n).mem.listMembers)
    (name : Bytes) :
    (Map.aggregateLoop aggs n name aggName ms [] none).Ensures exec Arrives
      (fun r C' => ∃ now, Readings C C' now ∧ ∃ partials, r = .ok (partials, none) ∧
        ∀ kvs, Lists C (newTable ids b) now name kvs →
          agg.combine partials = agg.reduce (kvs.map Prod.snd)) C := by
  refine (aggregateLoop_ensures hV hagg hlawful name (hV.roster hn hms).1 []).mono fun r C' hr => ?_
  obtain ⟨-, now, hnow, rfl⟩ := hr
  refine ⟨now, hnow, _, rfl, fun kvs hkvs => ?_⟩
  have hparts : (ms.map Member.id).map (partialOf agg C (newTable ids b) name now) =
      ((ms.map Member.id).map fun m =>
        (ownedEntries C (newTable ids b) name (now m) m).map Entry.value).map agg.reduce := by
    simp only [List.map_map]
    rfl
  have hvalues : (((ms.map Member.id).map fun m =>
      (ownedEntries C (newTable ids b) name (now m) m).map Entry.value).flatten).Perm
        (kvs.map Prod.snd) := by
    have hperm := (hV.gathered_perm hn hplaced hms hkvs).map Prod.snd
    rwa [List.map_map, gathered, List.map_flatMap, List.flatMap_def] at hperm
  rw [List.nil_append, hparts, hlawful.combine_map_reduce, hlawful.reduce_perm hvalues]

/-- **Distributed totals are central totals.**  In a cluster at rest whose members share one table and
reach each other, with entries in the shards they route to and whatever further copies, `Size` and
`Aggregate` give the count and the reduction of the owners' live values, listed in any order; so do
their loops over the members in any other order.  `now` has the clock readings at which the owners
decided what is live. -/
theorem distributed_totals (aggs : AggRegistry) (name : Bytes) :
    ((Map.size n name).Ensures exec Arrives (fun r C' => ∃ now, Readings C C' now ∧
      ∀ kvs, Lists C (newTable ids b) now name kvs → r = (UInt64.ofNat kvs.length, none)) C ∧
    ∀ agg : BuiltinAgg, aggs agg.name = some agg.agg →
      (Map.aggregate aggs n name agg.name).Ensures exec Arrives (fun r C' => ∃ now, Readings C C' now ∧
        ∀ kvs, Lists C (newTable ids b) now name kvs →
          r = .ok (agg.agg.reduce (kvs.map Prod.snd), none)) C) ∧
    ∀ ms : List Member, ms.Perm (C.nodes n).mem.listMembers →
      (Map.sizeLoop n name ms 0 none).Ensures exec Arrives (fun r C' => ∃ now, Readings C C' now ∧
        ∀ kvs, Lists C (newTable ids b) now name kvs → r = (UInt64.ofNat kvs.length, none)) C ∧
      ∀ agg : BuiltinAgg, aggs agg.name = some agg.agg →
        (Map.aggregateLoop aggs n name agg.name ms [] none).Ensures exec Arrives
          (fun r C' => ∃ now, Readings C C' now ∧ ∃ partials, r = .ok (partials, none) ∧
            ∀ kvs, Lists C (newTable ids b) now name kvs →
              agg.agg.combine partials = agg.agg.reduce (kvs.map Prod.snd)) C := by
  refine ⟨⟨?_, fun agg hagg => ?_⟩, fun ms hms => ⟨sizeLoop_total hV hn hplaced hms name,
    fun agg hagg => aggregateLoop_total hV hn hplaced hagg agg.lawful hms name⟩⟩
  · refine members_ensures fun C₁ h₁ => ?_
    have hplaced₁ : ∀ m ∈ ids, Placed (C₁.nodes m).store :=
      fun m hm => by rw [h₁.store]; exact hplaced m hm
    refine (sizeLoop_total (hV.aged h₁) hn hplaced₁ (by rw [h₁.mem]) name).mono fun r C' hr => ?_
    obtain ⟨now, hnow, hr⟩ := hr
    exact ⟨now, hnow.of_aged h₁, fun kvs hkvs => hr kvs (hkvs.aged h₁)⟩
  · unfold Map.aggregate
    rw [hagg]
    refine members_ensures fun C₁ h₁ => ?_
    have hplaced₁ : ∀ m ∈ ids, Placed (C₁.nodes m).store :=
      fun m hm => by rw [h₁.store]; exact hplaced m hm
    refine Prog.Ensures.bind ((aggregateLoop_total (hV.aged h₁) hn hplaced₁ hagg
      agg.lawful (by rw [h₁.mem]) name).mono fun r C' hr => ?_)
    obtain ⟨now, hnow, partials, rfl, hr⟩ := hr
    refine ⟨now, hnow.of_aged h₁, fun kvs hkvs => ?_⟩
    change (Except.ok (agg.agg.combine partials, none) : Except ServiceError _) = _
    rw [hr kvs (hkvs.aged h₁)]

end total

end members

/-! ### One entry and its copy -/

theorem oneEntry_lists {ids : List Bytes} {b : ℕ} {held : List Bytes} {r : Ref} (d : Bytes) {tbl : Table}
    (howner : ∀ p, tbl.ownerOf p ∈ held) (now : Bytes → ℕ) :
    Lists (oneEntry ids b held r d) tbl now r.1 [(r.2, d)] := by
  refine ⟨by simp, fun key value => ?_⟩
  have hstore : ((oneEntry ids b held r d).nodes (tbl.ownerOf (routedPartition r.1 key))).store =
      Store.empty.set (routedPartition r.1 r.2) r ⟨d, 0⟩ := if_pos (howner _)
  rw [LiveAtOwner, hstore, Store.Live, List.mem_singleton, Prod.mk.injEq]
  constructor
  · rintro ⟨rfl, rfl⟩
    exact ⟨⟨value, 0⟩, by rw [find_set, if_pos ⟨rfl, rfl⟩], by simp [Value.expired], rfl⟩
  · rintro ⟨v, hv, -, rfl⟩
    rw [find_set] at hv
    split at hv
    · next h =>
      obtain rfl := Option.some.inj hv
      exact ⟨congrArg Prod.snd h.2, rfl⟩
    · simp at hv

/-- An entry on its owner and on the backup counts once, and its short value reads as zero. -/
theorem distributed_totals_pair :
    (Map.size [97] [109]).Ensures exec Arrives (fun r _ => r = (UInt64.ofNat 1, none))
      (oneEntry [[97], [98]] 1 [[97], [98]] ([109], [114]) [118]) ∧
    (Map.aggregate (fun _ => some maxAgg) [97] [109] BuiltinAgg.max.name).Ensures exec Arrives
      (fun r _ => r = .ok (putI64 0, none))
      (oneEntry [[97], [98]] 1 [[97], [98]] ([109], [114]) [118]) := by
  -- the cluster is kept abstract, or its runs would be unfolded
  obtain ⟨C, hC⟩ : ∃ C, C = oneEntry [[97], [98]] 1 [[97], [98]] ([109], [114]) [118] := ⟨_, rfl⟩
  have hlists : ∀ now, Lists C (newTable [[97], [98]] (1 : ℕ)) now [109] [([114], [118])] := by
    intro now
    rw [hC]
    refine oneEntry_lists (r := ([109], [114])) [118] (fun p => ?_) now
    exact mem_of_mem_holders (ownerOf_holder (by decide) 1 p)
  have hV : SharedView [[97], [98]] 1 id C := by
    rw [hC]
    exact oneEntry_sharedView 1 _ _ _ (by decide) (by decide) (by decide +kernel)
  have hplaced : ∀ m ∈ [[97], [98]], Placed (C.nodes m).store := by
    intro m _
    rw [hC]
    exact oneEntry_placed _ _ _ _ _ m
  have htotals := distributed_totals hV (n := [97]) (by decide) hplaced (fun _ => some maxAgg) [109]
  rw [← hC]
  refine ⟨htotals.1.1.mono fun r C' hr => ?_, (htotals.1.2 .max rfl).mono fun r C' hr => ?_⟩
  · obtain ⟨now, -, hr⟩ := hr
    exact hr _ (hlists now)
  · obtain ⟨now, -, hr⟩ := hr
    rw [hr _ (hlists now)]
    simp [BuiltinAgg.agg, maxAgg, extremum, extremumLoop, readInt64]

end Medusa
