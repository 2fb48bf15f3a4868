import Medusa.Upkeep

/-! # Clusters with replicas in sync

* `SharedView ids b addr C`: the nodes `ids` know each other, so they share one partition table.
* `Replicated ids b C`: each entry is stored by the holders of its partition, with the same live
  data.
* `Careful`: the condition under which maintenance loses nothing.  The copies of the entry stay
  clear of their expiry, and a node that may have lost its copy runs anti-entropy over the
  partition only while it has one.
* `run_retains`: **in careful runs the holders outside `lossy` keep the entry**, whatever the
  nodes of `lossy` do. -/

namespace Medusa

open Medusa.Partition Store Interleave Service

/-- The live data a node stores under `r`. -/
def Node.content (nd : Node) (r : Ref) : Option Bytes :=
  nd.store.get (routedPartition r.1 r.2) r.1 r.2 nd.clock

/-- The nodes `ids` know each other, with `b` backups configured, and each listens at its address. -/
structure SharedView (ids : List Bytes) (b : ℕ) (addr : Bytes → Bytes) (C : Cluster) : Prop where
  nodup : ids.Nodup
  named : [] ∉ ids
  addr_inj : ∀ x ∈ ids, ∀ y ∈ ids, addr x = addr y → x = y
  self : ∀ n ∈ ids, (C.nodes n).mem.self = ⟨n, addr n⟩
  count : ∀ n ∈ ids, (C.nodes n).mem.backups = b
  known : ∀ n ∈ ids, (C.nodes n).mem.Over ids addr
  full : ∀ n ∈ ids, ids ⊆ (C.nodes n).mem.members.keys
  listen : ∀ a x, C.listen a = some x ↔ x ∈ ids ∧ a = addr x

/-- Every entry is stored in its partition on holders of it, which agree on its live data. -/
structure Replicated (ids : List Bytes) (b : ℕ) (C : Cluster) : Prop where
  routed : ∀ n ∈ ids, ∀ p r v, (C.nodes n).store.find p r = some v →
    p = routedPartition r.1 r.2 ∧ n ∈ holders ids b p
  agree : ∀ r : Ref, ∀ n ∈ holders ids b (routedPartition r.1 r.2),
    ∀ m ∈ holders ids b (routedPartition r.1 r.2), (C.nodes n).content r = (C.nodes m).content r

theorem Node.content_eq_some {nd : Node} {r : Ref} {d : Bytes} :
    nd.content r = some d ↔ ∃ v, nd.store.find (routedPartition r.1 r.2) r = some v ∧
      v.expired nd.clock = false ∧ v.data = d := by
  simp only [Node.content, Store.get, Option.map_eq_some_iff, lookup_eq_some, and_assoc]

theorem Node.content_eq_none {nd : Node} {r : Ref} :
    nd.content r = none ↔ ∀ v, nd.store.find (routedPartition r.1 r.2) r = some v →
      v.expired nd.clock = true := by
  simp only [Option.eq_none_iff_forall_ne_some, ne_eq, Node.content_eq_some]
  constructor
  · intro h v hv
    by_contra hl
    exact h v.data ⟨v, hv, by simpa using hl, rfl⟩
  · rintro h d ⟨v, hv, hl, -⟩
    rw [h v hv] at hl
    cases hl

section replicated
variable {ids : List Bytes} {b : ℕ} {addr : Bytes → Bytes} {C : Cluster} {n : Bytes} {r : Ref} {d : Bytes}

/-- A live entry is live on all its holders. -/
theorem Replicated.content (hR : Replicated ids b C) (hn : n ∈ ids)
    (hd : (C.nodes n).content r = some d) {m : Bytes}
    (hm : m ∈ holders ids b (routedPartition r.1 r.2)) : (C.nodes m).content r = some d := by
  obtain ⟨v, hv, -, -⟩ := Node.content_eq_some.mp hd
  rw [← hd]
  exact hR.agree r m hm n (hR.routed n hn _ r v hv).2

/-- Every stored copy of a live entry has its data. -/
theorem Replicated.data (hR : Replicated ids b C) (hn : n ∈ ids)
    (hd : (C.nodes n).content r = some d) {m : Bytes} (hm : m ∈ ids) {p : PartitionId} {v : Value}
    (hv : (C.nodes m).store.find p r = some v) : p = routedPartition r.1 r.2 ∧ v.data = d := by
  obtain ⟨rfl, hh⟩ := hR.routed m hm p r v hv
  obtain ⟨v', hv', -, hdata⟩ := Node.content_eq_some.mp (hR.content hn hd hh)
  rw [hv] at hv'
  exact ⟨rfl, Option.some.inj hv' ▸ hdata⟩

/-- All nodes have the same table. -/
theorem SharedView.table (hV : SharedView ids b addr C) (hn : n ∈ ids) :
    (C.nodes n).mem.table = newTable ids b := by
  have hperm : (C.nodes n).mem.members.keys.Perm ids :=
    (List.perm_ext_iff_of_nodup (C.nodes n).mem.members.keys_nodup hV.nodup).mpr
      (fun x => ⟨fun hx => (hV.known n hn).mem_keys hx, fun hx => hV.full n hn hx⟩)
  rw [(C.nodes n).mem.table_eq, hV.count n hn]
  exact newTable_perm hperm _

theorem SharedView.addrOf (hV : SharedView ids b addr C) (hn : n ∈ ids) {x : Bytes} (hx : x ∈ ids) :
    (C.nodes n).mem.addrOf x = some (addr x) := by
  cases ha : (C.nodes n).mem.addrOf x with
  | some a => rw [((hV.known n hn).addrOf ha).2]
  | none =>
    have hmem := hV.full n hn hx
    rw [← AList.mem_keys, ← AList.lookup_isSome, Option.isSome_iff_ne_none] at hmem
    exact absurd (Option.map_eq_none_iff.mp ha) hmem

/-- The start of a run satisfies the invariant of a watched entry. -/
theorem SharedView.inv {W : Watch} (hV : SharedView W.ids W.backups W.addr C)
    (hdata : ∀ n ∈ W.ids, ∀ p v, (C.nodes n).store.find p W.ref = some v →
      p = W.part ∧ v.data = W.data)
    (hkept : ∀ x, W.kept x → W.Holds x C) (hmoves : ∀ x, W.moves x → W.Holds x C) :
    W.Inv ⟨C, []⟩ where
  view n hn := ⟨hV.self n hn, hV.count n hn, hV.known n hn, fun _ => hV.full n hn⟩
  net a x hx := (hV.listen a x).mp hx
  up _ x hx := (hV.listen _ x).mpr ⟨hx, rfl⟩
  data := hdata
  held x _ hx := hx.elim (hkept x) (fun ⟨_, _, _, hm⟩ => by simp at hm)
  clock n now := fun ⟨_, hm⟩ => by simp at hm
  moved g hg := Or.inl (hmoves g hg)
  seen g _ snap := fun ⟨_, hm⟩ => by simp at hm

end replicated

/-! ### Clusters with one entry -/

/-- The view of node `n` in a cluster of `ids`, in which every node's address is its id. -/
def fullView (ids : List Bytes) (b : ℕ) (n : Bytes) : Membership :=
  ((Membership.new ⟨n, n⟩ b).merge (ids.map (fun id => ⟨id, id⟩))).2

/-- A cluster of `ids` in which the nodes of `held` store one entry, without an expiry. -/
def oneEntry (ids : List Bytes) (b : ℕ) (held : List Bytes) (r : Ref) (d : Bytes) : Cluster where
  nodes n := {
    clock := 0
    mem := fullView ids b n
    store := if n ∈ held then Store.empty.set (routedPartition r.1 r.2) r ⟨d, 0⟩ else Store.empty
    wal := none
    listener := false
    events := []
    loaders := fun _ => .none }
  listen a := if a ∈ ids then some a else none
  backing _ := none

theorem oneEntry_sharedView {ids : List Bytes} (b : ℕ) (held : List Bytes) (r : Ref) (d : Bytes)
    (hnodup : ids.Nodup) (hnamed : [] ∉ ids)
    (hfull : ∀ n ∈ ids, ids ⊆ (fullView ids b n).members.keys) :
    SharedView ids b id (oneEntry ids b held r d) where
  nodup := hnodup
  named := hnamed
  addr_inj _ _ _ _ h := h
  self _ _ := Membership.merge_self _ _
  count _ _ := Membership.merge_backups _ _
  known n hn := by
    refine (Membership.Over.new hn rfl b).merge (fun mem hmem => ?_)
    obtain ⟨x, hx, rfl⟩ := List.mem_map.mp hmem
    exact ⟨hx, rfl⟩
  full := hfull
  listen a x := by
    simp only [oneEntry, Option.ite_none_right_eq_some, Option.some.injEq, id]
    constructor
    · rintro ⟨ha, rfl⟩
      exact ⟨ha, rfl⟩
    · rintro ⟨hx, rfl⟩
      exact ⟨hx, rfl⟩

theorem oneEntry_placed (ids : List Bytes) (b : ℕ) (held : List Bytes) (r : Ref) (d m : Bytes) :
    Placed ((oneEntry ids b held r d).nodes m).store := by
  change Placed (if m ∈ held then Store.empty.set (routedPartition r.1 r.2) r ⟨d, 0⟩ else Store.empty)
  split
  · exact placed_empty.set r _
  · exact placed_empty

theorem oneEntry_content (ids : List Bytes) (b : ℕ) (held : List Bytes) (r : Ref) (d : Bytes)
    (n : Bytes) (r' : Ref) : ((oneEntry ids b held r d).nodes n).content r' =
      if n ∈ held ∧ r' = r then some d else none := by
  simp only [Node.content, Store.get, Store.lookup, oneEntry]
  by_cases hn : n ∈ held
  · rw [if_pos hn, find_set]
    by_cases hr : r' = r
    · subst hr
      simp [hn, Value.expired]
    · simp [hr]
  · simp [hn]

theorem oneEntry_replicated (ids' : List Bytes) {ids held : List Bytes} {b : ℕ} {r : Ref} (d : Bytes)
    (hheld : holders ids b (routedPartition r.1 r.2) = held) :
    Replicated ids b (oneEntry ids' b held r d) where
  routed n _ p r' v hv := by
    simp only [oneEntry] at hv
    split at hv
    · next hn =>
      rw [find_set] at hv
      split at hv
      · next h =>
        obtain ⟨rfl, rfl⟩ := h
        exact ⟨rfl, hheld ▸ hn⟩
      · simp at hv
    · simp at hv
  agree r' n hn m hm := by
    rw [oneEntry_content, oneEntry_content]
    by_cases hr : r' = r
    · subst hr
      rw [hheld] at hn hm
      simp only [hn, hm]
    · simp only [hr, and_false]

/-! ### Careful runs -/

/-- The condition on the steps of a run: no stored copy of `r` is within a millisecond of its
expiry, and when a thread of `sync` reads the partition of `r` on a holder in `lossy`, to bring its
backups in line, that node stores `r`. -/
structure Careful (ids : List Bytes) (b : ℕ) (r : Ref) (lossy : Bytes → Prop) (sync : ℕ → Prop)
    (i : ℕ) (e : Action) (c : Choice) (w : World) : Prop where
  fresh : ∀ n ∈ ids, ∀ v, (w.state.nodes n).store.find (routedPartition r.1 r.2) r = some v →
    v.Lasting ((exec e c w.state).2.nodes n).clock
  reads : sync i → ∀ n ∈ holders ids b (routedPartition r.1 r.2), lossy n →
    e = .on n (.snapshot (routedPartition r.1 r.2)) ∨
      e = .on n (.lookup (routedPartition r.1 r.2) r.1 r.2) →
    ∃ v, (w.state.nodes n).store.find (routedPartition r.1 r.2) r = some v

/-- Whether the action reads the entry `r` on node `n`, by a snapshot or by name. -/
def Action.readsEntry (n : Bytes) (r : Ref) : Action → Bool
  | .on m (.snapshot p) => decide (m = n ∧ p = routedPartition r.1 r.2)
  | .on m (.lookup p name key) => decide (m = n ∧ p = routedPartition r.1 r.2 ∧ (name, key) = r)
  | _ => false

/-- `Careful`, evaluated, where the copies have no expiry. -/
def carefulCheck (ids : List Bytes) (r : Ref) (lossy : Bytes → Bool) (sync : ℕ → Bool) (i : ℕ)
    (e : Action) (_ : Choice) (w : World) : Bool :=
  ids.all (fun n => ((w.state.nodes n).store.find (routedPartition r.1 r.2) r).all
    (fun v => v.expireAt == 0)) &&
  (!sync i || ids.all (fun n => !lossy n || !e.readsEntry n r ||
    ((w.state.nodes n).store.find (routedPartition r.1 r.2) r).isSome))

theorem Careful.of_check {ids : List Bytes} (b : ℕ) {r : Ref} {lossy : Bytes → Bool}
    {sync : ℕ → Bool} {i : ℕ} {e : Action} {c : Choice} {w : World}
    (h : carefulCheck ids r lossy sync i e c w = true) :
    Careful ids b r (fun n => lossy n = true) (fun j => sync j = true) i e c w := by
  simp only [carefulCheck, Bool.and_eq_true, List.all_eq_true] at h
  refine ⟨fun n hn v hv => Or.inl ?_, fun hs n hn hl he => ?_⟩
  · have h0 := h.1 n hn
    rw [hv] at h0
    exact eq_of_beq h0
  · have hread : e.readsEntry n r = true := by
      rcases he with rfl | rfl <;> simp [Action.readsEntry]
    have h1 := h.2
    rw [hs, Bool.not_true, Bool.false_or, List.all_eq_true] at h1
    have h2 := h1 n (mem_of_mem_holders hn)
    rw [hl, hread] at h2
    exact Option.isSome_iff_exists.mp h2

section retains
variable {ids : List Bytes} {b : ℕ} {addr : Bytes → Bytes} {C : Cluster}

/-- Watch the entry on its holders outside `lossy`. -/
def SharedView.watch (hV : SharedView ids b addr C) (r : Ref) (d : Bytes) (lossy : Bytes → Prop) :
    Watch where
  ids := ids
  backups := b
  addr := addr
  ref := r
  data := d
  kept x := x ∈ holders ids b (routedPartition r.1 r.2) ∧ ¬ lossy x
  stay x := x ∈ holders ids b (routedPartition r.1 r.2) ∧ ¬ lossy x
  moves _ := False
  steady := False
  nodup := hV.nodup
  named := hV.named
  addr_inj := hV.addr_inj
  kept_stay _ hx := hx
  stay_holder _ hx := hx.1
  moves_steady _ hx := hx
  moves_mem _ hx := hx.elim
  moves_not_holder _ hx := hx.elim

/-- **In careful runs the holders outside `lossy` keep the entry**, when all threads keep the
contract of the entry watched on them. -/
theorem run_retains (hV : SharedView ids b addr C) (hR : Replicated ids b C) {n : Bytes}
    (hn : n ∈ ids) {r : Ref} {d : Bytes} (hd : (C.nodes n).content r = some d)
    {lossy : Bytes → Prop} {sync : ℕ → Prop} {pool : ℕ → Prog Unit}
    (hpool : ∀ j, ((hV.watch r d lossy).contract sync).Obeys j (fun _ _ => True) (pool j) [])
    {sched : List (ℕ × Choice)}
    (hok : Meets exec (Careful ids b r lossy sync) sched (Conf.init C pool)) {x : Bytes}
    (hx : x ∈ holders ids b (routedPartition r.1 r.2)) (hlossy : ¬ lossy x) :
    ∃ v, ((Conf.run exec sched (Conf.init C pool)).world.state.nodes x).store.find
      (routedPartition r.1 r.2) r = some v ∧ v.data = d := by
  have hinit : (hV.watch r d lossy).Inv ⟨C, []⟩ := by
    refine SharedView.inv hV (fun m hm p v hv => hR.data hn hd hm hv) ?_ (fun _ h => h.elim)
    rintro m ⟨hm, -⟩
    obtain ⟨v, hv, -, -⟩ := Node.content_eq_some.mp (hR.content hn hd hm)
    exact ⟨v, hv⟩
  have hok' : Meets exec ((hV.watch r d lossy).Ok sync) sched (Conf.init C pool) := by
    refine hok.mono (fun i e c w h => ⟨h.fresh, fun hs m hm hk he => ?_, False.elim, False.elim⟩)
    refine h.reads hs m hm ?_ he
    by_contra hl
    exact hk ⟨hm, hl⟩
  obtain ⟨hI, -, -⟩ := ((hV.watch r d lossy).sound sync).run hinit hpool hok'
  obtain ⟨v, hv⟩ := hI.held x ⟨hx, hlossy⟩ (Or.inl ⟨hx, hlossy⟩)
  exact ⟨v, hv, (hI.data x (mem_of_mem_holders hx) _ v hv).2⟩

end retains

end Medusa
