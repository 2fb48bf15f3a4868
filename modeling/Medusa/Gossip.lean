import Mathlib.Data.Fintype.Card
import Medusa.Lib.Spread
import Medusa.MembershipRuns
import Medusa.Node
import Medusa.Writes

/-! # Gossip

Nodes that gossip and join, with every message delivered, in any interleaving.

* `Talk`: the nodes, and their memberships at the beginning; `Talk.contract`: a thread spreads only
  members of the cluster at their addresses, and a JOIN reaches only the nodes that are `asked`.
* `Talk.Inv`: views grow within the cluster, what a node was told it knows unless it had a tombstone
  for it, and the tombstones of a node that is not asked stay.
* `gossip_obeys`, `join_obeys`: whom a complete gossip and a complete join have told what.
* `GossipRound.spreads`: **a round spreads every view** to the members of the view. -/

namespace Medusa

open Medusa.Partition Interleave Service Contract

/-- Live nodes: each listens at its address, and knows only of live nodes, at their addresses. -/
structure Live (ids : List Bytes) (b : ℤ) (addr : Bytes → Bytes) (C : Cluster) : Prop where
  named : [] ∉ ids
  self : ∀ n ∈ ids, (C.nodes n).mem.self = ⟨n, addr n⟩
  backups : ∀ n ∈ ids, (C.nodes n).mem.backups = b
  known : ∀ n ∈ ids, (C.nodes n).mem.Over ids addr
  listen : ∀ n ∈ ids, C.listen (addr n) = some n

/-- What a run of gossip and joins starts from.  `asked n id`: a JOIN of `id` may reach `n`. -/
structure Talk where
  ids : List Bytes
  addr : Bytes → Bytes
  net : Bytes → Option Bytes
  start : Bytes → Membership
  asked : Bytes → Bytes → Prop
  net_addr : ∀ n ∈ ids, net (addr n) = some n

namespace Talk
variable (T : Talk)

/-- A node of the cluster, at its address. -/
def Known (mem : Member) : Prop := mem.id ∈ T.ids ∧ mem.addr = T.addr mem.id

theorem addr_inj {x y : Bytes} (hx : x ∈ T.ids) (hy : y ∈ T.ids) (h : T.addr x = T.addr y) :
    x = y := by
  have hnet := T.net_addr x hx
  rw [h, T.net_addr y hy] at hnet
  exact (Option.some.inj hnet).symm

/-- Every id of the view at the beginning is listed. -/
def Covers (n : Bytes) (ms : List Member) : Prop :=
  ∀ id ∈ (T.start n).members, ∃ mem ∈ ms, mem.id = id

/-- What a thread promises. -/
def pre : Action → Prop
  | .on n .snapshotProto => n ∈ T.ids
  | .on n .members => n ∈ T.ids
  | .on _ (.merge ms) => ∀ mem ∈ ms, T.Known mem
  | .on n (.rejoin mem) => T.Known mem ∧ T.asked n mem.id
  | .connect _ => True
  | .reply _ => True
  | _ => False

/-- What a thread is told. -/
def post : (e : Action) → e.Resp → Prop
  | .on n .snapshotProto, ms => (∀ mem ∈ ms, T.Known mem) ∧ T.Covers n ms
  | .on n .members, ms => (∀ mem ∈ ms, T.Known mem) ∧ T.Covers n ms
  | .connect a, r => r = T.net a
  | .reply _, r => r = true
  | _, _ => True

/-- The contract of a run of gossip and joins. -/
def contract : Contract Action.Resp where
  pre _ _ e := T.pre e
  post _ _ e r := T.post e r

/-- The members of `ms` were merged on `n`. -/
def Told (h : List Event) (n : Bytes) (ms : List Member) : Prop :=
  ∃ i changed, (⟨i, .on n (.merge ms), changed⟩ : Event) ∈ h

/-- A JOIN of the member was handled by `n`. -/
def Asked (h : List Event) (n : Bytes) (mem : Member) : Prop :=
  ∃ i, (⟨i, .on n (.rejoin mem), ()⟩ : Event) ∈ h

/-- The state of node `n` in view of the past. -/
structure NodeInv (n : Bytes) (m : Membership) (past : List Event) : Prop where
  self : m.self = ⟨n, T.addr n⟩
  backups : m.backups = (T.start n).backups
  known : m.Over T.ids T.addr
  grows : ∀ id ∈ (T.start n).members, id ∈ m.members
  tombs : ∀ id, m.Tombstoned id → (T.start n).Tombstoned id
  kept : ∀ id, (T.start n).Tombstoned id → ¬ T.asked n id → m.Tombstoned id
  told : ∀ ms, Told past n ms → ∀ mem ∈ ms, mem.id ≠ [] → ¬ (T.start n).Tombstoned mem.id →
    mem.id ∈ m.members
  joined : ∀ mem, Asked past n mem → mem.id ≠ [] → mem.id ∈ m.members
  same : (∀ id ∈ T.ids, id ∈ (T.start n).members) → (∀ id, ¬ T.asked n id) → m = T.start n

/-- The invariant of a run of gossip and joins. -/
structure Inv (w : World) : Prop where
  net : w.state.listen = T.net
  node : ∀ n ∈ T.ids, T.NodeInv n (w.state.nodes n).mem w.past

/-- Messages arrive. -/
def Delivered (_ : ℕ) (_ : Action) (c : Choice) (_ : World) : Prop := c.lost = false

/-! ### The contract is sound -/

section sound
variable {T} {n : Bytes} {m : Membership} {past : List Event} {i : ℕ}

theorem told_cons {e : Action} {r : e.Resp} {ms : List Member} :
    Told (⟨i, e, r⟩ :: past) n ms ↔ e = .on n (.merge ms) ∨ Told past n ms := by
  constructor
  · rintro ⟨j, changed, h⟩
    rcases List.mem_cons.mp h with h | h
    · injection h with _ he
      exact Or.inl he.symm
    · exact Or.inr ⟨j, changed, h⟩
  · rintro (rfl | ⟨j, changed, h⟩)
    · exact ⟨i, r, List.mem_cons_self⟩
    · exact ⟨j, changed, List.mem_cons_of_mem _ h⟩

theorem asked_cons {e : Action} {r : e.Resp} {mem : Member} :
    Asked (⟨i, e, r⟩ :: past) n mem ↔ e = .on n (.rejoin mem) ∨ Asked past n mem := by
  constructor
  · rintro ⟨j, h⟩
    rcases List.mem_cons.mp h with h | h
    · injection h with _ he
      exact Or.inl he.symm
    · exact Or.inr ⟨j, h⟩
  · rintro (rfl | ⟨j, h⟩)
    · exact ⟨i, List.mem_cons_self⟩
    · exact ⟨j, List.mem_cons_of_mem _ h⟩

/-- An action that neither merges nor joins on the node. -/
theorem NodeInv.frame (h : T.NodeInv n m past) {e : Action} (r : e.Resp)
    (hm : ∀ ms, e ≠ .on n (.merge ms)) (hj : ∀ mem, e ≠ .on n (.rejoin mem)) :
    T.NodeInv n m (⟨i, e, r⟩ :: past) :=
  { h with
    told := fun ms ht => h.told ms ((told_cons.mp ht).resolve_left (hm ms))
    joined := fun mem ha => h.joined mem ((asked_cons.mp ha).resolve_left (hj mem)) }

theorem NodeInv.merge (h : T.NodeInv n m past) {ms : List Member} (hms : ∀ mem ∈ ms, T.Known mem)
    (r : Bool) : T.NodeInv n (m.merge ms).2 (⟨i, .on n (.merge ms), r⟩ :: past) where
  self := (m.merge_self ms).trans h.self
  backups := (m.merge_backups ms).trans h.backups
  known := h.known.merge hms
  grows := fun id hid => (m.mem_merge ms id).mpr (Or.inl (h.grows id hid))
  tombs := by
    intro id hid
    rw [Membership.Tombstoned, Membership.merge_removed] at hid
    exact h.tombs id hid
  kept := fun id hid hna => (h.kept id hid hna).merge ms
  told := by
    intro ms' ht mem hmem hne htomb
    rw [Membership.mem_merge]
    rcases told_cons.mp ht with heq | ht
    · injection heq with _ heq
      injection heq with heq
      subst heq
      by_cases hself : mem.id = m.self.id
      · exact Or.inl (hself ▸ m.self_mem_keys)
      · refine Or.inr ⟨⟨mem, hmem, rfl⟩, hne, hself, ?_⟩
        exact Option.not_isSome_iff_eq_none.mp (fun hs => htomb (h.tombs mem.id hs))
    · exact Or.inl (h.told ms' ht mem hmem hne htomb)
  joined := by
    intro mem ha hne
    rw [Membership.mem_merge]
    exact Or.inl (h.joined mem ((asked_cons.mp ha).resolve_left (by simp)) hne)
  same := by
    intro hfull hna
    -- a full view at the right addresses has nothing to learn
    have hm := h.same hfull hna
    have hknown : ∀ mem ∈ ms, mem.id ≠ [] → m.members.lookup mem.id = some mem := by
      intro mem hmem _
      obtain ⟨hid, ha⟩ := hms mem hmem
      have hmem' : mem.id ∈ m.members := h.grows _ (hfull _ hid)
      obtain ⟨x, hx⟩ := Option.isSome_iff_exists.mp (AList.lookup_isSome.mpr hmem')
      have hxa : x.addr = mem.addr := ((h.known _ _ hx).2).trans ha.symm
      have hxid : x.id = mem.id := m.view.filed _ _ hx
      rw [hx]
      cases x
      cases mem
      simp_all
    rw [m.merge_of_known hknown]
    exact hm

theorem NodeInv.rejoin (h : T.NodeInv n m past) {mem : Member} (hmem : T.Known mem)
    (ha : T.asked n mem.id) (r : Unit) :
    T.NodeInv n (m.rejoin mem) (⟨i, .on n (.rejoin mem), r⟩ :: past) where
  self := (m.rejoin_self mem).trans h.self
  backups := (m.rejoin_backups mem).trans h.backups
  known := h.known.rejoin hmem.1 hmem.2
  grows := fun id hid => (m.mem_rejoin mem id).mpr (Or.inl (h.grows id hid))
  tombs := fun id hid => h.tombs id (hid.of_rejoin)
  kept := fun id hid hna => (h.kept id hid hna).rejoin (fun e => hna (e ▸ ha))
  told := by
    intro ms ht mem' hmem' hne htomb
    rw [Membership.mem_rejoin]
    exact Or.inl (h.told ms ((told_cons.mp ht).resolve_left (by simp)) mem' hmem' hne htomb)
  joined := by
    intro mem' ha' hne
    rw [Membership.mem_rejoin]
    rcases asked_cons.mp ha' with heq | ha'
    · injection heq with _ heq
      injection heq with heq
      subst heq
      exact Or.inr ⟨rfl, hne⟩
    · exact Or.inl (h.joined mem' ha' hne)
  same := fun _ hna => absurd ha (hna mem.id)

/-- The members of a view are nodes of the cluster, and those of the beginning are among them. -/
theorem NodeInv.snapshotProto (h : T.NodeInv n m past) :
    (∀ mem ∈ m.snapshotProto, T.Known mem) ∧ T.Covers n m.snapshotProto := by
  refine ⟨fun mem hmem => h.known.mem_snapshotProto hmem, fun id hid => ?_⟩
  obtain ⟨x, hx⟩ := Option.isSome_iff_exists.mp (AList.lookup_isSome.mpr (h.grows id hid))
  exact ⟨x, List.mem_map.mpr ⟨(id, x), Assoc.mem_pairs.mpr hx, rfl⟩, m.view.filed id x hx⟩

theorem NodeInv.listMembers (h : T.NodeInv n m past) :
    (∀ mem ∈ m.listMembers, T.Known mem) ∧ T.Covers n m.listMembers := by
  have hperm : m.listMembers.Perm m.snapshotProto := List.perm_insertionSort _ _
  refine ⟨fun mem hmem => h.snapshotProto.1 mem (hperm.mem_iff.mp hmem), fun id hid => ?_⟩
  obtain ⟨mem, hmem, rfl⟩ := h.snapshotProto.2 id hid
  exact ⟨mem, hperm.mem_iff.mpr hmem, rfl⟩

theorem sound (T : Talk) : T.contract.Sound exec T.Inv Delivered := by
  intro i e c w hI hok hpre
  -- what neither merges nor joins keeps the invariant
  have hcalm : e.Calm → (∀ n ms, e ≠ .on n (.merge ms)) → (∀ n mem, e ≠ .on n (.rejoin mem)) →
      T.Inv (w.next exec i e c) := by
    intro hc hm hj
    refine ⟨(hc.listen c w.state).trans hI.net, fun n hn => ?_⟩
    rw [World.next_state, hc.mem c w.state n]
    exact (hI.node n hn).frame _ (hm n) (hj n)
  -- another node's membership is left alone
  have hother : ∀ {k : Bytes} {a : NodeAction}, e = .on k a → ∀ n ∈ T.ids, n ≠ k →
      T.NodeInv n ((w.next exec i e c).state.nodes n).mem (w.next exec i e c).past := by
    rintro k a rfl n hn hne
    rw [World.next_state, exec_on_ne k a c w.state hne]
    exact (hI.node n hn).frame _ (by simp [Ne.symm hne]) (by simp [Ne.symm hne])
  cases e with
  | on k a =>
    cases a with
    | snapshotProto =>
      exact ⟨hcalm trivial (by simp) (by simp), (hI.node k hpre).snapshotProto⟩
    | members => exact ⟨hcalm trivial (by simp) (by simp), (hI.node k hpre).listMembers⟩
    | merge ms =>
      refine ⟨⟨hI.net, fun n hn => ?_⟩, trivial⟩
      by_cases hnk : n = k
      · subst hnk
        rw [World.next_state, exec_on_self]
        exact (hI.node n hn).merge hpre _
      · exact hother rfl n hn hnk
    | rejoin mem =>
      refine ⟨⟨hI.net, fun n hn => ?_⟩, trivial⟩
      by_cases hnk : n = k
      · subst hnk
        rw [World.next_state, exec_on_self]
        exact (hI.node n hn).rejoin hpre.1 hpre.2 _
      · exact hother rfl n hn hnk
    | _ => exact hpre.elim
  | connect a =>
    refine ⟨hcalm trivial (by simp) (by simp), ?_⟩
    change (if c.lost then none else w.state.listen a) = T.net a
    rw [if_neg (by simp [show c.lost = false from hok]), hI.net]
  | reply k =>
    refine ⟨hcalm trivial (by simp) (by simp), ?_⟩
    change (!c.lost) = true
    rw [show c.lost = false from hok]
    rfl
  | _ => exact hpre.elim

end sound

/-! ### The programs keep it -/

section programs
variable {T} {i : ℕ}

theorem Told.mono {h h' : List Event} {n : Bytes} {ms : List Member} (ht : Told h n ms)
    (hs : h ⊆ h') : Told h' n ms := by
  obtain ⟨j, changed, hj⟩ := ht
  exact ⟨j, changed, hs hj⟩

theorem Asked.mono {h h' : List Event} {n : Bytes} {mem : Member} (ha : Asked h n mem)
    (hs : h ⊆ h') : Asked h' n mem := by
  obtain ⟨j, hj⟩ := ha
  exact ⟨j, hs hj⟩

/-- A message reaches the node that listens at the address, and its answer arrives. -/
theorem send_obeys {α : Type} {addr x : Bytes} (hx : T.net addr = some x)
    {handle : Bytes → Prog (Except ServiceError α)} {Q : Except ServiceError α → List Event → Prop}
    {h : List Event}
    (hsome : T.contract.Obeys i (fun out h' => Q out (⟨i, .reply x, true⟩ :: h')) (handle x)
      (⟨i, .connect addr, some x⟩ :: h)) :
    T.contract.Obeys i Q (send addr handle) h := by
  refine Obeys.step trivial (fun r hr => ?_)
  obtain rfl : r = some x := hr.trans hx
  refine Obeys.bind (hsome.mono (fun out h' hq => ?_))
  refine Obeys.step trivial (fun arrived harr => ?_)
  obtain rfl : arrived = true := harr
  exact hq

theorem gossipTo_obeys {n : Bytes} {payload : List Member} (hp : ∀ mem ∈ payload, T.Known mem)
    (peers : List Member) (hpeers : ∀ peer ∈ peers, T.Known peer) (h : List Event) :
    T.contract.Obeys i (fun _ h' => h ⊆ h' ∧ ∀ peer ∈ peers, peer.id ≠ n → Told h' peer.id payload)
      (Membership.gossipTo n payload peers) h := by
  induction peers generalizing h with
  | nil => exact ⟨List.Subset.refl _, by simp⟩
  | cons peer peers ih =>
    have hrest : ∀ p ∈ peers, T.Known p := fun p hp => hpeers p (List.mem_cons_of_mem _ hp)
    obtain ⟨hid, ha⟩ := hpeers peer List.mem_cons_self
    unfold Membership.gossipTo
    split
    · next hself =>
      refine (ih hrest h).mono (fun _ h' hq => ⟨hq.1, fun p hp hne => ?_⟩)
      rcases List.mem_cons.mp hp with rfl | hp
      · exact absurd hself hne
      · exact hq.2 p hp hne
    · have hnet : T.net peer.addr = some peer.id := ha ▸ T.net_addr _ hid
      refine Obeys.bind (send_obeys hnet ?_)
      refine Obeys.step hp (fun changed _ => ?_)
      refine (ih hrest _).mono (fun _ h' hq => ⟨?_, fun p hp hne => ?_⟩)
      · exact fun ev hev => hq.1 (by simp [hev])
      · rcases List.mem_cons.mp hp with rfl | hp
        · exact ⟨i, changed, hq.1 (by simp)⟩
        · exact hq.2 p hp hne

/-- **A complete gossip** has told the members of the view at the beginning of all of it. -/
theorem gossip_obeys {n : Bytes} (hn : n ∈ T.ids) (h : List Event) :
    T.contract.Obeys i (fun _ h' => h ⊆ h' ∧ ∀ id ∈ (T.start n).members, id ≠ n →
      ∃ payload, T.Covers n payload ∧ Told h' id payload) (Membership.gossip n) h := by
  refine Obeys.step hn (fun payload hpay => ?_)
  refine Obeys.step hn (fun peers hpeers => ?_)
  refine (gossipTo_obeys hpay.1 peers hpeers.1 _).mono (fun _ h' hq => ⟨?_, fun id hid hne => ?_⟩)
  · exact fun ev hev => hq.1 (by simp [hev])
  · obtain ⟨peer, hpeer, rfl⟩ := hpeers.2 id hid
    exact ⟨payload, hpay.2, hq.2 peer hpeer hne⟩

/-- A seed handles the JOIN, and answers with its view. -/
theorem sendJoin_obeys {me : Member} (hme : T.Known me) {x : Bytes} (hx : x ∈ T.ids)
    (hask : T.asked x me.id) (h : List Event) :
    T.contract.Obeys i (fun res h' => h ⊆ h' ∧ Asked h' x me ∧ ∃ ms, res = .ok ms ∧
        (∀ mem ∈ ms, T.Known mem) ∧ T.Covers x ms)
      (Membership.sendJoin me (T.addr x)) h := by
  refine send_obeys (T.net_addr x hx) ?_
  refine Obeys.step ⟨hme, hask⟩ (fun r _ => ?_)
  refine Obeys.step hx (fun ms hms => ⟨fun ev hev => by simp [hev], ?_, ms, rfl, hms⟩)
  exact ⟨i, by simp⟩

/-- **A complete join**: every seed has handled the JOIN, and the node has merged the seeds' views. -/
theorem joinSeeds_obeys {me : Member} (hme : T.Known me) (seeds : List Bytes) (hseeds : ∀ seed ∈ seeds,
      ∃ x ∈ T.ids, seed = T.addr x ∧ T.asked x me.id) (reached : Bool) (h : List Event) :
    T.contract.Obeys i (fun _ h' => h ⊆ h' ∧ ∀ x ∈ T.ids, T.addr x ∈ seeds → T.addr x ≠ me.addr →
        Asked h' x me ∧ ∃ ms, T.Covers x ms ∧ Told h' me.id ms)
      (Membership.joinSeeds me seeds reached) h := by
  induction seeds generalizing reached h with
  | nil => exact ⟨List.Subset.refl _, by simp⟩
  | cons seed seeds ih =>
    have hrest := fun s hs => hseeds s (List.mem_cons_of_mem _ hs)
    obtain ⟨x, hx, rfl, hask⟩ := hseeds seed List.mem_cons_self
    unfold Membership.joinSeeds
    split
    · next hself =>
      refine (ih hrest reached h).mono (fun _ h' hq => ⟨hq.1, fun y hy hys hne => ?_⟩)
      exact hq.2 y hy ((List.mem_cons.mp hys).resolve_left (fun e => hne (e.trans hself))) hne
    · refine Obeys.bind ((sendJoin_obeys hme hx hask h).mono ?_)
      rintro _ h' ⟨hsub, hasked, ms, rfl, hms, hcov⟩
      refine Obeys.step hms (fun changed _ => ?_)
      refine (ih hrest true _).mono (fun _ h'' hq => ⟨?_, fun y hy hys hne => ?_⟩)
      · exact fun ev hev => hq.1 (List.mem_cons_of_mem _ (hsub hev))
      · rcases List.mem_cons.mp hys with heq | hys
        · obtain rfl : y = x := T.addr_inj hy hx heq
          refine ⟨hasked.mono fun ev hev => hq.1 (List.mem_cons_of_mem _ hev), ms, hcov, ?_⟩
          exact ⟨i, changed, hq.1 List.mem_cons_self⟩
        · exact hq.2 y hy hys hne

theorem join_obeys {me : Member} (hme : T.Known me) (seeds : List Bytes) (hseeds : ∀ seed ∈ seeds,
      ∃ x ∈ T.ids, seed = T.addr x ∧ T.asked x me.id) (h : List Event) :
    T.contract.Obeys i (fun _ h' => ∀ x ∈ T.ids, T.addr x ∈ seeds → T.addr x ≠ me.addr →
        Asked h' x me ∧ ∃ ms, T.Covers x ms ∧ Told h' me.id ms)
      (Membership.join me seeds) h := by
  refine Obeys.bind ((joinSeeds_obeys hme seeds hseeds false h).mono ?_)
  rintro reached h' ⟨-, hq⟩
  cases reached with
  | false => exact hq
  | true =>
    refine (gossip_obeys hme.1 h').mono (fun _ h'' hg x hx hxs hne => ?_)
    obtain ⟨hasked, ms, hcov, htold⟩ := hq x hx hxs hne
    exact ⟨hasked.mono hg.1, ms, hcov, htold.mono hg.1⟩

end programs

end Talk

/-! ### Rounds -/

/-- One gossip of every node. -/
def roundPool (ids : List Bytes) (i : ℕ) : Prog Unit :=
  match ids[i]? with
  | some n => Membership.gossip n
  | none => return ()

/-- Every node performs `Gossip` once, in any interleaving, and every message is delivered. -/
def GossipRound (ids : List Bytes) (C C' : Cluster) : Prop :=
  ∃ sched : List (ℕ × Choice),
    Meets exec (fun _ _ c _ => c.lost = false) sched (Conf.init C (roundPool ids)) ∧
    (∀ i, ((Interleave.Conf.run exec sched (Conf.init C (roundPool ids))).pool i).returned = true) ∧
    (Interleave.Conf.run exec sched (Conf.init C (roundPool ids))).world.state = C'

section rounds
variable {ids : List Bytes} {b : ℤ} {addr : Bytes → Bytes} {C C' : Cluster}

/-- The run starts from live nodes. -/
def Live.talk (hL : Live ids b addr C) (asked : Bytes → Bytes → Prop) : Talk where
  ids := ids
  addr := addr
  net := C.listen
  start n := (C.nodes n).mem
  asked := asked
  net_addr := hL.listen

theorem Live.inv (hL : Live ids b addr C) (asked : Bytes → Bytes → Prop) :
    (hL.talk asked).Inv ⟨C, []⟩ where
  net := rfl
  node n hn :=
    { self := hL.self n hn
      backups := rfl
      known := hL.known n hn
      grows := fun _ hid => hid
      tombs := fun _ hid => hid
      kept := fun _ hid _ => hid
      told := by rintro ms ⟨_, _, h⟩; cases h
      joined := by rintro mem ⟨_, h⟩; cases h
      same := fun _ _ => rfl }

/-- A run of gossip and joins ends with live nodes. -/
theorem Live.of_inv (hL : Live ids b addr C) {asked : Bytes → Bytes → Prop} {w : World}
    (hI : (hL.talk asked).Inv w) : Live ids b addr w.state where
  named := hL.named
  self n hn := (hI.node n hn).self
  backups n hn := (hI.node n hn).backups.trans (hL.backups n hn)
  known n hn := (hI.node n hn).known
  listen n hn := by
    rw [hI.net]
    exact hL.listen n hn

/-- **What a round does**: the nodes stay live, and everybody in a view learns what is in it, unless it
has a tombstone for it.  Views only grow, tombstones stay, and a full view does not change. -/
theorem GossipRound.spreads (hL : Live ids b addr C) (h : GossipRound ids C C') :
    Live ids b addr C' ∧
    (∀ x ∈ ids, ∀ y ∈ ids, y ∈ (C.nodes x).mem.members → ∀ id ∈ (C.nodes x).mem.members,
      ¬ (C.nodes y).mem.Tombstoned id → id ∈ (C'.nodes y).mem.members) ∧
    (∀ x ∈ ids, ∀ id ∈ (C.nodes x).mem.members, id ∈ (C'.nodes x).mem.members) ∧
    (∀ x ∈ ids, ∀ id, (C'.nodes x).mem.Tombstoned id ↔ (C.nodes x).mem.Tombstoned id) ∧
    (∀ x ∈ ids, (∀ id ∈ ids, id ∈ (C.nodes x).mem.members) → (C'.nodes x).mem = (C.nodes x).mem) := by
  obtain ⟨sched, hmeets, hret, rfl⟩ := h
  set T := hL.talk (fun _ _ => False) with hT
  have hobeys : ∀ j, T.contract.Obeys j (fun _ h' => ∀ n, ids[j]? = some n →
      ∀ id ∈ (T.start n).members, id ≠ n → ∃ payload, T.Covers n payload ∧ Talk.Told h' id payload)
      (roundPool ids j) [] := by
    intro j
    unfold roundPool
    split
    · next n hn =>
      refine (Talk.gossip_obeys (List.mem_of_getElem? hn) []).mono (fun _ h' hq n' hn' => ?_)
      obtain rfl : n = n' := Option.some.inj (hn.symm.trans hn')
      exact hq.2
    · next hn => exact fun n' hn' => by simp [hn] at hn'
  obtain ⟨hI, -, hend⟩ := (Talk.sound T).run (hL.inv _) hobeys hmeets
  refine ⟨hL.of_inv hI, ?_, fun x hx => (hI.node x hx).grows, ?_, ?_⟩
  · intro x hx y hy hyx id hid htomb
    by_cases hne : y = x
    · subst hne
      exact (hI.node y hy).grows id hid
    · obtain ⟨j, hj⟩ := List.mem_iff_getElem?.mp hx
      obtain ⟨_, hdone⟩ := Prog.returned_iff.mp (hret j)
      obtain ⟨payload, hcov, htold⟩ := (hend j).returned hdone x hj y hyx hne
      obtain ⟨mem, hmem, rfl⟩ := hcov id hid
      have hnamed : mem.id ≠ [] := fun e => hL.named (e ▸ (hL.known x hx).mem_keys hid)
      exact (hI.node y hy).told payload (htold.mono (World.own_subset _ _)) mem hmem hnamed htomb
  · exact fun x hx id => ⟨(hI.node x hx).tombs id,
      fun ht => (hI.node x hx).kept id ht (fun h => h)⟩
  · exact fun x hx hfull => (hI.node x hx).same hfull (fun _ h => h)

/-! ### Convergence -/

/-- The views of the live nodes, as sets of live nodes. -/
def views (ids : List Bytes) (C : Cluster) (n : {n // n ∈ ids}) : Set {n // n ∈ ids} :=
  {x | x.1 ∈ (C.nodes n.1).mem.members}

/-- A node knows itself. -/
theorem Live.self_mem (hL : Live ids b addr C) {n : Bytes} (hn : n ∈ ids) :
    n ∈ (C.nodes n).mem.members := by
  have h := (C.nodes n).mem.self_mem_keys
  rwa [hL.self n hn] at h

/-- The table of a full view. -/
theorem Live.table_of_full (hL : Live ids b addr C) (hnodup : ids.Nodup) {n : Bytes} (hn : n ∈ ids)
    (hfull : ∀ id ∈ ids, id ∈ (C.nodes n).mem.members) : (C.nodes n).mem.table = newTable ids b := by
  rw [(C.nodes n).mem.table_eq, hL.backups n hn]
  refine newTable_perm ?_ b
  refine (List.perm_ext_iff_of_nodup (C.nodes n).mem.members.keys_nodup hnodup).mpr (fun id => ?_)
  exact ⟨(hL.known n hn).mem_keys, hfull id⟩

section converge
variable {D : ℕ → Cluster} {k : ℕ}

/-- The nodes stay live, and get no tombstones. -/
theorem rounds_live (hL : Live ids b addr (D 0)) (hrounds : ∀ r < k, GossipRound ids (D r) (D (r + 1)))
    {r : ℕ} (hr : r ≤ k) : Live ids b addr (D r) ∧
      ∀ x ∈ ids, ∀ id, ((D r).nodes x).mem.Tombstoned id ↔ ((D 0).nodes x).mem.Tombstoned id := by
  induction r with
  | zero => exact ⟨hL, fun _ _ _ => Iff.rfl⟩
  | succ r ih =>
    obtain ⟨hLr, htomb⟩ := ih (Nat.le_of_succ_le hr)
    obtain ⟨hL', -, -, htomb', -⟩ := (hrounds r hr).spreads hLr
    exact ⟨hL', fun x hx id => (htomb' x hx id).trans (htomb x hx id)⟩

/-- A full view does not change any more. -/
theorem rounds_full (hL : Live ids b addr (D 0)) (hrounds : ∀ r < k, GossipRound ids (D r) (D (r + 1)))
    {s r : ℕ} (hsr : s ≤ r) (hr : r ≤ k) {x : Bytes} (hx : x ∈ ids)
    (hfull : ∀ id ∈ ids, id ∈ ((D s).nodes x).mem.members) :
    ((D r).nodes x).mem = ((D s).nodes x).mem := by
  induction r, hsr using Nat.le_induction with
  | base => rfl
  | succ r hsr ih =>
    have heq := ih (Nat.le_of_succ_le hr)
    have hLr := (rounds_live hL hrounds (Nat.le_of_succ_le hr)).1
    obtain ⟨-, -, -, -, hsame⟩ := (hrounds r hr).spreads hLr
    rw [← heq] at hfull
    exact (hsame x hx hfull).trans heq

/-- **Gossip converges** within as many rounds as there are nodes: every view contains all nodes, all
tables are the one of all nodes, and no version changes any more. -/
theorem gossip_converges (hnodup : ids.Nodup) (hL : Live ids b addr (D 0))
    (htomb : ∀ n ∈ ids, ∀ id, ¬ ((D 0).nodes n).mem.Tombstoned id)
    (hconn : (Spreads.knows (views ids (D 0))).Connected)
    (hrounds : ∀ r < k, GossipRound ids (D r) (D (r + 1))) {r : ℕ} (hr : ids.length ≤ r)
    (hrk : r ≤ k) {n : Bytes} (hn : n ∈ ids) :
    (∀ id, id ∈ ((D r).nodes n).mem.members ↔ id ∈ ids) ∧
    ((D r).nodes n).mem.table = newTable ids b ∧
    ((D r).nodes n).mem.version = ((D ids.length).nodes n).mem.version ∧
    ((D r).nodes n).mem.tableVer = ((D ids.length).nodes n).mem.tableVer := by
  have hspread : ∀ r < k, Spreads (views ids (D r)) (views ids (D (r + 1))) := by
    intro r hr x y hyx id hid
    obtain ⟨hLr, htombr⟩ := rounds_live hL hrounds hr.le
    obtain ⟨-, hspr, -⟩ := (hrounds r hr).spreads hLr
    exact hspr x.1 x.2 y.1 y.2 hyx id.1 hid
      (fun h => htomb y.1 y.2 id.1 ((htombr y.1 y.2 id.1).mp h))
  have hcard : Fintype.card {n // n ∈ ids} = ids.length := by
    rw [Fintype.card_of_subtype ids.toFinset (fun x => List.mem_toFinset),
      List.toFinset_card_of_nodup hnodup]
  have hfull : ∀ s, ids.length ≤ s → s ≤ k → ∀ id ∈ ids, id ∈ ((D s).nodes n).mem.members := by
    intro s hs hsk id hid
    exact Spreads.complete (V := fun r => views ids (D r)) (fun x => hL.self_mem x.2) hspread hconn
      (hcard.trans_le hs) hsk ⟨n, hn⟩ ⟨id, hid⟩
  have hLr := (rounds_live hL hrounds hrk).1
  have hsame := rounds_full hL hrounds hr hrk hn (hfull _ le_rfl (hr.trans hrk))
  exact ⟨fun id => ⟨(hLr.known n hn).mem_keys, hfull r hr hrk id⟩,
    hLr.table_of_full hnodup hn (hfull r hr hrk), congrArg Membership.version hsame,
    congrArg Membership.tableVer hsame⟩

end converge

end rounds

/-! ### A chain of three nodes -/

/-- The nodes gossip one after the other; a gossip takes at most three actions for every node. -/
def inTurn (n : ℕ) : List (ℕ × Choice) :=
  (List.range n).flatMap (fun i => List.replicate (3 * n) (i, Choice.still))

/-- The state after the nodes gossiped in turn. -/
def afterRound (ids : List Bytes) (C : Cluster) : Cluster :=
  (Interleave.Conf.run exec (inTurn ids.length) (Conf.init C (roundPool ids))).world.state

theorem gossipRound_afterRound {ids : List Bytes} {C : Cluster}
    (h : ∀ i < ids.length, ((Interleave.Conf.run exec (inTurn ids.length)
      (Conf.init C (roundPool ids))).pool i).returned = true) :
    GossipRound ids C (afterRound ids C) := by
  have hmem : ∀ ic ∈ inTurn ids.length, ic.1 < ids.length ∧ ic.2.lost = false := by
    intro ic hic
    obtain ⟨i, hi, hic⟩ := List.mem_flatMap.mp hic
    rw [List.eq_of_mem_replicate hic]
    exact ⟨List.mem_range.mp hi, rfl⟩
  refine ⟨inTurn ids.length, ?_, fun i => ?_, rfl⟩
  · exact Meets.of_choices (fun ic hic => (hmem ic hic).2) _
  · rcases lt_or_ge i ids.length with hi | hi
    · exact h i hi
    · rw [Conf.run_pool_of_not_mem (fun ic hic => (hi.trans_lt' (hmem ic hic).1).ne) _]
      change (roundPool ids i).returned = true
      rw [roundPool, List.getElem?_eq_none hi]
      rfl

/-- Nodes without data, with the given memberships, at addresses equal to their ids. -/
def talkers (ids : List Bytes) (mem : Bytes → Membership) : Cluster where
  nodes n :=
    { clock := 0
      mem := mem n
      store := Store.empty
      wal := none
      listener := false
      events := []
      loaders := fun _ => .none }
  listen a := if a ∈ ids then some a else none
  backing _ := none

theorem talkers_live {ids : List Bytes} (hids : [] ∉ ids) {b : ℤ} {mem : Bytes → Membership}
    (hself : ∀ n ∈ ids, (mem n).self = ⟨n, n⟩) (hb : ∀ n ∈ ids, (mem n).backups = b)
    (hmem : ∀ n ∈ ids, (mem n).Over ids id) : Live ids b id (talkers ids mem) where
  named := hids
  self := hself
  backups := hb
  known := hmem
  listen _ hn := if_pos hn

/-- `a` and `c` know `b`, which knows nobody. -/
def chain : Cluster :=
  talkers [[97], [98], [99]] (fun n =>
    ((Membership.new ⟨n, n⟩ 1).merge (if n = [98] then [] else [⟨[98], [98]⟩])).2)

theorem chain_live : Live [[97], [98], [99]] 1 id chain := by
  refine talkers_live (by decide) (fun _ _ => by simp) (fun _ _ => by simp) (fun n hn => ?_)
  refine (Membership.Over.new hn rfl 1).merge (fun mem hmem => ?_)
  split at hmem
  · cases hmem
  · rw [List.mem_singleton.mp hmem]
    exact ⟨by decide, rfl⟩

theorem chain_connected : (Spreads.knows (views [[97], [98], [99]] chain)).Connected := by
  -- everybody is `b`, or knows `b`
  have hb : ∀ x, (Spreads.knows (views [[97], [98], [99]] chain)).Reachable x ⟨[98], by simp⟩ := by
    intro x
    by_cases hx : x.1 = [98]
    · rw [show x = ⟨[98], by simp⟩ from Subtype.ext hx]
    · refine SimpleGraph.Adj.reachable ((SimpleGraph.fromRel_adj _ _ _).mpr ⟨?_, Or.inl ?_⟩)
      · exact fun h => hx (congrArg Subtype.val h)
      · refine (Membership.mem_merge _ _ _).mpr (Or.inr ⟨⟨⟨[98], [98]⟩, ?_, rfl⟩, by simp, ?_, rfl⟩)
        · simp [hx]
        · exact fun h => hx h.symm
  exact (SimpleGraph.connected_iff _).mpr
    ⟨fun x y => (hb x).trans (hb y).symm, ⟨⟨[98], by simp⟩⟩⟩

/-- In the chain `a` learns of `c` within three rounds. -/
theorem gossip_converges_chain :
    [99] ∈ (((afterRound [[97], [98], [99]])^[3] chain).nodes [97]).mem.members := by
  have hret : ∀ r < 3, ∀ i < 3, ((Interleave.Conf.run exec (inTurn 3)
      (Conf.init ((afterRound [[97], [98], [99]])^[r] chain)
        (roundPool [[97], [98], [99]]))).pool i).returned = true := by decide +kernel
  have hrounds : ∀ r < 3, GossipRound [[97], [98], [99]]
      ((afterRound [[97], [98], [99]])^[r] chain)
      ((afterRound [[97], [98], [99]])^[r + 1] chain) := by
    intro r hr
    rw [Function.iterate_succ_apply']
    exact gossipRound_afterRound (hret r hr)
  have htomb : ∀ n ∈ ([[97], [98], [99]] : List Bytes), ∀ id,
      ¬ (chain.nodes n).mem.Tombstoned id := by
    intro n _ id
    simp [chain, talkers, Membership.Tombstoned, Membership.new]
  have h := gossip_converges (D := fun r => (afterRound [[97], [98], [99]])^[r] chain)
    (by decide) chain_live htomb chain_connected hrounds (r := 3) (by decide) le_rfl
    (n := [97]) (by decide)
  exact (h.1 [99]).mpr (by decide)

end Medusa
