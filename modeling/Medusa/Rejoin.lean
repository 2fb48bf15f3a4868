import Medusa.Gossip

/-! # A node that rejoins

A node that was removed by all its peers comes back and joins through some of them.  Its JOIN clears the
tombstones of the seeds it reaches, and only theirs: the gossip that follows names the node, but a
peer with a tombstone ignores it (`Membership.merge`).

* `JoinRun.spec`: what a complete join leaves behind.
* `rejoin_readmitted_iff`: **the node is readmitted everywhere exactly when every peer was a seed.** -/

namespace Medusa

open Medusa.Partition Interleave Service

/-- The join of `me` through `seeds`, while other nodes gossip. -/
def joinPool (me : Member) (seeds : List Bytes) (who : ℕ → Option Bytes) : ℕ → Prog Unit
  | 0 => Membership.join me seeds
  | i + 1 =>
    match who i with
    | some n => Membership.gossip n
    | none => return ()

/-- `me` joins through `seeds`, in any interleaving with gossip of the nodes; every message is
delivered, and the join has returned. -/
def JoinRun (ids : List Bytes) (me : Member) (seeds : List Bytes) (C C' : Cluster) : Prop :=
  ∃ (who : ℕ → Option Bytes) (sched : List (ℕ × Choice)), (∀ i n, who i = some n → n ∈ ids) ∧
    Meets exec (fun _ _ c _ => c.lost = false) sched (Conf.init C (joinPool me seeds who)) ∧
    ((Interleave.Conf.run exec sched (Conf.init C (joinPool me seeds who))).pool 0).returned = true ∧
    (Interleave.Conf.run exec sched (Conf.init C (joinPool me seeds who))).world.state = C'

section join
variable {ids seeds : List Bytes} {b : ℤ} {addr : Bytes → Bytes} {C C' : Cluster} {x : Bytes}

/-- **What a join does**: the seeds know the node, and the node knows the seeds, unless it had a
tombstone for them.  The tombstones of all others stay. -/
theorem JoinRun.spec (hL : Live ids b addr C) (hx : x ∈ ids)
    (hseeds : ∀ seed ∈ seeds, ∃ p ∈ ids, p ≠ x ∧ seed = addr p)
    (h : JoinRun ids ⟨x, addr x⟩ seeds C C') :
    Live ids b addr C' ∧
    (∀ p ∈ ids, addr p ∈ seeds → x ∈ (C'.nodes p).mem.members ∧
      (¬ (C.nodes x).mem.Tombstoned p → p ∈ (C'.nodes x).mem.members)) ∧
    (∀ p ∈ ids, ∀ id, (C'.nodes p).mem.Tombstoned id → (C.nodes p).mem.Tombstoned id) ∧
    (∀ p ∈ ids, addr p ∉ seeds → (C.nodes p).mem.Tombstoned x → (C'.nodes p).mem.Tombstoned x) := by
  obtain ⟨who, sched, hwho, hmeets, hret, rfl⟩ := h
  set T := hL.talk (fun p id => id = x ∧ addr p ∈ seeds) with hT
  have hme : T.Known ⟨x, addr x⟩ := ⟨hx, rfl⟩
  have hobeys : ∀ j, T.contract.Obeys j (fun _ h' => j = 0 → ∀ p ∈ ids, addr p ∈ seeds →
      addr p ≠ addr x → Talk.Asked h' p ⟨x, addr x⟩ ∧ ∃ ms, T.Covers p ms ∧ Talk.Told h' x ms)
      (joinPool ⟨x, addr x⟩ seeds who j) [] := by
    intro j
    cases j with
    | zero =>
      refine (Talk.join_obeys hme seeds (fun seed hseed => ?_) []).mono (fun _ h' hq _ => hq)
      obtain ⟨p, hp, -, rfl⟩ := hseeds seed hseed
      exact ⟨p, hp, rfl, rfl, hseed⟩
    | succ j =>
      rw [joinPool]
      cases hw : who j with
      | some n =>
        exact (Talk.gossip_obeys (hwho j n hw) []).mono
          (fun _ _ _ h0 => absurd h0 (Nat.succ_ne_zero j))
      | none => exact fun h0 => absurd h0 (Nat.succ_ne_zero j)
  obtain ⟨hI, -, hend⟩ := (Talk.sound T).run (hL.inv _) hobeys hmeets
  obtain ⟨_, hdone⟩ := Prog.returned_iff.mp hret
  have hjoined := (hend 0).returned hdone rfl
  have hnamed : ∀ p ∈ ids, p ≠ [] := fun p hp e => hL.named (e ▸ hp)
  refine ⟨hL.of_inv hI, ?_, fun p hp => (hI.node p hp).tombs, ?_⟩
  · intro p hp hps
    -- a seed is not the node itself
    have hne : addr p ≠ addr x := by
      obtain ⟨q, hq, hqx, hpq⟩ := hseeds _ hps
      rw [hpq]
      exact fun e => hqx (T.addr_inj hq hx e)
    obtain ⟨hasked, ms, hcov, htold⟩ := hjoined p hp hps hne
    refine ⟨(hI.node p hp).joined _ (hasked.mono (World.own_subset _ _)) (hnamed x hx), ?_⟩
    intro htomb
    obtain ⟨mem, hmem, rfl⟩ := hcov p (hL.self_mem hp)
    exact (hI.node x hx).told ms (htold.mono (World.own_subset _ _)) mem hmem (hnamed _ hp) htomb
  · exact fun p hp hps ht => (hI.node p hp).kept x ht (fun ha => hps ha.2)

/-- A join keeps a membership consistent. -/
theorem JoinRun.consistent {me : Member} (h : JoinRun ids me seeds C C') {n : Bytes}
    (hC : (C.nodes n).mem.Consistent) : (C'.nodes n).mem.Consistent := by
  obtain ⟨who, sched, -, -, -, rfl⟩ := h
  exact consistent_run sched _ hC

theorem GossipRound.consistent (h : GossipRound ids C C') {n : Bytes}
    (hC : (C.nodes n).mem.Consistent) : (C'.nodes n).mem.Consistent := by
  obtain ⟨sched, -, -, rfl⟩ := h
  exact consistent_run sched _ hC

end join

section readmission
variable {x : Bytes} {peers seeds : List Bytes} {b : ℤ} {addr : Bytes → Bytes} {C : Cluster}
  {D : ℕ → Cluster} {k : ℕ}

/-- With every peer among the seeds all views are full after the first round. -/
theorem full_of_all_seeds (hL : Live (x :: peers) b addr C)
    (hlive : ∀ n ∈ x :: peers, ∀ p ∈ peers, ¬ (C.nodes n).mem.Tombstoned p)
    (hseeds : ∀ seed ∈ seeds, ∃ p ∈ x :: peers, p ≠ x ∧ seed = addr p)
    (hjoin : JoinRun (x :: peers) ⟨x, addr x⟩ seeds C (D 0))
    (hround : GossipRound (x :: peers) (D 0) (D 1)) (hall : ∀ p ∈ peers, addr p ∈ seeds) :
    ∀ n ∈ x :: peers, ∀ id ∈ x :: peers, id ∈ ((D 1).nodes n).mem.members := by
  obtain ⟨hL0, hknow, htomb, -⟩ := JoinRun.spec hL List.mem_cons_self hseeds hjoin
  obtain ⟨hL1, hspread, hgrow, -, -⟩ := hround.spreads hL0
  -- the node knows everybody when the round begins, and everybody knows the node
  have hfull : ∀ id ∈ x :: peers, id ∈ ((D 0).nodes x).mem.members := by
    intro id hid
    rcases List.mem_cons.mp hid with rfl | hid
    · exact hL0.self_mem List.mem_cons_self
    · exact (hknow id (List.mem_cons_of_mem _ hid) (hall id hid)).2
        (hlive x List.mem_cons_self id hid)
  intro n hn id hid
  rcases List.mem_cons.mp hid with rfl | hid'
  · rcases List.mem_cons.mp hn with rfl | hn'
    · exact hL1.self_mem hn
    · exact hgrow n hn _ (hknow n hn (hall n hn')).1
  · refine hspread x List.mem_cons_self n hn (hfull n hn) id (hfull id hid) (fun ht => ?_)
    exact hlive n hn id hid' (htomb n hn id ht)

/-- A peer that was not a seed keeps its tombstone, and the node out of its view. -/
theorem absent_of_not_seed (hL : Live (x :: peers) b addr C) {p : Bytes} (hp : p ∈ peers)
    (hcons : (C.nodes p).mem.Consistent) (hremoved : (C.nodes p).mem.Tombstoned x)
    (hseeds : ∀ seed ∈ seeds, ∃ p ∈ x :: peers, p ≠ x ∧ seed = addr p)
    (hjoin : JoinRun (x :: peers) ⟨x, addr x⟩ seeds C (D 0))
    (hrounds : ∀ r < k, GossipRound (x :: peers) (D r) (D (r + 1))) (hps : addr p ∉ seeds) :
    x ∉ ((D k).nodes p).mem.members := by
  have hp' := List.mem_cons_of_mem x hp
  obtain ⟨hL0, -, -, hkept⟩ := JoinRun.spec hL List.mem_cons_self hseeds hjoin
  have htomb : ((D k).nodes p).mem.Tombstoned x :=
    ((rounds_live hL0 hrounds le_rfl).2 p hp' x).mpr (hkept p hp' hps hremoved)
  have hc : ∀ r ≤ k, ((D r).nodes p).mem.Consistent := by
    intro r
    induction r with
    | zero => exact fun _ => hjoin.consistent hcons
    | succ r ih => exact fun hr => (hrounds r hr).consistent (ih (Nat.le_of_succ_le hr))
  intro hx
  rw [Membership.Tombstoned, (hc k le_rfl).alive x hx] at htomb
  cases htomb

/-- **Readmission**: after the join and as many rounds as there are peers, or more, every view contains
the node and all tables are equal, exactly when every peer was among the seeds. -/
theorem rejoin_readmitted_iff (hnodup : (x :: peers).Nodup) (hL : Live (x :: peers) b addr C)
    (hcons : ∀ p ∈ peers, (C.nodes p).mem.Consistent)
    (hremoved : ∀ p ∈ peers, (C.nodes p).mem.Tombstoned x)
    (hlive : ∀ n ∈ x :: peers, ∀ p ∈ peers, ¬ (C.nodes n).mem.Tombstoned p)
    (hne : seeds ≠ []) (hseeds : ∀ seed ∈ seeds, ∃ p ∈ peers, seed = addr p)
    (hjoin : JoinRun (x :: peers) ⟨x, addr x⟩ seeds C (D 0))
    (hrounds : ∀ r < k, GossipRound (x :: peers) (D r) (D (r + 1))) (hk : peers.length ≤ k) :
    ((∀ n ∈ x :: peers, x ∈ ((D k).nodes n).mem.members) ∧
      ∀ n ∈ x :: peers, ∀ n' ∈ x :: peers,
        ((D k).nodes n).mem.table = ((D k).nodes n').mem.table) ↔
    ∀ p ∈ peers, addr p ∈ seeds := by
  have hseeds' : ∀ seed ∈ seeds, ∃ p ∈ x :: peers, p ≠ x ∧ seed = addr p := by
    intro seed hseed
    obtain ⟨p, hp, rfl⟩ := hseeds seed hseed
    exact ⟨p, List.mem_cons_of_mem _ hp, fun e => (List.nodup_cons.mp hnodup).1 (e ▸ hp), rfl⟩
  constructor
  · rintro ⟨hall, -⟩ p hp
    by_contra hps
    exact absent_of_not_seed hL hp (hcons p hp) (hremoved p hp) hseeds' hjoin hrounds hps
      (hall p (List.mem_cons_of_mem _ hp))
  · intro hall
    have hk1 : 1 ≤ k := by
      obtain ⟨seed, hseed⟩ := List.exists_mem_of_ne_nil seeds hne
      obtain ⟨p, hp, -⟩ := hseeds seed hseed
      exact (List.length_pos_of_mem hp).trans_le hk
    have hL0 := (JoinRun.spec hL List.mem_cons_self hseeds' hjoin).1
    have hfull1 := full_of_all_seeds hL hlive hseeds' hjoin (hrounds 0 hk1) hall
    have hfull : ∀ n ∈ x :: peers, ∀ id ∈ x :: peers, id ∈ ((D k).nodes n).mem.members := by
      intro n hn
      rw [rounds_full hL0 hrounds hk1 le_rfl hn (hfull1 n hn)]
      exact hfull1 n hn
    have hLk := (rounds_live hL0 hrounds le_rfl).1
    refine ⟨fun n hn => hfull n hn x List.mem_cons_self, fun n hn n' hn' => ?_⟩
    rw [hLk.table_of_full hnodup hn (hfull n hn), hLk.table_of_full hnodup hn' (hfull n' hn')]

end readmission

/-! ### Three nodes, one of which was removed -/

/-- The peers `a` and `b` have removed `x`, which starts afresh. -/
def expelled : Cluster :=
  talkers [[120], [97], [98]] (fun n =>
    if n = [120] then Membership.new ⟨n, n⟩ 1
    else (((Membership.new ⟨n, n⟩ 1).merge
      [⟨[120], [120]⟩, ⟨[97], [97]⟩, ⟨[98], [98]⟩]).2.removeLocked [120] 0).2)

/-- The state after `x` has joined through the seeds, while nobody else does anything. -/
def afterJoin (seeds : List Bytes) : Cluster :=
  (Interleave.Conf.run exec (List.replicate 30 (0, Choice.still))
    (Conf.init expelled (joinPool ⟨[120], [120]⟩ seeds (fun _ => none)))).world.state

theorem joinRun_afterJoin {seeds : List Bytes}
    (h : ((Interleave.Conf.run exec (List.replicate 30 (0, Choice.still))
      (Conf.init expelled (joinPool ⟨[120], [120]⟩ seeds (fun _ => none)))).pool 0).returned = true) :
    JoinRun [[120], [97], [98]] ⟨[120], [120]⟩ seeds expelled (afterJoin seeds) := by
  refine ⟨fun _ => none, List.replicate 30 (0, Choice.still), fun _ _ h => (by cases h), ?_, h, rfl⟩
  refine Meets.of_choices (P := fun c : Choice => c.lost = false) (fun ic hic => ?_) _
  rw [List.eq_of_mem_replicate hic]
  rfl

theorem expelled_live : Live [[120], [97], [98]] 1 id expelled := by
  refine talkers_live (by decide) (fun n _ => ?_) (fun n _ => ?_) (fun n hn => ?_)
  · split <;> simp
  · split <;> simp
  · split
    · exact Membership.Over.new hn rfl 1
    · refine ((Membership.Over.new hn rfl 1).merge (fun mem hmem => ?_)).removeLocked [120] 0
      simp only [List.mem_cons, List.not_mem_nil, or_false] at hmem
      rcases hmem with rfl | rfl | rfl
      · exact ⟨by decide, rfl⟩
      · exact ⟨by decide, rfl⟩
      · exact ⟨by decide, rfl⟩

theorem expelled_rounds (seeds : List Bytes)
    (h : ∀ r < 3, ∀ i < 3, ((Interleave.Conf.run exec (inTurn 3)
      (Conf.init ((afterRound [[120], [97], [98]])^[r] (afterJoin seeds))
        (roundPool [[120], [97], [98]]))).pool i).returned = true) :
    ∀ r < 3, GossipRound [[120], [97], [98]]
      ((afterRound [[120], [97], [98]])^[r] (afterJoin seeds))
      ((afterRound [[120], [97], [98]])^[r + 1] (afterJoin seeds)) := by
  intro r hr
  rw [Function.iterate_succ_apply']
  exact gossipRound_afterRound (h r hr)

/-- `x` joins through `a` only.  After three rounds `a` and `x` have `x` in their views, and `b` has
not. -/
theorem unseeded_peer_ignores :
    let D := fun r => (afterRound [[120], [97], [98]])^[r] (afterJoin [[97]])
    JoinRun [[120], [97], [98]] ⟨[120], [120]⟩ [[97]] expelled (D 0) ∧
    (∀ r < 3, GossipRound [[120], [97], [98]] (D r) (D (r + 1))) ∧
    [120] ∈ ((D 3).nodes [97]).mem.members ∧ [120] ∈ ((D 3).nodes [120]).mem.members ∧
    [120] ∉ ((D 3).nodes [98]).mem.members := by
  intro D
  refine ⟨joinRun_afterJoin (by decide +kernel), expelled_rounds [[97]] (by decide +kernel), ?_⟩
  decide +kernel

/-- Through both peers `x` is readmitted by `b` as well. -/
theorem rejoin_readmitted_both :
    [120] ∈ (((afterRound [[120], [97], [98]])^[3] (afterJoin [[97], [98]])).nodes [98]).mem.members := by
  have hcons : ∀ p ∈ ([[97], [98]] : List Bytes), (expelled.nodes p).mem.Consistent := by
    intro p hp
    have hne : p ≠ [] := fun e => by subst e; simp at hp
    simp only [expelled, talkers]
    split
    · exact Membership.Consistent.new hne 1
    · exact ((Membership.Consistent.new hne 1).merge _).removeLocked _ _
  have hremoved : ∀ p ∈ ([[97], [98]] : List Bytes), (expelled.nodes p).mem.Tombstoned [120] := by
    unfold Membership.Tombstoned
    decide +kernel
  have hlive : ∀ n ∈ ([[120], [97], [98]] : List Bytes), ∀ p ∈ ([[97], [98]] : List Bytes),
      ¬ (expelled.nodes n).mem.Tombstoned p := by
    unfold Membership.Tombstoned
    decide +kernel
  have h := (rejoin_readmitted_iff
    (D := fun r => (afterRound [[120], [97], [98]])^[r] (afterJoin [[97], [98]])) (k := 3)
    (by decide) expelled_live hcons hremoved hlive (by decide) (by decide)
    (joinRun_afterJoin (by decide +kernel)) (expelled_rounds [[97], [98]] (by decide +kernel))
    (by decide)).mpr (by decide)
  exact h.1 [98] (by decide)

end Medusa
