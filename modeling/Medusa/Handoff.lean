import Medusa.Node
import Medusa.Schedules
import Medusa.Writes

/-! # Migration does not destroy the only copy

`Migrate` drops an entry only after pushing it to every holder of the table it is given.  The
drop is justified when another node acknowledged a put of that entry during the pass, or the entry
had less than a millisecond left (`Justified`).

* `migrate_obeys`: the contract of a pass.  Where every partition has a holder, each entry handed
  to `dropMigratedLogged` is justified by the pass's own history.
* `migrate_drops_acked_iff`: **the pass is safe, for every store, failing sends, cancellation
  and concurrent client operations, exactly when every partition of the table has a holder**.
* `leave_alone_destroys`: a node that leaves a cluster of one hands its data to the table of no
  members, and destroys it. -/

namespace Medusa

open Medusa.Partition Store Interleave Service Contract

variable {n : Bytes} {tbl : Table} {p : PartitionId}

/-! ### Acknowledgements -/

/-- In the history `h`, node `x` acknowledged a put of `data` under `r`. -/
def Acked (h : List Event) (x : Bytes) (r : Ref) (data : Bytes) : Prop :=
  ∃ (i : ℕ) (expireAt : Int64) (created : Bool),
    [(⟨i, .reply x, true⟩ : Event), ⟨i, .on x (.put r.1 r.2 data expireAt), created⟩] <:+: h

/-- Node `n` may drop the entry: another node acknowledged it, or it was about to lapse. -/
def Justified (n : Bytes) (h : List Event) (d : Entry) : Prop :=
  (∃ x, x ≠ n ∧ Acked h x d.ref d.value) ∨ ∃ now, ReadClock h n now ∧ lapses d.expireAt now = true

theorem Justified.mono {h h' : List Event} {d : Entry} (hj : Justified n h d)
    (hs : h <:+ h') : Justified n h' d := by
  rcases hj with ⟨x, hx, i, expireAt, created, hi⟩ | ⟨now, hr, hl⟩
  · exact Or.inl ⟨x, hx, i, expireAt, created, hi.trans hs.isInfix⟩
  · exact Or.inr ⟨now, hr.mono hs.subset, hl⟩

/-! ### The contract of a pass -/

/-- Thread `0` touches the store of `n` only by dropping justified entries. -/
def Keeps (n : Bytes) (h : List Event) : Action → Prop
  | .on m (.drop _ entries) => m = n ∧ ∀ d ∈ entries, Justified n h d
  | .on m a => m = n → a.Reads
  | _ => True

/-- What a thread learns when memberships and listeners stay as they are. -/
def Told (n : Bytes) (M : Membership) (net : Bytes → Option Bytes) : (e : Action) → e.Resp → Prop
  | .connect addr, r => ∀ x, r = some x → net addr = some x
  | .on m (.addrOf id), r => m = n → r = M.addrOf id
  | _, _ => True

/-- Calm threads; thread `0` keeps what it has not handed over. -/
def handoff (n : Bytes) (M : Membership) (net : Bytes → Option Bytes) :
    Contract Action.Resp where
  pre i h e := e.Calm ∧ (i = 0 → Keeps n h e)
  post _ _ e r := Told n M net e r

/-- The world of a pass: membership and listeners fixed, clock readings in the past. -/
structure Steady (n : Bytes) (M : Membership) (net : Bytes → Option Bytes) (w : World) : Prop where
  listen : w.state.listen = net
  mem : (w.state.nodes n).mem = M
  clock : ClockOk n w

theorem handoff_sound (n : Bytes) (M : Membership) (net : Bytes → Option Bytes) :
    (handoff n M net).Sound exec (Steady n M net) (fun _ _ _ _ => True) := by
  intro i e c w hw _ hpre
  refine ⟨⟨?_, ?_, hw.clock.next i e c⟩, ?_⟩
  · rw [World.next_state, hpre.1.listen, hw.listen]
  · rw [World.next_state, hpre.1.mem, hw.mem]
  · cases e with
    | connect addr =>
      intro x hx
      change (if c.lost then none else w.state.listen addr) = some x at hx
      rw [hw.listen] at hx
      split at hx
      · simp at hx
      · exact hx
    | on m a =>
      cases a with
      | addrOf id =>
        intro hm
        subst hm
        change ((w.state.nodes m).tick c.tick).mem.addrOf id = _
        rw [← hw.mem]
        rfl
      | _ => trivial
    | _ => trivial

/-! ### The pass keeps it -/

section pass
variable {M : Membership} {net : Bytes → Option Bytes}

/-- A push that returns without an error was acknowledged by the node it reached. -/
theorem sendPut_obeys {addr : Bytes} (hx : ∀ x, net addr = some x → x ≠ n)
    (name key value : Bytes) (ttlMs : Int64) (h : List Event) :
    (handoff n M net).Obeys 0
      (fun res h' => h <:+ h' ∧ ∀ b, res = .ok b → ∃ x, x ≠ n ∧ Acked h' x (name, key) value)
      (sendPut addr name key value ttlMs true) h := by
  refine Obeys.step ⟨trivial, fun _ => trivial⟩ (fun r hr => ?_)
  cases r with
  | none => exact ⟨List.suffix_cons _ _, fun b hb => by simp at hb⟩
  | some x =>
    have hne := hx x (hr x rfl)
    refine ⟨⟨trivial, fun _ hm => absurd hm hne⟩, fun now _ => ?_⟩
    refine ⟨⟨trivial, fun _ hm => absurd hm hne⟩, fun created _ => ?_⟩
    refine ⟨⟨trivial, fun _ => trivial⟩, fun arrived _ => ⟨?_, fun b hb => ?_⟩⟩
    · exact ((((List.suffix_cons _ _).trans (List.suffix_cons _ _)).trans
        (List.suffix_cons _ _)).trans (List.suffix_cons _ _))
    · cases arrived with
      | false => simp at hb
      | true => exact ⟨x, hne, 0, _, created, ⟨[], _, rfl⟩⟩

theorem pushEntries_obeys {addr : Bytes} (hx : ∀ x, net addr = some x → x ≠ n) {now : ℕ}
    (es : List Entry) (pushedOK : Bool) {h : List Event} (hnow : ReadClock h n now) :
    (handoff n M net).Obeys 0
      (fun res h' => h <:+ h' ∧ (res = true → pushedOK = true ∧ ∀ d ∈ es, Justified n h' d))
      (pushEntries addr now es pushedOK) h := by
  induction es generalizing pushedOK h with
  | nil => exact ⟨List.suffix_refl _, fun hr => ⟨hr, by simp⟩⟩
  | cons d es ih =>
    unfold pushEntries
    split
    · next hl =>
      refine (ih pushedOK hnow).mono ?_
      rintro res h' ⟨hs, hq⟩
      refine ⟨hs, fun hr => ⟨(hq hr).1, ?_⟩⟩
      exact List.forall_mem_cons.mpr ⟨Or.inr ⟨now, hnow.mono hs.subset, hl⟩, (hq hr).2⟩
    · refine Obeys.bind ((sendPut_obeys hx _ _ _ _ h).mono ?_)
      rintro (err | b) h₁ ⟨hs₁, hack⟩
      · refine (ih false (hnow.mono hs₁.subset)).mono ?_
        rintro res h' ⟨hs, hq⟩
        exact ⟨hs₁.trans hs, fun hr => absurd (hq hr).1 (by simp)⟩
      · refine (ih pushedOK (hnow.mono hs₁.subset)).mono ?_
        rintro res h' ⟨hs, hq⟩
        refine ⟨hs₁.trans hs, fun hr => ⟨(hq hr).1, ?_⟩⟩
        obtain hd : Justified n h₁ d := Or.inl (hack b rfl)
        exact List.forall_mem_cons.mpr ⟨hd.mono hs, (hq hr).2⟩

variable (hnet : ∀ id addr, id ≠ n → M.addrOf id = some addr → net addr ≠ some n)
include hnet

theorem pushTargets_obeys (es : List Entry) {ids : List Bytes} (hids : ∀ id ∈ ids, id ≠ n)
    (pushedOK : Bool) (h : List Event) :
    (handoff n M net).Obeys 0
      (fun res h' => h <:+ h' ∧
        (res = true → pushedOK = true ∧ (ids ≠ [] → ∀ d ∈ es, Justified n h' d)))
      (pushTargets n es ids pushedOK) h := by
  induction ids generalizing pushedOK h with
  | nil => exact ⟨List.suffix_refl _, fun hr => ⟨hr, by simp⟩⟩
  | cons id ids ih =>
    have hih := ih (fun x hx => hids x (List.mem_cons_of_mem _ hx))
    unfold pushTargets
    refine Obeys.step ⟨trivial, fun _ _ => trivial⟩ (fun r hr => ?_)
    cases r with
    | none =>
      refine (hih false _).mono (fun res h' ⟨hs, hq⟩ => ⟨(List.suffix_cons _ _).trans hs, ?_⟩)
      exact fun hr => absurd (hq hr).1 (by simp)
    | some addr =>
      have hx : ∀ x, net addr = some x → x ≠ n := by
        rintro x hx rfl
        exact hnet id addr (hids id List.mem_cons_self) (hr rfl).symm hx
      refine Obeys.step ⟨trivial, fun _ _ => trivial⟩ (fun now _ => ?_)
      have hnow : ReadClock (⟨0, .on n .nowNano, now⟩ :: ⟨0, .on n (.addrOf id), some addr⟩ :: h)
          n now := ⟨0, List.mem_cons_self⟩
      refine Obeys.bind ((pushEntries_obeys hx es pushedOK hnow).mono ?_)
      rintro ok h₁ ⟨hs₁, hq₁⟩
      have hs₀ : h <:+ h₁ := ((List.suffix_cons _ _).trans (List.suffix_cons _ _)).trans hs₁
      refine (hih ok h₁).mono (fun res h' ⟨hs, hq⟩ => ⟨hs₀.trans hs, fun hres => ?_⟩)
      obtain ⟨hok, hd⟩ := hq₁ (hq hres).1
      exact ⟨hok, fun _ d hmem => (hd d hmem).mono hs⟩

omit hnet in
/-- Where a partition has a holder, `n` is one or there is another one to push to. -/
theorem targets_ne_nil (hp : tbl.ownerOf p ≠ [] ∨ tbl.backupsOf p ≠ [])
    (hself : selfHolds n tbl p = false) :
    targets n tbl p ≠ [] := by
  simp only [selfHolds, Bool.or_eq_false_iff, decide_eq_false_iff_not] at hself
  obtain ⟨ho, hb⟩ := hself
  unfold targets
  by_cases hown : tbl.ownerOf p = []
  · obtain ⟨b, l, hl⟩ := List.exists_cons_of_ne_nil (hp.resolve_left (fun h => h hown))
    have hbn : b ≠ n := fun h => hb (by rw [hl, h]; exact List.mem_cons_self)
    simp [hl, hbn]
  · simp [hown, ho]

omit hnet in
theorem targets_ne_self {id : Bytes} (h : id ∈ targets n tbl p) :
    id ≠ n := by
  unfold targets at h
  rcases List.mem_append.mp h with h | h
  · split at h
    · next ho => rw [List.mem_singleton.mp h]; exact ho.2
    · simp at h
  · exact of_decide_eq_true (List.mem_filter.mp h).2

theorem migratePartition_obeys (hp : tbl.ownerOf p ≠ [] ∨ tbl.backupsOf p ≠ []) (h : List Event) :
    (handoff n M net).Obeys 0 (fun _ _ => True) (migratePartition n tbl p) h := by
  unfold migratePartition
  refine Obeys.step ⟨trivial, fun _ _ => trivial⟩ (fun snap _ => ?_)
  unfold handOver
  split
  · trivial
  · refine Obeys.bind ((pushTargets_obeys hnet _ (fun id hid => targets_ne_self hid)
      true _).mono ?_)
    rintro ok h₁ ⟨-, hq⟩
    split
    · next hdrop =>
      rw [Bool.and_eq_true, Bool.not_eq_true'] at hdrop
      have hj := (hq hdrop.2).2 (targets_ne_nil hp hdrop.1)
      exact ⟨⟨trivial, fun _ => ⟨rfl, hj⟩⟩, fun _ _ => trivial⟩
    · trivial

/-- A pass keeps the contract when every partition of the table has a holder. -/
theorem migrate_obeys (hp : ∀ p, tbl.ownerOf p ≠ [] ∨ tbl.backupsOf p ≠ []) (h : List Event) :
    (handoff n M net).Obeys 0 (fun _ _ => True) (migrate n tbl) h := by
  unfold migrate
  generalize List.finRange Count = ps
  induction ps generalizing h with
  | nil => trivial
  | cons p ps ih =>
    refine Obeys.step ⟨trivial, fun _ => trivial⟩ (fun stop _ => ?_)
    cases stop with
    | true => trivial
    | false =>
      exact Obeys.bind ((migratePartition_obeys hnet (hp p) _).mono (fun _ h' _ => ih h'))

end pass

/-! ### Every removal is justified -/

/-- When thread `0` removes an entry of `n`, another node acknowledged a put of the same name, key
and value during the pass, or the entry had less than a millisecond left. -/
def RemovalJustified (n : Bytes) (i : ℕ) (e : Action) (c : Choice) (w : World) : Prop :=
  i = 0 → ∀ p r v, (w.state.nodes n).store.find p r = some v →
    ((exec e c w.state).2.nodes n).store.find p r ≠ some v →
    (∃ x, x ≠ n ∧ Acked (w.own 0) x r v.data) ∨
      (v.expireAt ≠ 0 ∧ v.expireAt.toInt < ((exec e c w.state).2.nodes n).clock + 1000000)

/-- Thread `0` runs the pass, the others run client operations. -/
def passPool (procs : Registry) (n : Bytes) (tbl : Table) (ops : ℕ → Write) : ℕ → Prog Unit
  | 0 => do
      let _ ← migrate n tbl
      return ()
  | j + 1 => (ops j).prog procs

theorem Keeps.justified {e : Action} {c : Choice} {w : World} (hk : Keeps n (w.own 0) e) (hcalm : e.Calm)
    (hclock : ClockOk n w) :
    RemovalJustified n 0 e c w := by
  intro _ p r v hv hgone
  cases e with
  | on m a =>
    by_cases hm : n = m
    · subst hm
      rw [exec_on_self] at hgone
      have hread : ∀ {a : NodeAction}, a.Reads →
          (((w.state.nodes n).tick c.tick).exec c a).2.store.find p r = some v := by
        intro a ha
        rw [ha.store]
        exact hv
      cases a with
      | drop q entries =>
        change ((w.state.nodes n).store.dropMigrated q entries).2.find p r ≠ some v at hgone
        rw [find_dropMigrated, hv] at hgone
        have hmem : entryOf r v ∈ entries := by
          by_contra hno
          apply hgone
          split <;> simp [Option.filter_some, hno]
        rcases hk.2 _ hmem with hack | ⟨now, hnow, hl⟩
        · exact Or.inl hack
        · refine Or.inr ?_
          simp only [lapses, Bool.and_eq_true, decide_eq_true_eq] at hl
          refine ⟨hl.1, (lt_of_remainingTTLms_le hl.1 hl.2).trans_le ?_⟩
          have hle := hclock now (hnow.mono (w.own_subset 0))
          rw [exec_on_clock]
          omega
      | _ => exact absurd (hread (hk rfl)) hgone
    · rw [exec_on_ne _ _ _ _ hm] at hgone
      exact absurd hv hgone
  | start | crash | close => exact hcalm.elim
  | storeThrough | deleteThrough =>
    refine absurd hv ?_
    simp only [exec] at hgone
    split at hgone <;> exact hgone
  | _ => exact absurd hv hgone

theorem pass_justified {procs : Registry} {C : Cluster}
    (hnet : ∀ id addr, id ≠ n → (C.nodes n).mem.addrOf id = some addr → C.listen addr ≠ some n)
    (hp : ∀ p, tbl.ownerOf p ≠ [] ∨ tbl.backupsOf p ≠ []) (ops : ℕ → Write) (sched : List (ℕ × Choice)) :
    Meets exec (RemovalJustified n) sched (Conf.init C (passPool procs n tbl ops)) := by
  have hobeys : ∀ j, (handoff n (C.nodes n).mem C.listen).Obeys j (fun _ _ => True)
      (passPool procs n tbl ops j) [] := by
    intro j
    cases j with
    | zero => exact Obeys.bind ((migrate_obeys hnet hp []).mono (fun _ _ _ => trivial))
    | succ j =>
      refine Obeys.of_all (K := handoff n _ _) ((ops j).calm procs) ?_ []
      exact fun h e he => ⟨he, fun h0 => absurd h0 (Nat.succ_ne_zero j)⟩
  have hinit : Steady n (C.nodes n).mem C.listen ⟨C, []⟩ :=
    ⟨rfl, rfl, fun now ⟨i, hi⟩ => by simp at hi⟩
  obtain ⟨-, hmeets, -⟩ := (handoff_sound n _ _).run (f := Conf.init C (passPool procs n tbl ops))
    hinit hobeys (Meets.of_forall (fun _ _ _ _ => trivial) sched _)
  refine hmeets.mono (fun i e c w ⟨hw, _, hpre⟩ hi => ?_)
  subst hi
  exact (hpre.2 rfl).justified hpre.1 hw.clock rfl

/-! ### A partition without holders -/

/-- A cluster whose every node has membership `M` and stores one entry, in partition `p`. -/
def lonely (M : Membership) (net : Bytes → Option Bytes) (p : PartitionId) : Cluster where
  nodes _ := ⟨0, M, Store.empty.set p ([109], [107]) ⟨[118], 0⟩, none, false, [], fun _ => .none⟩
  listen := net
  backing _ := none

theorem not_acked_of_looked {h : List Event} {n x : Bytes} {r : Ref} {data : Bytes}
    (hl : ∀ ev ∈ h, Looked n ev) : ¬ Acked h x r data := by
  rintro ⟨i, expireAt, created, hi⟩
  have hmem := hi.subset (List.mem_cons_self)
  rcases hl _ hmem with h1 | ⟨p, h1⟩ <;> simp at h1

theorem lonely_snapshot (M : Membership) (net : Bytes → Option Bytes) (p : PartitionId)
    (n : Bytes) :
    ((lonely M net p).nodes n).store.snapshotPartition p ((lonely M net p).nodes n).clock =
      [⟨[109], [107], [118], 0⟩] := by
  have hs : ((lonely M net p).nodes n).store.shards p =
      (∅ : Shard).insert ([109], [107]) ⟨[118], 0⟩ := Function.update_self _ _ _
  rw [snapshotPartition, hs]
  rfl

theorem lonely_empty (M : Membership) (net : Bytes → Option Bytes) {p q : PartitionId} (h : q ≠ p)
    (n : Bytes) : ((lonely M net p).nodes n).store.shards q = ∅ := Function.update_of_ne h _ _

/-- Without holders, the entries are dropped right away. -/
theorem handOver_unheld {entries : List Entry} (hself : selfHolds n tbl p = false)
    (htargets : targets n tbl p = []) (hne : entries ≠ []) :
    handOver n tbl p entries = .act (.on n (.drop p entries)) (fun _ => .done ()) := by
  rw [handOver, if_neg hne, htargets, hself]
  rfl

/-- A pass over a table without a holder for `p` reaches the drop of the entry of `p`, having only
looked at the store. -/
theorem run_unheld {i : ℕ} {k : Bool → Prog Unit} {M : Membership} {net : Bytes → Option Bytes}
    (hself : selfHolds n tbl p = false) (htargets : targets n tbl p = []) {f : Conf Unit}
    (hf : f.world = ⟨lonely M net p, []⟩) (hpool : f.pool i = (migrate n tbl >>= k)) :
    ∃ (sched : List (ℕ × Choice)) (w : World), w.state = lonely M net p ∧
      (∀ ev ∈ w.past, Looked n ev) ∧ ∀ P, Meets exec P sched f →
        P i (.on n (.drop p [⟨[109], [107], [118], 0⟩])) .still w := by
  obtain ⟨pre, post, hps⟩ := List.append_of_mem (List.mem_finRange p)
  have hnot : p ∉ pre := by
    have hnd := List.nodup_finRange Count
    rw [hps, List.nodup_append] at hnd
    exact fun hp => hnd.2.2 p hp p List.mem_cons_self rfl
  rw [migrate, hps] at hpool
  have hempty : ∀ q ∈ pre, (f.world.state.nodes n).store.shards q = ∅ := by
    intro q hq
    rw [hf]
    exact lonely_empty M net (fun h : q = p => hnot (h ▸ hq)) n
  obtain ⟨evs, hevs, hrun⟩ := run_skip pre hpool hempty
  have hrun' := run_snapshot (i := i) (f := Conf.run exec (List.replicate (2 * pre.length)
    (i, .still)) f) (p := p) (by rw [hrun]; exact Function.update_self _ _ _)
  rw [← Conf.run_append, hrun] at hrun'
  simp only [hf, lonely_snapshot, List.append_nil] at hrun'
  rw [show orderQueueMetaLast [⟨[109], [107], [118], 0⟩] = [⟨[109], [107], [118], 0⟩] by decide,
    handOver_unheld hself htargets (by simp)] at hrun'
  refine ⟨List.replicate (2 * pre.length) (i, .still) ++ [(i, .still), (i, .still)] ++
    [(i, .still)], (Conf.run exec (List.replicate (2 * pre.length) (i, .still) ++
      [(i, .still), (i, .still)]) f).world, by rw [hrun'], ?_, fun P hP => ?_⟩
  · rw [hrun']
    intro ev hev
    rcases List.mem_cons.mp hev with rfl | hev
    · exact Or.inr ⟨p, rfl⟩
    · rcases List.mem_cons.mp hev with rfl | hev
      · exact Or.inl rfl
      · exact hevs ev hev
  · refine (Meets.append.mp hP).2.1 _ (fun _ => migrateLoop n tbl post >>= k) ?_
    rw [hrun']
    exact Function.update_self _ _ _

/-- Without a holder for some partition, the pass removes entries unjustified. -/
theorem pass_unjustified (procs : Registry) (hn : n ≠ []) (M : Membership) (net : Bytes → Option Bytes)
    (ho : tbl.ownerOf p = []) (hb : tbl.backupsOf p = []) :
    ∃ sched, ¬ Meets exec (RemovalJustified n) sched
      (Conf.init (lonely M net p) (passPool procs n tbl (fun _ => .idle))) := by
  have hself : selfHolds n tbl p = false := by simp [selfHolds, ho, hb, Ne.symm hn]
  have htargets : targets n tbl p = [] := by simp [targets, ho, hb]
  obtain ⟨sched, w, hstate, hpast, hmeets⟩ := run_unheld (i := 0) (k := fun _ => pure ())
    hself htargets (f := Conf.init (lonely M net p) (passPool procs n tbl (fun _ => .idle))) rfl rfl
  refine ⟨sched, fun hP => ?_⟩
  have hfind : (w.state.nodes n).store.find p ([109], [107]) = some ⟨[118], 0⟩ := by
    rw [hstate]
    exact (find_set _ _ _ _ _ _).trans (if_pos ⟨rfl, rfl⟩)
  have hgone : ((exec (.on n (.drop p [⟨[109], [107], [118], 0⟩])) .still w.state).2.nodes n).store.find
      p ([109], [107]) = none := by
    rw [exec_on_self]
    change ((w.state.nodes n).store.dropMigrated p _).2.find p _ = none
    rw [find_dropMigrated, if_pos rfl, hfind]
    rfl
  rcases hmeets _ hP rfl p _ _ hfind (by rw [hgone]; simp) with ⟨x, -, hack⟩ | ⟨h0, -⟩
  · exact not_acked_of_looked (fun ev hev => hpast ev (w.own_subset 0 hev)) hack
  · exact h0 rfl

/-- **A pass removes only what another node has, exactly when every partition has a holder.**  The
left side ranges over all stores of all nodes, all schedules with lost messages, cancellations and
clock ticks, and all client operations running at the same time; the node's membership `M` and
the listeners `net` are fixed, and no other member's address leads back to the node. -/
theorem migrate_drops_acked_iff (procs : Registry) {n : Bytes} (hn : n ≠ []) (tbl : Table)
    (M : Membership) (net : Bytes → Option Bytes)
    (hnet : ∀ id addr, id ≠ n → M.addrOf id = some addr → net addr ≠ some n) :
    (∀ (C : Cluster) (ops : ℕ → Write) (sched : List (ℕ × Choice)), (C.nodes n).mem = M →
      C.listen = net →
      Meets exec (RemovalJustified n) sched (Conf.init C (passPool procs n tbl ops))) ↔
    ∀ p, tbl.ownerOf p ≠ [] ∨ tbl.backupsOf p ≠ [] := by
  constructor
  · intro hall p
    by_contra hp
    rw [not_or, not_not, not_not] at hp
    obtain ⟨sched, hno⟩ := pass_unjustified procs hn M net hp.1 hp.2
    exact hno (hall (lonely M net p) _ sched rfl rfl)
  · intro hp C ops sched hM hC
    subst hM hC
    exact pass_justified hnet hp ops sched

/-- The view of node `a` of the cluster of `a` and `b`. -/
def pairView : Membership := ((Membership.new ⟨[97], [97]⟩ 1).merge [⟨[98], [98]⟩]).2

theorem pairView_over : pairView.Over [[97], [98]] id :=
  (Membership.Over.new (by simp) rfl 1).merge (by simp)

/-- Nodes with this view, which store one entry; every address is the id of its node. -/
def pairStores : Cluster where
  nodes _ := ⟨0, pairView, Store.empty.set (forKey [114]) ([109], [114]) ⟨[118], 0⟩, none, false, [],
    fun _ => .none⟩
  listen := some
  backing _ := none

/-- Leaving a cluster of two: every partition has a holder in the table without the leaver. -/
theorem migrate_drops_acked_iff_leaver :
    Meets exec (RemovalJustified [97]) (List.replicate 600 (0, .still)) (Conf.init pairStores
      (passPool (fun _ => none) [97] (pairView.tableWithout [97]) (fun _ => .idle))) := by
  refine (migrate_drops_acked_iff (fun _ => none) (by decide) _ pairView some ?_).mpr ?_ pairStores
    _ _ rfl rfl
  · intro id addr hid haddr
    obtain ⟨-, rfl⟩ := pairView_over.addrOf haddr
    simpa using hid
  · intro p
    refine Or.inl ?_
    rw [show pairView.tableWithout [97] = newTable [[98]] 1 from rfl, newTable_ownerOf]
    exact List.cons_ne_nil _ _

/-- A cluster of one, which stores one entry. -/
def solo : Cluster where
  nodes _ := ⟨0, Membership.new ⟨[97], [97]⟩ 1,
    Store.empty.set (forKey [114]) ([109], [114]) ⟨[118], 0⟩, none, false, [], fun _ => .none⟩
  listen a := if a = [97] then some [97] else none
  backing _ := none

/-- Whether the action sends a message. -/
def Action.sends : Action → Bool
  | .connect _ => true
  | _ => false

/-- **Leaving a cluster of one destroys its data**: the table without the leaver has no members,
nothing is pushed, and the entry is dropped. -/
theorem leave_alone_destroys :
    let f := Conf.run exec (List.replicate 6 (0, .still)) (Conf.init solo (fun _ => Node.leave [97]))
    (solo.nodes [97]).store.find (forKey [114]) ([109], [114]) = some ⟨[118], 0⟩ ∧
    (f.world.state.nodes [97]).store.find (forKey [114]) ([109], [114]) = none ∧
    (f.world.past.all (fun ev => !ev.act.sends)) = true := by
  decide +kernel

end Medusa
