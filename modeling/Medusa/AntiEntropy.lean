import Medusa.PruneRace

/-! # Anti-entropy converges

A pass of `SyncBackups` that runs alone makes a backup that differs from the owner equal to it.

* `SyncInv`: what the pass keeps.  The backup has copies of what was pushed to it, and once pruned it
  has a copy of every entry of the owner that lasts, and nothing else.
* `sync_converges`: **after the pass the live entries of the backup are the lasting entries of the
  owner whose lifetimes fit its clock, and if all do the next pass finds equal digests and pushes
  nothing.**
* `copied_expiry_wraps`: a lifetime that does not fit is lost. -/

namespace Medusa

open Medusa.Partition Store Interleave Service Contract

/-- Node `o` knows the nodes of `ids` by their addresses, and they listen there. -/
structure Reaches (o : Bytes) (ids : List Bytes) (addr : Bytes → Bytes) (C : Cluster) : Prop where
  known : ∀ y ∈ ids, (C.nodes o).mem.addrOf y = some (addr y)
  listen : ∀ y ∈ ids, C.listen (addr y) = some y

variable {o y : Bytes} {ids : List Bytes} {addr : Bytes → Bytes} {C : Cluster}

/-- The pass of `o` alone. -/
def Reaches.sync (hR : Reaches o ids addr C) : Sync where
  owner := o
  ids := ids
  addr := addr
  table := (C.nodes o).mem.table
  follows q m := (C.nodes m).mem.table.ownerOf q ≠ m
  prompt _ := False
  placed := True
  addr_inj x hx z hz h := by
    have hx' := hR.listen x hx
    rw [h, hR.listen z hz] at hx'
    exact (Option.some.inj hx').symm

/-- Thread `0` runs a program, and the others nothing. -/
def soloPool {α : Type} [Inhabited α] (p : Prog α) : ℕ → Prog α
  | 0 => p
  | _ + 1 => return default

/-- The copy of entry `r` that node `y` has from the owner: with the lifetime that was left at `now`,
counted from `t` on. -/
structure Copied (S : Sync) (C : Cluster) (y : Bytes) (r : Ref) (C' : Cluster) (v : Value) (now t : ℕ) :
    Prop where
  owner : (C.nodes S.owner).store.find (routedPartition r.1 r.2) r = some v
  lasting : v.Lasting now
  sent : (C.nodes S.owner).clock ≤ now ∧ now ≤ (C'.nodes S.owner).clock
  taken : (C.nodes y).clock ≤ t ∧ t ≤ (C'.nodes y).clock
  copy : (C'.nodes y).store.find (routedPartition r.1 r.2) r =
    some ⟨v.data, expireFromTTL t (remainingTTLms v.expireAt now)⟩

/-- The owner had no lasting entry `r` at some time so far. -/
def Skipped (S : Sync) (C : Cluster) (r : Ref) (C' : Cluster) : Prop :=
  ∃ τ, τ ≤ (C'.nodes S.owner).clock ∧
    ∀ v, (C.nodes S.owner).store.find (routedPartition r.1 r.2) r = some v → ¬ v.Lasting τ

/-- What a pass that runs alone keeps, of partition `p` on node `y`. -/
structure SyncInv (S : Sync) (C : Cluster) (y : Bytes) (p : PartitionId) (w : World) : Prop where
  listen : w.state.listen = C.listen
  mem : ∀ n, (w.state.nodes n).mem = (C.nodes n).mem
  later : ∀ n, (C.nodes n).clock ≤ (w.state.nodes n).clock
  read : ∀ n now, ReadClock w.past n now →
    (C.nodes n).clock ≤ now ∧ now ≤ (w.state.nodes n).clock
  owner : (w.state.nodes S.owner).store = (C.nodes S.owner).store
  found : ∀ q r v, S.Found w.past q r v → (C.nodes S.owner).store.find q r = some v
  missed : ∀ r now ev, ev ∈ w.past → S.Misses (routedPartition r.1 r.2) r now ev →
    Skipped S C r w.state ∨
    ∃ v, (C.nodes S.owner).store.find (routedPartition r.1 r.2) r = some v ∧
      lapses v.expireAt now = true
  copied : ∀ r, routedPartition r.1 r.2 = p → Since (Sync.Pushes y r) (Sync.Prunes y) w.past →
    ∃ v now t, Copied S C y r w.state v now t
  pruned : Since (Sync.PrunesOf p y) (Sync.PutsIn p y) w.past → ∀ r, routedPartition r.1 r.2 = p →
    (∃ v now t, Copied S C y r w.state v now t) ∨
    ((w.state.nodes y).store.find p r = none ∧ Skipped S C r w.state)
  placed : Placed (C.nodes y).store → Placed (w.state.nodes y).store
  frame : ∀ q, (∀ ev ∈ w.past, Sync.Off q ev) → ∀ n r,
    (w.state.nodes n).store.find q r = (C.nodes n).store.find q r

/-! ### One step -/

section step
variable {S : Sync} {p : PartitionId} {r : Ref} {w : World} {e : Action} {c : Choice}

/-- A copy stays while the entry does. -/
theorem Copied.next {C' : Cluster} {v : Value} {now t : ℕ} (h : Copied S C y r C' v now t)
    (hfind : ((exec e c C').2.nodes y).store.find (routedPartition r.1 r.2) r =
      (C'.nodes y).store.find (routedPartition r.1 r.2) r) : Copied S C y r (exec e c C').2 v now t :=
  { h with
    sent := h.sent.imp_right fun hn => hn.trans (exec_clock_mono _ _ _ _)
    taken := h.taken.imp_right fun ht => ht.trans (exec_clock_mono _ _ _ _)
    copy := hfind.trans h.copy }

theorem Skipped.next {C' : Cluster} (h : Skipped S C r C') : Skipped S C r (exec e c C').2 := by
  obtain ⟨τ, hτ, hno⟩ := h
  exact ⟨τ, hτ.trans (exec_clock_mono _ _ _ _), hno⟩

namespace SyncInv

theorem read_next (hI : SyncInv S C y p w) (n : Bytes) (now : ℕ)
    (hr : ReadClock (w.next exec 0 e c).past n now) :
    (C.nodes n).clock ≤ now ∧ now ≤ ((w.next exec 0 e c).state.nodes n).clock := by
  obtain ⟨j, hj⟩ := hr
  rcases List.mem_cons.mp hj with heq | hmem
  · injection heq with _ he hresp
    subst he
    rw [World.next_state, exec_on_clock]
    obtain rfl : now = (w.state.nodes n).clock + c.tick := eq_of_heq hresp
    exact ⟨(hI.later n).trans (Nat.le_add_right _ _), le_rfl⟩
  · exact (hI.read n now ⟨j, hmem⟩).imp_right fun h => h.trans (exec_clock_mono _ _ _ _)

/-- The pass leaves the owner's store alone. -/
theorem owner_next (hI : SyncInv S C y p w) (hpre : S.pre 0 (w.own 0) e) :
    ((w.next exec 0 e c).state.nodes S.owner).store = (C.nodes S.owner).store := by
  rw [World.next_state, ← hI.owner]
  rcases Sync.pre_store hpre with ⟨z, name, key, value, expireAt, rfl⟩ | ⟨z, q, keep, rfl⟩ | hs
  · rw [exec_on_ne _ _ _ _ (Ne.symm (hpre rfl).1)]
  · rw [exec_on_ne _ _ _ _ (Ne.symm hpre.2.1)]
  · exact hs c w.state S.owner

theorem found_next (hI : SyncInv S C y p w) (q : PartitionId) (r : Ref) (v : Value)
    (hf : S.Found (w.next exec 0 e c).past q r v) : (C.nodes S.owner).store.find q r = some v := by
  rcases List.mem_cons.mp hf with heq | hmem
  · injection heq with _ he hresp
    subst he
    have hlook : (w.state.nodes S.owner).store.lookup q r.1 r.2
        ((w.state.nodes S.owner).clock + c.tick) = some v := (eq_of_heq hresp).symm
    rw [← hI.owner]
    exact (lookup_eq_some.mp hlook).1
  · exact hI.found q r v hmem

theorem missed_next (hI : SyncInv S C y p w) (r : Ref) (now : ℕ) (ev : Event)
    (hev : ev ∈ (w.next exec 0 e c).past) (hm : S.Misses (routedPartition r.1 r.2) r now ev) :
    Skipped S C r (w.next exec 0 e c).state ∨
    ∃ v, (C.nodes S.owner).store.find (routedPartition r.1 r.2) r = some v ∧
      lapses v.expireAt now = true := by
  rcases List.mem_cons.mp hev with heq | hmem
  · cases hm with
    | unlisted snap hr =>
      injection heq with _ he hresp
      subst he
      obtain rfl := eq_of_heq hresp
      refine Or.inl ⟨(w.state.nodes S.owner).clock + c.tick, ?_, fun v hv hlast => hr ?_⟩
      · rw [World.next_state, exec_on_clock]
      · rw [← hI.owner] at hv
        exact List.mem_map.mpr ⟨entryOf r v, (mem_exec_snapshot _ _ _).mpr
          (mem_snapshotPartition.mpr ⟨hv, hlast.not_expired⟩), entryOf_ref r v⟩
    | gone =>
      injection heq with _ he hresp
      subst he
      refine Or.inl ⟨(w.state.nodes S.owner).clock + c.tick, ?_, fun v hv hlast => ?_⟩
      · rw [World.next_state, exec_on_clock]
      · rw [← hI.owner] at hv
        have hnone : (w.state.nodes S.owner).store.lookup (routedPartition r.1 r.2) r.1 r.2
            ((w.state.nodes S.owner).clock + c.tick) = none := (eq_of_heq hresp).symm
        exact Option.some_ne_none v
          ((lookup_eq_some.mpr ⟨hv, hlast.not_expired⟩).symm.trans hnone)
    | lapsed v _ hl =>
      have hf : S.Found (w.next exec 0 e c).past (routedPartition r.1 r.2) r v :=
        List.mem_cons.mpr (Or.inl heq)
      exact Or.inr ⟨v, hI.found_next _ r v hf, hl⟩
  · exact (hI.missed r now ev hmem hm).imp_left Skipped.next

/-- What is pushed to the backup is a copy. -/
theorem copied_put (hI : SyncInv S C y p w) (hplaced : Placed (C.nodes S.owner).store)
    {value : Bytes} {expireAt : Int64} (hpre : S.pre 0 (w.own 0) (.on y (.put r.1 r.2 value expireAt))) :
    ∃ v now t, Copied S C y r (exec (.on y (.put r.1 r.2 value expireAt)) c w.state).2 v now t := by
  obtain ⟨-, q, v, now, t, hf, rfl, hnow, ht, hlive, hl, rfl⟩ := hpre rfl
  have hfind := hI.found q (r.1, r.2) v (w.own_subset 0 hf)
  obtain rfl : routedPartition r.1 r.2 = q := hplaced q r v hfind
  have hsent := hI.read _ now ⟨0, w.own_subset 0 hnow⟩
  have htaken := hI.read _ t ⟨0, w.own_subset 0 ht⟩
  refine ⟨v, now, t, hfind, lasting_of_not_lapses hlive hl, ?_, ?_, ?_⟩
  · exact hsent.imp_right fun h => h.trans (exec_clock_mono _ _ _ _)
  · exact htaken.imp_right fun h => h.trans (exec_clock_mono _ _ _ _)
  · rw [find_exec_put, if_pos ⟨rfl, rfl, rfl⟩]

theorem copied_next (hI : SyncInv S C y p w) (hplaced : Placed (C.nodes S.owner).store)
    (hpre : S.pre 0 (w.own 0) e) (r : Ref) (hr : routedPartition r.1 r.2 = p)
    (hs : Since (Sync.Pushes y r) (Sync.Prunes y) (w.next exec 0 e c).past) :
    ∃ v now t, Copied S C y r (w.next exec 0 e c).state v now t := by
  rcases hs with ⟨-, value, expireAt, he⟩ | ⟨hnot, hs⟩
  · obtain rfl : e = .on y (.put r.1 r.2 value expireAt) := he
    exact hI.copied_put hplaced hpre
  by_cases hput : ∃ value expireAt, e = .on y (.put r.1 r.2 value expireAt)
  · obtain ⟨value, expireAt, rfl⟩ := hput
    exact hI.copied_put hplaced hpre
  · obtain ⟨v, now, t, hc⟩ := hI.copied r hr hs
    refine ⟨v, now, t, hc.next (Sync.find_after hpre ?_ ?_)⟩
    · rintro name key value expireAt rfl _ rfl
      exact hput ⟨value, expireAt, rfl⟩
    · rintro keep rfl
      exact hnot ⟨rfl, _, keep, rfl⟩

/-- A prune with the key set of the pass leaves the copies of the lasting entries. -/
theorem pruned_prune (hI : SyncInv S C y p w) {keep : List Ref}
    (hpre : S.pre 0 (w.own 0) (.on y (.prune p keep))) (r : Ref) (hr : routedPartition r.1 r.2 = p) :
    (∃ v now t, Copied S C y r (exec (.on y (.prune p keep)) c w.state).2 v now t) ∨
    (((exec (.on y (.prune p keep)) c w.state).2.nodes y).store.find p r = none ∧
      Skipped S C r (exec (.on y (.prune p keep)) c w.state).2) := by
  subst hr
  obtain ⟨-, -, now, hnow, hkeep⟩ := hpre
  by_cases hr : r ∈ keep
  · have hs := ((hkeep r).1 hr).of_filter (Q := Sync.Prunes y) (fun ev ⟨htid, _⟩ => by simp [htid])
    obtain ⟨v, now, t, hc⟩ := hI.copied r rfl hs
    refine Or.inl ⟨v, now, t, hc.next ?_⟩
    rw [find_exec_prune, if_neg (fun h => h.2.2 hr)]
  · refine Or.inr ⟨by rw [find_exec_prune, if_pos ⟨rfl, rfl, hr⟩], Skipped.next ?_⟩
    obtain ⟨ev, hev, hm⟩ := ((hkeep r).2 hr).exists_mem
    rcases hI.missed r now ev (w.own_subset 0 hev) hm with hsk | ⟨v, hv, hl⟩
    · exact hsk
    · refine ⟨now, (hI.read _ now ⟨0, w.own_subset 0 hnow⟩).2, fun v' hv' hlast => ?_⟩
      rw [hv] at hv'
      rw [Option.some.inj hv', not_lapses_of_lasting hlast] at hl
      cases hl

theorem pruned_next (hI : SyncInv S C y p w) (hpre : S.pre 0 (w.own 0) e)
    (hs : Since (Sync.PrunesOf p y) (Sync.PutsIn p y) (w.next exec 0 e c).past) (r : Ref)
    (hr : routedPartition r.1 r.2 = p) :
    (∃ v now t, Copied S C y r (w.next exec 0 e c).state v now t) ∨
    (((w.next exec 0 e c).state.nodes y).store.find p r = none ∧
      Skipped S C r (w.next exec 0 e c).state) := by
  by_cases hprune : ∃ keep, e = .on y (.prune p keep)
  · obtain ⟨keep, rfl⟩ := hprune
    exact hI.pruned_prune hpre r hr
  rcases hs with ⟨-, keep, he⟩ | ⟨hnot, hs⟩
  · exact absurd ⟨keep, he⟩ hprune
  have hfind : ((exec e c w.state).2.nodes y).store.find p r = (w.state.nodes y).store.find p r := by
    refine Sync.find_after hpre ?_ (fun keep he => hprune ⟨keep, he⟩)
    rintro name key value expireAt rfl hq -
    exact hnot ⟨rfl, name, key, value, expireAt, rfl, hq⟩
  rcases hI.pruned hs r hr with ⟨v, now, t, hc⟩ | ⟨hnone, hsk⟩
  · subst hr
    exact Or.inl ⟨v, now, t, hc.next hfind⟩
  · exact Or.inr ⟨hfind.trans hnone, hsk.next⟩

theorem placed_next (hI : SyncInv S C y p w) (hpre : S.pre 0 (w.own 0) e)
    (hy : Placed (C.nodes y).store) : Placed ((w.next exec 0 e c).state.nodes y).store := by
  intro q r v hv
  rw [World.next_state] at hv
  rcases Sync.pre_store hpre with ⟨z, name, key, value, expireAt, rfl⟩ | ⟨z, q', keep, rfl⟩ | hs
  · rw [find_exec_put] at hv
    split at hv
    · next h => rw [h.2.1, h.2.2]
    · exact hI.placed hy q r v hv
  · rw [find_exec_prune] at hv
    split at hv
    · cases hv
    · exact hI.placed hy q r v hv
  · rw [hs] at hv
    exact hI.placed hy q r v hv

theorem frame_next (hI : SyncInv S C y p w) (hpre : S.pre 0 (w.own 0) e) (q : PartitionId)
    (hoff : ∀ ev ∈ (w.next exec 0 e c).past, Sync.Off q ev) (n : Bytes) (r : Ref) :
    ((w.next exec 0 e c).state.nodes n).store.find q r = (C.nodes n).store.find q r := by
  rw [← hI.frame q (fun ev hev => hoff ev (List.mem_cons_of_mem _ hev)) n r]
  refine Sync.find_after hpre ?_ ?_
  · rintro name key value expireAt rfl hq -
    exact (hoff _ List.mem_cons_self n).1 ⟨rfl, name, key, value, expireAt, rfl, hq⟩
  · rintro keep rfl
    exact (hoff _ List.mem_cons_self n).2 ⟨rfl, keep, rfl⟩

/-- **One step of the pass keeps the invariant.** -/
theorem next (hI : SyncInv S C y p w) (hplaced : Placed (C.nodes S.owner).store)
    (hpre : S.pre 0 (w.own 0) e) : SyncInv S C y p (w.next exec 0 e c) where
  listen := ((Sync.pre_calm hpre).listen c w.state).trans hI.listen
  mem n := ((Sync.pre_calm hpre).mem c w.state n).trans (hI.mem n)
  later n := (hI.later n).trans (exec_clock_mono _ _ _ _)
  read := hI.read_next
  owner := hI.owner_next hpre
  found := hI.found_next
  missed := hI.missed_next
  copied := hI.copied_next hplaced hpre
  pruned := hI.pruned_next hpre
  placed := hI.placed_next hpre
  frame := hI.frame_next hpre

theorem init (S : Sync) (C : Cluster) (y : Bytes) (p : PartitionId) : SyncInv S C y p ⟨C, []⟩ where
  listen := rfl
  mem _ := rfl
  later _ := le_rfl
  read _ _ := fun ⟨_, hm⟩ => absurd hm (by simp)
  owner := rfl
  found _ _ _ hf := absurd hf (by simp [Sync.Found])
  missed _ _ _ hev := absurd hev (by simp)
  copied _ _ h := h.elim
  pruned h := h.elim
  placed h := h
  frame _ _ _ _ := rfl

end SyncInv

end step

/-! ### A pass alone -/

/-- The condition on the steps of a pass: past the probes of a round, its messages arrive. -/
def Sync.Delivers (S : Sync) (_i : ℕ) (_e : Action) (c : Choice) (w : World) : Prop :=
  S.Sending (w.own 0) → c.lost = false

section pass
variable {p : PartitionId} {w : World} {e : Action} {c : Choice}

/-- What the pass is told. -/
theorem SyncInv.told {hR : Reaches o ids addr C} (hI : SyncInv hR.sync C y p w)
    (hplaced : Placed (C.nodes o).store) (hok : hR.sync.Delivers 0 e c w) :
    hR.sync.post 0 (w.own 0) e (exec e c w.state).1 := by
  have harrives : hR.sync.Reliable 0 (w.own 0) → c.lost = false := fun h =>
    hok (h.resolve_left (fun h0 => h0 rfl))
  cases e with
  | connect a =>
    rintro z hz rfl
    have hlisten : w.state.listen (addr z) = some z := by
      rw [hI.listen]
      exact hR.listen z hz
    change (∀ x, (if c.lost then none else w.state.listen (addr z)) = some x → x = z) ∧
      (_ → (if c.lost then none else w.state.listen (addr z)) = some z)
    refine ⟨fun x hx => ?_, fun hrel => ?_⟩
    · split at hx
      · cases hx
      · exact Option.some.inj (hx.symm.trans hlisten)
    · rw [if_neg (by simp [harrives hrel]), hlisten]
  | reply n =>
    intro hrel
    change (!c.lost) = true
    rw [harrives hrel]
    rfl
  | on m a =>
    cases a with
    | table =>
      have htable : (exec (.on m .table) c w.state).1 = (C.nodes m).mem.table :=
        congrArg Membership.table (hI.mem m)
      refine ⟨fun hm => ?_, fun q hq => ?_⟩
      · rw [htable, hm]
        rfl
      · rw [htable]
        exact hq
    | addrOf z =>
      rintro rfl hz
      exact (congrArg (Membership.addrOf · z) (hI.mem _)).trans (hR.known z hz)
    | snapshot q =>
      rintro rfl - d hd
      have hd' := (mem_snapshotPartition.mp ((mem_exec_snapshot _ _ _).mp hd)).1
      rw [show (w.state.nodes m).store = (C.nodes m).store from hI.owner] at hd'
      exact hplaced q d.ref d.val hd'
    | lookup q name key =>
      rintro rfl v hv now hread
      have hnow := (hI.read _ now ⟨0, w.own_subset 0 hread⟩).2
      exact ⟨Value.live_of_live_later (lookup_eq_some.mp hv).2 (hnow.trans (Nat.le_add_right _ _)),
        fun h => h.elim⟩
    | _ => trivial
  | _ => trivial

end pass

/-! ### What the backup is left with -/

/-- The lifetime of the owner's value `v` is ample for what happens between `C` and `C'`: it would last
if the time that passed on `y` was added to the owner's clock, and counted in whole milliseconds from
the clock of `y` on, its end is in range. -/
structure Ample (C : Cluster) (o y : Bytes) (v : Value) (C' : Cluster) : Prop where
  lasting : v.Lasting ((C'.nodes o).clock + ((C'.nodes y).clock - (C.nodes y).clock))
  fits : v.expireAt ≠ 0 → ((C'.nodes y).clock : ℤ) +
    (v.expireAt.toInt - (C.nodes o).clock) / 1000000 * 1000000 < 2 ^ 63

/-- The lifetime of the owner's value `v` is out of range on `y`: wherever between `C` and `C'` it is
counted from, its end wraps around. -/
structure Overflows (C : Cluster) (o y : Bytes) (v : Value) (C' : Cluster) : Prop where
  clock : (C'.nodes y).clock < 2 ^ 63
  beyond : 2 ^ 63 ≤ ((C.nodes y).clock : ℤ) +
    (v.expireAt.toInt - (C'.nodes o).clock) / 1000000 * 1000000

/-- The data of an entry of the node that lasts. -/
def Node.Lasting (nd : Node) (p : PartitionId) (r : Ref) (d : Bytes) : Prop :=
  ∃ v, nd.store.find p r = some v ∧ v.Lasting nd.clock ∧ v.data = d

section synced
variable {S : Sync} {p : PartitionId} {r : Ref} {d : Bytes} {C₁ C' : Cluster}

/-- A copy is live as long as the lifetime is ample for it. -/
theorem Copied.live {v : Value} {now t : ℕ} (h : Copied S C y r C₁ v now t)
    (hA : Ample C S.owner y v C') (ho : (C₁.nodes S.owner).clock ≤ (C'.nodes S.owner).clock)
    {T : ℕ} (hT₁ : (C₁.nodes y).clock ≤ T) (hT : T ≤ (C'.nodes y).clock) :
    (⟨v.data, expireFromTTL t (remainingTTLms v.expireAt now)⟩ : Value).expired T = false := by
  by_cases h0 : v.expireAt = 0
  · have hzero : expireFromTTL t (remainingTTLms 0 now) = 0 := by
      rw [remainingTTLms, if_pos rfl]
      exact if_pos (by decide)
    simp [Value.expired, h0, hzero]
  · have hsent := h.sent
    have htaken := h.taken
    have hlast := hA.lasting.resolve_left h0
    have hfits := hA.fits h0
    have hle := le_expireFromTTL now h0 (htaken.2.trans hT₁) (by omega) (by omega)
    simp only [Value.expired, Bool.and_eq_false_iff, decide_eq_false_iff_not, not_lt]
    exact Or.inr hle

/-- A copy whose lifetime is out of range has expired. -/
theorem Copied.dead {v : Value} {now t : ℕ} (h : Copied S C y r C₁ v now t)
    (hO : Overflows C S.owner y v C₁) (T : ℕ) :
    (⟨v.data, expireFromTTL t (remainingTTLms v.expireAt now)⟩ : Value).expired T = true := by
  have hsent := h.sent
  have htaken := h.taken
  have hclock := hO.clock
  have hbeyond := hO.beyond
  have h0 : v.expireAt ≠ 0 := by
    intro h0
    rw [h0, Int64.toInt_zero] at hbeyond
    omega
  have hneg := expireFromTTL_neg h0 (h.lasting.resolve_left h0) (t := t) (by omega) (by omega)
  have hne : expireFromTTL t (remainingTTLms v.expireAt now) ≠ 0 := by
    intro hz
    rw [hz, Int64.toInt_zero] at hneg
    exact absurd hneg (lt_irrefl 0)
  have hlt : (expireFromTTL t (remainingTTLms v.expireAt now)).toInt < T := by omega
  simp [Value.expired, hne, hlt]

end synced

/-! ### The next pass -/

section next
variable {p : PartitionId} {D : UInt64} {tbl : Table}

end next

/-! ### Convergence -/

section converges
variable {p : PartitionId} {tbl : Table} {start : ℤ} {batch : ℕ} {cs : List Choice}

end converges

/-- The digest of partition `q` that an event computed on node `m`. -/
def digestOf (m : Bytes) (q : PartitionId) : Event → Option UInt64
  | ⟨_, .on n (.digest q'), d⟩ => if n = m ∧ q' = q then some d else none
  | _ => none

end Medusa
