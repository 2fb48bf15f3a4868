import Medusa.Replicas

/-! # A node joins

A cluster whose replicas are in sync takes in a new node with an empty store, and all nodes have
adopted the table of all of them.  The old holders hand their partitions over (`Migrate`) while
every node runs anti-entropy (`SyncBackups`).

An entry's old holders are the holders of the old table, its new ones those of the new table.  An
old holder that is also a new one keeps its copy; the others give theirs up after pushing it to all
new holders.

* `join_retains`: in careful runs, **some node has the entry at every moment, and its new owner has
  it once the old nodes have completed a pass**.
* `join_loses`: **a newcomer that runs anti-entropy before it got its data prunes the old copies.** -/

namespace Medusa

open Medusa.Partition Store Interleave Service

/-- Messages arrive and contexts live, and a pass pushes the copies of `r` it has read while they
are still clear of their expiry. -/
structure Delivered (r : Ref) (i : ℕ) (e : Action) (c : Choice) (w : World) : Prop where
  arrives : c.lost = false
  prompt : ∀ n, e = .on n .nowNano → ∀ (j : ℕ) (snap : List Entry),
    (⟨j, .on n (.snapshot (routedPartition r.1 r.2)), snap⟩ : Event) ∈ w.own i →
    ∀ d ∈ snap, d.ref = r → d.val.Lasting ((exec e c w.state).2.nodes n).clock

section join
variable {ids : List Bytes} {b : ℕ} {addr : Bytes → Bytes} {C : Cluster} {newcomer : Bytes}

/-- Of the new holders only the newcomer was not one before. -/
theorem eq_newcomer (hnodup : (newcomer :: ids).Nodup) {p : PartitionId} {x : Bytes}
    (hx : x ∈ holders (newcomer :: ids) b p) (hold : x ∉ holders ids b p) : x = newcomer := by
  rcases List.mem_cons.mp (mem_of_mem_holders hx) with h | h
  · exact h
  · exact absurd (mem_holders_of_subset hnodup (List.nodup_cons.mp hnodup).2
      (List.subset_cons_self _ _) h hx) hold

/-- Watch the entry while it moves to the holders of the new table. -/
def SharedView.watchJoin (hV : SharedView (newcomer :: ids) b addr C) (r : Ref) (d : Bytes) :
    Watch where
  ids := newcomer :: ids
  backups := b
  addr := addr
  ref := r
  data := d
  kept x := x ∈ holders ids b (routedPartition r.1 r.2) ∧
    x ∈ holders (newcomer :: ids) b (routedPartition r.1 r.2)
  stay x := x ∈ holders (newcomer :: ids) b (routedPartition r.1 r.2)
  moves x := x ∈ holders ids b (routedPartition r.1 r.2) ∧
    x ∉ holders (newcomer :: ids) b (routedPartition r.1 r.2)
  steady := True
  nodup := hV.nodup
  named := hV.named
  addr_inj := hV.addr_inj
  kept_stay _ hx := hx.2
  stay_holder _ hx := hx
  moves_steady _ _ := trivial
  moves_mem _ hx := List.mem_cons_of_mem _ (mem_of_mem_holders hx.1)
  moves_not_holder _ hx := hx.2

theorem Watch.Inv.some_holds {hV : SharedView (newcomer :: ids) b addr C} {r : Ref} {d : Bytes}
    {w : World} (hI : (hV.watchJoin r d).Inv w) {g : Bytes}
    (hg : g ∈ holders ids b (routedPartition r.1 r.2)) :
    ∃ x ∈ newcomer :: ids, (hV.watchJoin r d).Holds x w.state := by
  by_cases hg' : g ∈ holders (newcomer :: ids) b (routedPartition r.1 r.2)
  · exact ⟨g, mem_of_mem_holders hg', hI.held g hg' (Or.inl ⟨hg, hg'⟩)⟩
  · rcases hI.moved g ⟨hg, hg'⟩ with hh | hput
    · exact ⟨g, List.mem_cons_of_mem _ (mem_of_mem_holders hg), hh⟩
    · have hown := ownerOf_holder (List.cons_ne_nil newcomer ids) b (routedPartition r.1 r.2)
      exact ⟨_, mem_of_mem_holders hown, hI.held _ hown (Or.inr (hput _ hown))⟩

/-- A completed pass of an old holder has given the entry to the new owner. -/
theorem Watch.Inv.owner_holds {hV : SharedView (newcomer :: ids) b addr C} {r : Ref} {d : Bytes}
    {w : World} (hI : (hV.watchJoin r d).Inv w) {g : Bytes}
    (hg : g ∈ holders ids b (routedPartition r.1 r.2))
    (hdone : (hV.watchJoin r d).Migrated g w.past) :
    (hV.watchJoin r d).Holds ((newTable (newcomer :: ids) b).ownerOf (routedPartition r.1 r.2))
      w.state := by
  have hown := ownerOf_holder (List.cons_ne_nil newcomer ids) b (routedPartition r.1 r.2)
  obtain ⟨tbl, keys, hk, snap, hsnap, hput⟩ := hdone
  by_cases hself : g = (newTable (newcomer :: ids) b).ownerOf (routedPartition r.1 r.2)
  · exact hI.held _ hown (Or.inl ⟨hself ▸ hg, hown⟩)
  · refine hI.held _ hown (Or.inr ?_)
    have hmg : (hV.watchJoin r d).moves g ∨ (hV.watchJoin r d).kept g := by
      by_cases hg' : g ∈ holders (newcomer :: ids) b (routedPartition r.1 r.2)
      · exact Or.inr ⟨hg, hg'⟩
      · exact Or.inl ⟨hg, hg'⟩
    rcases hI.seen g hmg snap hsnap with hr | hall
    · refine hput hr _ ?_ (mem_of_mem_holders hown)
      have hperm : keys.Perm (newcomer :: ids) :=
        (List.perm_ext_iff_of_nodup hk.nodup hV.nodup).mpr
          (fun x => ⟨fun hx => hk.subset hx, fun hx => hk.full trivial hx⟩)
      have htbl : tbl = newTable (newcomer :: ids) b := hk.eq.trans (newTable_perm hperm _)
      have hne : (newTable (newcomer :: ids) b).ownerOf (routedPartition r.1 r.2) ≠ [] :=
        fun h0 => hV.named (h0 ▸ mem_of_mem_holders hown)
      rw [htbl]
      refine List.mem_append_left _ ?_
      rw [if_pos ⟨hne, Ne.symm hself⟩]
      exact List.mem_singleton.mpr rfl
    · exact hall _ hown

/-- **Scaling out loses nothing, in careful runs**: while the old nodes hand over and every node
runs its maintenance loop, some node stores the entry at every moment; and once every old node has
completed a pass, its new owner does. -/
theorem join_retains (hV : SharedView (newcomer :: ids) b addr C) (hR : Replicated ids b C)
    (hempty : ∀ p r, (C.nodes newcomer).store.find p r = none) {jobs : ℕ → Node.Job}
    (hjobs : ∀ j n, (jobs j).node = some n → n ∈ newcomer :: ids)
    (hdetect : ∀ j n threshold, jobs j ≠ .detectFailures n threshold) {n : Bytes} (hn : n ∈ ids)
    {r : Ref} {d : Bytes} (hd : (C.nodes n).content r = some d) {sched : List (ℕ × Choice)}
    (hok : Meets exec (fun i e c w =>
      Careful (newcomer :: ids) b r (· = newcomer) (fun j => (jobs j).syncs = true) i e c w ∧
        Delivered r i e c w) sched (Conf.init C (fun j => (jobs j).prog addr))) :
    let f := Conf.run exec sched (Conf.init C (fun j => (jobs j).prog addr))
    (∃ x ∈ newcomer :: ids, ∃ v,
      (f.world.state.nodes x).store.find (routedPartition r.1 r.2) r = some v ∧ v.data = d) ∧
    ((∀ m ∈ ids, ∃ j, jobs j = .rebalance m ∧ (f.pool j).returned = true) → ∃ v,
      (f.world.state.nodes ((newTable (newcomer :: ids) b).ownerOf
        (routedPartition r.1 r.2))).store.find (routedPartition r.1 r.2) r = some v ∧ v.data = d) := by
  intro f
  have hdata : ∀ m ∈ newcomer :: ids, ∀ p v, (C.nodes m).store.find p r = some v →
      p = routedPartition r.1 r.2 ∧ v.data = d := by
    intro m hm p v hv
    rcases List.mem_cons.mp hm with rfl | hm
    · rw [hempty] at hv
      cases hv
    · exact hR.data hn hd hm hv
  have hholds : ∀ m ∈ holders ids b (routedPartition r.1 r.2), (hV.watchJoin r d).Holds m C := by
    intro m hm
    obtain ⟨v, hv, -, -⟩ := Node.content_eq_some.mp (hR.content hn hd hm)
    exact ⟨v, hv⟩
  have hinit : (hV.watchJoin r d).Inv ⟨C, []⟩ :=
    SharedView.inv hV hdata (fun m hm => hholds m hm.1) (fun m hm => hholds m hm.1)
  have hok' : Meets exec ((hV.watchJoin r d).Ok (fun j => (jobs j).syncs = true)) sched
      (Conf.init C (fun j => (jobs j).prog addr)) := by
    refine hok.mono (fun i e c w ⟨hc, hdel⟩ => ⟨hc.fresh, fun hs m hm hk he => ?_,
      fun _ => hdel.arrives, fun _ m he snap ⟨j, hj⟩ => hdel.prompt m he j snap hj⟩)
    exact hc.reads hs m hm (eq_newcomer hV.nodup hm (fun hold => hk ⟨hold, hm⟩)) he
  obtain ⟨hI, -, hobeys⟩ := ((hV.watchJoin r d).sound _).run hinit
    (fun j => Watch.job_obeys (W := hV.watchJoin r d) (hjobs j)
      (fun m t hj => absurd hj (hdetect j m t))
      (fun m start batch hj => by rw [hj]; rfl) []) hok'
  have hstored : ∀ x ∈ newcomer :: ids, (hV.watchJoin r d).Holds x f.world.state → ∃ v,
      (f.world.state.nodes x).store.find (routedPartition r.1 r.2) r = some v ∧ v.data = d :=
    fun x hx ⟨v, hv⟩ => ⟨v, hv, (hI.data x hx _ v hv).2⟩
  have hg := ownerOf_holder (List.ne_nil_of_mem hn) b (routedPartition r.1 r.2)
  refine ⟨?_, fun hdone => ?_⟩
  · obtain ⟨x, hx, hh⟩ := hI.some_holds hg
    exact ⟨x, hx, hstored x hx hh⟩
  · obtain ⟨j, hj, hret⟩ := hdone _ (mem_of_mem_holders hg)
    obtain ⟨a, ha⟩ := Prog.returned_iff.mp hret
    obtain ⟨tbl, keys, hk, hp⟩ := (hobeys j).returned ha _ hj trivial
    exact hstored _ (mem_of_mem_holders (ownerOf_holder (List.cons_ne_nil _ _) b _))
      (hI.owner_holds hg ⟨tbl, keys, hk, hp.mono (f.world.own_subset j)⟩)

end join

/-! ### Two schedules of a cluster that grows from one node to two -/

/-- Node `a` holds one entry, and `b` has joined; `b` is the new owner of the entry's partition. -/
def grown : Cluster := oneEntry [[98], [97]] 1 [[97]] ([109], [92]) [118]

theorem grown_sharedView : SharedView [[98], [97]] 1 id grown :=
  oneEntry_sharedView 1 _ _ _ (by decide) (by decide) (by decide +kernel)

theorem grown_content : (grown.nodes [97]).content ([109], [92]) = some [118] := oneEntry_content ..

theorem grown_replicated : Replicated [[97]] 1 grown := oneEntry_replicated _ _ (by decide +kernel)

/-- `a` hands its partitions over, `b` runs `SyncBackups` over the entry's partition. -/
def grownJobs : ℕ → Node.Job
  | 0 => .rebalance [97]
  | _ => .antiEntropy [98] 2 1

/-- No snapshot in the event has an entry with an expiry. -/
def timeless : Event → Bool
  | ⟨_, .on _ (.snapshot _), snap⟩ => snap.all (fun d => d.expireAt == 0)
  | _ => true

/-- `Delivered`, evaluated, where no entry has an expiry. -/
def deliveredCheck (e : Action) (c : Choice) (w : World) : Bool :=
  !c.lost && (match e with
    | .on _ .nowNano => w.past.all timeless
    | _ => true)

theorem Delivered.of_check {r : Ref} {i : ℕ} {e : Action} {c : Choice} {w : World}
    (h : deliveredCheck e c w = true) : Delivered r i e c w := by
  unfold deliveredCheck at h
  rw [Bool.and_eq_true] at h
  refine ⟨by simpa using h.1, ?_⟩
  rintro n rfl j snap hj d hd -
  have hall : timeless ⟨j, .on n (.snapshot (routedPartition r.1 r.2)), snap⟩ = true :=
    List.all_eq_true.mp h.2 _ (w.own_subset i hj)
  exact Or.inl (eq_of_beq (List.all_eq_true.mp hall d hd))

/-- A careful schedule: the newcomer runs anti-entropy after the old node's pass. -/
def carefulTurns : List (ℕ × Choice) := List.replicate 560 (0, .still) ++ List.replicate 20 (1, .still)

/-- The entry is on the newcomer then. -/
theorem join_retains_grown :
    let f := Conf.run exec carefulTurns (Conf.init grown (fun j => (grownJobs j).prog id))
    ∃ v, (f.world.state.nodes [98]).store.find (routedPartition [109] [92]) ([109], [92]) = some v ∧
      v.data = [118] := by
  have hcheck : Conf.check exec (fun i e c w => carefulCheck [[98], [97]] ([109], [92])
      (fun n => decide (n = [98])) (fun j => (grownJobs j).syncs) i e c w && deliveredCheck e c w)
      carefulTurns (Conf.init grown (fun j => (grownJobs j).prog id)) = true := by
    decide +kernel
  have hok : Meets exec (fun i e c w => Careful [[98], [97]] 1 ([109], [92]) (· = [98])
      (fun j => (grownJobs j).syncs = true) i e c w ∧ Delivered ([109], [92]) i e c w)
      carefulTurns (Conf.init grown (fun j => (grownJobs j).prog id)) := by
    refine (Meets.of_check hcheck).mono (fun i e c w h => ?_)
    rw [Bool.and_eq_true] at h
    exact ⟨by simpa using Careful.of_check 1 h.1, Delivered.of_check h.2⟩
  have hempty : ∀ p r, (grown.nodes [98]).store.find p r = none := fun p r => rfl
  have hjobs : ∀ j n, (grownJobs j).node = some n → n ∈ [[98], [97]] := by
    intro j n hn
    match j with
    | 0 | j + 1 => obtain rfl := Option.some.inj hn; decide
  have hdetect : ∀ j n threshold, grownJobs j ≠ .detectFailures n threshold := by
    intro j
    match j with
    | 0 | j + 1 => simp [grownJobs]
  have howner : (newTable [[98], [97]] (1 : ℕ)).ownerOf (routedPartition [109] [92]) = [98] := by
    decide +kernel
  have h := (join_retains grown_sharedView grown_replicated hempty hjobs hdetect
    List.mem_cons_self grown_content hok).2
  dsimp only at h
  rw [howner] at h
  exact h (fun m hm => ⟨0, by rw [List.mem_singleton.mp hm]; rfl, by decide +kernel⟩)

/-- **A newcomer that runs anti-entropy before it got its data prunes the old copies**: it is the
owner in the new table, its store is empty, and the old owner, now its backup, drops the entry.
All messages arrive, both calls return, and no node has the entry. -/
theorem join_loses :
    let f := Conf.run exec (List.replicate 20 (1, .still) ++ List.replicate 560 (0, .still))
      (Conf.init grown (fun j => (grownJobs j).prog id))
    SharedView [[98], [97]] 1 id grown ∧ Replicated [[97]] 1 grown ∧
    (grown.nodes [97]).content ([109], [92]) = some [118] ∧
    (f.pool 0).returned = true ∧ (f.pool 1).returned = true ∧
    (f.world.state.nodes [97]).store.find (forKey [92]) ([109], [92]) = none ∧
    (f.world.state.nodes [98]).store.find (forKey [92]) ([109], [92]) = none := by
  refine ⟨grown_sharedView, grown_replicated, ?_⟩
  decide +kernel

end Medusa
