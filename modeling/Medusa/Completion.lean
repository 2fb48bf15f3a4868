import Medusa.Handoff

/-! # Complete passes

`Migrate` returns whether it visited every partition.  The maintenance loop takes that for a complete
rebalance and does not repeat the pass.

* `migrate_complete`: **the entries of every snapshot of a pass that returns true have been
  acknowledged by all holders, when the holders can be reached and no message of the pass is lost.**
* `lost_push_complete`: a lost push is not repeated and not reported: the pass returns true, and the
  entry stays on a node that is not a holder. -/

namespace Medusa

open Medusa.Partition Store Interleave Service Contract

/-- The table names `id` as a holder of some partition, other than `n`. -/
def Named (n : Bytes) (tbl : Table) (id : Bytes) : Prop := ∃ p, id ∈ targets n tbl p

theorem mem_targets_iff {n id : Bytes} {tbl : Table} {p : PartitionId} :
    id ∈ targets n tbl p ↔
      id ≠ n ∧ (id ≠ [] ∧ id = tbl.ownerOf p ∨ id ∈ tbl.backupsOf p) := by
  unfold targets
  rw [List.mem_append, List.mem_filter, decide_eq_true_iff]
  constructor
  · rintro (h | h)
    · split at h
      · next ho =>
        obtain rfl := List.mem_singleton.mp h
        exact ⟨ho.2, Or.inl ⟨ho.1, rfl⟩⟩
      · cases h
    · exact ⟨h.2, Or.inr h.1⟩
  · rintro ⟨hn, ⟨h0, rfl⟩ | h⟩
    · exact Or.inl (by rw [if_pos ⟨h0, hn⟩]; exact List.mem_singleton_self _)
    · exact Or.inr ⟨h, hn⟩

/-! ### The contract -/

/-- In a step of the pass, node `n` knows where the holders listen, and no message is lost. -/
def HoldersUp (n : Bytes) (tbl : Table) (addr : Bytes → Bytes) (i : ℕ) (e : Action) (c : Choice)
    (w : World) : Prop :=
  i = 0 →
    (∀ id, Named n tbl id → (w.state.nodes n).mem.addrOf id = some (addr id) ∧
      w.state.listen (addr id) = some id) ∧
    match e with
    | .connect _ => c.lost = false
    | .reply _ => c.lost = false
    | _ => True

/-- What the pass learns then. -/
def Heard (n : Bytes) (tbl : Table) (addr : Bytes → Bytes) : (e : Action) → e.Resp → Prop
  | .connect a, r => ∀ id, Named n tbl id → a = addr id → r = some id
  | .reply _, r => r = true
  | .on m (.addrOf id), r => m = n → Named n tbl id → r = some (addr id)
  | _, _ => True

/-- Nothing is promised, and thread `0` is answered. -/
def answered (n : Bytes) (tbl : Table) (addr : Bytes → Bytes) : Contract Action.Resp where
  pre _ _ _ := True
  post i _ e r := i = 0 → Heard n tbl addr e r

theorem answered_sound (n : Bytes) (tbl : Table) (addr : Bytes → Bytes) :
    (answered n tbl addr).Sound exec (fun _ => True) (HoldersUp n tbl addr) := by
  intro i e c w _ hok _
  refine ⟨trivial, fun hi => ?_⟩
  obtain ⟨hnamed, hlost⟩ := hok hi
  cases e with
  | connect a =>
    rintro id hid rfl
    change (if c.lost then none else w.state.listen (addr id)) = some id
    rw [if_neg (by simp [show c.lost = false from hlost]), (hnamed id hid).2]
  | reply x =>
    change (!c.lost) = true
    rw [show c.lost = false from hlost]
    rfl
  | on m a =>
    cases a with
    | addrOf id =>
      rintro rfl hid
      exact (hnamed id hid).1
    | _ => trivial
  | _ => trivial

/-! ### The pass -/

/-- The holder has acknowledged the entry, or it was about to lapse at a clock reading of the pass. -/
def Handed (n : Bytes) (h : List Event) (id : Bytes) (d : Entry) : Prop :=
  Acked h id d.ref d.value ∨ ∃ now, ReadClock h n now ∧ lapses d.expireAt now = true

theorem Handed.mono {n : Bytes} {h h' : List Event} {id : Bytes} {d : Entry} (hs : Handed n h id d)
    (hsuf : h <:+ h') : Handed n h' id d := by
  rcases hs with ⟨i, expireAt, created, hi⟩ | ⟨now, hr, hl⟩
  · exact Or.inl ⟨i, expireAt, created, hi.trans hsuf.isInfix⟩
  · exact Or.inr ⟨now, hr.mono hsuf.subset, hl⟩

/-- The thread took the snapshot of partition `p`. -/
def Took (n : Bytes) (h : List Event) (p : PartitionId) (snap : List Entry) : Prop :=
  (⟨0, .on n (.snapshot p), snap⟩ : Event) ∈ h

/-- The action is not a snapshot. -/
def Action.NoSnapshot : Action → Prop
  | .on _ (.snapshot _) => False
  | _ => True

theorem plumbing_noSnapshot : Plumbing Action.NoSnapshot where
  on _ {a} ha := by cases a <;> first | exact ha.elim | trivial
  connect _ := trivial
  reply _ := trivial
  toStore _ _ _ := trivial
  toDelete _ _ := trivial

section pass
variable {n : Bytes} {tbl : Table} {addr : Bytes → Bytes}

/-- A push to a holder is acknowledged. -/
theorem sendPut_answered {id : Bytes} (hid : Named n tbl id) (name key value : Bytes)
    (ttlMs : Int64) (h : List Event) :
    (answered n tbl addr).Obeys 0 (fun _ h' => h <:+ h' ∧ Acked h' id (name, key) value)
      (sendPut (addr id) name key value ttlMs true) h := by
  refine Obeys.step trivial (fun r hr => ?_)
  obtain rfl : r = some id := hr rfl id hid rfl
  refine ⟨trivial, fun now _ => ⟨trivial, fun created _ => ⟨trivial, fun arrived harr => ?_⟩⟩⟩
  obtain rfl : arrived = true := harr rfl
  refine ⟨?_, 0, _, created, ⟨[], _, rfl⟩⟩
  exact ((((List.suffix_cons _ _).trans (List.suffix_cons _ _)).trans
    (List.suffix_cons _ _)).trans (List.suffix_cons _ _))

theorem pushEntries_answered {id : Bytes} (hid : Named n tbl id) {now : ℕ} (es : List Entry)
    (ok : Bool) {h : List Event} (hnow : ReadClock h n now) :
    (answered n tbl addr).Obeys 0 (fun _ h' => h <:+ h' ∧ ∀ d ∈ es, Handed n h' id d)
      (pushEntries (addr id) now es ok) h := by
  induction es generalizing ok h with
  | nil => exact ⟨List.suffix_refl _, by simp⟩
  | cons d es ih =>
    unfold pushEntries
    split
    · next hl =>
      refine (ih ok hnow).mono ?_
      rintro _ h' ⟨hs, hq⟩
      refine ⟨hs, List.forall_mem_cons.mpr ⟨?_, hq⟩⟩
      exact Or.inr ⟨now, hnow.mono hs.subset, hl⟩
    · refine Obeys.bind ((sendPut_answered hid _ _ _ _ h).mono ?_)
      rintro (err | b) h₁ ⟨hs₁, hack⟩
      all_goals
        refine (ih _ (hnow.mono hs₁.subset)).mono ?_
        rintro _ h' ⟨hs, hq⟩
        exact ⟨hs₁.trans hs, List.forall_mem_cons.mpr ⟨Handed.mono (Or.inl hack) hs, hq⟩⟩

theorem pushTargets_answered (es : List Entry) {ids : List Bytes} (hids : ∀ id ∈ ids, Named n tbl id)
    (ok : Bool) (h : List Event) :
    (answered n tbl addr).Obeys 0
      (fun _ h' => h <:+ h' ∧ ∀ id ∈ ids, ∀ d ∈ es, Handed n h' id d) (pushTargets n es ids ok) h := by
  induction ids generalizing ok h with
  | nil => exact ⟨List.suffix_refl _, by simp⟩
  | cons id ids ih =>
    have hid := hids id List.mem_cons_self
    have hih := ih (fun x hx => hids x (List.mem_cons_of_mem _ hx))
    unfold pushTargets
    refine Obeys.step trivial (fun r hr => ?_)
    obtain rfl : r = some (addr id) := hr rfl rfl hid
    refine Obeys.step trivial (fun now _ => ?_)
    refine Obeys.bind ((pushEntries_answered hid es ok
      (h := ⟨0, .on n .nowNano, now⟩ :: ⟨0, .on n (.addrOf id), some (addr id)⟩ :: h)
      ⟨0, List.mem_cons_self⟩).mono ?_)
    rintro ok' h₁ ⟨hs₁, hq₁⟩
    have hs₀ : h <:+ h₁ := ((List.suffix_cons _ _).trans (List.suffix_cons _ _)).trans hs₁
    refine (hih ok' h₁).mono ?_
    rintro _ h' ⟨hs, hq⟩
    exact ⟨hs₀.trans hs, List.forall_mem_cons.mpr ⟨fun d hd => (hq₁ d hd).mono hs, hq⟩⟩

theorem Took.of_extends {h h' : List Event} {p : PartitionId} {snap : List Entry}
    (hx : Extends (fun ev : Event => ev.act.NoSnapshot) h h') (ht : Took n h' p snap) :
    Took n h p snap := by
  obtain ⟨new, rfl, hnew⟩ := hx
  rcases List.mem_append.mp ht with hmem | hmem
  · exact (hnew _ hmem).elim
  · exact hmem

theorem handOver_answered (p : PartitionId) (es : List Entry) (h : List Event) :
    (answered n tbl addr).Obeys 0
      (fun _ h' => Extends (fun ev : Event => ev.act.NoSnapshot) h h' ∧
        ∀ d ∈ es, ∀ id ∈ targets n tbl p, Handed n h' id d) (handOver n tbl p es) h := by
  have hall : (handOver n tbl p es).All Action.NoSnapshot :=
    plumbing_noSnapshot.handOver (fun _ _ _ _ _ => trivial) tbl p es (fun _ _ => trivial)
  refine (Obeys.extending hall ?_).mono (fun _ _ hq => hq.symm)
  unfold handOver
  split
  · next hes => exact fun d hd => by simp [hes] at hd
  · refine Obeys.bind ((pushTargets_answered es (fun id hid => ⟨p, hid⟩) true h).mono ?_)
    rintro ok h₁ ⟨-, hq⟩
    split
    · exact ⟨trivial, fun _ _ d hd id hid => (hq id hid d hd).mono (List.suffix_cons _ _)⟩
    · exact fun d hd id hid => hq id hid d hd

/-- Every snapshot of the pass is served, and a complete pass takes one of every partition. -/
theorem migrateLoop_answered (ps : List PartitionId) (h : List Event) :
    (answered n tbl addr).Obeys 0
      (fun res h' => h <:+ h' ∧
        (∀ p snap, Took n h' p snap → Took n h p snap ∨
          ∀ d ∈ snap, ∀ id ∈ targets n tbl p, Handed n h' id d) ∧
        (res = true → ∀ p ∈ ps, ∃ snap, Took n h' p snap)) (migrateLoop n tbl ps) h := by
  induction ps generalizing h with
  | nil => exact ⟨List.suffix_refl _, fun _ _ ht => Or.inl ht, fun _ _ hp => by simp at hp⟩
  | cons p ps ih =>
    unfold migrateLoop
    refine Obeys.step trivial (fun stop _ => ?_)
    have htick : ∀ {r : Bool} {q : PartitionId} {snap : List Entry},
        Took n (⟨0, .ctxErr, r⟩ :: h) q snap → Took n h q snap := by
      intro r q snap ht
      rcases List.mem_cons.mp ht with heq | hmem
      · injection heq with _ hact
        cases hact
      · exact hmem
    cases stop with
    | true =>
      exact ⟨List.suffix_cons _ _, fun _ _ ht => Or.inl (htick ht), fun hr => by simp at hr⟩
    | false =>
      refine Obeys.bind (Obeys.step trivial (fun snap _ => ?_))
      refine (handOver_answered p (orderQueueMetaLast snap) _).mono ?_
      rintro - h₁ ⟨hx, hserved⟩
      have hs₁ : h <:+ h₁ :=
        ((List.suffix_cons _ _).trans (List.suffix_cons _ _)).trans hx.suffix
      refine (ih h₁).mono (fun res h' ⟨hs, htook, hcomplete⟩ => ⟨hs₁.trans hs, ?_, fun hr => ?_⟩)
      · intro q snap' ht
        rcases htook q snap' ht with ht | hgood
        · rcases List.mem_cons.mp (ht.of_extends hx) with heq | hmem
          · injection heq with _ hact hresp
            injection hact with _ hact
            injection hact with hq
            subst hq
            subst hresp
            exact Or.inr fun d hd id hid =>
              (hserved d (mem_orderQueueMetaLast.mpr hd) id hid).mono hs
          · exact Or.inl (htick hmem)
        · exact Or.inr hgood
      · refine List.forall_mem_cons.mpr ⟨⟨snap, ?_⟩, hcomplete hr⟩
        exact hs.subset (hx.subset (List.mem_cons_self))

end pass

/-- **A complete pass is complete**: when `Migrate` returns true, it took a snapshot of every partition,
and every entry of each, unless it had less than a millisecond left at a clock reading of the pass, was
acknowledged by every other holder the table names, provided that in each step of the pass the holders
can be reached and no message is lost.  Other threads may do anything. -/
theorem migrate_complete {n : Bytes} {tbl : Table} {addr : Bytes → Bytes} {C : Cluster}
    {pool : ℕ → Prog Bool} (hpool : pool 0 = migrate n tbl) (sched : List (ℕ × Choice))
    (hok : Meets exec (HoldersUp n tbl addr) sched (Conf.init C pool)) :
    let f := Conf.run exec sched (Conf.init C pool)
    let own := f.world.own 0
    (f.pool 0).result = some true → ∀ p,
      (∃ snap, (⟨0, .on n (.snapshot p), snap⟩ : Event) ∈ own) ∧
      ∀ snap, (⟨0, .on n (.snapshot p), snap⟩ : Event) ∈ own → ∀ d ∈ snap,
        (∀ now, ReadClock own n now → lapses d.expireAt now = false) →
        ∀ id, id ≠ n → (id ≠ [] ∧ id = tbl.ownerOf p ∨ id ∈ tbl.backupsOf p) →
          Acked own id d.ref d.value := by
  intro f own hres p
  have hobeys : ∀ j, (answered n tbl addr).Obeys j (fun res h' => j = 0 →
      (∀ p snap, Took n h' p snap → ∀ d ∈ snap, ∀ id ∈ targets n tbl p, Handed n h' id d) ∧
      (res = true → ∀ p, ∃ snap, Took n h' p snap)) (pool j) [] := by
    intro j
    cases j with
    | zero =>
      rw [hpool]
      refine (migrateLoop_answered (List.finRange Count) []).mono
        (fun res h' ⟨_, htook, hcomplete⟩ _ => ⟨fun p snap ht => ?_, fun hr p => ?_⟩)
      · exact (htook p snap ht).resolve_left (by simp [Took])
      · exact hcomplete hr p (List.mem_finRange p)
    | succ j =>
      have hall : (pool (j + 1)).All fun _ => True := by
        generalize pool (j + 1) = q
        induction q with
        | done a => trivial
        | act e k ih => exact ⟨trivial, ih⟩
      exact (Obeys.of_all hall (fun _ _ _ => trivial) []).mono
        (fun _ _ _ h0 => absurd h0 (Nat.succ_ne_zero j))
  obtain ⟨-, -, hend⟩ := (answered_sound n tbl addr).run (f := Conf.init C pool) trivial hobeys hok
  obtain ⟨hserved, hcomplete⟩ := (hend 0).returned (Prog.result_eq_some.mp hres) rfl
  refine ⟨hcomplete rfl p, fun snap hsnap d hd hlate id hne hid => ?_⟩
  rcases hserved p snap hsnap d hd id (mem_targets_iff.mpr ⟨hne, hid⟩) with hack | ⟨now, hr, hl⟩
  · exact hack
  · exact absurd hl (by simp [hlate now hr])

/-- In a calm run without lost messages the holders stay reachable. -/
theorem holdersUp_of_calm {n : Bytes} {tbl : Table} {addr : Bytes → Bytes} {C : Cluster}
    {pool : ℕ → Prog Bool} (hpool : ∀ j, (pool j).All Action.Calm)
    (hnamed : ∀ id, Named n tbl id → (C.nodes n).mem.addrOf id = some (addr id) ∧
      C.listen (addr id) = some id)
    {sched : List (ℕ × Choice)} (hsched : ∀ ic ∈ sched, ic.2.lost = false) :
    Meets exec (HoldersUp n tbl addr) sched (Conf.init C pool) := by
  let K : Contract Action.Resp := ⟨fun _ _ e => e.Calm, fun _ _ _ _ => True⟩
  have hsound : K.Sound exec (fun w => (w.state.nodes n).mem = (C.nodes n).mem ∧
      w.state.listen = C.listen) (fun _ _ c _ => c.lost = false) := by
    intro i e c w ⟨hmem, hlisten⟩ _ hpre
    refine ⟨⟨?_, ?_⟩, trivial⟩
    · rw [World.next_state, Action.Calm.mem hpre, hmem]
    · rw [World.next_state, Action.Calm.listen hpre, hlisten]
  have hobeys : ∀ j, K.Obeys j (fun _ _ => True) (pool j) [] := fun j =>
    Obeys.of_all (hpool j) (fun _ _ he => he) []
  obtain ⟨-, hmeets, -⟩ := hsound.run (f := Conf.init C pool) ⟨rfl, rfl⟩ hobeys
    (Meets.of_choices hsched _)
  refine hmeets.mono (fun i e c w ⟨⟨hmem, hlisten⟩, hlost, _⟩ _ => ⟨fun id hid => ?_, ?_⟩)
  · rw [hmem, hlisten]
    exact hnamed id hid
  · split <;> first | exact hlost | trivial

/-- Thread `0` runs the pass of `a`, nothing else runs. -/
def lonePass (tbl : Table) : ℕ → Prog Bool
  | 0 => migrate [97] tbl
  | _ + 1 => return true

/-- **A pass whose only push is lost returns true**: the entry is still on `a`, which is not a holder in
the table of the pass, and nobody has acknowledged anything. -/
theorem lost_push_complete :
    let f := Conf.run exec (List.replicate 6 (0, .still) ++ (0, { lost := true }) ::
      List.replicate 560 (0, .still)) (Conf.init pairStores (lonePass (newTable [[98]] 1)))
    (f.pool 0).result = some true ∧
    (newTable [[98]] 1).ownerOf (forKey [114]) = [98] ∧
    (f.world.state.nodes [97]).store.find (forKey [114]) ([109], [114]) = some ⟨[118], 0⟩ ∧
    (f.world.past.all fun ev => match ev.act with | .reply _ => false | _ => true) = true := by
  decide +kernel

/-- The event is a snapshot of partition `p` of `n`, with the entry. -/
def tookWith (n : Bytes) (p : PartitionId) (d : Entry) : Event → Bool
  | ⟨0, .on m (.snapshot q), snap⟩ => decide (m = n ∧ q = p) && decide (d ∈ snap)
  | _ => false

theorem exists_of_tookWith {n : Bytes} {p : PartitionId} {d : Entry} {h : List Event}
    (hany : h.any (tookWith n p d) = true) :
    ∃ snap, (⟨0, .on n (.snapshot p), snap⟩ : Event) ∈ h ∧ d ∈ snap := by
  obtain ⟨ev, hmem, hev⟩ := List.any_eq_true.mp hany
  unfold tookWith at hev
  split at hev
  · next m q snap =>
    rw [Bool.and_eq_true, decide_eq_true_iff, decide_eq_true_iff] at hev
    obtain ⟨⟨rfl, rfl⟩, hd⟩ := hev
    exact ⟨snap, hmem, hd⟩
  · cases hev

/-- The same pass without the loss. -/
def keptPass : Conf Bool :=
  Conf.run exec (List.replicate 560 (0, .still)) (Conf.init pairStores (lonePass (newTable [[98]] 1)))

/-- It ends with the acknowledgement of the other node. -/
theorem migrate_complete_pair :
    Acked (keptPass.world.own 0) [98] ([109], [114]) [118] := by
  have hcalm : ∀ j, (lonePass (newTable [[98]] 1) j).All Action.Calm := by
    intro j
    cases j with
    | zero =>
      exact plumbing_calm.migrate (fun _ _ _ _ _ => trivial) _ trivial (fun _ => trivial)
        (fun _ _ => trivial)
    | succ j => trivial
  have hnamed : ∀ x, Named [97] (newTable [[98]] 1) x →
      (pairStores.nodes [97]).mem.addrOf x = some x ∧ pairStores.listen x = some x := by
    rintro x ⟨p, hx⟩
    have hmem : x ∈ holders [[98]] 1 p := by
      obtain ⟨-, ⟨-, rfl⟩ | hback⟩ := mem_targets_iff.mp hx
      · exact ownerOf_holder (by simp) 1 p
      · rw [holders_eq_cons (by simp)]
        exact List.mem_cons_of_mem _ hback
    obtain rfl : x = [98] := List.mem_singleton.mp (mem_of_mem_holders hmem)
    exact ⟨by decide, rfl⟩
  have hpool : lonePass (newTable [[98]] 1) 0 = migrate [97] (newTable [[98]] 1) := rfl
  have hmeets : Meets exec (HoldersUp [97] (newTable [[98]] 1) fun x => x)
      (List.replicate 560 (0, .still)) (Conf.init pairStores (lonePass (newTable [[98]] 1))) :=
    holdersUp_of_calm hcalm hnamed (fun ic hic => by rw [List.eq_of_mem_replicate hic]; rfl)
  have hcomplete := migrate_complete hpool _ hmeets
  have hrun : (keptPass.pool 0).result = some true ∧
      (keptPass.world.own 0).any (tookWith [97] (forKey [114]) ⟨[109], [114], [118], 0⟩) = true := by
    decide +kernel
  unfold keptPass at hrun ⊢
  obtain ⟨snap, hsnap, hd⟩ := exists_of_tookWith hrun.2
  dsimp only at hcomplete
  exact (hcomplete hrun.1 (forKey [114])).2 snap hsnap ⟨[109], [114], [118], 0⟩ hd
    (fun _ _ => rfl) [98] (by decide) (Or.inl ⟨by decide, by decide +kernel⟩)

end Medusa
