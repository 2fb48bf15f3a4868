import Medusa.Agreement
import Medusa.SyncPass

/-! # Anti-entropy beside puts

A pass of anti-entropy prunes a backup with the key set it built from its snapshot.  A put that the
owner takes after the snapshot and replicates before the prune is not in the key set, and the prune
strips the backup of it.

* `RaceFree`: no put has created a key of the partition since the snapshot when a backup prunes it, and
  the pass reads no entry in the last millisecond of its life.
* `backups_keep_keys`: **in such runs the backups end up with every live key of the owner.**
* `prune_strips_put`: a put between the snapshot and the prune. -/

namespace Medusa

open Medusa.Partition Store Interleave Service Contract

/-- A put that created a key of partition `p` on node `o`. -/
def creates (o : Bytes) (p : PartitionId) : Event → Bool
  | ⟨_, .on m (.put name key _ _), created⟩ =>
    decide (m = o) && decide (routedPartition name key = p) && created
  | _ => false

/-- The pass, thread `0`, takes a snapshot of partition `p` on node `o`. -/
def snapshots (o : Bytes) (p : PartitionId) : Event → Bool
  | ⟨i, .on m (.snapshot q), _⟩ => decide (i = 0) && decide (m = o) && decide (q = p)
  | _ => false

/-- The condition on the steps of a run: messages arrive; when a backup prunes partition `p` no put
has created a key of it on the owner since the last snapshot of the pass; and a live entry of `p` that
is read again on the owner has at least a millisecond to live. -/
structure RaceFree (o : Bytes) (p : PartitionId) (_i : ℕ) (e : Action) (c : Choice) (w : World) :
    Prop where
  connect : ∀ a, e = .connect a → c.lost = false
  reply : ∀ n, e = .reply n → c.lost = false
  current : ∀ y keep, e = .on y (.prune p keep) →
    ¬ Since (fun ev => creates o p ev = true) (fun ev => snapshots o p ev = true) w.past
  prompt : ∀ name key, e = .on o (.lookup p name key) → ∀ v,
    (w.state.nodes o).store.lookup p name key ((w.state.nodes o).clock + c.tick) = some v →
    v.Lasting ((w.state.nodes o).clock + c.tick)

/-- The digests differ: when the pass, thread `0`, asks node `x` for its digest of partition `p`, it is
not one that the owner has computed for the pass. -/
def Differs (o x : Bytes) (p : PartitionId) (i : ℕ) (e : Action) (c : Choice) (w : World) : Prop :=
  i = 0 → e = .on x (.digest p) → ∀ d : UInt64, (⟨0, .on o (.digest p), d⟩ : Event) ∈ w.past →
    (w.state.nodes x).store.partitionDigest p ((w.state.nodes x).clock + c.tick) ≠ d

/-- Thread `0` runs a pass of anti-entropy, the others one put each on the owner. -/
def racePool (o : Bytes) (start : ℤ) (batch : ℕ)
    (puts : ℕ → Option (Bytes × Bytes × Bytes × Int64)) : ℕ → Prog Unit
  | 0 => Node.antiEntropy o start batch
  | i + 1 =>
    match puts i with
    | some (name, key, value, ttlMs) => do
        let _ ← Service.applyPut o name key value ttlMs false
        return ()
    | none => return ()

/-- What a race-free run keeps of an entry `r` and a backup `x` of its partition: an entry the pass
found missing is not live on the owner unless one was created since; what the pass pushed is on the
backup unless it was pruned since; and what is live on the owner is on the backup, or on its way there,
or the backup lacked it from the start and was not pruned yet. -/
structure RaceInv (S : Sync) (C : Cluster) (x : Bytes) (r : Ref) (w : World) : Prop where
  listen : w.state.listen = C.listen
  mem : ∀ n, (w.state.nodes n).mem = (C.nodes n).mem
  clock : ClockOk S.owner w
  missed : ∀ now, Since (S.Misses (routedPartition r.1 r.2) r now)
      (fun ev => creates S.owner (routedPartition r.1 r.2) ev = true) w.past →
    (w.state.nodes S.owner).content r = none
  pushed : Since (Sync.Pushes x r) (Sync.Prunes x) w.past → stored x r w.state ≠ none
  held : (w.state.nodes S.owner).content r ≠ none → stored x r w.state ≠ none ∨
    (∃ j, j ≠ 0 ∧ Since (Sync.PutsOn S.owner r) (Sync.PutsOn x r) (w.own j)) ∨
    ((C.nodes S.owner).content r ≠ none ∧ stored x r C = none ∧
      ∀ ev ∈ w.past, ¬ Sync.PrunesOf (routedPartition r.1 r.2) x ev)

/-! ### One step -/

section step
variable {S : Sync} {i : ℕ} {h : List Event} {e : Action} {c : Choice} {C : Cluster} {n : Bytes} {r : Ref}

/-- Nothing but a put of the entry makes it live. -/
theorem content_none_after (he : S.pre i h e)
    (hput : ∀ value expireAt, e ≠ .on n (.put r.1 r.2 value expireAt))
    (hnone : (C.nodes n).content r = none) : ((exec e c C).2.nodes n).content r = none := by
  rw [Node.content_eq_none] at hnone ⊢
  intro v hv
  refine Value.expired_mono (hnone v ?_) (exec_clock_mono _ _ _ _)
  by_cases hprune : ∃ keep, e = .on n (.prune (routedPartition r.1 r.2) keep)
  · obtain ⟨keep, rfl⟩ := hprune
    rw [find_exec_prune] at hv
    split at hv
    · cases hv
    · exact hv
  · rwa [Sync.find_after he (fun name key value expireAt heq _ href => hput value expireAt ?_)
      (fun keep heq => hprune ⟨keep, heq⟩)] at hv
    rw [heq, ← href]

/-- Nothing but a prune takes an entry away. -/
theorem stored_after (he : S.pre i h e)
    (hprune : ∀ keep, e ≠ .on n (.prune (routedPartition r.1 r.2) keep))
    (hheld : stored n r C ≠ none) : stored n r (exec e c C).2 ≠ none := by
  by_cases hput : ∃ value expireAt, e = .on n (.put r.1 r.2 value expireAt)
  · obtain ⟨value, expireAt, rfl⟩ := hput
    rw [stored, find_exec_put, if_pos ⟨rfl, rfl, rfl⟩]
    simp
  · rwa [stored, Sync.find_after he (fun name key value expireAt heq _ href => hput ?_) hprune]
    exact ⟨value, expireAt, by rw [heq, ← href]⟩

theorem snaps_of_snapshots {q : PartitionId} {ev : Event} (hev : snapshots S.owner q ev = true) :
    S.Snaps q ev := by
  obtain ⟨j, e, resp⟩ := ev
  cases e with
  | on m a =>
    cases a with
    | snapshot q' =>
      simp only [snapshots, Bool.and_eq_true, decide_eq_true_eq] at hev
      obtain ⟨⟨rfl, rfl⟩, rfl⟩ := hev
      exact ⟨rfl, rfl⟩
    | _ => cases hev
  | _ => cases hev

/-- A put of an entry that is not live creates it. -/
theorem creates_of_content_none {value : Bytes} {expireAt : Int64}
    (hnone : (C.nodes n).content r = none) :
    creates n (routedPartition r.1 r.2) ⟨i, .on n (.put r.1 r.2 value expireAt),
      (exec (.on n (.put r.1 r.2 value expireAt)) c C).1⟩ = true := by
  have hcreated : (exec (.on n (.put r.1 r.2 value expireAt)) c C).1 = true := by
    change ((C.nodes n).store.lookup (routedPartition r.1 r.2) r.1 r.2
      ((C.nodes n).clock + c.tick)).isNone = true
    rw [Option.isNone_iff_eq_none, Option.eq_none_iff_forall_ne_some]
    intro v hv
    obtain ⟨hf, hl⟩ := lookup_eq_some.mp hv
    rw [Value.expired_mono (Node.content_eq_none.mp hnone v hf) (Nat.le_add_right _ _)] at hl
    cases hl
  simp [creates, hcreated]

/-- What the pass finds missing is not live on the owner, where no entry is about to lapse. -/
theorem content_of_misses {now : ℕ} (hp : S.prompt (routedPartition r.1 r.2))
    (hm : S.Misses (routedPartition r.1 r.2) r now ⟨i, e, (exec e c C).1⟩) :
    ((exec e c C).2.nodes S.owner).content r = none := by
  generalize hev : (⟨i, e, (exec e c C).1⟩ : Event) = ev at hm
  refine Node.content_eq_none.mpr (fun v hv => ?_)
  by_contra hl
  rw [Bool.not_eq_true] at hl
  cases hm with
  | lapsed _ hq _ => exact hq hp
  | unlisted snap hr =>
    injection hev with _ he hresp
    subst he
    obtain rfl := eq_of_heq hresp
    rw [exec_on_clock] at hl
    rw [exec_on_self] at hv
    exact hr (List.mem_map.mpr ⟨entryOf r v, (mem_exec_snapshot _ _ _).mpr
      (mem_snapshotPartition.mpr ⟨hv, hl⟩), entryOf_ref r v⟩)
  | gone =>
    injection hev with _ he hresp
    subst he
    rw [exec_on_clock] at hl
    rw [exec_on_self] at hv
    have hnone : (C.nodes S.owner).store.lookup (routedPartition r.1 r.2) r.1 r.2
        ((C.nodes S.owner).clock + c.tick) = none := eq_of_heq hresp
    exact Option.some_ne_none v ((lookup_eq_some.mpr ⟨hv, hl⟩).symm.trans hnone)

end step

namespace RaceInv
variable {S : Sync} {C : Cluster} {x : Bytes} {r : Ref} {w : World} {i : ℕ} {e : Action} {c : Choice}

theorem missed_next (hI : RaceInv S C x r w) (hp : S.prompt (routedPartition r.1 r.2))
    (hpre : S.pre i (w.own i) e) (now : ℕ)
    (hs : Since (S.Misses (routedPartition r.1 r.2) r now)
      (fun ev => creates S.owner (routedPartition r.1 r.2) ev = true) (w.next exec i e c).past) :
    ((w.next exec i e c).state.nodes S.owner).content r = none := by
  rcases hs with hmiss | ⟨hnew, hs⟩
  · exact content_of_misses hp hmiss
  · have hnone := hI.missed now hs
    refine content_none_after hpre (fun value expireAt he => ?_) hnone
    subst he
    exact hnew (creates_of_content_none hnone)

theorem pushed_next (hI : RaceInv S C x r w) (hpre : S.pre i (w.own i) e)
    (hs : Since (Sync.Pushes x r) (Sync.Prunes x) (w.next exec i e c).past) :
    stored x r (w.next exec i e c).state ≠ none := by
  rcases hs with ⟨-, value, expireAt, he⟩ | ⟨hnot, hs⟩
  · obtain rfl : e = .on x (.put r.1 r.2 value expireAt) := he
    rw [World.next_state, stored, find_exec_put, if_pos ⟨rfl, rfl, rfl⟩]
    simp
  · refine stored_after hpre (fun keep he => ?_) (hI.pushed hs)
    subst he
    exact hnot ⟨hpre.1, _, keep, rfl⟩

/-- The owner's live entries reach the backup: a step that does not prune their partition there. -/
theorem held_next (hI : RaceInv S C x r w) (hpre : S.pre i (w.own i) e)
    (hprune : ∀ keep, e ≠ .on x (.prune (routedPartition r.1 r.2) keep))
    (hlive : ((w.next exec i e c).state.nodes S.owner).content r ≠ none) :
    stored x r (w.next exec i e c).state ≠ none ∨
    (∃ j, j ≠ 0 ∧ Since (Sync.PutsOn S.owner r) (Sync.PutsOn x r) ((w.next exec i e c).own j)) ∨
    ((C.nodes S.owner).content r ≠ none ∧ stored x r C = none ∧
      ∀ ev ∈ (w.next exec i e c).past, ¬ Sync.PrunesOf (routedPartition r.1 r.2) x ev) := by
  by_cases hown : ∃ value expireAt, e = .on S.owner (.put r.1 r.2 value expireAt)
  · -- a put on the owner has the backup still before it
    refine Or.inr (Or.inl ⟨i, fun hi => ?_, ?_⟩)
    · obtain ⟨value, expireAt, rfl⟩ := hown
      exact (hpre hi).1 rfl
    · rw [World.next_own_self]
      exact Since.here hown
  by_cases hback : ∃ value expireAt, e = .on x (.put r.1 r.2 value expireAt)
  · obtain ⟨value, expireAt, rfl⟩ := hback
    refine Or.inl ?_
    rw [World.next_state, stored, find_exec_put, if_pos ⟨rfl, rfl, rfl⟩]
    simp
  have hbefore : (w.state.nodes S.owner).content r ≠ none := fun hnone =>
    hlive (content_none_after hpre (fun value expireAt he => hown ⟨value, expireAt, he⟩) hnone)
  rcases hI.held hbefore with hst | ⟨j, hj0, hj⟩ | ⟨hC, hlack, hno⟩
  · exact Or.inl (stored_after hpre hprune hst)
  · refine Or.inr (Or.inl ⟨j, hj0, ?_⟩)
    by_cases hij : i = j
    · subst hij
      rw [World.next_own_self]
      exact Since.cons hback hj
    · rw [World.next_own_ne _ _ _ _ _ hij]
      exact hj
  · refine Or.inr (Or.inr ⟨hC, hlack, fun ev hev => ?_⟩)
    rcases List.mem_cons.mp hev with rfl | hev
    · rintro ⟨-, keep, he⟩
      exact hprune keep he
    · exact hno ev hev

/-- A prune with the key set of the pass takes no live entry of the owner. -/
theorem held_prune (hI : RaceInv S C x r w) {keep : List Ref}
    (hpre : S.pre i (w.own i) (.on x (.prune (routedPartition r.1 r.2) keep)))
    (hcur : ¬ Since (fun ev => creates S.owner (routedPartition r.1 r.2) ev = true)
      (S.Snaps (routedPartition r.1 r.2)) w.past)
    (hlive : (w.state.nodes S.owner).content r ≠ none) : r ∈ keep ∧ stored x r w.state ≠ none := by
  obtain ⟨rfl, -, now, -, hkeep⟩ := hpre
  by_cases hr : r ∈ keep
  · refine ⟨hr, hI.pushed (((hkeep r).1 hr).of_filter ?_)⟩
    rintro ev ⟨htid, -⟩
    simp [htid]
  · refine absurd (hI.missed now (Since.trans (((hkeep r).2 hr).of_filter ?_) hcur)) hlive
    rintro ev ⟨htid, -⟩
    simp [htid]

/-- **One step of a race-free run keeps the invariant.** -/
theorem next (hI : RaceInv S C x r w) (hp : S.prompt (routedPartition r.1 r.2))
    (hok : RaceFree S.owner (routedPartition r.1 r.2) i e c w) (hpre : S.pre i (w.own i) e) :
    RaceInv S C x r (w.next exec i e c) where
  listen := ((Sync.pre_calm hpre).listen c w.state).trans hI.listen
  mem n := ((Sync.pre_calm hpre).mem c w.state n).trans (hI.mem n)
  clock := hI.clock.next i e c
  missed := hI.missed_next hp hpre
  pushed := hI.pushed_next hpre
  held hlive := by
    by_cases hprune : ∃ keep, e = .on x (.prune (routedPartition r.1 r.2) keep)
    · obtain ⟨keep, rfl⟩ := hprune
      have hcur : ¬ Since (fun ev => creates S.owner (routedPartition r.1 r.2) ev = true)
          (S.Snaps (routedPartition r.1 r.2)) w.past := by
        exact fun hs => hok.current x keep rfl (hs.mono_right fun _ => snaps_of_snapshots)
      have hbefore : (w.state.nodes S.owner).content r ≠ none := fun hnone =>
        hlive (content_none_after hpre (by simp) hnone)
      obtain ⟨hr, hst⟩ := hI.held_prune hpre hcur hbefore
      refine Or.inl ?_
      rw [World.next_state, stored, find_exec_prune, if_neg (fun h => h.2.2 hr)]
      exact hst
    · exact hI.held_next hpre (fun keep he => hprune ⟨keep, he⟩) hlive

end RaceInv

section race
variable {ids : List Bytes} {b : ℕ} {addr : Bytes → Bytes} {C : Cluster} {o x : Bytes} {p : PartitionId}
  {r : Ref}

/-- The pass and the puts of `o` in a cluster with one view. -/
def SharedView.sync (hV : SharedView ids b addr C) (o : Bytes) (p : PartitionId) : Sync where
  owner := o
  ids := ids
  addr := addr
  table := newTable ids b
  follows q m := m ∈ ids ∧ (newTable ids b).ownerOf q ≠ m
  prompt q := q = p
  placed := False
  addr_inj := hV.addr_inj

/-- What the threads are told in a race-free run. -/
theorem RaceInv.told {hV : SharedView ids b addr C} (ho : o ∈ ids) {w : World}
    (hI : RaceInv (hV.sync o p) C x r w) {i : ℕ} {e : Action} {c : Choice}
    (hok : RaceFree o p i e c w) :
    (hV.sync o p).post i (w.own i) e (exec e c w.state).1 := by
  cases e with
  | connect a =>
    rintro y hy rfl
    have hresp : (exec (.connect (addr y)) c w.state).1 = some y := by
      change (if c.lost then none else w.state.listen (addr y)) = some y
      rw [if_neg (by simp [hok.connect _ rfl]), hI.listen]
      exact (hV.listen _ _).mpr ⟨hy, rfl⟩
    exact ⟨fun z hz => Option.some.inj (hz.symm.trans hresp), fun _ => hresp⟩
  | reply n =>
    intro _
    change (!c.lost) = true
    rw [hok.reply n rfl]
    rfl
  | on m a =>
    cases a with
    | table =>
      have htable : m ∈ ids → (exec (.on m .table) c w.state).1 = newTable ids b := fun hm =>
        (congrArg Membership.table (hI.mem m)).trans (hV.table hm)
      refine ⟨fun hm => htable (hm ▸ ho), fun q hq => ?_⟩
      rw [htable hq.1]
      exact hq.2
    | addrOf y =>
      rintro rfl hy
      exact (congrArg (Membership.addrOf · y) (hI.mem _)).trans (hV.addrOf ho hy)
    | lookup q name key =>
      rintro rfl v hv now hread
      have hnow := (hI.clock now ⟨0, w.own_subset i hread⟩).trans (Nat.le_add_right _ c.tick)
      refine ⟨Value.live_of_live_later (lookup_eq_some.mp hv).2 hnow, ?_⟩
      rintro rfl
      exact not_lapses_of_lasting ((hok.prompt name key rfl v hv).mono hnow)
    | snapshot q => exact fun _ h => h.elim
    | _ => trivial
  | _ => trivial

/-- No backup whose digests differ finds that it has the owner's. -/
theorem not_matched (S : Sync) {sched : List (ℕ × Choice)} {f : Conf Unit}
    (hd : Meets exec (Differs S.owner x p) sched f) (hf : ¬ S.Matched p x (f.world.own 0)) :
    ¬ S.Matched p x ((Conf.run exec sched f).world.own 0) := by
  refine hd.keeps (I := fun w => ¬ S.Matched p x (w.own 0)) (fun i e c w hdiff hw => ?_) hf
  by_cases hi : i = 0
  · subst hi
    rw [World.next_own_self]
    rintro (⟨d, hev, hown⟩ | hans)
    · injection hev with _ he hresp
      subst he
      exact hdiff rfl rfl d (w.own_subset 0 hown) (eq_of_heq hresp)
    · exact hw hans
  · rwa [World.next_own_ne _ _ _ _ _ hi]

/-- The backups of a partition are other members than its owner. -/
theorem SharedView.backup (hV : SharedView ids b addr C) (hx : x ∈ (newTable ids b).backupsOf p) :
    x ∈ ids ∧ (newTable ids b).ownerOf p ∈ ids ∧ x ≠ (newTable ids b).ownerOf p := by
  have hxi := backupsOf_subset ids b p hx
  have hcons := holders_eq_cons (List.ne_nil_of_mem hxi) b p
  have hnd : (holders ids b p).Nodup := Ranking.top_nodup _ hV.nodup
  rw [hcons] at hnd
  refine ⟨hxi, mem_of_mem_holders (ownerOf_holder (List.ne_nil_of_mem hxi) b p), ?_⟩
  rintro rfl
  exact (List.nodup_cons.mp hnd).1 hx

theorem SharedView.backups_nodup (hV : SharedView ids b addr C) (q : PartitionId) :
    ((newTable ids b).backupsOf q).Nodup := by
  rw [newTable_backupsOf]
  exact (Ranking.top_nodup _ hV.nodup).sublist (List.tail_sublist _)

/-- The threads keep the contract: the pass comes to its backups, and the puts leave nothing behind. -/
theorem racePool_obeys (hV : SharedView ids b addr C) (o : Bytes) (p : PartitionId) (start : ℤ)
    (batch : ℕ) (puts : ℕ → Option (Bytes × Bytes × Bytes × Int64)) (j : ℕ) :
    (hV.sync o p).contract.Obeys j
      (fun _ h =>
        (j = 0 → ∀ q ∈ Sync.visited batch (Sync.first start), (newTable ids b).ownerOf q = o →
          ∀ y ∈ (newTable ids b).backupsOf q, y ≠ o → (hV.sync o p).Reached q y h) ∧
        (j ≠ 0 → ∀ r : Ref, ∀ y ∈ (newTable ids b).backupsOf (routedPartition r.1 r.2), y ≠ o →
          ¬ Since (Sync.PutsOn o r) (Sync.PutsOn y r) h))
      (racePool o start batch puts j) [] := by
  have hbs : ∀ q, ∀ y ∈ (newTable ids b).backupsOf q, y ∈ ids := fun q => backupsOf_subset ids b q
  cases j with
  | zero =>
    refine (Sync.antiEntropy_obeys (S := hV.sync o p) hbs hV.backups_nodup start batch []).mono ?_
    exact fun _ h hq => ⟨fun _ => hq, fun h0 => absurd rfl h0⟩
  | succ i =>
    simp only [racePool]
    split
    · refine Obeys.bind ((Sync.applyPut_obeys (S := hV.sync o p) (Nat.succ_ne_zero i) _ _ _ _
        hbs).mono (fun _ h hq => ?_))
      exact ⟨fun h0 => absurd h0 (Nat.succ_ne_zero i), fun _ => hq⟩
    · exact ⟨fun h0 => absurd h0 (Nat.succ_ne_zero i), fun _ r y _ _ h => h⟩

/-- **In race-free runs the backups end up with every live key of the owner**: a backup that held them
at the start, or whose digest differed when the pass asked for it. -/
theorem backups_keep_keys (hV : SharedView ids b addr C) (start : ℤ) (batch : ℕ)
    (puts : ℕ → Option (Bytes × Bytes × Bytes × Int64)) {sched : List (ℕ × Choice)}
    (ho : (newTable ids b).ownerOf p = o)
    (hok : Meets exec (RaceFree o p) sched (Conf.init C (racePool o start batch puts)))
    (hdone : ∀ j, ((Conf.run exec sched (Conf.init C (racePool o start batch puts))).pool j).returned
      = true)
    (hx : x ∈ (newTable ids b).backupsOf p)
    (hstart : (∀ r : Ref, routedPartition r.1 r.2 = p → (C.nodes o).content r ≠ none →
        stored x r C ≠ none) ∨
      (p ∈ Sync.visited batch (Sync.first start) ∧
        Meets exec (Differs o x p) sched (Conf.init C (racePool o start batch puts))))
    (hr : routedPartition r.1 r.2 = p)
    (hlive : ((Conf.run exec sched (Conf.init C (racePool o start batch puts))).world.state.nodes
      o).content r ≠ none) :
    stored x r (Conf.run exec sched (Conf.init C (racePool o start batch puts))).world.state ≠ none := by
  subst ho hr
  obtain ⟨hxi, hoi, hxo⟩ := hV.backup hx
  set p := routedPartition r.1 r.2
  set o := (newTable ids b).ownerOf p
  have hsound : (hV.sync o p).contract.Sound exec (RaceInv (hV.sync o p) C x r) (RaceFree o p) :=
    fun i e c w hI hok hpre => ⟨hI.next rfl hok hpre, hI.told hoi hok⟩
  have hinit : RaceInv (hV.sync o p) C x r ⟨C, []⟩ :=
    { listen := rfl
      mem := fun _ => rfl
      clock := fun now ⟨_, hm⟩ => absurd hm (by simp)
      missed := fun _ h => h.elim
      pushed := fun h => h.elim
      held := fun hc => by
        by_cases hst : stored x r C = none
        · exact Or.inr (Or.inr ⟨hc, hst, by simp⟩)
        · exact Or.inl hst }
  obtain ⟨hI, -, hend⟩ := hsound.run (f := Conf.init C (racePool o start batch puts)) hinit
    (racePool_obeys hV o p start batch puts) hok
  rcases hI.held hlive with hst | ⟨j, hj, hpend⟩ | ⟨hC, hlack, hno⟩
  · exact hst
  · obtain ⟨_, hret⟩ := Prog.returned_iff.mp (hdone j)
    exact absurd hpend (((hend j).returned hret).2 hj r x hx hxo)
  · rcases hstart with hheld | ⟨hvis, hdiff⟩
    · exact absurd hlack (hheld r rfl hC)
    · obtain ⟨_, hret⟩ := Prog.returned_iff.mp (hdone 0)
      rcases ((hend 0).returned hret).1 rfl p hvis rfl x hx hxo with hans | hpr
      · exact absurd hans.matched (not_matched (hV.sync o p) hdiff (fun h => h))
      · obtain ⟨ev, hev, hprune⟩ := hpr ⟨hxi, Ne.symm hxo⟩
        exact absurd hprune (hno ev (World.own_subset _ 0 hev))

end race

/-! ### One put, before and after the snapshot -/

/-- A backup `[98]` with an entry that its owner `[97]` has deleted. -/
def zombie : Cluster := oneEntry [[97], [98]] 1 [[98]] ([109], [114]) [122]

/-- The pass over the partition of the key `[114]`, and one put of another entry of it. -/
def zombiePool : ℕ → Prog Unit :=
  racePool [97] 1 1 (fun i => if i = 0 then some ([110], [114], [118], 0) else none)

/-- `RaceFree`, evaluated, where the copies have no expiry. -/
def raceCheck (o : Bytes) (p : PartitionId) (_i : ℕ) (e : Action) (c : Choice) (w : World) : Bool :=
  !c.lost &&
  match e with
  | .on _ (.prune q _) => decide (q ≠ p ∨
      ¬ Since (fun ev => creates o p ev = true) (fun ev => snapshots o p ev = true) w.past)
  | .on m (.lookup q name key) => decide (m ≠ o) || decide (q ≠ p) ||
      ((w.state.nodes o).store.find p (name, key)).all (fun v => v.expireAt == 0)
  | _ => true

theorem RaceFree.of_check {o : Bytes} {p : PartitionId} {i : ℕ} {e : Action} {c : Choice} {w : World}
    (h : raceCheck o p i e c w = true) : RaceFree o p i e c w := by
  unfold raceCheck at h
  rw [Bool.and_eq_true, Bool.not_eq_true'] at h
  refine ⟨fun _ _ => h.1, fun _ _ => h.1, ?_, ?_⟩
  · rintro y keep rfl
    simpa using h.2
  · rintro name key rfl v hv
    have hall : ((w.state.nodes o).store.find p (name, key)).all (fun v => v.expireAt == 0) = true := by
      simpa using h.2
    rw [(lookup_eq_some.mp hv).1] at hall
    exact Or.inl (eq_of_beq hall)

/-- **A put between the snapshot and the prune is stripped from the backup**: nothing is lost on the
way, the owner has the entry, and the backup, to which it was replicated, does not. -/
theorem prune_strips_put :
    let f := Conf.run exec (List.replicate 8 (0, Choice.still) ++ List.replicate 20 (1, Choice.still) ++
      List.replicate 20 (0, Choice.still)) (Conf.init zombie zombiePool)
    (newTable [[97], [98]] 1).ownerOf (routedPartition [110] [114]) = [97] ∧
    [98] ∈ (newTable [[97], [98]] 1).backupsOf (routedPartition [110] [114]) ∧
    (f.pool 0).returned = true ∧ (f.pool 1).returned = true ∧
    (f.world.state.nodes [97]).content ([110], [114]) = some [118] ∧
    stored [98] ([110], [114]) f.world.state = none := by
  decide +kernel

theorem zombie_sharedView : SharedView [[97], [98]] 1 id zombie :=
  oneEntry_sharedView 1 _ _ _ (by decide) (by decide) (by decide)

/-- The put changes the owner before the pass starts, and is replicated after the pass has pushed the
entry and pruned the deleted one. -/
theorem backups_keep_keys_put_first :
    stored [98] ([110], [114]) (Conf.run exec (List.replicate 2 (1, Choice.still) ++
      List.replicate 30 (0, Choice.still) ++ List.replicate 20 (1, Choice.still))
        (Conf.init zombie zombiePool)).world.state ≠ none := by
  have hcheck : Conf.check exec (raceCheck [97] (forKey [114])) (List.replicate 2 (1, Choice.still) ++
      List.replicate 30 (0, Choice.still) ++ List.replicate 20 (1, Choice.still))
        (Conf.init zombie zombiePool) = true := by decide +kernel
  refine backups_keep_keys zombie_sharedView (o := [97]) (p := forKey [114]) 1 1 _ (by decide +kernel)
    ((Meets.of_check hcheck).mono fun _ _ _ _ h => RaceFree.of_check h) (fun j => ?_) (by decide +kernel)
    (Or.inl fun r _ hr => absurd ?_ hr) (by decide) (by decide +kernel)
  · match j with
    | 0 | 1 => decide +kernel
    | j + 2 =>
      rw [Conf.run_pool_of_not_mem (by simp)]
      rfl
  · exact (oneEntry_content _ _ _ _ _ _ r).trans (if_neg fun h => absurd h.1 (by decide))

end Medusa
