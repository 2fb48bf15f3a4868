import Medusa.Calls
import Medusa.Completion
import Medusa.Epochs

/-! # The maintenance loop

`Node.maintain` with what it keeps between its ticks: where anti-entropy resumes, the table version it has
migrated for, and when it last saved a checkpoint.  The checkpoint is a parameter, any program that says whether it
succeeded, and so is what discovery finds in each tick.

* `maintain_migrated`: **no change of the table is recorded without its pass**: as long as the version the loop
  has recorded is the node's, the loop has gone through all partitions with the table the node has.
* `maintain_hands_over`: **and what it found there has been acknowledged** by the holders the table names, if they can
  be reached.
* `maintain_visits`: **anti-entropy leaves no partition out**: while the node has peers, the ticks go round the
  partitions, eight at a time, so that 34 ticks visit each.

The loop reads the version and then the table, in two critical sections.  The table may be newer than the version,
never older, and a newer one is noticed in the next tick (`Noted`), as long as the version does not come round. -/

namespace Medusa

open Medusa.Partition Interleave Service Contract

namespace Node

/-! ### The loop -/

/-- Consecutive missed heartbeats that evict a peer. -/
def failureMissThreshold : UInt8 := 3

/-- How long a tombstone suppresses gossip, in nanoseconds. -/
def tombstoneTTL : ℤ := 300000000000

/-- The time between checkpoints, in nanoseconds. -/
def snapshotInterval : ℤ := 30000000000

/-- The partitions one tick reconciles. -/
def antiEntropyBatch : ℕ := 8

/-- The most entries one tick evicts. -/
def evictBatch : ℤ := 1024

/-- What the loop keeps between ticks. -/
structure Loop where
  reconcileCursor : PartitionId
  lastMigratedVersion : UInt64
  checkpointDue : Bool
  lastSaveNano : ℤ
deriving DecidableEq, Repr

/-- The options the loop reads: the cap on entries, and the checkpoint of a node with a data directory. -/
structure Config where
  maxEntries : ℤ
  checkpoint : Option (Prog Bool)

/-- The first part of a tick: join while isolated, otherwise gossip, detect failures and reconcile. -/
def keepUp (me : Member) (seeds : List Bytes) (l : Loop) : Prog Loop := do
  let members : List Member ← Prog.on me.id .members
  if members.length ≤ 1 then do
    -- discovery failed or found nobody
    if seeds = [] then return l
    else do
      Membership.join me seeds
      return l
  else do
    Membership.gossip me.id
    Membership.detectFailures me.id failureMissThreshold
    let _ ← Prog.on me.id (.pruneTombstones tombstoneTTL)
    let tbl : Table ← Prog.on me.id .table
    let synced ← syncBackups me.id tbl l.reconcileCursor.val antiEntropyBatch
    return { l with reconcileCursor := synced.2 }

/-- The second part: migrate when the version is not the recorded one, and record it after a complete pass. -/
def follow (n : Bytes) (l : Loop) : Prog Loop := do
  let v : UInt64 ← Prog.on n .tableVersion
  if v ≠ l.lastMigratedVersion then do
    let done ← rebalance n
    -- a pass that was cut short is repeated in the next tick, but it may have dropped entries already
    return { l with
      checkpointDue := true
      lastMigratedVersion := if done then v else l.lastMigratedVersion }
  else return l

/-- Whether a checkpoint is due; the clock is read only when it decides. -/
def due (n : Bytes) (l : Loop) : Prog Bool :=
  if l.checkpointDue then return true
  else do
    let now : ℕ ← Prog.on n .nowNano
    return decide (snapshotInterval < now - l.lastSaveNano)

/-- The checkpoint of a tick: when it fails it stays due. -/
def save (n : Bytes) (checkpoint : Prog Bool) (l : Loop) : Prog Loop := do
  if ← due n l then do
    if ← checkpoint then do
      let now : ℕ ← Prog.on n .nowNano
      return { l with lastSaveNano := now, checkpointDue := false }
    else return l
  else return l

/-- The last part: sweep, evict towards the cap, save a checkpoint. -/
def tidy (cfg : Config) (n : Bytes) (l : Loop) : Prog Loop := do
  let _ ← Prog.on n .sweep
  let _ ← (if 0 < cfg.maxEntries then evict n cfg.maxEntries evictBatch else return 0)
  cfg.checkpoint.elim (return l) (save n · l)

/-- One tick. -/
def onTick (cfg : Config) (me : Member) (seeds : List Bytes) (l : Loop) : Prog Loop := do
  let l ← keepUp me seeds l
  let l ← follow me.id l
  tidy cfg me.id l

/-- `Node.maintain`, for as many ticks as there are results of discovery. -/
def maintain (cfg : Config) (me : Member) : List (List Bytes) → Loop → Prog Loop
  | [], l => return l
  | seeds :: rest, l => do
      let l ← onTick cfg me seeds l
      maintain cfg me rest l

/-! ### A version and its table -/

/-- The critical section may rebuild the table, once. -/
def mayRebuild : NodeAction → Bool
  | .merge _ | .rejoin _ | .removeMember _ | .detect _ _ _ => true
  | _ => false

/-- The event may have rebuilt the table of node `n`. -/
def rebuilding (n : Bytes) (ev : Event) : Bool :=
  match ev.act with
  | .on m a => m == n && mayRebuild a
  | _ => false

/-- The table was rebuilt at most `k` times, and if it was not, it is the same. -/
def Renewed (k : ℕ) (m m' : Membership) : Prop :=
  ∃ j ≤ k, m'.tableVer = m.tableVer + UInt64.ofNat j ∧ (j = 0 → m'.table = m.table)

/-- Fewer than `2 ^ 64` rebuilds do not bring a version back. -/
theorem rebuilds_eq_zero {v : UInt64} {j : ℕ} (hj : j < 2 ^ 64) (h : v + UInt64.ofNat j = v) : j = 0 := by
  have hzero : UInt64.ofNat j = 0 := by simpa using h
  have hnat := congrArg UInt64.toNat hzero
  rwa [UInt64.toNat_ofNat_of_lt' hj] at hnat

namespace Renewed
variable {m m' m'' : Membership} {k k' : ℕ}

theorem of_same (k : ℕ) (hver : m'.tableVer = m.tableVer) (htable : m'.table = m.table) : Renewed k m m' :=
  ⟨0, Nat.zero_le k, by simp [hver], fun _ => htable⟩

theorem refl (k : ℕ) (m : Membership) : Renewed k m m := of_same k rfl rfl

theorem once (hver : m'.tableVer = m.tableVer + 1) : Renewed 1 m m' := ⟨1, le_rfl, hver, fun h => absurd h one_ne_zero⟩

theorem trans (h : Renewed k m m') (h' : Renewed k' m' m'') : Renewed (k + k') m m'' := by
  obtain ⟨j, hj, hver, htable⟩ := h
  obtain ⟨j', hj', hver', htable'⟩ := h'
  refine ⟨j + j', Nat.add_le_add hj hj', ?_, fun hzero => ?_⟩
  · rw [hver', hver, UInt64.ofNat_add, UInt64.add_assoc]
  · rw [htable' (by omega), htable (by omega)]

theorem merge (m : Membership) (ms : List Member) : Renewed 1 m (m.merge ms).2 := by
  unfold Membership.merge
  split
  · split
    · exact of_same 1 rfl rfl
    · exact once rfl
  · exact refl 1 m

theorem removeLocked (m : Membership) (id : Bytes) (now : ℕ) : Renewed 1 m (m.removeLocked id now).2 := by
  unfold Membership.removeLocked
  split
  · exact refl 1 m
  · split
    · exact refl 1 m
    · exact once rfl

theorem rejoin (m : Membership) (mem : Member) : Renewed 1 m (m.rejoin mem) := by
  unfold Membership.rejoin
  split
  · exact refl 1 m
  · split
    · exact of_same 1 rfl rfl
    · exact once rfl

theorem detect (m : Membership) (id : Bytes) (failed : Bool) (threshold : UInt8) (now : ℕ) (suspicious : Bool) :
    Renewed 1 m (m.detect id failed threshold now suspicious).2 := by
  unfold Membership.detect
  split
  · exact refl 1 m
  · split
    · split
      · exact (of_same 0 rfl rfl : Renewed 0 m (m.missed id)).trans (removeLocked _ id now)
      · exact of_same 1 rfl rfl
    · exact of_same 1 rfl rfl

theorem pruneTombstones (m : Membership) (ttl : ℤ) (now : ℕ) : Renewed 0 m (m.pruneTombstones ttl now) := by
  unfold Membership.pruneTombstones
  split <;> exact of_same 0 rfl rfl

/-- Only a restart brings another table without a rebuild. -/
theorem of_exec {n : Bytes} {e : Action} (hcrash : e ≠ .crash n) (hstart : e ≠ .start n) (i : ℕ) (c : Choice)
    (C : Cluster) :
    Renewed (if rebuilding n ⟨i, e, (Medusa.exec e c C).1⟩ then 1 else 0) (C.nodes n).mem
      ((Medusa.exec e c C).2.nodes n).mem := by
  cases e with
  | on k a =>
    by_cases hk : n = k
    · subst hk
      rw [exec_on_self]
      have hcount : rebuilding n ⟨i, .on n a, (Medusa.exec (.on n a) c C).1⟩ = mayRebuild a := by simp [rebuilding]
      rw [hcount]
      cases a with
      | merge ms => exact merge _ ms
      | rejoin mem => exact rejoin _ mem
      | removeMember id => exact removeLocked _ id _
      | detect id failed threshold => exact detect _ id failed threshold _ _
      | pruneTombstones ttl => exact pruneTombstones _ ttl _
      | emit ev =>
        change Renewed 0 _ (if _ then _ else _ : Node).mem
        split <;> exact refl _ _
      | _ => exact refl _ _
    · rw [exec_on_ne k a c C hk]
      exact refl _ _
  | start k =>
    rw [exec_start_ne k c C (fun hk => hstart (by rw [hk]))]
    exact refl _ _
  | crash k =>
    rw [exec_crash_ne k c C (fun hk => hcrash (by rw [hk]))]
    exact refl _ _
  | storeThrough | deleteThrough =>
    simp only [Medusa.exec]
    split <;> exact refl _ _
  | _ => exact refl _ _

end Renewed

/-- What the reads of thread `0` say about the membership, whose table was rebuilt at most `k` times: how often since a
version was read, and that the table read right after the version is the table, if it was not. -/
structure Noted (n : Bytes) (k : ℕ) (m : Membership) (h : List Event) : Prop where
  version : ∀ v, (⟨0, .on n .tableVersion, v⟩ : Event) ∈ h → ∃ j ≤ k, m.tableVer = v + UInt64.ofNat j
  table : ∀ tbl v before, (⟨0, .on n .table, tbl⟩ : Event) :: ⟨0, .on n .tableVersion, v⟩ :: before <:+ h →
    ∃ j ≤ k, m.tableVer = v + UInt64.ofNat j ∧ (j = 0 → tbl = m.table)

namespace Noted
variable {n : Bytes} {k k' : ℕ} {m m' : Membership} {h : List Event}

theorem renew (hn : Noted n k m h) (hm : Renewed k' m m') : Noted n (k + k') m' h := by
  obtain ⟨j', hj', hver', htable'⟩ := hm
  refine ⟨fun v hv => ?_, fun tbl v before hsuf => ?_⟩
  · obtain ⟨j, hj, hver⟩ := hn.version v hv
    exact ⟨j + j', Nat.add_le_add hj hj', by rw [hver', hver, UInt64.ofNat_add, UInt64.add_assoc]⟩
  · obtain ⟨j, hj, hver, htable⟩ := hn.table tbl v before hsuf
    refine ⟨j + j', Nat.add_le_add hj hj', by rw [hver', hver, UInt64.ofNat_add, UInt64.add_assoc], fun hzero => ?_⟩
    rw [htable (by omega), htable' (by omega)]

/-- Thread `0` takes one more step, and if it reads the version or the table, it reads the membership's. -/
theorem cons (hn : Noted n k m h) {e : Action} {r : e.Resp}
    (hver : ∀ v, (⟨0, e, r⟩ : Event) = ⟨0, .on n .tableVersion, v⟩ → v = m.tableVer)
    (htable : ∀ tbl, (⟨0, e, r⟩ : Event) = ⟨0, .on n .table, tbl⟩ → tbl = m.table) :
    Noted n k m (⟨0, e, r⟩ :: h) where
  version v hv := by
    rcases List.mem_cons.mp hv with heq | hmem
    · exact ⟨0, Nat.zero_le k, by simp [hver v heq.symm]⟩
    · exact hn.version v hmem
  table tbl v before hsuf := by
    rcases List.suffix_cons_iff.mp hsuf with heq | hsuf
    · obtain ⟨hhead, htail⟩ := List.cons.inj heq
      obtain ⟨j, hj, hv⟩ := hn.version v (htail ▸ List.mem_cons_self)
      exact ⟨j, hj, hv, fun _ => htable tbl hhead.symm⟩
    · exact hn.table tbl v before hsuf

end Noted

/-! ### What a tick does -/

/-- The snapshot that node `n` took in the event. -/
def snapshotOf (n : Bytes) : Event → Option (PartitionId × List Entry)
  | ⟨_, .on m (.snapshot p), snap⟩ => if m = n then some (p, snap) else none
  | _ => none

/-- The snapshots of a history, oldest first. -/
def snapshots (n : Bytes) (h : List Event) : List (PartitionId × List Entry) := h.reverse.filterMap (snapshotOf n)

/-- Thread `0` read the version and the table, and went through all partitions with it. -/
def Migrated (n : Bytes) (v : UInt64) (tbl : Table) (h : List Event) : Prop :=
  ∃ during before, during ++ (⟨0, .on n .table, tbl⟩ : Event) :: ⟨0, .on n .tableVersion, v⟩ :: before <:+ h ∧
    (snapshots n during).map Prod.fst = List.finRange Count

/-- The same, with what holds of each snapshot at the end of the pass. -/
def Passed (S : Table → PartitionId → List Entry → List Event → Prop) (n : Bytes) (v : UInt64) (tbl : Table)
    (h : List Event) : Prop :=
  ∃ during before,
    let pass := during ++ (⟨0, .on n .table, tbl⟩ : Event) :: ⟨0, .on n .tableVersion, v⟩ :: before
    pass <:+ h ∧ (snapshots n during).map Prod.fst = List.finRange Count ∧
      ∀ x ∈ snapshots n during, S tbl x.1 x.2 pass

/-- A handover takes no snapshot. -/
theorem plumbing_noSnapshot (n : Bytes) : Plumbing fun e => ∀ p, e ≠ .on n (.snapshot p) where
  on m {a} ha p := by
    cases a <;> first | exact ha.elim | exact fun h => by cases h
  connect _ _ := by simp
  reply _ _ := by simp
  toStore _ _ _ _ := by simp
  toDelete _ _ _ := by simp

theorem snapshots_append (n : Bytes) (h h' : List Event) : snapshots n (h ++ h') = snapshots n h' ++ snapshots n h := by
  rw [snapshots, List.reverse_append, List.filterMap_append]
  rfl

theorem snapshots_eq_nil {n : Bytes} {h : List Event} (hh : ∀ ev ∈ h, ∀ p, ev.act ≠ .on n (.snapshot p)) :
    snapshots n h = [] := by
  rw [snapshots, List.filterMap_eq_nil_iff]
  intro ev hev
  have hne := hh ev (List.mem_reverse.mp hev)
  obtain ⟨i, e, r⟩ := ev
  unfold snapshotOf
  split
  · next p _ heq =>
    split
    · next hm =>
      obtain rfl : e = _ := congrArg Interleave.Event.act heq
      exact absurd (by rw [hm]) (hne p)
    · rfl
  · rfl

section history
variable {K : Contract Action.Resp} (hK : ∀ h e, K.pre 0 h e)
include hK

/-- Whatever a program does, its history grows. -/
theorem grows {α : Type} (p : Prog α) (h : List Event) : K.Obeys 0 (fun _ h' => h <:+ h') p h :=
  (Obeys.of_pre hK p h).suffix.mono fun _ _ hq => hq.2

/-- The second part of a tick leaves the cursor alone. -/
theorem follow_keeps (n : Bytes) (l : Loop) (h : List Event) :
    K.Obeys 0 (fun l' h' => l'.reconcileCursor = l.reconcileCursor ∧ h <:+ h') (follow n l) h := by
  refine Obeys.suffix ?_
  unfold follow
  refine Obeys.step (hK _ _) (fun v _ => ?_)
  split
  · exact Obeys.bind ((grows hK _ _).mono fun _ _ _ => rfl)
  · exact rfl

/-- Checkpoints leave the cursor and the version alone. -/
theorem save_keeps (n : Bytes) (checkpoint : Prog Bool) (l : Loop) (h : List Event) :
    K.Obeys 0 (fun l' _ => l'.reconcileCursor = l.reconcileCursor ∧
      l'.lastMigratedVersion = l.lastMigratedVersion) (save n checkpoint l) h := by
  unfold save
  refine Obeys.bind ((grows hK (due n l) h).mono fun isDue h₁ _ => ?_)
  split
  · refine Obeys.bind ((grows hK checkpoint h₁).mono fun saved h₂ _ => ?_)
    split
    · exact Obeys.step (hK _ _) (fun now _ => ⟨rfl, rfl⟩)
    · exact ⟨rfl, rfl⟩
  · exact ⟨rfl, rfl⟩

theorem tidy_keeps (cfg : Config) (n : Bytes) (l : Loop) (h : List Event) :
    K.Obeys 0 (fun l' h' => (l'.reconcileCursor = l.reconcileCursor ∧
      l'.lastMigratedVersion = l.lastMigratedVersion) ∧ h <:+ h') (tidy cfg n l) h := by
  refine Obeys.suffix ?_
  unfold tidy
  refine Obeys.step (hK _ _) (fun swept _ => Obeys.bind ?_)
  refine (grows hK _ _).mono fun evicted h₁ _ => ?_
  cases cfg.checkpoint with
  | none => exact ⟨rfl, rfl⟩
  | some checkpoint => exact save_keeps hK n checkpoint l h₁

/-- The first part of a tick leaves the version alone. -/
theorem keepUp_keeps (me : Member) (seeds : List Bytes) (l : Loop) (h : List Event) :
    K.Obeys 0 (fun l' h' => l'.lastMigratedVersion = l.lastMigratedVersion ∧ h <:+ h') (keepUp me seeds l) h := by
  refine Obeys.suffix ?_
  unfold keepUp
  refine Obeys.step (hK _ _) (fun members _ => ?_)
  split
  · split
    · exact rfl
    · exact Obeys.bind ((grows hK _ _).mono fun _ _ _ => rfl)
  · refine Obeys.bind ((grows hK _ _).mono fun _ h₁ _ => ?_)
    refine Obeys.bind ((grows hK _ h₁).mono fun _ h₂ _ => ?_)
    refine Obeys.step (hK _ _) (fun _ _ => Obeys.step (hK _ _) (fun tbl _ => ?_))
    exact Obeys.bind ((grows hK _ _).mono fun synced _ _ => rfl)

section pass
variable {S : Table → PartitionId → List Entry → List Event → Prop}
  (hmono : ∀ tbl p snap h h', S tbl p snap h → h <:+ h' → S tbl p snap h') {n : Bytes}
  (hround : ∀ tbl p snap h, K.Obeys 0 (fun _ h' => S tbl p snap h') (handOver n tbl p (orderQueueMetaLast snap)) h)
include hmono hround

/-- A pass that returns true has taken a snapshot of every partition and handed it over. -/
theorem migrateLoop_visits (tbl : Table) (ps : List PartitionId) (h : List Event) :
    K.Obeys 0 (fun done h' => ∃ during, h' = during ++ h ∧ (done = true →
      (snapshots n during).map Prod.fst = ps ∧ ∀ x ∈ snapshots n during, S tbl x.1 x.2 h')) (migrateLoop n tbl ps) h := by
  induction ps generalizing h with
  | nil => exact ⟨[], rfl, fun _ => ⟨rfl, fun x hx => by cases hx⟩⟩
  | cons p ps ih =>
    unfold migrateLoop
    refine Obeys.step (hK _ _) (fun stop _ => ?_)
    cases stop with
    | true => exact ⟨[_], rfl, fun hdone => absurd hdone (by simp)⟩
    | false =>
      refine Obeys.bind (Obeys.step (hK _ _) (fun snap _ => ?_))
      have hquiet := (plumbing_noSnapshot n).handOver (fun _ _ _ _ _ _ => by simp) tbl p (orderQueueMetaLast snap)
        (n := n) (fun _ _ _ => by simp)
      refine ((hround tbl p snap _).extending hquiet).mono ?_
      rintro - h₁ ⟨hserved, pushes, rfl, hpushes⟩
      refine (ih _).mono ?_
      rintro done h' ⟨during, rfl, hps⟩
      refine ⟨during ++ pushes ++ [⟨0, .on n (.snapshot p), snap⟩, ⟨0, .ctxErr, false⟩], by simp, fun hdone => ?_⟩
      obtain ⟨hfst, hall⟩ := hps hdone
      have hsnaps : snapshots n (during ++ pushes ++ [⟨0, .on n (.snapshot p), snap⟩, ⟨0, .ctxErr, false⟩]) =
          (p, snap) :: snapshots n during := by
        have htaken : snapshotOf n ⟨0, .on n (.snapshot p), snap⟩ = some (p, snap) := if_pos rfl
        have hround : snapshots n [⟨0, .on n (.snapshot p), snap⟩, ⟨0, .ctxErr, false⟩] = [(p, snap)] := by
          change [⟨0, .ctxErr, false⟩, ⟨0, .on n (.snapshot p), snap⟩].filterMap (snapshotOf n) = _
          rw [List.filterMap_cons_none rfl, List.filterMap_cons_some htaken]
          rfl
        rw [snapshots_append, snapshots_append, snapshots_eq_nil hpushes, hround]
        rfl
      rw [hsnaps, List.map_cons, hfst]
      refine ⟨rfl, List.forall_mem_cons.mpr ⟨?_, hall⟩⟩
      exact hmono _ _ _ _ _ hserved (List.suffix_append during _)

/-- The version is recorded after a complete pass only. -/
theorem follow_passes (l : Loop) (h : List Event) :
    K.Obeys 0 (fun l' h' => l'.lastMigratedVersion = l.lastMigratedVersion ∨
      ∃ tbl, Passed S n l'.lastMigratedVersion tbl h') (follow n l) h := by
  unfold follow
  refine Obeys.step (hK _ _) (fun v _ => ?_)
  split
  · refine Obeys.bind (Obeys.step (hK _ _) (fun tbl _ => ?_))
    refine (migrateLoop_visits hK hmono hround tbl (List.finRange Count) _).mono ?_
    rintro done h' ⟨during, rfl, hps⟩
    cases done with
    | false => exact Or.inl rfl
    | true =>
      exact Or.inr ⟨tbl, during, h, List.suffix_refl _, hps rfl⟩
  · exact Or.inl rfl

theorem maintain_passes (cfg : Config) {me : Member} (hme : me.id = n) (ticks : List (List Bytes)) (l : Loop)
    (h : List Event) :
    K.Obeys 0 (fun l' h' => l'.lastMigratedVersion = l.lastMigratedVersion ∨
      ∃ tbl, Passed S n l'.lastMigratedVersion tbl h') (maintain cfg me ticks l) h := by
  -- a pass of an earlier tick stays in the history, so the induction is on the ticks still to come
  induction ticks generalizing l h with
  | nil => exact Or.inl rfl
  | cons seeds ticks ih =>
    unfold maintain onTick
    refine Obeys.bind (Obeys.bind ((keepUp_keeps hK me seeds l h).mono ?_))
    rintro l₁ h₁ ⟨hver₁, -⟩
    rw [hme]
    refine Obeys.bind ((follow_passes hK hmono hround l₁ h₁).mono fun l₂ h₂ hpass => ?_)
    refine (tidy_keeps hK cfg n l₂ h₂).mono ?_
    rintro l₃ h₃ ⟨⟨-, hver₃⟩, hsuf₃⟩
    refine (ih l₃ h₃).suffix.mono ?_
    rintro l' h' ⟨hrest | hrest, hsuf⟩
    · rw [hrest, hver₃]
      refine hpass.imp (fun hsame => hsame.trans hver₁) ?_
      rintro ⟨tbl, during, before, hread, hall⟩
      exact ⟨tbl, during, before, hread.trans (hsuf₃.trans hsuf), hall⟩
    · exact Or.inr hrest

end pass

end history

/-- What thread `0` knows at its end, when the other threads need not promise anything. -/
theorem loop_run {K : Contract Action.Resp} {inv : World → Prop} {ok : ℕ → Action → Choice → World → Prop}
    (hsound : K.Sound Medusa.exec inv ok) (hpre : ∀ i h e, K.pre i h e) {Q : Loop → List Event → Prop} {C : Cluster}
    {pool : ℕ → Prog Loop} (hloop : K.Obeys 0 Q (pool 0) []) (hinit : inv (Conf.init C pool).world)
    {sched : List (ℕ × Choice)} (hok : Meets Medusa.exec ok sched (Conf.init C pool)) :
    inv (Conf.run Medusa.exec sched (Conf.init C pool)).world ∧
      ∀ l', ((Conf.run Medusa.exec sched (Conf.init C pool)).pool 0).result = some l' →
        Q l' ((Conf.run Medusa.exec sched (Conf.init C pool)).world.own 0) := by
  have hobeys : ∀ j, K.Obeys j (fun l' h' => j = 0 → Q l' h') (pool j) [] := by
    intro j
    by_cases hj : j = 0
    · subst hj
      exact hloop.mono fun _ _ hq _ => hq
    · exact (Obeys.of_pre (hpre j) (pool j) []).mono fun _ _ _ h0 => absurd h0 hj
  obtain ⟨hinv, -, hend⟩ := hsound.run hinit hobeys hok
  exact ⟨hinv, fun l' hres => (hend 0).returned (Prog.result_eq_some.mp hres) rfl⟩

/-! ### No change of the table goes without its pass -/

/-- Nothing is promised and nothing is told. -/
def unbound : Contract Action.Resp := ⟨fun _ _ _ => True, fun _ _ _ _ => True⟩

/-- The process of the node runs on. -/
def RunsOn (n : Bytes) (_ : ℕ) (e : Action) (_ : Choice) (_ : World) : Prop := e ≠ .crash n ∧ e ≠ .start n

/-- The table of node `n` since the start of the run, and what thread `0` read of it. -/
def Watched (n : Bytes) (C : Cluster) (w : World) : Prop :=
  Renewed (w.past.countP (rebuilding n)) (C.nodes n).mem (w.state.nodes n).mem ∧
    Noted n (w.past.countP (rebuilding n)) (w.state.nodes n).mem (w.own 0)

theorem unbound_sound (n : Bytes) (C : Cluster) : unbound.Sound Medusa.exec (Watched n C) (RunsOn n) := by
  rintro i e c w ⟨hsince, hnoted⟩ ⟨hcrash, hstart⟩ -
  have hstep := Renewed.of_exec hcrash hstart i c w.state
  unfold Watched
  rw [World.next_past, List.countP_cons]
  refine ⟨⟨hsince.trans hstep, ?_⟩, trivial⟩
  by_cases hi : i = 0
  · subst hi
    rw [World.next_own_self]
    refine (hnoted.cons (fun v hv => ?_) fun tbl htbl => ?_).renew hstep
    · injection hv with _ he hr
      subst he
      exact (eq_of_heq hr).symm
    · injection htbl with _ he hr
      subst he
      exact (eq_of_heq hr).symm
  · rw [World.next_own_ne _ _ _ _ _ hi]
    exact hnoted.renew hstep

/-- A recorded version that is the node's comes with a pass over the table the node has. -/
theorem recorded_passed {K : Contract Action.Resp} {ok : ℕ → Action → Choice → World → Prop} {me : Member} {C : Cluster}
    (hsound : K.Sound Medusa.exec (Watched me.id C) ok) (hpre : ∀ i h e, K.pre i h e)
    {S : Table → PartitionId → List Entry → List Event → Prop}
    (hmono : ∀ tbl p snap h h', S tbl p snap h → h <:+ h' → S tbl p snap h')
    (hround : ∀ tbl p snap h,
      K.Obeys 0 (fun _ h' => S tbl p snap h') (handOver me.id tbl p (orderQueueMetaLast snap)) h)
    {cfg : Config} {ticks : List (List Bytes)} {l : Loop} {pool : ℕ → Prog Loop}
    (hpool : pool 0 = maintain cfg me ticks l) {sched : List (ℕ × Choice)}
    (hok : Meets Medusa.exec ok sched (Conf.init C pool))
    (hl : l.lastMigratedVersion = (C.nodes me.id).mem.tableVer) :
    let f := Conf.run Medusa.exec sched (Conf.init C pool)
    let m := (f.world.state.nodes me.id).mem
    f.world.past.countP (rebuilding me.id) < 2 ^ 64 →
    ∀ l', (f.pool 0).result = some l' → l'.lastMigratedVersion = m.tableVer →
      m.table = (C.nodes me.id).mem.table ∨ Passed S me.id m.tableVer m.table (f.world.own 0) := by
  intro f m hfew l' hres hcurrent
  have hloop : K.Obeys 0 (fun l' h' => l'.lastMigratedVersion = l.lastMigratedVersion ∨
      ∃ tbl, Passed S me.id l'.lastMigratedVersion tbl h') (pool 0) [] :=
    hpool ▸ maintain_passes (hpre 0) hmono hround cfg rfl ticks l []
  have hinit : Watched me.id C (Conf.init C pool).world :=
    ⟨Renewed.refl _ _, fun v hv => absurd hv List.not_mem_nil, fun _ _ _ hsuf => by simp [World.own, Conf.init] at hsuf⟩
  obtain ⟨⟨⟨j, hj, hver, htable⟩, hnoted⟩, hend⟩ := loop_run hsound hpre hloop hinit hok
  rcases hend l' hres with hsame | ⟨tbl, during, before, hsuf, hall⟩
  · have hver' : (C.nodes me.id).mem.tableVer + UInt64.ofNat j = (C.nodes me.id).mem.tableVer :=
      hver.symm.trans (hcurrent.symm.trans (hsame.trans hl))
    exact Or.inl (htable (rebuilds_eq_zero (hj.trans_lt hfew) hver'))
  · rw [hcurrent] at hsuf hall
    obtain ⟨j', hj', hver', htbl⟩ := hnoted.table tbl _ before ((List.suffix_append during _).trans hsuf)
    have htbl := htbl (rebuilds_eq_zero (hj'.trans_lt hfew) hver'.symm)
    rw [htbl] at hsuf hall
    exact Or.inr ⟨during, before, hsuf, hall⟩

/-- **No change of the table goes without its pass**: whatever runs beside the loop, when it returns and the version
it has recorded is the node's, either the table is the one the node started with, or the loop read that version, then
the table the node still has, and took one snapshot of every partition, in order, to hand it over.  The version is a
`uint64`, so the table may be rebuilt fewer than `2 ^ 64` times in the run. -/
theorem maintain_migrated {cfg : Config} {me : Member} {ticks : List (List Bytes)} {l : Loop} {C : Cluster}
    {pool : ℕ → Prog Loop} (hpool : pool 0 = maintain cfg me ticks l) (sched : List (ℕ × Choice))
    (hok : Meets Medusa.exec (RunsOn me.id) sched (Conf.init C pool))
    (hl : l.lastMigratedVersion = (C.nodes me.id).mem.tableVer) :
    let f := Conf.run Medusa.exec sched (Conf.init C pool)
    let m := (f.world.state.nodes me.id).mem
    f.world.past.countP (rebuilding me.id) < 2 ^ 64 →
    ∀ l', (f.pool 0).result = some l' → l'.lastMigratedVersion = m.tableVer →
      m.table = (C.nodes me.id).mem.table ∨ Migrated me.id m.tableVer m.table (f.world.own 0) := by
  intro f m hfew l' hres hcurrent
  have hround : ∀ tbl p snap h, unbound.Obeys 0 (fun _ _ => True) (handOver me.id tbl p (orderQueueMetaLast snap)) h :=
    fun tbl p snap h => Obeys.of_pre (fun _ _ => trivial) _ h
  refine (recorded_passed (S := fun _ _ _ _ => True) (unbound_sound me.id C) (fun _ _ _ => trivial)
    (fun _ _ _ _ _ h _ => h) hround hpool hok hl hfew l' hres hcurrent).imp_right ?_
  rintro ⟨during, before, hsuf, hfst, -⟩
  exact ⟨during, before, hsuf, hfst⟩

/-- The action leaves the process of every node alone. -/
def spares : Action → Bool
  | .crash _ | .start _ => false
  | _ => true

theorem runsOn_of_spares {n : Bytes} {i : ℕ} {e : Action} {c : Choice} {w : World} (h : spares e = true) :
    RunsOn n i e c w := by
  constructor <;> rintro rfl <;> cases h

/-- Nodes that know nobody else and store one entry; every address is the id of its node. -/
def strangers : Cluster where
  nodes x := ⟨0, Membership.new ⟨x, x⟩ 1, Store.empty.set (forKey [114]) ([109], [114]) ⟨[118], 0⟩, none, false, [],
    fun _ => .none⟩
  listen := some
  backing _ := none

/-- The loop of `a`, for one tick, and a thread that brings `b` into its view. -/
def arrival : ℕ → Prog Loop
  | 0 => maintain ⟨0, none⟩ ⟨[97], [97]⟩ [[]] ⟨0, 1, false, 0⟩
  | _ + 1 => do
      let _ ← Prog.on [97] (.merge [⟨[98], [98]⟩])
      return ⟨0, 0, false, 0⟩

/-- The arrival, then the tick. -/
def arrivalRun : List (ℕ × Choice) := (1, .still) :: List.replicate 1000 (0, .still)

/-- The table of `a` and `b`. -/
def arrivalTable : Table := newTable [[98], [97]] 1

theorem arrival_result :
    ((Conf.run Medusa.exec arrivalRun (Conf.init strangers arrival)).pool 0).result = some ⟨8, 2, true, 0⟩ := by
  decide +kernel

theorem arrival_tableVer :
    ((Conf.run Medusa.exec arrivalRun (Conf.init strangers arrival)).world.state.nodes [97]).mem.tableVer = 2 := by
  decide +kernel

theorem arrival_table :
    ((Conf.run Medusa.exec arrivalRun (Conf.init strangers arrival)).world.state.nodes [97]).mem.table =
      arrivalTable := by
  rw [Membership.table_eq]
  exact congrArg₂ newTable (by decide +kernel) (by decide +kernel)

theorem arrivalTable_new : arrivalTable ≠ (strangers.nodes [97]).mem.table := by
  intro hsame
  have hmembers := congrArg Table.members hsame
  revert hmembers
  decide +kernel

theorem arrival_rebuilds :
    (Conf.run Medusa.exec arrivalRun (Conf.init strangers arrival)).world.past.countP (rebuilding [97]) < 2 ^ 64 :=
  List.countP_le_length.trans_lt (by decide +kernel)

theorem maintain_migrated_arrival :
    Migrated [97] 2 arrivalTable ((Conf.run Medusa.exec arrivalRun (Conf.init strangers arrival)).world.own 0) := by
  have hcheck : Conf.check Medusa.exec (fun _ e _ _ => spares e) arrivalRun (Conf.init strangers arrival) = true := by
    decide +kernel
  have hpool : arrival 0 = maintain ⟨0, none⟩ ⟨[97], [97]⟩ [[]] ⟨0, 1, false, 0⟩ := rfl
  have hpass := maintain_migrated hpool _ ((Meets.of_check hcheck).mono fun _ _ _ _ h => runsOn_of_spares h)
    (by decide +kernel) arrival_rebuilds ⟨8, 2, true, 0⟩
  dsimp only at hpass
  rw [arrival_result, arrival_tableVer, arrival_table] at hpass
  exact (hpass rfl rfl).resolve_left arrivalTable_new

/-! ### What the pass hands over -/

/-- Every entry of the snapshot has been acknowledged by the other holders, or was about to lapse. -/
def Served (n : Bytes) (tbl : Table) (tbl' : Table) (p : PartitionId) (snap : List Entry) (h : List Event) : Prop :=
  tbl' = tbl → ∀ d ∈ snap, ∀ id ∈ targets n tbl p, Handed n h id d

theorem handOver_serves (n : Bytes) (tbl : Table) (addr : Bytes → Bytes) (tbl' : Table) (p : PartitionId)
    (snap : List Entry) (h : List Event) :
    (answered n tbl addr).Obeys 0 (fun _ h' => Served n tbl tbl' p snap h')
      (handOver n tbl' p (orderQueueMetaLast snap)) h := by
  by_cases htbl : tbl' = tbl
  · subst htbl
    refine (handOver_answered p (orderQueueMetaLast snap) h).mono ?_
    rintro - h' ⟨-, hserved⟩ - d hd id hid
    exact hserved d (mem_orderQueueMetaLast.mpr hd) id hid
  · exact (Obeys.of_pre (fun _ _ => trivial) _ h).mono fun _ _ _ heq => absurd heq htbl

/-- **A recorded table has been served**: when the loop returns, the version it has recorded is the node's, and the
table has changed since the start, then the loop read that version and then the node's table, took one snapshot of
every partition, and by the end of that pass every entry of these snapshots, unless it had less than a millisecond left
at a clock reading, has been acknowledged by every other holder that the table names, provided that these can be
reached in each step of the loop and no message of it is lost.  The table may be rebuilt fewer than `2 ^ 64` times. -/
theorem maintain_hands_over {cfg : Config} {me : Member} {ticks : List (List Bytes)} {l : Loop} {C : Cluster}
    {pool : ℕ → Prog Loop} (hpool : pool 0 = maintain cfg me ticks l) (sched : List (ℕ × Choice)) (tbl : Table)
    (addr : Bytes → Bytes)
    (hok : Meets Medusa.exec (fun i e c w => RunsOn me.id i e c w ∧ HoldersUp me.id tbl addr i e c w) sched
      (Conf.init C pool))
    (hl : l.lastMigratedVersion = (C.nodes me.id).mem.tableVer) (hnew : tbl ≠ (C.nodes me.id).mem.table) :
    let f := Conf.run Medusa.exec sched (Conf.init C pool)
    let m := (f.world.state.nodes me.id).mem
    f.world.past.countP (rebuilding me.id) < 2 ^ 64 →
    ∀ l', (f.pool 0).result = some l' → l'.lastMigratedVersion = m.tableVer → m.table = tbl →
      ∃ during before,
        let pass := during ++ (⟨0, .on me.id .table, tbl⟩ : Event) :: ⟨0, .on me.id .tableVersion, m.tableVer⟩ :: before
        pass <:+ f.world.own 0 ∧ (snapshots me.id during).map Prod.fst = List.finRange Count ∧
        ∀ p snap, (p, snap) ∈ snapshots me.id during → ∀ d ∈ snap,
          (∀ now, ReadClock pass me.id now → lapses d.expireAt now = false) →
          ∀ id, id ≠ me.id → (id ≠ [] ∧ id = tbl.ownerOf p ∨ id ∈ tbl.backupsOf p) →
            Acked pass id d.ref d.value := by
  intro f m hfew l' hres hcurrent htbl
  have hsound : (answered me.id tbl addr).Sound Medusa.exec (Watched me.id C)
      (fun i e c w => RunsOn me.id i e c w ∧ HoldersUp me.id tbl addr i e c w) := by
    rintro i e c w hinv ⟨hruns, hup⟩ -
    have hreads := unbound_sound me.id C i e c w hinv hruns trivial
    have hheard := answered_sound me.id tbl addr i e c w trivial hup trivial
    exact ⟨hreads.1, hheard.2⟩
  have hmono : ∀ tbl' p snap (h h' : List Event), Served me.id tbl tbl' p snap h → h <:+ h' →
      Served me.id tbl tbl' p snap h' :=
    fun _ _ _ _ _ hserved hsuf heq d hd id hid => (hserved heq d hd id hid).mono hsuf
  rcases recorded_passed hsound (fun _ _ _ => trivial) hmono (handOver_serves me.id tbl addr) hpool hok hl hfew l' hres
    hcurrent with hsame | ⟨during, before, hsuf, hfst, hall⟩
  · exact absurd (htbl.symm.trans hsame) hnew
  · rw [htbl] at hsuf hall
    refine ⟨during, before, hsuf, hfst, fun p snap hsnap d hd hlate id hne hid => ?_⟩
    rcases hall _ hsnap rfl d hd id (mem_targets_iff.mpr ⟨hne, hid⟩) with hack | ⟨now, hread, hlapse⟩
    · exact hack
    · exact absurd hlapse (by simp [hlate now hread])

theorem named_arrivalTable {id : Bytes} (h : Named [97] arrivalTable id) : id = [98] := by
  obtain ⟨p, hid⟩ := h
  obtain ⟨hne, hholds⟩ := mem_targets_iff.mp hid
  have hmem : id ∈ holders [[98], [97]] 1 p := by
    rcases hholds with ⟨-, rfl⟩ | hback
    · exact ownerOf_holder (by simp) 1 p
    · rw [holders_eq_cons (by simp)]
      exact List.mem_cons_of_mem _ hback
  have hids := mem_of_mem_holders hmem
  simpa [hne] using hids

theorem maintain_hands_over_arrival :
    ∃ during before snap,
      let pass := during ++ (⟨0, .on [97] .table, arrivalTable⟩ : Event) :: ⟨0, .on [97] .tableVersion, 2⟩ :: before
      pass <:+ (Conf.run Medusa.exec arrivalRun (Conf.init strangers arrival)).world.own 0 ∧
      (forKey [114], snap) ∈ snapshots [97] during ∧
      ∀ d ∈ snap, d.expireAt = 0 → Acked pass [98] d.ref d.value := by
  have hcheck : Conf.check Medusa.exec (fun i e c w => spares e && decide (i = 0 →
      (w.state.nodes [97]).mem.addrOf [98] = some [98] ∧ w.state.listen [98] = some [98] ∧ c.lost = false)) arrivalRun
      (Conf.init strangers arrival) = true := by decide +kernel
  have hpool : arrival 0 = maintain ⟨0, none⟩ ⟨[97], [97]⟩ [[]] ⟨0, 1, false, 0⟩ := rfl
  have hok : Meets Medusa.exec
      (fun i e c w => RunsOn [97] i e c w ∧ HoldersUp [97] arrivalTable (fun x => x) i e c w) arrivalRun
      (Conf.init strangers arrival) := by
    refine (Meets.of_check hcheck).mono fun i e c w h => ?_
    rw [Bool.and_eq_true, decide_eq_true_iff] at h
    refine ⟨runsOn_of_spares h.1, fun hi => ⟨fun id hid => ?_, ?_⟩⟩
    · obtain rfl := named_arrivalTable hid
      exact ⟨(h.2 hi).1, (h.2 hi).2.1⟩
    · split <;> first | exact (h.2 hi).2.2 | trivial
  have hserved := maintain_hands_over hpool _ arrivalTable (fun x => x) hok (by decide +kernel) arrivalTable_new
    arrival_rebuilds ⟨8, 2, true, 0⟩
  dsimp only at hserved ⊢
  rw [arrival_result, arrival_tableVer, arrival_table] at hserved
  obtain ⟨during, before, hsuf, hfst, hack⟩ := hserved rfl rfl rfl
  have hmem : forKey [114] ∈ (snapshots [97] during).map Prod.fst := hfst ▸ List.mem_finRange _
  obtain ⟨⟨p, snap⟩, hsnap, rfl⟩ := List.mem_map.mp hmem
  refine ⟨during, before, snap, hsuf, hsnap, fun d hd hlasting => ?_⟩
  refine hack _ snap hsnap d hd (fun _ _ => by rw [hlasting]; rfl) [98] (by decide) ?_
  decide +kernel

/-! ### Anti-entropy goes round -/

/-- How many partitions `q` comes after `p`. -/
def ahead (p q : PartitionId) : ℕ := (q.val + Count - p.val) % Count

theorem eq_of_ahead {p q : PartitionId} (h : ahead p q < 1) : q = p := by
  have hp := p.isLt
  have hq := q.isLt
  simp only [ahead, Count] at h hp hq
  exact Fin.ext (by omega)

/-- A window is a shorter one and the rest of it. -/
theorem ahead_split {p p' q : PartitionId} {a b : ℕ} (hp' : p'.val = (p.val + a) % Count) (h : ahead p q < a + b) :
    ahead p q < a ∨ ahead p' q < b := by
  have hp := p.isLt
  have hq := q.isLt
  simp only [ahead, Count] at h hp hq hp' ⊢
  omega

/-- A tick of thread `0`, from the history `h` to `h'`: after the pruning of tombstones it read a table, and before the
sweep of the tick it looked at those of the eight partitions from `p` on that this table makes the node the owner of. -/
def Ticked (n : Bytes) (p : PartitionId) (h h' : List Event) : Prop :=
  ∃ before pruned tbl now during after,
    h' = after ++ (during ++ (⟨0, .on n .nowNano, now⟩ : Event) :: ⟨0, .on n .table, tbl⟩ ::
      ⟨0, .on n (.pruneTombstones tombstoneTTL), pruned⟩ :: (before ++ h)) ∧
    (∀ ev ∈ during, ev.act ≠ .on n .sweep) ∧
    ∀ q, ahead p q < antiEntropyBatch → tbl.ownerOf q = n → ∃ d, (⟨0, .on n (.digest q), d⟩ : Event) ∈ during

theorem Ticked.mono {n : Bytes} {p : PartitionId} {h h' h'' : List Event} (ht : Ticked n p h h') (hsuf : h' <:+ h'') :
    Ticked n p h h'' := by
  obtain ⟨before, pruned, tbl, now, during, after, rfl, hrest⟩ := ht
  obtain ⟨later, rfl⟩ := hsuf
  exact ⟨before, pruned, tbl, now, during, later ++ after, by simp, hrest⟩

/-- Where the tick `k` after `p` starts. -/
def resumeAt (p : PartitionId) (k : ℕ) : PartitionId := Fin.ofNat Count (p.val + antiEntropyBatch * k)

theorem resumeAt_succ (p : PartitionId) (k : ℕ) : resumeAt (resumeAt p 1) k = resumeAt p (k + 1) := by
  refine Fin.ext ?_
  change ((p.val + 8 * 1) % Count + 8 * k) % Count = (p.val + 8 * (k + 1)) % Count
  rw [Nat.mod_add_mod]
  congr 1
  omega

/-- Any 34 ticks go round. -/
theorem resumeAt_covers (p q : PartitionId) (k : ℕ) :
    ∃ j, k ≤ j ∧ j < k + 34 ∧ ahead (resumeAt p j) q < antiEntropyBatch := by
  have hlt : ahead (resumeAt p k) q < Count := Nat.mod_lt _ (by decide)
  refine ⟨k + ahead (resumeAt p k) q / 8, by omega, ?_, ?_⟩
  · simp only [Count] at hlt
    omega
  · have hval : ∀ j, (resumeAt p j).val = (p.val + 8 * j) % 271 := fun _ => rfl
    have hq := q.isLt
    simp only [ahead, hval, antiEntropyBatch, Count] at hq ⊢
    omega

/-- The readings and messages of `SyncBackups` sweep nothing. -/
theorem reading_noSweep (n : Bytes) : Reading fun e => e ≠ .on n .sweep where
  on m {a} ha := by cases a <;> first | exact ha.elim | exact fun h => by cases h
  connect _ := by simp
  reply _ := by simp
  toStore _ _ _ := by simp
  toDelete _ _ := by simp
  reads m {a} ha _ := by cases a <;> first | exact ha.elim | exact fun h => by cases h
  load _ _ := by simp

section rounds
variable {K : Contract Action.Resp} (hK : ∀ h e, K.pre 0 h e)
include hK

theorem syncPartition_visits (n : Bytes) (tbl : Table) (now : ℕ) (p : PartitionId) (h : List Event) :
    K.Obeys 0 (fun _ h' => ∃ during, h' = during ++ h ∧
      (tbl.ownerOf p = n → ∃ d, (⟨0, .on n (.digest p), d⟩ : Event) ∈ during)) (syncPartition n tbl now p) h := by
  unfold syncPartition
  split
  · next hne => exact ⟨[], rfl, fun howner => absurd howner hne⟩
  · refine Obeys.step (hK _ _) (fun d _ => (grows hK _ _).mono ?_)
    rintro - h' ⟨later, rfl⟩
    exact ⟨later ++ [⟨0, .on n (.digest p), d⟩], by simp, fun _ => ⟨d, by simp⟩⟩

/-- One call of `SyncBackups` looks at its window, and resumes behind it. -/
theorem syncLoop_visits (n : Bytes) (tbl : Table) (now k : ℕ) (p : PartitionId) (pushed : ℕ) (h : List Event) :
    K.Obeys 0 (fun r h' => r.2.val = (p.val + k) % Count ∧ ∃ during, h' = during ++ h ∧ ∀ q, ahead p q < k →
      tbl.ownerOf q = n → ∃ d, (⟨0, .on n (.digest q), d⟩ : Event) ∈ during) (syncLoop n tbl now k p pushed) h := by
  induction k generalizing p pushed h with
  | zero => exact ⟨(Nat.mod_eq_of_lt p.isLt).symm, [], rfl, fun q hq => absurd hq (Nat.not_lt_zero _)⟩
  | succ k ih =>
    have hsucc : (p + 1).val = (p.val + 1) % Count := Fin.val_add p 1
    unfold syncLoop
    refine Obeys.bind ((syncPartition_visits hK n tbl now p h).mono ?_)
    rintro d h₁ ⟨first, rfl, hfirst⟩
    refine (ih (p + 1) (pushed + d) _).mono ?_
    rintro r h' ⟨hnext, rest, rfl, hrest⟩
    refine ⟨?_, rest ++ first, by simp, fun q hq howner => ?_⟩
    · rw [hnext, hsucc, Nat.mod_add_mod, Nat.add_right_comm, Nat.add_assoc]
    · rcases ahead_split hsucc ((Nat.add_comm k 1) ▸ hq) with hhere | hlater
      · obtain rfl := eq_of_ahead hhere
        obtain ⟨digest, hdigest⟩ := hfirst howner
        exact ⟨digest, List.mem_append_right _ hdigest⟩
      · obtain ⟨digest, hdigest⟩ := hrest q hlater howner
        exact ⟨digest, List.mem_append_left _ hdigest⟩

variable {me : Member} (hpeers : ∀ h r, K.post 0 h (.on me.id .members) r → 1 < r.length)
include hpeers

/-- A node with peers looks at eight more partitions. -/
theorem keepUp_ticks (seeds : List Bytes) (l : Loop) (h : List Event) :
    K.Obeys 0 (fun l' h' => l'.reconcileCursor = resumeAt l.reconcileCursor 1 ∧ Ticked me.id l.reconcileCursor h h')
      (keepUp me seeds l) h := by
  have hstart : Fin.ofNat Count ((l.reconcileCursor.val : ℤ).emod Count).toNat = l.reconcileCursor := by
    refine Fin.ext ?_
    have hlt := l.reconcileCursor.isLt
    have hmod : ((l.reconcileCursor.val : ℤ).emod Count).toNat = l.reconcileCursor.val % Count := rfl
    rw [hmod, Fin.val_ofNat, Nat.mod_mod, Nat.mod_eq_of_lt hlt]
  unfold keepUp
  refine Obeys.step (hK _ _) (fun members hmembers => ?_)
  rw [if_neg (Nat.not_le.mpr (hpeers _ members hmembers))]
  refine Obeys.bind ((grows hK _ _).mono fun _ h₁ hsuf₁ => ?_)
  refine Obeys.bind ((grows hK _ h₁).mono fun _ h₂ hsuf₂ => ?_)
  obtain ⟨before, hbefore⟩ := ((List.suffix_cons _ h).trans hsuf₁).trans hsuf₂
  refine Obeys.step (hK _ _) (fun pruned _ => Obeys.step (hK _ _) (fun tbl _ => ?_))
  refine Obeys.bind (Obeys.step (hK _ _) (fun now _ => ?_))
  rw [hstart]
  have hquiet := (reading_noSweep me.id).syncLoop (fun _ _ _ _ _ => by simp) (fun _ _ _ => by simp) me.id tbl now
    antiEntropyBatch l.reconcileCursor 0
  refine ((syncLoop_visits hK me.id tbl now antiEntropyBatch l.reconcileCursor 0 _).extending hquiet).mono ?_
  rintro r h' ⟨⟨hnext, during, rfl, hwindow⟩, during', hsame, hnone⟩
  obtain rfl := List.append_cancel_right hsame
  refine ⟨Fin.ext (by simpa [resumeAt] using hnext), before, pruned, tbl, now, during, [], ?_, hnone, hwindow⟩
  rw [hbefore]
  rfl

/-- The ticks of the loop, one after another. -/
theorem maintain_ticks (cfg : Config) (ticks : List (List Bytes)) (l : Loop) (h : List Event) :
    K.Obeys 0 (fun _ h' => ∃ start : ℕ → List Event, start 0 = h ∧ start ticks.length = h' ∧ ∀ k < ticks.length,
      Ticked me.id (resumeAt l.reconcileCursor k) (start k) (start (k + 1))) (maintain cfg me ticks l) h := by
  induction ticks generalizing l h with
  | nil => exact ⟨fun _ => h, rfl, rfl, fun k hk => absurd hk (Nat.not_lt_zero k)⟩
  | cons seeds ticks ih =>
    unfold maintain onTick
    refine Obeys.bind (Obeys.bind ((keepUp_ticks hK hpeers seeds l h).mono ?_))
    rintro l₁ h₁ ⟨hcursor, htick⟩
    refine Obeys.bind ((follow_keeps hK me.id l₁ h₁).mono ?_)
    rintro l₂ h₂ ⟨hcursor₂, hsuf₂⟩
    refine (tidy_keeps hK cfg me.id l₂ h₂).mono ?_
    rintro l₃ h₃ ⟨⟨hcursor₃, -⟩, hsuf₃⟩
    refine (ih l₃ h₃).mono ?_
    rintro l' h' ⟨start, hzero, hend, hticks⟩
    refine ⟨fun k => k.casesOn h start, rfl, hend, fun k hk => ?_⟩
    cases k with
    | zero =>
      have hfirst : resumeAt l.reconcileCursor 0 = l.reconcileCursor :=
        Fin.ext (Nat.mod_eq_of_lt l.reconcileCursor.isLt)
      rw [hfirst]
      exact htick.mono ((hsuf₂.trans hsuf₃).trans (hzero ▸ List.suffix_refl _))
    | succ k =>
      have hcur : l₃.reconcileCursor = resumeAt l.reconcileCursor 1 := (hcursor₃.trans hcursor₂).trans hcursor
      rw [← resumeAt_succ, ← hcur]
      exact hticks k (Nat.lt_of_succ_lt_succ hk)

end rounds

/-- The node knows another member. -/
def HasPeers (n : Bytes) (_ : ℕ) (_ : Action) (_ : Choice) (w : World) : Prop :=
  1 < (w.state.nodes n).mem.listMembers.length

/-- A thread that asks for the members is told of another one. -/
def peered (n : Bytes) : Contract Action.Resp where
  pre _ _ _ := True
  post i _ e r := ∀ ms, (⟨i, e, r⟩ : Event) = ⟨i, .on n .members, ms⟩ → 1 < ms.length

theorem peered_sound (n : Bytes) : (peered n).Sound Medusa.exec (fun _ => True) (HasPeers n) := by
  intro i e c w _ hpeers _
  refine ⟨trivial, fun ms hms => ?_⟩
  injection hms with _ he hr
  subst he
  rw [← eq_of_heq hr]
  exact hpeers

/-- **Anti-entropy leaves no partition out**: while the node has peers, whatever runs beside the loop, each tick reads
a table and looks at those of its eight partitions that this table makes the node the owner of, from where the last tick
stopped, and the windows of any 34 ticks in a row cover all partitions. -/
theorem maintain_visits {cfg : Config} {me : Member} {ticks : List (List Bytes)} {l : Loop} {C : Cluster}
    {pool : ℕ → Prog Loop} (hpool : pool 0 = maintain cfg me ticks l) (sched : List (ℕ × Choice))
    (hok : Meets Medusa.exec (HasPeers me.id) sched (Conf.init C pool)) :
    let f := Conf.run Medusa.exec sched (Conf.init C pool)
    (f.pool 0).returned = true →
      (∃ start : ℕ → List Event, start 0 = [] ∧ start ticks.length = f.world.own 0 ∧ ∀ k < ticks.length,
        Ticked me.id (resumeAt l.reconcileCursor k) (start k) (start (k + 1))) ∧
      ∀ k q, k + 34 ≤ ticks.length → ∃ j, k ≤ j ∧ j < k + 34 ∧
        ahead (resumeAt l.reconcileCursor j) q < antiEntropyBatch := by
  intro f hret
  have hloop : (peered me.id).Obeys 0 (fun _ h' => ∃ start : ℕ → List Event, start 0 = [] ∧ start ticks.length = h' ∧
      ∀ k < ticks.length, Ticked me.id (resumeAt l.reconcileCursor k) (start k) (start (k + 1))) (pool 0) [] :=
    hpool ▸ maintain_ticks (K := peered me.id) (fun _ _ => trivial) (fun _ r hr => hr r rfl) cfg ticks l []
  obtain ⟨l', hl'⟩ := Prog.returned_iff.mp hret
  have hticks := (loop_run (peered_sound me.id) (fun _ _ _ => trivial) hloop trivial hok).2 l'
    (Prog.result_eq_some.mpr hl')
  exact ⟨hticks, fun k q _ => resumeAt_covers l.reconcileCursor q k⟩

/-- Nodes that know `a` and `b`; nobody listens. -/
def knowingB : Cluster where
  nodes _ := ⟨0, Membership.knowsB, Store.empty, none, false, [], fun _ => .none⟩
  listen _ := none
  backing _ := none

/-- The loop of `a` alone, for one tick. -/
def solo (l : Loop) : ℕ → Prog Loop
  | 0 => maintain ⟨0, none⟩ ⟨[97], [1]⟩ [[]] l
  | _ + 1 => return l

@[inherit_doc solo] def soloRun : List (ℕ × Choice) := List.replicate 620 (0, .still)

theorem maintain_visits_around :
    let f := Conf.run Medusa.exec soloRun (Conf.init knowingB (solo ⟨268, 2, false, 0⟩))
    (f.pool 0).result = some ⟨5, 2, false, 0⟩ ∧ Ticked [97] 268 [] (f.world.own 0) := by
  have hcheck : Conf.check Medusa.exec (fun _ _ _ w => decide (1 < (w.state.nodes [97]).mem.listMembers.length))
      soloRun (Conf.init knowingB (solo ⟨268, 2, false, 0⟩)) = true := by decide +kernel
  have hpool : solo ⟨268, 2, false, 0⟩ 0 = maintain ⟨0, none⟩ ⟨[97], [1]⟩ [[]] ⟨268, 2, false, 0⟩ := rfl
  have hok : Meets Medusa.exec (HasPeers [97]) soloRun (Conf.init knowingB (solo ⟨268, 2, false, 0⟩)) :=
    (Meets.of_check hcheck).mono fun _ _ _ _ h => by simpa [HasPeers] using h
  have hvisits := maintain_visits hpool _ hok
  dsimp only at hvisits ⊢
  generalize hf : Conf.run Medusa.exec soloRun (Conf.init knowingB (solo ⟨268, 2, false, 0⟩)) = f at hvisits ⊢
  have hres : (f.pool 0).result = some ⟨5, 2, false, 0⟩ := by rw [← hf]; decide +kernel
  obtain ⟨start, hzero, hend, hticks⟩ := (hvisits (Prog.returned_iff.mpr ⟨_, Prog.result_eq_some.mp hres⟩)).1
  have htick := hticks 0 (by decide)
  rw [hzero] at htick
  exact ⟨hres, hend ▸ htick⟩

end Node

end Medusa
