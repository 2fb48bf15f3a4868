import Medusa.Calls
import Medusa.Recovery
import Medusa.Replicas

/-! # Every entry lies where it routes to

Many paths write to a store, and each chooses the shard by itself: replicated writes and their
replicas, processors, queue transactions, read-through, migration, anti-entropy, restored snapshots and
the replayed log.

* `NodeAction.Routed`: the two critical sections whose shard is the caller's choice choose the right
  one; no other critical section can misplace an entry (`NodeAction.Routed.placed`).
* `Task.routed`: every program of a node performs only routed actions.
* `placement_invariant`: **in every run every entry is in the shard it routes to**, so it occurs once,
  a queue lies in one shard, and a routed lookup finds what is stored. -/

namespace Medusa

open Medusa.Partition Store Interleave Service Contract

/-! ### Critical sections -/

/-- The critical section writes to the shard its entry routes to. -/
def NodeAction.Routed : NodeAction → Prop
  | .cacheLoaded p name key _ => p = routedPartition name key
  | .execute name _ _ _ => name ≠ queueSegMap
  | _ => True

/-- The action writes to the shard its entry routes to. -/
def Action.Routed : Action → Prop
  | .on _ a => a.Routed
  | _ => True

theorem Placed.cacheLoaded {s : Store} (hs : Placed s) (name key value : Bytes) (now : ℕ) :
    Placed (s.cacheLoaded (routedPartition name key) name key value now).2 := by
  unfold Store.cacheLoaded
  split
  · exact hs
  · exact hs.set (name, key) _

theorem Placed.applyExecute {s : Store} (hs : Placed s) {name : Bytes} (hname : name ≠ queueSegMap)
    (key : Bytes) (proc : Processor) (arg : Bytes) (now : ℕ) :
    Placed (applyExecute s name key proc arg now).store := by
  have hp := routedPartition_of_ne hname key
  rcases applyExecute_cases s name key proc arg now with ⟨-, he⟩ | ⟨-, he⟩ | ⟨v, -, -, he⟩
  · rw [he]
    exact hs
  · rw [he, ← hp]
    exact hs.erase (name, key)
  · rw [he, ← hp]
    exact hs.set (name, key) v

theorem Placed.sweepExpired {s : Store} (hs : Placed s) (now : ℕ) : Placed (s.sweepExpired now) := by
  refine hs.of_le fun p r v h => ?_
  rw [find_sweepExpired] at h
  exact (Option.filter_eq_some_iff.mp h).1

/-- **A routed critical section misplaces nothing.** -/
theorem NodeAction.Routed.placed {a : NodeAction} (ha : a.Routed) {nd : Node} (hs : Placed nd.store)
    (c : Choice) : Placed (nd.exec c a).2.store := by
  cases a with
  | cacheLoaded p name key value =>
    obtain rfl := ha
    exact hs.cacheLoaded name key value nd.clock
  | put name key value expireAt => exact hs.set (name, key) _
  | remove name key => exact hs.erase (name, key)
  | execute name key proc arg => exact hs.applyExecute ha key proc arg nd.clock
  | queueExecute qname op arg => exact (queueTxn_content hs nd.clock qname op arg).2
  | drop p entries => exact (mutator_content hs (.dropMigrated p entries) nd.clock).2
  | prune p keep => exact (mutator_content hs (.prune p keep) nd.clock).2
  | clearMap name => exact (mutator_content hs (.clear name) nd.clock).2
  | sweep => exact hs.sweepExpired nd.clock
  | emit ev =>
    simp only [Node.exec]
    split <;> exact hs
  | _ => exact hs

section stores
variable {P : Store → Prop} {C : Cluster}

theorem setNode_stores (h : ∀ n, P (C.nodes n).store) {n : Bytes} {nd : Node} (hnd : P nd.store)
    (m : Bytes) : P ((C.setNode n nd).nodes m).store := by
  by_cases hm : m = n
  · rw [hm, Cluster.setNode_self]
    exact hnd
  · rw [Cluster.setNode_ne _ _ hm]
    exact h m

/-- What holds of an empty store and is kept by an action's critical section is kept by the action. -/
theorem exec_stores {e : Action} (hempty : P Store.empty)
    (c : Choice)
    (hon : ∀ n a, e = .on n a → ∀ nd : Node, P nd.store → P (nd.exec c a).2.store)
    (h : ∀ n, P (C.nodes n).store) (m : Bytes) : P ((exec e c C).2.nodes m).store := by
  cases e with
  | on n a => exact setNode_stores h (hon n a rfl ((C.nodes n).tick c.tick) (h n)) m
  | start n => exact setNode_stores h (show P (C.nodes n).fresh.store from hempty) m
  | crash n => exact setNode_stores h (show P (C.nodes n).fresh.store from hempty) m
  | storeThrough name key value =>
    simp only [Medusa.exec]
    split <;> exact h m
  | deleteThrough name key =>
    simp only [Medusa.exec]
    split <;> exact h m
  | _ => exact h m

end stores

/-- Every node keeps every entry where it routes to. -/
def AllPlaced (C : Cluster) : Prop := ∀ n, Placed (C.nodes n).store

theorem AllPlaced.exec {C : Cluster} (h : AllPlaced C) {e : Action} (he : e.Routed) (c : Choice) :
    AllPlaced (exec e c C).2 := by
  refine exec_stores placed_empty c (fun n a hea nd hs => ?_) h
  subst hea
  exact NodeAction.Routed.placed he hs c

/-! ### Programs -/

/-- Something a node is asked to do: to answer a message, a call of a map or queue handle, or a part of
its upkeep. -/
inductive Duty where
  | idle
  | handlePut (n name key value : Bytes) (ttlMs : Int64) (backup : Bool)
  | handleGet (n name key : Bytes)
  | handleRemove (n name key : Bytes) (backup : Bool)
  | handleEvict (n name key : Bytes)
  | handleExecute (n name key procName arg : Bytes)
  | handleDigest (n : Bytes) (p : PartitionId) (digest : UInt64)
  | handleReconcile (n : Bytes) (p : PartitionId) (keys : List Ref)
  | handleSize (n name : Bytes)
  | handleClear (n name : Bytes)
  | handleAggregate (n name aggName : Bytes)
  | put (n name key value : Bytes) (ttlMs : Int64)
  | get (n name key : Bytes)
  | remove (n name key : Bytes)
  | evict (n name key : Bytes)
  | execute (n name key procName arg : Bytes)
  | putIfAbsent (n name key value : Bytes)
  | compareAndSwap (n name key expected newVal : Bytes)
  | lock (n name key holder : Bytes)
  | unlock (n name key holder : Bytes)
  | size (n name : Bytes)
  | clear (n name : Bytes)
  | aggregate (n name aggName : Bytes)
  | offer (n q value : Bytes)
  | poll (n q : Bytes)
  | peek (n q : Bytes)
  | queueSize (n q : Bytes)
  | migrate (n : Bytes) (tbl : Table)
  | syncBackups (n : Bytes) (tbl : Table) (start : ℤ) (batch : ℕ)
  | evictTo (n : Bytes) (max batch : ℤ)
  | leave (n : Bytes)
  | restart (me : Member) (seeds : List Bytes)
  | job (j : Node.Job)

/-- Run a program for its effects. -/
def Prog.run {α : Type} (p : Prog α) : Prog Unit := p >>= fun _ => pure ()

/-- The program of a duty. -/
def Duty.prog (procs : Registry) (aggs : AggRegistry) (addr : Bytes → Bytes) : Duty → Prog Unit
  | .idle => return ()
  | .handlePut n name key value ttlMs backup => (Service.applyPut n name key value ttlMs backup).run
  | .handleGet n name key => (getThrough n name key).run
  | .handleRemove n name key backup => (Service.applyRemove n name key backup).run
  | .handleEvict n name key => (applyEvict n name key).run
  | .handleExecute n name key procName arg => (Service.applyExecute procs n name key procName arg).run
  | .handleDigest n p _ => (Prog.on n (.digest p)).run
  | .handleReconcile n p keys => (reconcile n p keys).run
  | .handleSize n name => (localMapSize n name).run
  | .handleClear n name => (Service.localClearMap n name).run
  | .handleAggregate n name aggName => (localAggregate aggs n name aggName).run
  | .put n name key value ttlMs => (Map.putWithTTL n name key value ttlMs).run
  | .get n name key => (Map.get n name key).run
  | .remove n name key => (Map.remove n name key).run
  | .evict n name key => (Map.evict n name key).run
  | .execute n name key procName arg => (Map.execute procs n name key procName arg).run
  | .putIfAbsent n name key value => (Map.putIfAbsent procs n name key value).run
  | .compareAndSwap n name key expected newVal =>
    (Map.compareAndSwap procs n name key expected newVal).run
  | .lock n name key holder => (Map.lock procs n name key holder).run
  | .unlock n name key holder => (Map.unlock procs n name key holder).run
  | .size n name => (Map.size n name).run
  | .clear n name => (Map.clear n name).run
  | .aggregate n name aggName => (Map.aggregate aggs n name aggName).run
  | .offer n q value => (Queue.offer procs n q value).run
  | .poll n q => (Queue.poll procs n q).run
  | .peek n q => (Queue.peek procs n q).run
  | .queueSize n q => (Queue.size procs n q).run
  | .migrate n tbl => (Service.migrate n tbl).run
  | .syncBackups n tbl start batch => (Service.syncBackups n tbl start batch).run
  | .evictTo n max batch => (Service.evict n max batch).run
  | .leave n => Node.leave n
  | .restart me seeds => Node.restart me seeds
  | .job j => j.prog addr

theorem all_run {α : Type} {P : Action → Prop} {p : Prog α} (hp : p.All P) : p.run.All P :=
  hp.bind fun _ => trivial

theorem reading_routed : Reading Action.Routed where
  on n {a} ha := by cases a <;> first | exact ha.elim | trivial
  connect _ := trivial
  reply _ := trivial
  toStore _ _ _ := trivial
  toDelete _ _ := trivial
  reads n {a} ha _ := by cases a <;> first | exact ha.elim | trivial
  load _ _ := trivial

theorem applyExecute_routed (procs : Registry) (n name key procName arg : Bytes) :
    (Service.applyExecute procs n name key procName arg).All Action.Routed :=
  reading_routed.applyExecute (fun _ _ _ _ _ => trivial) (fun _ _ _ => trivial) procs n name key
    procName arg (fun hname _ => hname) (fun _ => trivial)

theorem execute_routed (procs : Registry) (n name key procName arg : Bytes) :
    (Map.execute procs n name key procName arg).All Action.Routed :=
  reading_routed.execute procs n name key procName arg
    fun x => applyExecute_routed procs x name key procName arg

/-! ### Membership -/

theorem gossip_routed (n : Bytes) : (Membership.gossip n).All Action.Routed := by
  refine ⟨trivial, fun payload => ⟨trivial, fun peers => ?_⟩⟩
  change (Membership.gossipTo n payload peers).All Action.Routed
  induction peers with
  | nil => trivial
  | cons peer peers ih =>
    unfold Membership.gossipTo
    split
    · exact ih
    · refine Interleave.Prog.All.bind (reading_routed.send fun x => ?_) fun _ => ih
      exact ⟨trivial, fun _ => trivial⟩

theorem join_routed (me : Member) (seeds : List Bytes) :
    (Membership.join me seeds).All Action.Routed := by
  have hseeds : ∀ (seeds : List Bytes) (reached : Bool),
      (Membership.joinSeeds me seeds reached).All Action.Routed := by
    intro seeds
    induction seeds with
    | nil => exact fun _ => trivial
    | cons seed seeds ih =>
      intro reached
      unfold Membership.joinSeeds
      split
      · exact ih reached
      · refine Interleave.Prog.All.bind (reading_routed.send fun x => ?_) fun out => ?_
        · exact ⟨trivial, fun _ => ⟨trivial, fun _ => trivial⟩⟩
        · cases out with
          | error err => exact ih reached
          | ok ms => exact ⟨trivial, fun _ => ih true⟩
  refine (hseeds seeds false).bind fun reached => ?_
  split
  · exact gossip_routed me.id
  · trivial

theorem detectFailures_routed (n : Bytes) (threshold : UInt8) :
    (Membership.detectFailures n threshold).All Action.Routed := by
  refine ⟨trivial, fun peers => ?_⟩
  change (Membership.detectPeers n _ peers).All Action.Routed
  induction peers with
  | nil => trivial
  | cons peer peers ih =>
    unfold Membership.detectPeers
    split
    · exact ih
    · refine Interleave.Prog.All.bind (reading_routed.send fun _ => trivial) fun _ => ?_
      exact ⟨trivial, fun _ => ih⟩

theorem announceLeave_routed (n : Bytes) : (Membership.announceLeave n).All Action.Routed := by
  refine ⟨trivial, fun peers => ?_⟩
  change (Membership.announceTo n peers).All Action.Routed
  induction peers with
  | nil => trivial
  | cons peer peers ih =>
    unfold Membership.announceTo
    split
    · exact ih
    · refine Interleave.Prog.All.bind (reading_routed.send fun x => ?_) fun _ => ih
      exact ⟨trivial, fun _ => trivial⟩

theorem migrate_routed (n : Bytes) (tbl : Table) : (Service.migrate n tbl).All Action.Routed :=
  reading_routed.migrate (fun _ _ _ _ _ => trivial) tbl trivial (fun _ => trivial)
    (fun _ _ => trivial)

theorem syncBackups_routed (n : Bytes) (tbl : Table) (start : ℤ) (batch : ℕ) :
    (Service.syncBackups n tbl start batch).All Action.Routed :=
  reading_routed.syncBackups (fun _ _ _ _ _ => trivial) (fun _ _ _ => trivial) n tbl start batch

theorem job_routed (addr : Bytes → Bytes) (j : Node.Job) : (j.prog addr).All Action.Routed := by
  cases j with
  | idle => trivial
  | gossip n => exact gossip_routed n
  | join n seeds => exact join_routed _ seeds
  | detectFailures n threshold => exact detectFailures_routed n threshold
  | pruneTombstones n ttl => exact ⟨trivial, fun _ => trivial⟩
  | antiEntropy n start batch =>
    exact ⟨trivial, fun tbl => (syncBackups_routed n tbl start batch).bind fun _ => trivial⟩
  | rebalance n =>
    exact Interleave.Prog.All.bind (f := fun _ => pure ())
      ⟨trivial, fun tbl => migrate_routed n tbl⟩ fun _ => trivial
  | sweep n => exact ⟨trivial, fun _ => trivial⟩

/-- **Every program of a node performs only routed actions.** -/
theorem Duty.routed (procs : Registry) (aggs : AggRegistry) (addr : Bytes → Bytes) (d : Duty) :
    (d.prog procs aggs addr).All Action.Routed := by
  have hR := reading_routed
  have hexec := execute_routed procs
  cases d with
  | idle => trivial
  | handlePut n name key value ttlMs backup =>
    exact all_run (hR.applyPut n name key value ttlMs backup fun _ _ => trivial)
  | handleGet n name key => exact all_run (hR.getThrough n name key fun _ => rfl)
  | handleRemove n name key backup => exact all_run (hR.applyRemove n name key backup fun _ => trivial)
  | handleEvict n name key => exact all_run (hR.shedding.applyEvict n name key fun _ => trivial)
  | handleExecute n name key procName arg => exact all_run (applyExecute_routed procs n name key procName arg)
  | handleDigest n p digest => exact ⟨trivial, fun _ => trivial⟩
  | handleReconcile n p keys => exact all_run (hR.reconcile n p keys trivial)
  | handleSize n name => exact all_run (hR.localMapSize n name)
  | handleClear n name => exact ⟨trivial, fun _ => trivial⟩
  | handleAggregate n name aggName => exact all_run (hR.localAggregate aggs n name aggName)
  | put n name key value ttlMs => exact all_run (hR.putWithTTL n name key value ttlMs fun _ _ _ => trivial)
  | get n name key => exact all_run (hR.get n name key fun x => hR.getThrough x name key fun _ => rfl)
  | remove n name key => exact all_run (hR.remove n name key fun _ _ => trivial)
  | evict n name key => exact all_run (hR.evictKey n name key fun _ _ => trivial)
  | execute n name key procName arg => exact all_run (hexec n name key procName arg)
  | putIfAbsent n name key value => exact all_run ((hexec n name key _ value).bind fun _ => trivial)
  | compareAndSwap n name key expected newVal => exact all_run ((hexec n name key _ _).bind fun _ => trivial)
  | lock n name key holder =>
    refine all_run ?_
    unfold Map.lock
    split
    · trivial
    · exact (hexec n name key _ holder).bind fun _ => trivial
  | unlock n name key holder =>
    refine all_run ?_
    unfold Map.unlock
    split
    · trivial
    · exact (hexec n name key _ holder).bind fun _ => trivial
  | size n name => exact all_run (hR.size n name)
  | clear n name => exact all_run (hR.clear n name fun _ _ => trivial)
  | aggregate n name aggName => exact all_run (hR.aggregate aggs n name aggName)
  | offer n q value => exact all_run ((hexec n queueMap q _ value).bind fun _ => trivial)
  | poll n q => exact all_run ((hexec n queueMap q _ []).bind fun _ => trivial)
  | peek n q => exact all_run ((hexec n queueMap q _ []).bind fun _ => trivial)
  | queueSize n q => exact all_run ((hexec n queueMap q _ []).bind fun _ => trivial)
  | migrate n tbl => exact all_run (migrate_routed n tbl)
  | syncBackups n tbl start batch => exact all_run (syncBackups_routed n tbl start batch)
  | evictTo n max batch => exact all_run (hR.shedding.evict n max batch fun _ _ _ => trivial)
  | leave n =>
    exact ⟨trivial, fun tbl => (migrate_routed n tbl).bind fun _ =>
      (announceLeave_routed n).bind fun _ => ⟨trivial, fun _ => trivial⟩⟩
  | restart me seeds => exact ⟨trivial, fun _ => ⟨trivial, fun _ => join_routed me seeds⟩⟩
  | job j => exact job_routed addr j

/-! ### Runs -/

/-- The record a replayed frame stands for; frames of other operations are skipped. -/
def replayedRecord (r : UInt8 × Entry) : Option WalRecord :=
  if r.1 = WalOp.code .put then some ⟨.put, r.2⟩
  else if r.1 = WalOp.code .remove then some ⟨.remove, r.2⟩
  else if r.1 = WalOp.code .clear then some ⟨.clear, r.2⟩
  else none

/-- `Service.Restore` on a node: load a snapshot into the store it has. -/
def Node.restore (nd : Node) (snapshot : List Entry) : Node :=
  { nd with store := nd.store.loadAll (snapshot.filter (fun e => !e.dead nd.clock)) }

/-- `Service.OpenWAL` on a node: replay a log file into the store, and append to it from then on. -/
def Node.openWAL (nd : Node) (K : Codec) (file : Bytes) : Node :=
  { nd with
    store := Medusa.openWAL K nd.clock file nd.store
    wal := some ((replayWAL K file).1.filterMap replayedRecord) }

/-- One step of a run: an action of a thread, or a snapshot or log file brought in. -/
inductive Move where
  | act (i : ℕ) (c : Choice)
  | restore (n : Bytes) (snapshot : List Entry)
  | openWAL (n : Bytes) (K : Codec) (file : Bytes)

/-- The cluster of a configuration changes by itself. -/
def Conf.change (f : Conf Unit) (change : Cluster → Cluster) : Conf Unit :=
  ⟨⟨change f.world.state, f.world.past⟩, f.pool⟩

/-- The configuration after a step. -/
def Move.apply (f : Conf Unit) : Move → Conf Unit
  | .act i c => f.step exec i c
  | .restore n snapshot => Conf.change f fun C => C.setNode n ((C.nodes n).restore snapshot)
  | .openWAL n K file => Conf.change f fun C => C.setNode n ((C.nodes n).openWAL K file)

/-- Threads that perform routed actions only. -/
def routing : Contract Action.Resp where
  pre _ _ e := e.Routed
  post _ _ _ _ := True

theorem routing_sound : routing.Sound exec (fun w => AllPlaced w.state) (fun _ _ _ _ => True) :=
  fun _ _ c _ hw _ hpre => ⟨hw.exec hpre c, trivial⟩

/-- Every entry is placed, and the threads perform routed actions. -/
structure RoutedRun (f : Conf Unit) : Prop where
  placed : AllPlaced f.world.state
  obeys : ∀ j, routing.Obeys j (fun _ _ => True) (f.pool j) (f.world.own j)

/-- One step keeps every entry placed. -/
theorem RoutedRun.apply {f : Conf Unit} (h : RoutedRun f) (m : Move) : RoutedRun (m.apply f) := by
  cases m with
  | act i c =>
    obtain ⟨hplaced, -, hobeys⟩ := routing_sound.step (i := i) (c := c) h.placed h.obeys
      (fun _ _ _ => trivial)
    exact ⟨hplaced, hobeys⟩
  | restore n snapshot => exact ⟨setNode_stores h.placed ((h.placed n).loadAll _), h.obeys⟩
  | openWAL n K file => exact ⟨setNode_stores h.placed ((h.placed n).replay), h.obeys⟩

/-- The run of a list of steps. -/
theorem RoutedRun.foldl {f : Conf Unit} (h : RoutedRun f) (moves : List Move) :
    RoutedRun (moves.foldl Move.apply f) := by
  induction moves generalizing f with
  | nil => exact h
  | cons m moves ih => exact ih (h.apply m)

/-- **Every entry lies where it routes to.**  Whatever the nodes of a cluster are asked to do, in any
interleaving, and whatever snapshots and log files are brought in: an entry of a store is in the shard
it routes to, so it occurs in one shard, the metadata and the segments of a queue lie in the shard of
the queue's name, and a lookup there finds what is stored anywhere. -/
theorem placement_invariant (procs : Registry) (aggs : AggRegistry) (addr : Bytes → Bytes) {C : Cluster}
    (hC : AllPlaced C) (duties : ℕ → Duty) (moves : List Move) (n : Bytes) :
    let f := moves.foldl Move.apply (Conf.init C fun j => (duties j).prog procs aggs addr)
    let s := (f.world.state.nodes n).store
    (∀ p r v, s.find p r = some v → p = routedPartition r.1 r.2) ∧
    (∀ p p' r v v', s.find p r = some v → s.find p' r = some v' → p = p') ∧
    (∀ q p v, s.find p (queueMap, q) = some v → p = forKey q) ∧
    (∀ q i p v, s.find p (queueSegMap, queueSegKey i q) = some v → p = forKey q) ∧
    (∀ p r v, s.find p r = some v → s.find (routedPartition r.1 r.2) r = some v) := by
  intro f s
  have hrun : RoutedRun f := by
    refine RoutedRun.foldl ⟨hC, fun j => ?_⟩ moves
    exact Obeys.of_all (K := routing) ((duties j).routed procs aggs addr) (fun _ _ h => h) []
  have hs : ∀ p r v, s.find p r = some v → p = routedPartition r.1 r.2 :=
    fun p r v hv => (hrun.placed n p r v hv).symm
  refine ⟨hs, ?_, ?_, ?_, ?_⟩
  · exact fun p p' r v v' h h' => (hs p r v h).trans (hs p' r v' h').symm
  · exact fun q p v h => (hs p _ v h).trans (routedPartition_meta q)
  · exact fun q i p v h => (hs p _ v h).trans (routedPartition_seg i q)
  · intro p r v h
    rw [← hs p r v h]
    exact h

/-- A snapshot with a queue of one item in the old format, and an offer to that queue. -/
theorem placement_invariant_upgrade :
    let f := (Move.restore [97] [⟨queueMap, [113], [0, 0, 0, 1, 7], 0⟩] ::
      List.replicate 8 (.act 0 .still)).foldl Move.apply (Conf.init
        (oneEntry [[97]] 0 [] ([109], [114]) [118])
        fun _ => (Duty.offer [97] [113] [8]).prog (fun _ => none) (fun _ => none) id)
    AllPlaced (oneEntry [[97]] 0 [] ([109], [114]) [118]) ∧
    ((f.pool 0).returned = true ∧
      ((f.world.state.nodes [97]).store.find (forKey [113]) (queueSegMap, queueSegKey 0 [113])).isSome) ∧
    (f.world.state.nodes [97]).store.find 0 (queueSegMap, queueSegKey 0 [113]) = none := by
  have hC : AllPlaced (oneEntry [[97]] 0 [] ([109], [114]) [118]) :=
    fun n => oneEntry_placed _ _ _ _ _ n
  refine ⟨hC, by decide +kernel, ?_⟩
  refine Option.eq_none_iff_forall_ne_some.mpr fun v hv => ?_
  have hp := (placement_invariant (fun _ => none) (fun _ => none) id hC
    (fun _ => .offer [97] [113] [8]) _ [97]).2.2.2.1 [113] 0 0 v hv
  exact absurd hp (by decide +kernel)

end Medusa
