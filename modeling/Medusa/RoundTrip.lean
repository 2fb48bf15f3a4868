import Medusa.Replay
import Medusa.Routing
import Medusa.Sweep

/-! # Snapshots round trip

Restoring a snapshot puts every entry where it routes to, and takes a queue's metadata that is not 24
bytes long for a queue of the old format.  The first is where the entry was (`Medusa.Routing`), and the
second never applies when the reserved maps are written by queue operations only (`Current`): every
metadata record they write has that length, and what a restore or a replay converts has it too.

`snapshot_round_trip`: a store of any run, restored from a snapshot, looks from then on the same as the
store the snapshot was taken of (`SameLive`), so every later call gets the same answer. -/

namespace Medusa

open Medusa.Partition Store Interleave Service Contract

/-! ### Stores in the current format -/

/-- No entry is a queue of the old format. -/
def Current (s : Store) : Prop := ∀ p r v, s.find p r = some v → isLegacyQueue r.1 v.data = false

section current
variable {s : Store}

theorem Current.plain (h : Current s) : Plain (content s) := fun r v hv => h _ r v hv

theorem current_of_plain (hs : Placed s) (h : Plain (content s)) : Current s := by
  intro p r v hv
  refine h r v ?_
  rw [content, hs p r v hv]
  exact hv

theorem Current.set (h : Current s) (p : PartitionId) {r : Ref} {v : Value}
    (hv : isLegacyQueue r.1 v.data = false) : Current (s.set p r v) := by
  intro q r' v' hf
  rw [find_set] at hf
  split at hf
  · next heq =>
    rw [heq.2, ← Option.some.inj hf]
    exact hv
  · exact h q r' v' hf

/-- Removing entries keeps a store in the current format. -/
theorem Current.of_le {s' : Store} (h : Current s)
    (hle : ∀ p r v, s'.find p r = some v → s.find p r = some v) : Current s' :=
  fun p r v hv => h p r v (hle p r v hv)

theorem Current.erase (h : Current s) (p : PartitionId) (r : Ref) : Current (s.erase p r) := by
  refine h.of_le fun q r' v hf => ?_
  rw [find_erase] at hf
  split at hf
  · cases hf
  · exact hf

theorem not_legacy_of_ordinary {name data : Bytes} (h : isReservedMap name = false) :
    isLegacyQueue name data = false := by
  have hne : name ≠ queueMap := fun h' => by simp [isReservedMap, h'] at h
  simp [isLegacyQueue, hne]

/-- A queue operation writes `value` under `r`. -/
def QueueWrote (r : Ref) (value : Bytes) : Prop :=
  ∃ (s : Store) (now : ℕ) (q : Bytes) (op : QueueOp) (arg : Bytes),
    ∃ mu ∈ (queueTxn s now q op arg).2.1, mu.del = false ∧ r = (mu.mapName, mu.key) ∧ value = mu.value

/-- What a queue operation writes is in the current format. -/
theorem QueueWrote.not_legacy {r : Ref} {value : Bytes} (h : QueueWrote r value) :
    isLegacyQueue r.1 value = false := by
  obtain ⟨s, now, q, op, arg, mu, hmu, hdel, rfl, rfl⟩ := h
  rcases queueTxn_muts s now q op arg with e | ⟨i, info, hinfo, ⟨data, e⟩ | e⟩
  · simp [e] at hmu
  · rw [e] at hmu
    rcases List.mem_pair.mp hmu with rfl | rfl
    · rfl
    · simp [isLegacyQueue, hinfo]
  · rw [e] at hmu
    rcases List.mem_pair.mp hmu with rfl | rfl
    · cases hdel
    · simp [isLegacyQueue, hinfo]

theorem Current.mutations (h : Current s) (p : PartitionId) {muts : List Mutation}
    (hmuts : ∀ mu ∈ muts, mu.del = false → isLegacyQueue mu.mapName mu.value = false) :
    Current (s.setShard p (muts.foldl applyMutation (s.shards p))) := by
  rw [find_foldl_applyMutation]
  induction muts generalizing s with
  | nil => exact h
  | cons mu muts ih =>
    refine ih ?_ fun x hx => hmuts x (List.mem_cons_of_mem _ hx)
    dsimp only
    split
    · exact h.erase _ _
    · next hdel => exact h.set _ (hmuts mu List.mem_cons_self (by simpa using hdel))

theorem Current.queueTxn (h : Current s) (now : ℕ) (q : Bytes) (op : QueueOp) (arg : Bytes) :
    Current (queueTxn s now q op arg).2.2 := by
  rw [queueTxn_store]
  refine h.mutations _ fun mu hmu hdel => ?_
  exact QueueWrote.not_legacy (r := (mu.mapName, mu.key)) ⟨s, now, q, op, arg, mu, hmu, hdel, rfl, rfl⟩

end current

/-! ### Reserved maps left to queue operations -/

/-- A critical section that writes to a reserved map is a queue operation, or stores a copy of what one
wrote. -/
def NodeAction.QueueOnly : NodeAction → Prop
  | .put name key value _ => isReservedMap name = true → QueueWrote (name, key) value
  | .cacheLoaded _ name _ _ => isReservedMap name = false
  | .execute name _ _ _ => isReservedMap name = false
  | _ => True

/-- Nothing but queue operations writes to the reserved maps. -/
def Action.QueueOnly : Action → Prop
  | .on _ a => a.QueueOnly
  | _ => True

theorem NodeAction.QueueOnly.current {a : NodeAction} (ha : a.QueueOnly) {nd : Node}
    (h : Current nd.store) (c : Choice) : Current (nd.exec c a).2.store := by
  cases a with
  | cacheLoaded p name key value =>
    change Current (nd.store.cacheLoaded p name key value nd.clock).2
    unfold Store.cacheLoaded
    split
    · exact h
    · exact h.set _ (not_legacy_of_ordinary ha)
  | put name key value expireAt =>
    refine h.set (r := (name, key)) (v := ⟨value, expireAt⟩) _ ?_
    cases hname : isReservedMap name with
    | true => exact (ha hname).not_legacy
    | false => exact not_legacy_of_ordinary hname
  | remove name key => exact h.erase _ (name, key)
  | execute name key proc arg =>
    change Current (applyExecute nd.store name key proc arg nd.clock).store
    rcases applyExecute_cases nd.store name key proc arg nd.clock with
      ⟨-, he⟩ | ⟨-, he⟩ | ⟨v, -, -, he⟩
    · rw [he]
      exact h
    · rw [he]
      exact h.erase _ _
    · rw [he]
      exact h.set _ (not_legacy_of_ordinary ha)
  | queueExecute qname op arg => exact h.queueTxn nd.clock qname op arg
  | drop p entries =>
    refine h.of_le fun q r v hf => ?_
    change (nd.store.dropMigrated p entries).2.find q r = some v at hf
    rw [find_dropMigrated] at hf
    split at hf
    · exact (Option.filter_eq_some_iff.mp hf).1
    · exact hf
  | prune p keep =>
    refine h.of_le fun q r v hf => ?_
    change (nd.store.pruneToKeyset p keep).2.find q r = some v at hf
    rw [find_pruneToKeyset] at hf
    split at hf
    · cases hf
    · exact hf
  | clearMap name =>
    refine h.of_le fun q r v hf => ?_
    change (nd.store.clearMap name).2.find q r = some v at hf
    rw [find_clearMap] at hf
    split at hf
    · cases hf
    · exact hf
  | sweep =>
    refine h.of_le fun q r v hf => ?_
    change (nd.store.sweepExpired nd.clock).find q r = some v at hf
    rw [find_sweepExpired] at hf
    exact (Option.filter_eq_some_iff.mp hf).1
  | emit ev =>
    simp only [Node.exec]
    split <;> exact h
  | _ => exact h

/-- Every store is in the current format. -/
def AllCurrent (C : Cluster) : Prop := ∀ n, Current (C.nodes n).store

theorem current_empty : Current Store.empty := fun p r v h => by simp at h

theorem AllCurrent.exec {C : Cluster} (h : AllCurrent C) {e : Action} (he : e.QueueOnly) (c : Choice) :
    AllCurrent (exec e c C).2 := by
  refine exec_stores current_empty c (fun n a hea nd hs => ?_) h
  subst hea
  exact NodeAction.QueueOnly.current he hs c

/-! ### Runs -/

/-- Every step of the run leaves the reserved maps to queue operations. -/
def QueueOnlyRun : List Move → Conf Unit → Prop
  | [], _ => True
  | m :: moves, f =>
    (∀ i c e k, m = .act i c → f.pool i = .act e k → e.QueueOnly) ∧ QueueOnlyRun moves (m.apply f)

/-- A run of the threads alone. -/
theorem queueOnlyRun_of_meets {sched : List (ℕ × Choice)} {f : Conf Unit}
    (h : Meets Medusa.exec (fun _ e _ _ => e.QueueOnly) sched f) :
    QueueOnlyRun (sched.map fun ic => .act ic.1 ic.2) f := by
  induction sched generalizing f with
  | nil => trivial
  | cons ic sched ih =>
    refine ⟨fun i c e k hm hp => ?_, ih h.2⟩
    obtain ⟨rfl, rfl⟩ := Move.act.inj hm
    exact h.1 e k hp

/-- One step keeps every store in the current format; what is brought in is converted. -/
theorem current_apply {f : Conf Unit} (hf : RoutedRun f) (h : AllCurrent f.world.state) (m : Move)
    (hm : ∀ i c e k, m = .act i c → f.pool i = .act e k → e.QueueOnly) :
    AllCurrent (m.apply f).world.state := by
  cases m with
  | act i c =>
    change AllCurrent (f.step Medusa.exec i c).world.state
    cases hp : f.pool i with
    | done a => rwa [Conf.step_done hp]
    | act e k =>
      rw [Conf.step_act hp]
      exact h.exec (hm i c e k rfl hp) c
  | restore n snapshot =>
    refine setNode_stores h (current_of_plain ((hf.placed n).loadAll _) ?_)
    change Plain (content ((f.world.state.nodes n).store.loadAll _))
    rw [content_loadAll]
    exact List.foldlRecOn _ _ (h n).plain fun c hc e _ => hc.load e
  | openWAL n K file =>
    exact setNode_stores h (current_of_plain (hf.placed n).replay
      ((h n).plain.replayAll (f.world.state.nodes n).clock (replayWAL K file).1))

theorem current_run {f : Conf Unit} (hf : RoutedRun f) (h : AllCurrent f.world.state) {moves : List Move}
    (hq : QueueOnlyRun moves f) : AllCurrent (moves.foldl Move.apply f).world.state := by
  induction moves generalizing f with
  | nil => exact h
  | cons m moves ih => exact ih (hf.apply m) (current_apply hf h m hq.1) hq.2

/-- **A snapshot round trips**: take the store of any node after any run of a cluster that begins empty,
whatever the nodes are asked to do and whatever snapshots and log files are brought in, as long as the
reserved maps are written by queue operations.  Its snapshot, in whatever order the entries come,
restored into an empty store at a clock not before: every entry is in the shard its readers use, every
later lookup finds the same value with the same expiry, and every sequence of later calls, queue
operations among them, gets the same answers. -/
theorem snapshot_round_trip (procs : Registry) (aggs : AggRegistry) (addr : Bytes → Bytes) {C : Cluster}
    (hC : ∀ n, (C.nodes n).store = Store.empty) (duties : ℕ → Duty) {moves : List Move}
    (hq : QueueOnlyRun moves (Conf.init C fun j => (duties j).prog procs aggs addr)) (n : Bytes)
    {snapAt restoreAt : ℕ} (hclock : snapAt ≤ restoreAt) {snapshot : List Entry}
    (hsnap : snapshot.Perm (Store.snapshotAll ((moves.foldl Move.apply
      (Conf.init C fun j => (duties j).prog procs aggs addr)).world.state.nodes n).store snapAt)) :
    let s := ((moves.foldl Move.apply
      (Conf.init C fun j => (duties j).prog procs aggs addr)).world.state.nodes n).store
    let s' := restore restoreAt snapshot
    (∀ p r v, s'.find p r = some v → p = routedPartition r.1 r.2) ∧
    (∀ t, restoreAt < t → ∀ p name key, s'.lookup p name key t = s.lookup p name key t) ∧
    ∀ calls : List (ℕ × StoreCall), (∀ x ∈ calls, restoreAt < x.1) →
      List.Forall₂ StoreReply.Same (StoreCall.replies calls s) (StoreCall.replies calls s') := by
  intro s s'
  have hrun : RoutedRun (Conf.init C fun j => (duties j).prog procs aggs addr) := by
    refine ⟨fun m => ?_, fun j => ?_⟩
    · change Placed (C.nodes m).store
      rw [hC m]
      exact placed_empty
    · exact Obeys.of_all (K := routing) ((duties j).routed procs aggs addr) (fun _ _ h => h) []
  have hcurrent : Current s := by
    refine current_run hrun (fun m => ?_) hq n
    change Current (C.nodes m).store
    rw [hC m]
    exact current_empty
  have hplaced : Placed s := (hrun.foldl moves).placed n
  have hsame : SameLive (restoreAt + 1) s s' := fun t ht p r =>
    find_restore_snapshot hplaced hcurrent.plain hclock ht hsnap p r
  have hrestored : Placed s' := placed_empty.loadAll _
  exact ⟨fun p r v hv => (hrestored p r v hv).symm, fun t ht p name key => hsame.lookup ht p name key,
    fun calls hcalls => hsame.replies hcalls⟩

/-- Puts, loads and processors stay out of the reserved maps. -/
def Action.ordinary : Action → Bool
  | .on _ (.put name _ _ _) => !isReservedMap name
  | .on _ (.cacheLoaded _ name _ _) => !isReservedMap name
  | .on _ (.execute name _ _ _) => !isReservedMap name
  | _ => true

theorem Action.queueOnly_of_ordinary {e : Action} (h : e.ordinary = true) : e.QueueOnly := by
  cases e with
  | on m a =>
    cases a with
    | put name key value expireAt =>
      intro hname
      simp [Action.ordinary, hname] at h
    | cacheLoaded | execute => exact (Bool.not_eq_true' _).mp h
    | _ => trivial
  | _ => trivial

/-- Two items in a queue, and an entry that expires after a second. -/
def queueAndTTL : ℕ → Duty
  | 0 => .offer [97] [113] [7]
  | 1 => .offer [97] [113] [8]
  | _ => .put [97] [109] [107] [1] 1000

/-- One after the other. -/
def queueAndTTLSched : List (ℕ × Choice) :=
  List.replicate 8 (0, .still) ++ List.replicate 8 (1, .still) ++ List.replicate 8 (2, .still)

/-- A single node that begins empty. -/
def queueAndTTLStart : Conf Unit :=
  Conf.init (oneEntry [[97]] 0 [] ([109], [107]) [])
    fun j => (queueAndTTL j).prog (fun _ => none) (fun _ => none) id

/-- The snapshot of the node, restored half a second later. -/
theorem snapshot_round_trip_queue :
    let s := (((queueAndTTLSched.map fun ic => Move.act ic.1 ic.2).foldl Move.apply
      queueAndTTLStart).world.state.nodes [97]).store
    let s' := restore 500000000 (s.snapshotAll 0)
    let polls : List (ℕ × StoreCall) := [(600000000, .updateMulti (forKey [113]) [113] .queuepoll []),
      (700000000, .updateMulti (forKey [113]) [113] .queuepoll [])]
    s.lookup (forKey [107]) [109] [107] 600000000 = some ⟨[1], 1000000000⟩ ∧
    s'.lookup (forKey [107]) [109] [107] 600000000 = s.lookup (forKey [107]) [109] [107] 600000000 ∧
    List.Forall₂ StoreReply.Same (StoreCall.replies polls s) (StoreCall.replies polls s') := by
  intro s s' polls
  have hcheck : Conf.check Medusa.exec (fun _ e _ _ => e.ordinary) queueAndTTLSched
      queueAndTTLStart = true := by
    decide +kernel
  have hq := queueOnlyRun_of_meets ((Meets.of_check hcheck).mono
    fun _ _ _ _ h => Action.queueOnly_of_ordinary h)
  obtain ⟨-, hlookup, hcalls⟩ := snapshot_round_trip (fun _ => none) (fun _ => none) id
    (fun _ => rfl) queueAndTTL hq [97] (show 0 ≤ 500000000 by decide) (List.Perm.refl _)
  exact ⟨by decide +kernel, hlookup _ (by decide) _ _ _, hcalls _ (by simp [polls])⟩

end Medusa
