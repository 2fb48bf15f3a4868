import Medusa.Lib.Interleave
import Medusa.Membership
import Medusa.Wal

/-! # Clusters and their atomic actions

The state of a cluster is the state of its nodes, the switch that says which node listens at an
address (`transport/inmem.go`), and the external systems behind the map loaders.

An *action* is what happens without interruption: one critical section on one node
(`NodeAction`, under the membership lock, a shard lock or the log's lock), one leg of a message
(`connect`, `reply`), a call of an external system, or the start or end of a node.  Programs made
of actions run interleaved (`Medusa.Lib.Interleave`).  A `Choice` holds what the environment
decides at an action: how far the clock of the node advanced, whether a message is lost, in which
order a Go map is iterated, what the failure detector's estimate says.

The request of a message reaches its handler between `connect` and the handler's first action,
and the sender learns the result with `reply`; losing either leaves the sender with an error,
and only the second after the handler ran. -/

namespace Medusa

open Medusa.Partition Store Interleave

/-! ### Nodes -/

/-- `EventType`. -/
inductive EventType where
  | created
  | updated
  | removed
deriving DecidableEq, Repr

/-- `EntryEvent`. -/
structure EntryEvent where
  type : EventType
  mapName : Bytes
  key : Bytes
  value : Bytes
deriving DecidableEq, Repr

/-- What is registered for a map: nothing, a `MapLoader`, or a `MapStore`. -/
inductive MapSource where
  | none
  | loader
  | store
deriving DecidableEq, Repr

/-- One node: its clock (unix nanoseconds), its membership, its share of the maps, the records of
its log when it keeps one, its entry events when a listener is registered, and its loaders. -/
structure Node where
  clock : ℕ
  mem : Membership
  store : Store
  wal : Option (List WalRecord)
  listener : Bool
  events : List EntryEvent
  loaders : Bytes → MapSource

/-- What the environment decides at an action. -/
structure Choice where
  tick : ℕ := 0
  lost : Bool := false
  suspicious : Bool := false
  order : List Entry := []

/-- The clock stands still and the message arrives. -/
def Choice.still : Choice := {}

/-- Messages to nodes that listen arrive, and calls of external systems succeed. -/
def Arrives (c : Choice) : Prop := c.lost = false

/-- The critical sections of a node. -/
inductive NodeAction where
  | nowNano
  | table
  | tableWithout (id : Bytes)
  | tableVersion
  | addrOf (id : Bytes)
  | members
  | snapshotProto
  | merge (ms : List Member)
  | rejoin (mem : Member)
  | removeMember (id : Bytes)
  | detect (id : Bytes) (failed : Bool) (threshold : UInt8)
  | pruneTombstones (ttl : ℤ)
  | get (p : PartitionId) (name key : Bytes)
  | lookup (p : PartitionId) (name key : Bytes)
  | cacheLoaded (p : PartitionId) (name key value : Bytes)
  | put (name key value : Bytes) (expireAt : Int64)
  | remove (name key : Bytes)
  | execute (name key : Bytes) (proc : Processor) (arg : Bytes)
  | queueExecute (qname : Bytes) (op : QueueOp) (arg : Bytes)
  | snapshot (p : PartitionId)
  | drop (p : PartitionId) (entries : List Entry)
  | digest (p : PartitionId)
  | prune (p : PartitionId) (keep : List Ref)
  | sweep
  | liveEntries (p : PartitionId) (now : ℕ) (select : Bytes → Bool)
  | clearMap (name : Bytes)
  | source (name : Bytes)
  | emit (ev : EntryEvent)

/-- What a critical section returns. -/
abbrev NodeAction.Resp : NodeAction → Type
  | nowNano => ℕ
  | table => Table
  | tableWithout _ => Table
  | tableVersion => UInt64
  | addrOf _ => Option Bytes
  | members => List Member
  | snapshotProto => List Member
  | merge _ => Bool
  | rejoin _ => Unit
  | removeMember _ => Bool
  | detect _ _ _ => Bool
  | pruneTombstones _ => Unit
  | get _ _ _ => Option Bytes
  | lookup _ _ _ => Option Value
  | cacheLoaded _ _ _ _ => Bytes
  | put _ _ _ _ => Bool
  | remove _ _ => Bool
  | execute _ _ _ _ => Executed
  | queueExecute _ _ _ => Except ServiceError Bytes × List Mutation
  | snapshot _ => List Entry
  | drop _ _ => List Entry
  | digest _ => UInt64
  | prune _ _ => ℕ
  | sweep => Unit
  | liveEntries _ _ _ => List Entry
  | clearMap _ => ℕ
  | source _ => MapSource
  | emit _ => Unit

namespace Node

/-- A mutation and its log records, as one unit. -/
def commit {α : Type} (nd : Node) (l : Logged α) : α × Node :=
  (l.out, { nd with store := l.store, wal := nd.wal.map (· ++ l.log) })

/-- The clock advances. -/
def tick (nd : Node) (d : ℕ) : Node := { nd with clock := nd.clock + d }

/-- One critical section. -/
def exec (nd : Node) (c : Choice) : (a : NodeAction) → a.Resp × Node
  | .nowNano => (nd.clock, nd)
  | .table => (nd.mem.table, nd)
  | .tableWithout id => (nd.mem.tableWithout id, nd)
  | .tableVersion => (nd.mem.tableVer, nd)
  | .addrOf id => (nd.mem.addrOf id, nd)
  | .members => (nd.mem.listMembers, nd)
  | .snapshotProto => (nd.mem.snapshotProto, nd)
  | .merge ms => ((nd.mem.merge ms).1, { nd with mem := (nd.mem.merge ms).2 })
  | .rejoin mem => ((), { nd with mem := nd.mem.rejoin mem })
  | .removeMember id =>
    ((nd.mem.removeLocked id nd.clock).1, { nd with mem := (nd.mem.removeLocked id nd.clock).2 })
  | .detect id failed threshold =>
    let r := nd.mem.detect id failed threshold nd.clock c.suspicious
    (r.1, { nd with mem := r.2 })
  | .pruneTombstones ttl => ((), { nd with mem := nd.mem.pruneTombstones ttl nd.clock })
  | .get p name key => (nd.store.get p name key nd.clock, nd)
  | .lookup p name key => (nd.store.lookup p name key nd.clock, nd)
  | .cacheLoaded p name key value =>
    let r := nd.store.cacheLoaded p name key value nd.clock
    (r.1, { nd with store := r.2 })
  | .put name key value expireAt =>
    nd.commit (applyPut nd.store name key value expireAt nd.clock)
  | .remove name key => nd.commit (applyRemove nd.store name key nd.clock)
  | .execute name key proc arg => nd.commit (applyExecute nd.store name key proc arg nd.clock)
  | .queueExecute qname op arg => nd.commit (applyQueueExecute nd.store qname op arg nd.clock)
  | .snapshot p =>
    -- the two nested Go maps are iterated in any order
    (if c.order.isPerm (nd.store.snapshotPartition p nd.clock) then c.order
      else nd.store.snapshotPartition p nd.clock, nd)
  | .drop p entries => nd.commit (dropMigratedLogged nd.store p entries)
  | .digest p => (nd.store.partitionDigest p nd.clock, nd)
  | .prune p keep => nd.commit (pruneToKeysetLogged nd.store p keep)
  | .sweep => ((), { nd with store := nd.store.sweepExpired nd.clock })
  | .liveEntries p now select =>
    (if c.order.isPerm (nd.store.liveEntries p now select) then c.order
      else nd.store.liveEntries p now select, nd)
  | .clearMap name => nd.commit (localClearMap nd.store name)
  | .source name => (nd.loaders name, nd)
  | .emit ev =>
    -- without a listener nothing is queued, and a full queue drops the event
    ((), if nd.listener && !c.lost then { nd with events := nd.events ++ [ev] } else nd)

/-- A process started afresh under the same id and address, without a data directory. -/
def fresh (nd : Node) : Node :=
  { nd with
    mem := Membership.new nd.mem.self nd.mem.backups
    store := Store.empty
    wal := none
    listener := false
    events := [] }

end Node

/-! ### Clusters -/

/-- The nodes by id, the node listening at an address, and the content of the external systems. -/
structure Cluster where
  nodes : Bytes → Node
  listen : Bytes → Option Bytes
  backing : Ref → Option Bytes

/-- The atomic actions of a cluster. -/
inductive Action where
  | on (n : Bytes) (a : NodeAction)
  | connect (addr : Bytes)
  | reply (n : Bytes)
  | ctxErr
  | load (name key : Bytes)
  | storeThrough (name key value : Bytes)
  | deleteThrough (name key : Bytes)
  | start (n : Bytes)
  | crash (n : Bytes)
  | close (n : Bytes)

/-- What an action returns: `connect` the node reached, `reply` whether the response arrived,
`ctxErr` whether the context is cancelled, `load` the external value or an error, and the through
calls whether they succeeded. -/
abbrev Action.Resp : Action → Type
  | on _ a => a.Resp
  | connect _ => Option Bytes
  | reply _ => Bool
  | ctxErr => Bool
  | load _ _ => Except ServiceError (Option Bytes)
  | storeThrough _ _ _ => Bool
  | deleteThrough _ _ => Bool
  | start _ => Unit
  | crash _ => Unit
  | close _ => Unit

namespace Cluster

/-- Replace the state of node `n`. -/
def setNode (C : Cluster) (n : Bytes) (nd : Node) : Cluster :=
  { C with nodes := Function.update C.nodes n nd }

@[simp] theorem setNode_self (C : Cluster) (n : Bytes) (nd : Node) : (C.setNode n nd).nodes n = nd :=
  Function.update_self _ _ _

theorem setNode_ne (C : Cluster) {n m : Bytes} (nd : Node) (h : m ≠ n) :
    (C.setNode n nd).nodes m = C.nodes m := Function.update_of_ne h _ _

@[simp] theorem setNode_listen (C : Cluster) (n : Bytes) (nd : Node) :
    (C.setNode n nd).listen = C.listen := rfl

/-- The node stops listening. -/
def unlisten (C : Cluster) (n : Bytes) : Cluster :=
  { C with listen := Function.update C.listen (C.nodes n).mem.self.addr none }

end Cluster

open Cluster

/-- The meaning of an action. -/
def exec : (a : Action) → Choice → Cluster → a.Resp × Cluster
  | .on n a, c, C =>
    (((C.nodes n).tick c.tick).exec c a |>.1, C.setNode n (((C.nodes n).tick c.tick).exec c a).2)
  | .connect addr, c, C => (if c.lost then none else C.listen addr, C)
  | .reply _, c, C => (!c.lost, C)
  | .ctxErr, c, C => (c.lost, C)
  | .load name key, c, C =>
    (if c.lost then .error .backingStore else .ok (C.backing (name, key)), C)
  | .storeThrough name key value, c, C =>
    if c.lost then (false, C)
    else (true, { C with backing := Function.update C.backing (name, key) (some value) })
  | .deleteThrough name key, c, C =>
    if c.lost then (false, C)
    else (true, { C with backing := Function.update C.backing (name, key) none })
  | .start n, _, C =>
    ((), { C.setNode n (C.nodes n).fresh with
      listen := Function.update C.listen (C.nodes n).mem.self.addr (some n) })
  | .crash n, _, C => ((), (C.unlisten n).setNode n (C.nodes n).fresh)
  | .close n, _, C => ((), C.unlisten n)

/-- Programs over the actions of a cluster. -/
abbrev Prog (α : Type) := Interleave.Prog Action.Resp α

/-- The events, worlds and configurations of runs of a cluster. -/
abbrev Event := Interleave.Event Action.Resp

@[inherit_doc Event] abbrev World := Interleave.World Action.Resp Cluster

@[inherit_doc Event] abbrev Conf (α : Type) := Interleave.Conf Action.Resp Cluster α

/-- The configuration before anything happened. -/
def Conf.init {α : Type} (C : Cluster) (pool : ℕ → Prog α) : Conf α := ⟨⟨C, []⟩, pool⟩

/-- One critical section on node `n`. -/
def Prog.on (n : Bytes) (a : NodeAction) : Prog a.Resp :=
  Interleave.Prog.perform (R := Action.Resp) (.on n a)

section exec
variable (n : Bytes) (a : NodeAction) (c : Choice) (C : Cluster)

theorem exec_on_self :
    (exec (.on n a) c C).2.nodes n = (((C.nodes n).tick c.tick).exec c a).2 := setNode_self _ _ _

theorem exec_on_ne {m : Bytes} (h : m ≠ n) : (exec (.on n a) c C).2.nodes m = C.nodes m :=
  setNode_ne _ _ h

@[simp] theorem exec_on_listen : (exec (.on n a) c C).2.listen = C.listen := rfl

@[simp] theorem exec_on_fst :
    (exec (.on n a) c C).1 = (((C.nodes n).tick c.tick).exec c a).1 := rfl

theorem exec_start_self : (exec (.start n) c C).2.nodes n = (C.nodes n).fresh := setNode_self _ _ _

theorem exec_start_ne {m : Bytes} (h : m ≠ n) : (exec (.start n) c C).2.nodes m = C.nodes m :=
  setNode_ne _ _ h

theorem exec_crash_self : (exec (.crash n) c C).2.nodes n = (C.nodes n).fresh := setNode_self _ _ _

theorem exec_crash_ne {m : Bytes} (h : m ≠ n) : (exec (.crash n) c C).2.nodes m = C.nodes m :=
  setNode_ne _ _ h

/-- A snapshot has the live entries of the partition, in some order. -/
theorem exec_snapshot_perm (p : PartitionId) : List.Perm (exec (.on n (.snapshot p)) c C).1
    ((C.nodes n).store.snapshotPartition p ((C.nodes n).clock + c.tick)) := by
  change List.Perm (if c.order.isPerm _ then c.order else _) _
  split
  · next h => exact List.isPerm_iff.mp h
  · exact List.Perm.refl _

theorem mem_exec_snapshot {p : PartitionId} {d : Entry} :
    d ∈ (exec (.on n (.snapshot p)) c C).1 ↔
      d ∈ (C.nodes n).store.snapshotPartition p ((C.nodes n).clock + c.tick) :=
  (exec_snapshot_perm _ _ _ p).mem_iff

/-- So has a reading of the live entries of some maps. -/
theorem exec_liveEntries_perm (p : PartitionId) (now : ℕ) (select : Bytes → Bool) :
    List.Perm (exec (.on n (.liveEntries p now select)) c C).1
      ((C.nodes n).store.liveEntries p now select) := by
  change List.Perm (if c.order.isPerm ((C.nodes n).store.liveEntries p now select) then c.order
    else (C.nodes n).store.liveEntries p now select) _
  split
  · next h => exact List.isPerm_iff.mp h
  · exact List.Perm.refl _

/-- A critical section takes its clock reading after the tick, and does not change it. -/
theorem Node.exec_clock (nd : Node) : (nd.exec c a).2.clock = nd.clock := by
  cases a with
  | emit ev => simp only [Node.exec]; split <;> rfl
  | _ => rfl

theorem exec_on_clock : ((exec (.on n a) c C).2.nodes n).clock = (C.nodes n).clock + c.tick := by
  rw [exec_on_self, Node.exec_clock]
  rfl

/-- Clocks do not run backwards. -/
theorem exec_clock_mono (e : Action) : (C.nodes n).clock ≤ ((exec e c C).2.nodes n).clock := by
  cases e with
  | on m a =>
    by_cases h : n = m
    · subst h
      rw [exec_on_clock]
      exact Nat.le_add_right _ _
    · rw [exec_on_ne _ _ _ _ h]
  | start m =>
    by_cases h : n = m
    · subst h
      rw [exec_start_self]
      exact le_rfl
    · rw [exec_start_ne _ _ _ h]
  | crash m =>
    by_cases h : n = m
    · subst h
      rw [exec_crash_self]
      exact le_rfl
    · rw [exec_crash_ne _ _ _ h]
  | storeThrough | deleteThrough => simp only [exec]; split <;> exact le_rfl
  | _ => exact le_rfl

end exec

/-- Loaders stay registered. -/
theorem exec_loaders (e : Action) (c : Choice) (C : Cluster) (n : Bytes) :
    ((exec e c C).2.nodes n).loaders = (C.nodes n).loaders := by
  have hset : ∀ (m : Bytes) (nd : Node), nd.loaders = (C.nodes m).loaders →
      ((C.setNode m nd).nodes n).loaders = (C.nodes n).loaders := by
    intro m nd hnd
    by_cases hn : n = m
    · rw [hn, setNode_self, hnd]
    · rw [setNode_ne _ _ hn]
  cases e with
  | on m a =>
    refine hset m _ ?_
    cases a with
    | emit ev => simp only [Node.exec]; split <;> rfl
    | _ => rfl
  | start m => exact hset m _ rfl
  | crash m => exact hset m _ rfl
  | storeThrough | deleteThrough => simp only [exec]; split <;> rfl
  | _ => rfl

/-! ### Stores -/

/-- The critical section leaves the store alone. -/
def NodeAction.Reads : NodeAction → Prop
  | .cacheLoaded _ _ _ _ => False
  | .put _ _ _ _ => False
  | .remove _ _ => False
  | .execute _ _ _ _ => False
  | .queueExecute _ _ _ => False
  | .drop _ _ => False
  | .prune _ _ => False
  | .sweep => False
  | .clearMap _ => False
  | _ => True

theorem NodeAction.Reads.store {a : NodeAction} (h : a.Reads) (nd : Node) (c : Choice) :
    (nd.exec c a).2.store = nd.store := by
  cases a with
  | cacheLoaded | put | remove | execute | queueExecute | drop | prune | sweep | clearMap =>
    exact h.elim
  | emit ev => simp only [Node.exec]; split <;> rfl
  | _ => rfl

/-- A critical section that only reads leaves every store as it is. -/
theorem NodeAction.Reads.exec_store {a : NodeAction} (h : a.Reads) (m : Bytes) (c : Choice)
    (C : Cluster) (n : Bytes) :
    ((exec (.on m a) c C).2.nodes n).store = (C.nodes n).store := by
  by_cases hn : n = m
  · subst hn
    rw [exec_on_self, h.store]
    rfl
  · rw [exec_on_ne _ _ _ _ hn]

/-- The copy of `r` on node `n`, expired or not. -/
def copyOf (r : Ref) (n : Bytes) (C : Cluster) : Option Value :=
  (C.nodes n).store.find (routedPartition r.1 r.2) r

section find
variable {c : Choice} {C : Cluster} {n : Bytes} {r : Ref}

/-- The store of a node after a put somewhere. -/
theorem find_exec_put (y name key value : Bytes) (expireAt : Int64) (q : PartitionId) :
    ((exec (.on y (.put name key value expireAt)) c C).2.nodes n).store.find q r =
      if n = y ∧ q = routedPartition name key ∧ r = (name, key) then some ⟨value, expireAt⟩
      else (C.nodes n).store.find q r := by
  by_cases hn : n = y
  · subst hn
    rw [exec_on_self]
    change ((C.nodes n).store.set (routedPartition name key) (name, key) ⟨value, expireAt⟩).find q r = _
    rw [find_set]
    simp
  · rw [exec_on_ne _ _ _ _ hn, if_neg (fun h => hn h.1)]

/-- The store of a node after a prune somewhere. -/
theorem find_exec_prune (y : Bytes) (p : PartitionId) (keep : List Ref) (q : PartitionId) :
    ((exec (.on y (.prune p keep)) c C).2.nodes n).store.find q r =
      if n = y ∧ q = p ∧ r ∉ keep then none else (C.nodes n).store.find q r := by
  by_cases hn : n = y
  · subst hn
    rw [exec_on_self]
    change ((C.nodes n).store.pruneToKeyset p keep).2.find q r = _
    rw [find_pruneToKeyset]
    simp
  · rw [exec_on_ne _ _ _ _ hn, if_neg (fun h => hn h.1)]

/-- The store of a node after a drop of migrated entries somewhere. -/
theorem find_exec_drop (y : Bytes) (p : PartitionId) (entries : List Entry) (q : PartitionId) :
    ((exec (.on y (.drop p entries)) c C).2.nodes n).store.find q r =
      if n = y ∧ q = p then
        ((C.nodes n).store.find q r).filter (fun v => decide (entryOf r v ∉ entries))
      else (C.nodes n).store.find q r := by
  by_cases hn : n = y
  · subst hn
    rw [exec_on_self]
    change ((C.nodes n).store.dropMigrated p entries).2.find q r = _
    rw [find_dropMigrated]
    simp
  · rw [exec_on_ne _ _ _ _ hn, if_neg (fun h => hn h.1)]

end find

/-! ### Keys left alone -/

/-- The critical section writes, removes or judges the entry under `r`.  A sweep does not: it takes
expired entries only. -/
def NodeAction.Touches (r : Ref) : NodeAction → Prop
  | .cacheLoaded _ name key _ => r = (name, key)
  | .put name key _ _ => r = (name, key)
  | .remove name key => r = (name, key)
  | .execute name key _ _ => r = (name, key)
  | .queueExecute _ _ _ => isReservedMap r.1 = true
  | .drop _ entries => ∃ d ∈ entries, d.ref = r
  | .prune _ keep => r ∉ keep
  | .clearMap name => r.1 = name
  | _ => False

instance (r : Ref) : (a : NodeAction) → Decidable (a.Touches r)
  | .cacheLoaded _ name key _ | .put name key _ _ | .remove name key | .execute name key _ _ =>
    inferInstanceAs (Decidable (r = (name, key)))
  | .queueExecute _ _ _ => inferInstanceAs (Decidable (isReservedMap r.1 = true))
  | .drop _ entries => inferInstanceAs (Decidable (∃ d ∈ entries, d.ref = r))
  | .prune _ keep => inferInstanceAs (Decidable (r ∉ keep))
  | .clearMap name => inferInstanceAs (Decidable (r.1 = name))
  | .nowNano | .table | .tableWithout _ | .tableVersion | .addrOf _ | .members | .snapshotProto
  | .merge _ | .rejoin _ | .removeMember _ | .detect _ _ _ | .pruneTombstones _ | .get _ _ _
  | .lookup _ _ _ | .snapshot _ | .digest _ | .sweep | .liveEntries _ _ _ | .source _ | .emit _ =>
    inferInstanceAs (Decidable False)

/-- The action works on the entry under `r` of node `n`. -/
def Action.Touches (n : Bytes) (r : Ref) : Action → Prop
  | .on m a => m = n ∧ a.Touches r
  | .start m => m = n
  | .crash m => m = n
  | _ => False

instance (n : Bytes) (r : Ref) : (e : Action) → Decidable (e.Touches n r)
  | .on m a => inferInstanceAs (Decidable (m = n ∧ a.Touches r))
  | .start m | .crash m => inferInstanceAs (Decidable (m = n))
  | .connect _ | .reply _ | .ctxErr | .load _ _ | .storeThrough _ _ _ | .deleteThrough _ _
  | .close _ => inferInstanceAs (Decidable False)

/-- An entry left alone stays as it is, unless it has expired and is swept. -/
theorem NodeAction.find_of_not_touches {a : NodeAction} {r : Ref} (ha : ¬ a.Touches r) (nd : Node)
    (c : Choice) (p : PartitionId) :
    (nd.exec c a).2.store.find p r = nd.store.find p r ∨
      (nd.exec c a).2.store.find p r = (nd.store.find p r).filter (fun v => !v.expired nd.clock) := by
  cases a with
  | cacheLoaded q name key value =>
    left
    change (nd.store.cacheLoaded q name key value nd.clock).2.find p r = _
    unfold Store.cacheLoaded
    split
    · rfl
    · rw [find_set, if_neg fun h => ha h.2]
  | put name key value expireAt =>
    left
    change (nd.store.set _ (name, key) _).find p r = _
    rw [find_set, if_neg fun h => ha h.2]
  | remove name key =>
    left
    change (nd.store.erase _ (name, key)).find p r = _
    rw [find_erase, if_neg fun h => ha h.2]
  | execute name key proc arg =>
    left
    change (applyExecute nd.store name key proc arg nd.clock).store.find p r = _
    rcases applyExecute_cases nd.store name key proc arg nd.clock with
      ⟨-, he⟩ | ⟨-, he⟩ | ⟨v, -, -, he⟩
    · rw [he]
    · rw [he, find_erase, if_neg fun h => ha h.2]
    · rw [he, find_set, if_neg fun h => ha h.2]
  | queueExecute qname op arg =>
    exact Or.inl (find_queueTxn_of_not_reserved ha nd.store nd.clock qname op arg p)
  | clearMap name =>
    left
    change (nd.store.clearMap name).2.find p r = _
    rw [find_clearMap]
    exact if_neg ha
  | drop q entries =>
    left
    change (nd.store.dropMigrated q entries).2.find p r = _
    rw [find_dropMigrated]
    split
    · cases nd.store.find p r with
      | none => rfl
      | some v =>
        have hkept : entryOf r v ∉ entries := fun hin => ha ⟨_, hin, rfl⟩
        simp [hkept]
    · rfl
  | prune q keep =>
    left
    change (nd.store.pruneToKeyset q keep).2.find p r = _
    rw [find_pruneToKeyset, if_neg fun h => ha h.2]
  | sweep => exact Or.inr (find_sweepExpired nd.store nd.clock p r)
  | emit ev =>
    left
    simp only [Node.exec]
    split <;> rfl
  | _ => exact Or.inl rfl

/-! ### Histories -/

/-- The history has a clock reading `now` of node `n`. -/
def ReadClock (h : List Event) (n : Bytes) (now : ℕ) : Prop :=
  ∃ i, (⟨i, .on n .nowNano, now⟩ : Event) ∈ h

theorem ReadClock.mono {h h' : List Event} {n : Bytes} {now : ℕ} (hr : ReadClock h n now)
    (hs : h ⊆ h') : ReadClock h' n now := by
  obtain ⟨i, hi⟩ := hr
  exact ⟨i, hs hi⟩

/-- No clock reading of `n` is ahead of its clock. -/
def ClockOk (n : Bytes) (w : World) : Prop :=
  ∀ now, ReadClock w.past n now → now ≤ (w.state.nodes n).clock

theorem ClockOk.next {n : Bytes} {w : World} (h : ClockOk n w) (i : ℕ) (e : Action) (c : Choice) :
    ClockOk n (w.next exec i e c) := by
  rintro now ⟨j, hj⟩
  rcases List.mem_cons.mp hj with heq | hmem
  · injection heq with _ he hr
    subst he
    rw [World.next_state, exec_on_clock]
    exact le_of_eq (eq_of_heq hr)
  · exact (h now ⟨j, hmem⟩).trans (exec_clock_mono _ _ _ _)

end Medusa
