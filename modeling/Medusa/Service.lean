import Medusa.Aggregate
import Medusa.Cluster

/-! # The map service

`imap/service.go` as programs over the actions of a cluster.  The first argument `n` is the node
whose service runs; a remote procedure call (`send`) continues with the handler on the node it
reaches.  Loops over a Go slice are recursions on the list.

* `applyPut`, `applyRemove`, `applyEvict`, `applyExecute`, `applyQueueExecute`: the store change
  as one action, then the replication messages one at a time.
* `migrate`: hand partitions to the holders of a table.
* `syncBackups`: probe the backups of owned partitions, push to the stale ones and prune them.
* `localMapSize`, `localAggregate`, `localClearMap`, `evict`: over the entries a node owns, shard by
  shard.
* `sendPut`, `sendGet`, `sendRemove`, `sendEvict`, `sendExecute`, `sendDigest`, `sendReconcile`,
  `sendSize`, `sendClear`, `sendAggregate`: the calls, with the handlers of `Handle`. -/

namespace Medusa

open Medusa.Partition Store Interleave

namespace Service

/-- `tr.Send` and the peer's handler. -/
def send {α : Type} (addr : Bytes) (handle : Bytes → Prog (Except ServiceError α)) :
    Prog (Except ServiceError α) := do
  match ← Interleave.Prog.perform (R := Action.Resp) (.connect addr) with
  | none => return .error .unreachable
  | some x =>
    let out ← handle x
    let arrived ← Interleave.Prog.perform (R := Action.Resp) (.reply x)
    return if arrived then out else .error .unreachable

/-- A call of a node that listens ends as its handler does. -/
theorem send_ensures {α : Type} {handle : Bytes → Prog (Except ServiceError α)} {a x : Bytes}
    {C : Cluster} {Q : Except ServiceError α → Cluster → Prop} (hx : C.listen a = some x)
    (h : (handle x).Ensures exec Arrives Q C) : (send a handle).Ensures exec Arrives Q C := by
  intro c hc
  have hconnect : (exec (.connect a) c C).1 = some x := by
    change (if c.lost then none else C.listen a) = some x
    rw [hx, show c.lost = false from hc]
    rfl
  rw [hconnect]
  change Prog.Ensures exec Arrives Q (handle x >>= fun out =>
    Interleave.Prog.perform (R := Action.Resp) (.reply x) >>= fun arrived =>
      return if arrived then out else .error .unreachable) C
  refine Prog.Ensures.bind (h.mono (fun out C' hQ c' hc' => ?_))
  have hreply : (exec (.reply x) c' C').1 = true := by
    change (!c'.lost) = true
    rw [show c'.lost = false from hc']
    rfl
  rw [hreply]
  exact hQ

/-! ### Replication -/

/-- A replication message. -/
inductive Replica where
  | put (name key value : Bytes) (ttlMs : Int64)
  | remove (name key : Bytes)
deriving DecidableEq, Repr

/-- The store change of `applyPut`: the expiry is fixed before the lock is taken. -/
def storePut (n name key value : Bytes) (ttlMs : Int64) : Prog Bool := do
  let now ← Prog.on n .nowNano
  Prog.on n (.put name key value (expireFromTTL now ttlMs))

/-- A backup applies a replication message (`isBackup = true`). -/
def Replica.apply (x : Bytes) : Replica → Prog (Except ServiceError Bool)
  | .put name key value ttlMs => do return .ok (← storePut x name key value ttlMs)
  | .remove name key => do return .ok (← Prog.on x (.remove name key))

/-- The loop of `replicate`. -/
def replicateTo (n : Bytes) (msg : Replica) : List Bytes → Prog Unit
  | [] => return ()
  | backup :: rest =>
    if backup = n then replicateTo n msg rest
    else do
      match ← Prog.on n (.addrOf backup) with
      | none => replicateTo n msg rest
      | some addr =>
        let _ ← send addr (fun x => msg.apply x)
        replicateTo n msg rest

/-- `Service.replicate`: forward a write to every backup of the partition, best effort. -/
def replicate (n : Bytes) (p : PartitionId) (msg : Replica) : Prog Unit := do
  let tbl : Table ← Prog.on n .table
  replicateTo n msg (tbl.backupsOf p)

/-! ### Writes -/

/-- An entry event, unless the map is reserved. -/
def emit (n : Bytes) (type : EventType) (name key value : Bytes) : Prog Unit :=
  if isReservedMap name then return ()
  else Prog.on n (.emit ⟨type, name, key, value⟩)

/-- The event of a removal, if there was something to remove. -/
def emitRemoved (n : Bytes) (existed : Bool) (name key : Bytes) : Prog Unit :=
  if existed then emit n .removed name key [] else return ()

/-- A call of the map's `MapStore`, if one is registered. -/
def callThrough {α : Type} (n name : Bytes) (call : Prog Bool) (out : α) :
    Prog (Except ServiceError α) := do
  let src : MapSource ← Prog.on n (.source name)
  if src = MapSource.store then
    let done ← call
    return if done then .ok out else .error .backingStore
  else return .ok out

/-- Write through to a `MapStore`, if one is registered. -/
def writeThrough {α : Type} (n name key value : Bytes) (out : α) : Prog (Except ServiceError α) :=
  callThrough n name (Interleave.Prog.perform (R := Action.Resp) (.storeThrough name key value)) out

/-- Delete through to a `MapStore`, if one is registered. -/
def deleteThrough {α : Type} (n name key : Bytes) (out : α) : Prog (Except ServiceError α) :=
  callThrough n name (Interleave.Prog.perform (R := Action.Resp) (.deleteThrough name key)) out

/-- `Service.applyPut`: whether the key was created. -/
def applyPut (n name key value : Bytes) (ttlMs : Int64) (isBackup : Bool) :
    Prog (Except ServiceError Bool) :=
  if isBackup then (Replica.put name key value ttlMs).apply n
  else do
    let created ← storePut n name key value ttlMs
    replicate n (routedPartition name key) (.put name key value ttlMs)
    emit n (if created then .created else .updated) name key value
    writeThrough n name key value created

/-- `Service.applyRemove`: whether the key existed. -/
def applyRemove (n name key : Bytes) (isBackup : Bool) : Prog (Except ServiceError Bool) :=
  if isBackup then (Replica.remove name key).apply n
  else do
    let existed : Bool ← Prog.on n (.remove name key)
    replicate n (routedPartition name key) (.remove name key)
    emitRemoved n existed name key
    deleteThrough n name key existed

/-- `Service.applyEvict`: drop the cached copies, without an event and without deleting through. -/
def applyEvict (n name key : Bytes) : Prog (Except ServiceError Bool) := do
  let existed : Bool ← Prog.on n (.remove name key)
  replicate n (routedPartition name key) (.remove name key)
  return .ok existed

/-- The message that replicates one mutation of a transaction. -/
def Replica.ofMutation (m : Mutation) : Replica :=
  if m.del then .remove m.mapName m.key else .put m.mapName m.key m.value 0

/-- Replicate messages one after another. -/
def replicateAll (n : Bytes) (p : PartitionId) : List Replica → Prog Unit
  | [] => return ()
  | msg :: rest => do
      replicate n p msg
      replicateAll n p rest

/-- `Service.applyQueueExecute`. -/
def applyQueueExecute (n qname : Bytes) (op : QueueOp) (arg : Bytes) :
    Prog (Except ServiceError Bytes) := do
  let r : Except ServiceError Bytes × List Mutation ← Prog.on n (.queueExecute qname op arg)
  match r.1 with
  | .error e => return .error e
  | .ok out =>
    replicateAll n (forKey qname) (r.2.map Replica.ofMutation)
    return .ok out

/-- What follows the critical section of a processor on an ordinary map. -/
def finishExecute (n name key : Bytes) (r : Executed) : Prog (Except ServiceError Bytes) :=
  match r.action with
  | .keep => return .ok r.out
  | .set => do
      let now ← Prog.on n .nowNano
      replicate n (forKey key) (.put name key r.newVal (remainingTTLms r.expireAt now))
      emit n (if r.existedBefore then .updated else .created) name key r.newVal
      writeThrough n name key r.newVal r.out
  | .delete => do
      replicate n (forKey key) (.remove name key)
      emitRemoved n r.existedBefore name key
      deleteThrough n name key r.out

/-- The processors registered by name. -/
abbrev Registry := Bytes → Option Processor

/-- The queue operation a name stands for. -/
def queueOpOf (name : Bytes) : QueueOp :=
  ([.queueoffer, .queuepoll, .queuepeek, .queuesize].find? fun op => op.name = name).getD (.other name)

/-- `Service.applyExecute`: queue operations are intercepted, the segment namespace takes none. -/
def applyExecute (procs : Registry) (n name key procName arg : Bytes) :
    Prog (Except ServiceError Bytes) :=
  if name = queueMap then applyQueueExecute n key (queueOpOf procName) arg
  else if name = queueSegMap then return .error .reservedMap
  else match procs procName with
    | none => return .error (.unknownProcessor procName)
    | some proc => do
        let r : Executed ← Prog.on n (.execute name key proc arg)
        finishExecute n name key r

/-! ### Reads -/

/-- `Service.getThrough`: read with read-through on the partition owner. -/
def getThrough (n name key : Bytes) : Prog (Except ServiceError (Option Bytes)) := do
  match ← Prog.on n (.get (routedPartition name key) name key) with
  | some v => return .ok (some v)
  | none =>
    let src : MapSource ← Prog.on n (.source name)
    if src = MapSource.none then return .ok none
    else do
      let tbl : Table ← Prog.on n .table
      if tbl.ownerOf (routedPartition name key) ≠ n then return .ok none
      else do
        match ← Interleave.Prog.perform (R := Action.Resp) (.load name key) with
        | .error e => return .error e
        | .ok none => return .ok none
        | .ok (some v) =>
          let cached ← Prog.on n (.cacheLoaded (routedPartition name key) name key v)
          return .ok (some cached)

/-! ### Calls -/

/-- `Service.sendPut`. -/
def sendPut (addr name key value : Bytes) (ttlMs : Int64) (backup : Bool) :
    Prog (Except ServiceError Bool) := send addr (fun x => applyPut x name key value ttlMs backup)

/-- `Service.sendRemove`. -/
def sendRemove (addr name key : Bytes) (backup : Bool) : Prog (Except ServiceError Bool) :=
  send addr (fun x => applyRemove x name key backup)

/-- `Service.sendGet`. -/
def sendGet (addr name key : Bytes) : Prog (Except ServiceError (Option Bytes)) :=
  send addr (fun x => getThrough x name key)

/-- `Service.sendExecute`. -/
def sendExecute (procs : Registry) (addr name key procName arg : Bytes) :
    Prog (Except ServiceError Bytes) :=
  send addr (fun x => applyExecute procs x name key procName arg)

/-- `Service.sendDigest`: whether the backup's digest matches. -/
def sendDigest (addr : Bytes) (p : PartitionId) (digest : UInt64) :
    Prog (Except ServiceError Bool) :=
  send addr (fun x => do
    let d : UInt64 ← Prog.on x (.digest p)
    return .ok (d == digest))

/-- The RECONCILE handler: a node that believes it owns the partition ignores the request. -/
def reconcile (x : Bytes) (p : PartitionId) (keep : List Ref) : Prog (Except ServiceError ℕ) := do
  let tbl : Table ← Prog.on x .table
  if tbl.ownerOf p = x then return .ok 0
  else do
    let pruned ← Prog.on x (.prune p keep)
    return .ok pruned

/-- `Service.sendReconcile`. -/
def sendReconcile (addr : Bytes) (p : PartitionId) (keys : List Ref) :
    Prog (Except ServiceError ℕ) := send addr (fun x => reconcile x p keys)

/-! ### Migration -/

/-- An entry with an expiry less than a millisecond away is left to lapse. -/
def lapses (expireAt : Int64) (now : ℕ) : Bool :=
  decide (expireAt ≠ 0) && decide (remainingTTLms expireAt now ≤ 0)

theorem not_lapses_of_lasting {v : Value} {now : ℕ} (h : v.Lasting now) :
    lapses v.expireAt now = false := by
  rcases h with h | h
  · simp [lapses, h]
  · by_cases h0 : v.expireAt = 0
    · simp [lapses, h0]
    · have hpos := remainingTTLms_pos h0 h
      simp [lapses, Int64.not_le.mpr hpos]

theorem lasting_of_not_lapses {v : Value} {now : ℕ} (hl : v.expired now = false)
    (h : lapses v.expireAt now = false) : v.Lasting now := by
  by_cases h0 : v.expireAt = 0
  · exact Or.inl h0
  · have hlate : (now : ℤ) ≤ v.expireAt.toInt := by simpa [Value.expired, h0] using hl
    have hpos : ¬ remainingTTLms v.expireAt now ≤ 0 := by simpa [lapses, h0] using h
    have hzero : (0 : Int64).toInt = 0 := by decide
    rw [Int64.le_iff_toInt_le, toInt_remainingTTLms h0 hlate, hzero] at hpos
    exact Or.inr (by omega)

/-- The pushes of a partition's entries to one holder; whether all succeeded. -/
def pushEntries (addr : Bytes) (now : ℕ) : List Entry → Bool → Prog Bool
  | [], pushedOK => return pushedOK
  | e :: rest, pushedOK =>
    if lapses e.expireAt now then pushEntries addr now rest pushedOK
    else do
      match ← sendPut addr e.mapName e.key e.value (remainingTTLms e.expireAt now) true with
      | .ok _ => pushEntries addr now rest pushedOK
      | .error _ => pushEntries addr now rest false

/-- The pushes to every holder. -/
def pushTargets (n : Bytes) (entries : List Entry) : List Bytes → Bool → Prog Bool
  | [], pushedOK => return pushedOK
  | id :: rest, pushedOK => do
      match ← Prog.on n (.addrOf id) with
      | none => pushTargets n entries rest false
      | some addr =>
        let now ← Prog.on n .nowNano
        let pushedOK ← pushEntries addr now entries pushedOK
        pushTargets n entries rest pushedOK

/-- Whether `n` is a holder of partition `p`. -/
def selfHolds (n : Bytes) (tbl : Table) (p : PartitionId) : Bool :=
  decide (tbl.ownerOf p = n) || decide (n ∈ tbl.backupsOf p)

/-- The holders of partition `p` that `n` pushes to. -/
def targets (n : Bytes) (tbl : Table) (p : PartitionId) : List Bytes :=
  (if tbl.ownerOf p ≠ [] ∧ tbl.ownerOf p ≠ n then [tbl.ownerOf p] else []) ++
    (tbl.backupsOf p).filter (fun b => b ≠ n)

/-- Push the entries of partition `p` to its holders, and drop them if `n` is not one. -/
def handOver (n : Bytes) (tbl : Table) (p : PartitionId) (entries : List Entry) : Prog Unit :=
  if entries = [] then return ()
  else do
    let pushedOK ← pushTargets n entries (targets n tbl p) true
    if !selfHolds n tbl p && pushedOK then
      let _ ← Prog.on n (.drop p entries)
      return ()
    else return ()

/-- One round of `Migrate`. -/
def migratePartition (n : Bytes) (tbl : Table) (p : PartitionId) : Prog Unit := do
  let snap : List Entry ← Prog.on n (.snapshot p)
  handOver n tbl p (orderQueueMetaLast snap)

/-- The loop of `Migrate`. -/
def migrateLoop (n : Bytes) (tbl : Table) : List PartitionId → Prog Bool
  | [] => return true
  | p :: rest => do
      if ← Interleave.Prog.perform (R := Action.Resp) .ctxErr then return false
      else do
        migratePartition n tbl p
        migrateLoop n tbl rest

/-- `Service.Migrate`: whether the pass was complete. -/
def migrate (n : Bytes) (tbl : Table) : Prog Bool := migrateLoop n tbl (List.finRange Count)

/-! ### Anti-entropy -/

/-- Probe the backups with the owner's digest: the addresses of those that differ or fail. -/
def probe (n : Bytes) (p : PartitionId) (digest : UInt64) : List Bytes → Prog (List Bytes)
  | [] => return []
  | b :: rest =>
    if b = n then probe n p digest rest
    else do
      match ← Prog.on n (.addrOf b) with
      | none => probe n p digest rest
      | some addr =>
        let r ← sendDigest addr p digest
        let stale ← probe n p digest rest
        return if r = .ok true then stale else addr :: stale

/-- Push one entry to every stale backup; whether one of them took it. -/
def pushStale (name key value : Bytes) (ttlMs : Int64) : List Bytes → Bool → Prog Bool
  | [], sent => return sent
  | addr :: rest, sent => do
      match ← sendPut addr name key value ttlMs true with
      | .ok _ => pushStale name key value ttlMs rest true
      | .error _ => pushStale name key value ttlMs rest sent

/-- Re-read and push the entries of the snapshot; the key set and the number pushed. -/
def syncEntries (n : Bytes) (p : PartitionId) (now : ℕ) (stale : List Bytes) :
    List Entry → List Ref → ℕ → Prog (List Ref × ℕ)
  | [], keyset, pushed => return (keyset, pushed)
  | e :: rest, keyset, pushed => do
      match ← Prog.on n (.lookup p e.mapName e.key) with
      | none => syncEntries n p now stale rest keyset pushed
      | some v =>
        if lapses v.expireAt now then syncEntries n p now stale rest keyset pushed
        else do
          let sent ← pushStale e.mapName e.key v.data (remainingTTLms v.expireAt now) stale false
          syncEntries n p now stale rest (keyset ++ [e.ref]) (if sent then pushed + 1 else pushed)

/-- Send the key set to every stale backup. -/
def reconcileAll (p : PartitionId) (keyset : List Ref) : List Bytes → Prog Unit
  | [] => return ()
  | addr :: rest => do
      let _ ← sendReconcile addr p keyset
      reconcileAll p keyset rest

/-- One round of `SyncBackups`: the number of entries pushed. -/
def syncPartition (n : Bytes) (tbl : Table) (now : ℕ) (p : PartitionId) : Prog ℕ :=
  if tbl.ownerOf p ≠ n then return 0
  else do
    let digest ← Prog.on n (.digest p)
    let stale ← probe n p digest (tbl.backupsOf p)
    if stale = [] then return 0
    else do
      let snap : List Entry ← Prog.on n (.snapshot p)
      let r ← syncEntries n p now stale (orderQueueMetaLast snap) [] 0
      reconcileAll p r.1 stale
      return r.2

/-- The loop of `SyncBackups`: the entries pushed, and where to resume. -/
def syncLoop (n : Bytes) (tbl : Table) (now : ℕ) : ℕ → PartitionId → ℕ → Prog (ℕ × PartitionId)
  | 0, p, pushed => return (pushed, p)
  | k + 1, p, pushed => do
      let d ← syncPartition n tbl now p
      syncLoop n tbl now k (p + 1) (pushed + d)

/-- `Service.SyncBackups`. -/
def syncBackups (n : Bytes) (tbl : Table) (start : ℤ) (batch : ℕ) : Prog (ℕ × PartitionId) := do
  let now ← Prog.on n .nowNano
  syncLoop n tbl now batch (Fin.ofNat Count (start.emod Count).toNat) 0

/-! ### Over the owned partitions -/

/-- The partitions that `n` owns in a table, in the order of the shards. -/
def owned (n : Bytes) (tbl : Table) : List PartitionId :=
  (List.finRange Count).filter (fun p => tbl.ownerOf p = n)

/-- The loop of `countMap` and `countOwned`. -/
def countLoop (n : Bytes) (now : ℕ) (select : Bytes → Bool) : List PartitionId → ℕ → Prog ℕ
  | [], count => return count
  | p :: rest, count => do
      let live : List Entry ← Prog.on n (.liveEntries p now select)
      countLoop n now select rest (count + live.length)

/-- `store.countMap`, over the owned partitions. -/
def countMap (n name : Bytes) (tbl : Table) : Prog ℕ := do
  let now ← Prog.on n .nowNano
  countLoop n now (fun m => m == name) (owned n tbl) 0

/-- `store.countOwned`: queues are not evictable. -/
def countOwned (n : Bytes) (tbl : Table) : Prog ℕ := do
  let now ← Prog.on n .nowNano
  countLoop n now (fun m => !isReservedMap m) (owned n tbl) 0

/-- The loop of `collectOwnedValues`. -/
def collectLoop (n : Bytes) (now : ℕ) (name : Bytes) :
    List PartitionId → List Bytes → Prog (List Bytes)
  | [], out => return out
  | p :: rest, out => do
      let live : List Entry ← Prog.on n (.liveEntries p now (fun m => m == name))
      collectLoop n now name rest (out ++ live.map Entry.value)

/-- `store.collectOwnedValues`. -/
def collectOwnedValues (n name : Bytes) (tbl : Table) : Prog (List Bytes) := do
  let now ← Prog.on n .nowNano
  collectLoop n now name (owned n tbl) []

/-- The loop of `sampleOwned`: it stops as soon as `limit` entries are collected. -/
def sampleLoop (n : Bytes) (now limit : ℕ) : List PartitionId → List Ref → Prog (List Ref)
  | [], out => return out
  | p :: rest, out => do
      let live : List Entry ← Prog.on n (.liveEntries p now (fun m => !isReservedMap m))
      let out := out ++ (live.take (limit - out.length)).map Entry.ref
      if limit ≤ out.length then return out else sampleLoop n now limit rest out

/-- `store.sampleOwned`. -/
def sampleOwned (n : Bytes) (tbl : Table) (limit : ℤ) : Prog (List Ref) :=
  if limit ≤ 0 then return []
  else do
    let now ← Prog.on n .nowNano
    sampleLoop n now limit.toNat (owned n tbl) []

/-- Evict the victims one after another. -/
def evictAll (n : Bytes) : List Ref → Prog Unit
  | [] => return ()
  | r :: rest => do
      let _ ← applyEvict n r.1 r.2
      evictAll n rest

/-- `Service.Evict`: the number of entries evicted towards a cap on the owned ones. -/
def evict (n : Bytes) (max batch : ℤ) : Prog ℕ :=
  if max ≤ 0 then return 0
  else do
    let tbl : Table ← Prog.on n .table
    let count ← countOwned n tbl
    if (count : ℤ) ≤ max then return 0
    else do
      let victims ← sampleOwned n tbl (if batch < count - max then batch else count - max)
      evictAll n victims
      return victims.length

/-- `Service.localMapSize`. -/
def localMapSize (n name : Bytes) : Prog ℕ := do
  let tbl : Table ← Prog.on n .table
  countMap n name tbl

/-- The aggregators registered by name. -/
abbrev AggRegistry := Bytes → Option Aggregator

/-- `Service.localAggregate`: the partial result of the entries this node owns. -/
def localAggregate (aggs : AggRegistry) (n name aggName : Bytes) : Prog (Except ServiceError Bytes) :=
  match aggs aggName with
  | none => return .error (.unknownAggregator aggName)
  | some agg => do
      let tbl : Table ← Prog.on n .table
      let values ← collectOwnedValues n name tbl
      return .ok (agg.reduce values)

/-- `Service.localClearMap`: the number of entries removed. -/
def localClearMap (n name : Bytes) : Prog ℕ := Prog.on n (.clearMap name)

/-- `Service.sendEvict`. -/
def sendEvict (addr name key : Bytes) : Prog (Except ServiceError Bool) :=
  send addr (fun x => applyEvict x name key)

/-- `Service.sendSize`. -/
def sendSize (addr name : Bytes) : Prog (Except ServiceError UInt64) :=
  send addr (fun x => do
    let count ← localMapSize x name
    return .ok (UInt64.ofNat count))

/-- `Service.sendClear`. -/
def sendClear (addr name : Bytes) : Prog (Except ServiceError UInt64) :=
  send addr (fun x => do
    let removed ← localClearMap x name
    return .ok (UInt64.ofNat removed))

/-- `Service.sendAggregate`. -/
def sendAggregate (aggs : AggRegistry) (addr name aggName : Bytes) : Prog (Except ServiceError Bytes) :=
  send addr (fun x => localAggregate aggs x name aggName)

/-! ### Client operations -/

/-- An operation asked of the service of node `n`. -/
inductive Write where
  | idle
  | put (n name key value : Bytes) (ttlMs : Int64) (isBackup : Bool)
  | remove (n name key : Bytes) (isBackup : Bool)
  | evict (n name key : Bytes)
  | execute (n name key procName arg : Bytes)
deriving DecidableEq, Repr

/-- The program of an operation, its result dropped. -/
def Write.prog (procs : Registry) : Write → Prog Unit
  | .idle => return ()
  | .put n name key value ttlMs isBackup => do
      let _ ← applyPut n name key value ttlMs isBackup
      return ()
  | .remove n name key isBackup => do
      let _ ← applyRemove n name key isBackup
      return ()
  | .evict n name key => do
      let _ ← applyEvict n name key
      return ()
  | .execute n name key procName arg => do
      let _ ← applyExecute procs n name key procName arg
      return ()

end Service

end Medusa
