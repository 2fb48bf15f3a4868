import Medusa.Service

/-! # Map and queue handles

`imap/map.go`: the operations of a `Map` on node `n`.  An operation is routed to the owner of the
key's partition (`route`).  When the owner cannot be asked, or has nothing under the key of a `Get`,
the backups are tried in replica order (`tryBackups`), with the copy of `n` itself read or written
in place.

`put`, `remove` and `execute` differ only in what they ask of the owner and of a backup; what they
share is `viaOwner`.  All three take any error of the owner for an unreachable owner.  `size`, `clear`
and `aggregate` ask every member in turn and keep the first error.

A `Queue` (`imap/queue.go`) is a handle whose operations are processors on the map of queue metadata. -/

namespace Medusa

open Medusa.Partition Store Interleave Service

namespace Map

/-- What `route` resolves: the partition of a key, and its owner's address unless `ownerLocal`. -/
structure Route where
  p : PartitionId
  owner : Bytes
  ownerLocal : Bool

/-- `Map.route`; the address of an unknown owner is empty. -/
def route (n key : Bytes) : Prog Route := do
  let tbl : Table ← Prog.on n .table
  if tbl.ownerOf (forKey key) = n then return ⟨forKey key, [], true⟩
  else do
    let addr : Option Bytes ← Prog.on n (.addrOf (tbl.ownerOf (forKey key)))
    return ⟨forKey key, addr.getD [], false⟩

/-- The loop of `tryBackups`.  `fn` serves one backup, by its address or on this node, in view of
what the earlier ones left; it says whether to stop. -/
def tryEach {σ : Type} (n : Bytes) (fn : Option Bytes → σ → Prog (Bool × σ)) :
    List Bytes → σ → Prog σ
  | [], s => return s
  | id :: rest, s =>
    if id = n then do
      let r ← fn none s
      if r.1 then return r.2 else tryEach n fn rest r.2
    else do
      match ← Prog.on n (.addrOf id) with
      | none => tryEach n fn rest s
      | some addr =>
        let r ← fn (some addr) s
        if r.1 then return r.2 else tryEach n fn rest r.2

/-- `Map.tryBackups`. -/
def tryBackups {σ : Type} (n : Bytes) (p : PartitionId) (fn : Option Bytes → σ → Prog (Bool × σ))
    (s : σ) : Prog σ := do
  let tbl : Table ← Prog.on n .table
  tryEach n fn (tbl.backupsOf p) s

section writes
variable {α : Type}

/-- The callback of the writes: stop at the first backup that takes the operation, and remember
the last failure. -/
def firstTaken (serve : Option Bytes → Prog (Except ServiceError α)) (backup : Option Bytes)
    (_ : Except ServiceError α) : Prog (Bool × Except ServiceError α) := do
  match ← serve backup with
  | .ok out => return (true, .ok out)
  | .error e => return (false, .error e)

/-- The path of a write: here as the owner, by a message to the owner, or on a backup. -/
def viaOwner (n key : Bytes) (asOwner : Prog (Except ServiceError α))
    (sendOwner : Bytes → Prog (Except ServiceError α))
    (serve : Option Bytes → Prog (Except ServiceError α)) : Prog (Except ServiceError α) := do
  let r ← route n key
  if r.ownerLocal then asOwner
  else do
    match ← sendOwner r.owner with
    | .ok out => return .ok out
    | .error e => tryBackups n r.p (firstTaken serve) (.error e)

end writes

/-- A put asked of a backup. -/
def putBackup (n name key value : Bytes) (ttlMs : Int64) :
    Option Bytes → Prog (Except ServiceError Bool)
  | none => Service.applyPut n name key value ttlMs true
  | some addr => sendPut addr name key value ttlMs true

/-- `Map.putWithTTL`; `Put` has no expiry (`ttlMs = 0`). -/
def putWithTTL (n name key value : Bytes) (ttlMs : Int64) : Prog (Except ServiceError Unit) :=
  if isReservedMap name then return .error .reservedMap
  else do
    let r ← viaOwner n key (Service.applyPut n name key value ttlMs false)
      (fun owner => sendPut owner name key value ttlMs false) (putBackup n name key value ttlMs)
    return r.map (fun _ => ())

/-- `Map.PutTTL`: the duration, in nanoseconds, is cut to milliseconds (`ttl.Milliseconds()`). -/
def putTTL (n name key value : Bytes) (ttl : Int64) : Prog (Except ServiceError Unit) :=
  putWithTTL n name key value (ttl / 1000000)

/-- A removal asked of a backup. -/
def removeBackup (n name key : Bytes) : Option Bytes → Prog (Except ServiceError Bool)
  | none => Service.applyRemove n name key true
  | some addr => sendRemove addr name key true

/-- `Map.Remove`: whether the key existed. -/
def remove (n name key : Bytes) : Prog (Except ServiceError Bool) :=
  if isReservedMap name then return .error .reservedMap
  else viaOwner n key (Service.applyRemove n name key false)
    (fun owner => sendRemove owner name key false) (removeBackup n name key)

/-- A processor asked of a backup, which runs it as the owner would. -/
def executeBackup (procs : Registry) (n name key procName arg : Bytes) :
    Option Bytes → Prog (Except ServiceError Bytes)
  | none => Service.applyExecute procs n name key procName arg
  | some addr => sendExecute procs addr name key procName arg

/-- `Map.Execute`. -/
def execute (procs : Registry) (n name key procName arg : Bytes) :
    Prog (Except ServiceError Bytes) :=
  viaOwner n key (Service.applyExecute procs n name key procName arg)
    (fun owner => sendExecute procs owner name key procName arg)
    (executeBackup procs n name key procName arg)

/-- The callback of `Get`: a copy ends the search, and a backup that answers without one clears
the error of an earlier backup. -/
def getBackup (n : Bytes) (p : PartitionId) (name key : Bytes) :
    Option Bytes → Except ServiceError (Option Bytes) →
      Prog (Bool × Except ServiceError (Option Bytes))
  | none, _ => do
      let v : Option Bytes ← Prog.on n (.get p name key)
      return (v.isSome, .ok v)
  | some addr, _ => do
      match ← sendGet addr name key with
      | .error e => return (false, .error e)
      | .ok v => return (v.isSome, .ok v)

/-- `Map.Get`: the owner first, then the backups.  An error of a remote owner is dropped. -/
def get (n name key : Bytes) : Prog (Except ServiceError (Option Bytes)) := do
  let r ← route n key
  if r.ownerLocal then do
    match ← getThrough n name key with
    | .error e => return .error e
    | .ok (some v) => return .ok (some v)
    | .ok none => tryBackups n r.p (getBackup n r.p name key) (.ok none)
  else do
    match ← sendGet r.owner name key with
    | .ok (some v) => return .ok (some v)
    | _ => tryBackups n r.p (getBackup n r.p name key) (.ok none)

/-- `Map.Evict`: it does not fall back to a backup. -/
def evict (n name key : Bytes) : Prog (Except ServiceError Bool) :=
  if isReservedMap name then return .error .reservedMap
  else do
    let r ← route n key
    if r.ownerLocal then applyEvict n name key else sendEvict r.owner name key

/-! ### Processors behind a method -/

/-- Whether a processor answered `[1]`. -/
def succeeded (out : Bytes) : Bool := decide (out = [1])

/-- `Map.PutIfAbsent`. -/
def putIfAbsent (procs : Registry) (n name key value : Bytes) : Prog (Except ServiceError Bool) := do
  let out ← execute procs n name key Builtin.putifabsent.name value
  return out.map succeeded

/-- `Map.CompareAndSwap`. -/
def compareAndSwap (procs : Registry) (n name key expected newVal : Bytes) :
    Prog (Except ServiceError Bool) := do
  let out ← execute procs n name key Builtin.cas.name (encodeCAS expected newVal)
  return out.map succeeded

/-- `Map.Lock`: the fence token, unless another holder has the lock. -/
def lock (procs : Registry) (n name key holder : Bytes) :
    Prog (Except ServiceError (Option UInt64)) :=
  if holder.length = 0 then return .error .emptyHolder
  else do
    let out ← execute procs n name key Builtin.lockacquire.name holder
    return out.map (fun out =>
      if out.length ≠ 8 then none else some (UInt64.ofNat (BigEndian.beNat out)))

/-- `Map.Unlock`. -/
def unlock (procs : Registry) (n name key holder : Bytes) : Prog (Except ServiceError Bool) :=
  if holder.length = 0 then return .error .emptyHolder
  else do
    let out ← execute procs n name key Builtin.lockrelease.name holder
    return out.map succeeded

/-! ### Scatter and gather -/

/-- The loop of `Size`: the sum so far, and the first error. -/
def sizeLoop (n name : Bytes) :
    List Member → UInt64 → Option ServiceError → Prog (UInt64 × Option ServiceError)
  | [], total, firstErr => return (total, firstErr)
  | m :: rest, total, firstErr =>
    if m.id = n then do
      let count ← localMapSize n name
      sizeLoop n name rest (total + UInt64.ofNat count) firstErr
    else do
      match ← sendSize m.addr name with
      | .ok c => sizeLoop n name rest (total + c) firstErr
      | .error e => sizeLoop n name rest total (firstErr.or (some e))

/-- `Map.Size`: the count over the members that answered, and the first error. -/
def size (n name : Bytes) : Prog (UInt64 × Option ServiceError) := do
  let ms : List Member ← Prog.on n .members
  sizeLoop n name ms 0 none

/-- The loop of `Clear`. -/
def clearLoop (n name : Bytes) : List Member → Option ServiceError → Prog (Option ServiceError)
  | [], firstErr => return firstErr
  | m :: rest, firstErr =>
    if m.id = n then do
      let _ ← Service.localClearMap n name
      clearLoop n name rest firstErr
    else do
      match ← sendClear m.addr name with
      | .ok _ => clearLoop n name rest firstErr
      | .error e => clearLoop n name rest (firstErr.or (some e))

/-- `Map.Clear`: the first error. -/
def clear (n name : Bytes) : Prog (Option ServiceError) :=
  if isReservedMap name then return some .reservedMap
  else do
    let ms : List Member ← Prog.on n .members
    clearLoop n name ms none

/-- The loop of `Aggregate`: the partial results so far, and the first error.  An unknown aggregator
fails at once, also when only a peer lacks it. -/
def aggregateLoop (aggs : AggRegistry) (n name aggName : Bytes) :
    List Member → List Bytes → Option ServiceError →
      Prog (Except ServiceError (List Bytes × Option ServiceError))
  | [], partials, firstErr => return .ok (partials, firstErr)
  | m :: rest, partials, firstErr =>
    if m.id = n then do
      match ← localAggregate aggs n name aggName with
      | .error e => return .error e
      | .ok p => aggregateLoop aggs n name aggName rest (partials ++ [p]) firstErr
    else do
      match ← sendAggregate aggs m.addr name aggName with
      | .error (.unknownAggregator a) => return .error (.unknownAggregator a)
      | .error e => aggregateLoop aggs n name aggName rest partials (firstErr.or (some e))
      | .ok p => aggregateLoop aggs n name aggName rest (partials ++ [p]) firstErr

/-- `Map.Aggregate`: the combined result of the members that answered, and the first error. -/
def aggregate (aggs : AggRegistry) (n name aggName : Bytes) :
    Prog (Except ServiceError (Bytes × Option ServiceError)) :=
  match aggs aggName with
  | none => return .error (.unknownAggregator aggName)
  | some agg => do
      let ms : List Member ← Prog.on n .members
      let r ← aggregateLoop aggs n name aggName ms [] none
      return r.map (fun r => (agg.combine r.1, r.2))

end Map

namespace Queue

/-- `Queue.Offer`: the number of items in the queue. -/
def offer (procs : Registry) (n name value : Bytes) : Prog (Except ServiceError Int64) := do
  let out ← Map.execute procs n queueMap name QueueOp.queueoffer.name value
  return out.map decodeI64

/-- `Queue.Poll`: the head item, removed. -/
def poll (procs : Registry) (n name : Bytes) : Prog (Except ServiceError (Option Bytes)) := do
  let out ← Map.execute procs n queueMap name QueueOp.queuepoll.name []
  return out.map decodeQueueItem

/-- `Queue.Peek`: the head item. -/
def peek (procs : Registry) (n name : Bytes) : Prog (Except ServiceError (Option Bytes)) := do
  let out ← Map.execute procs n queueMap name QueueOp.queuepeek.name []
  return out.map decodeQueueItem

/-- `Queue.Size`. -/
def size (procs : Registry) (n name : Bytes) : Prog (Except ServiceError Int64) := do
  let out ← Map.execute procs n queueMap name QueueOp.queuesize.name []
  return out.map decodeI64

end Queue

end Medusa
