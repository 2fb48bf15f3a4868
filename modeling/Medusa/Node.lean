import Medusa.Service

/-! # Nodes

The programs of `cluster/membership.go` that send messages (`gossip`, `join`, `detectFailures`,
`announceLeave`) and the node of `medusa.go` (`leave`, the maintenance loop).

The maintenance loop of a node calls, tick after tick, the same few programs.  Here each call is a
`Job` of its own, so that a pool of jobs contains the ticks of all nodes in every order; it also
contains runs in which the calls of one node overlap, which the loop does not have. -/

namespace Medusa

open Medusa.Partition Interleave Service

namespace Membership

/-- `Membership.Ping`. -/
def ping (addr : Bytes) : Prog (Except ServiceError Unit) := send addr (fun _ => return .ok ())

/-- The loop of `Gossip`. -/
def gossipTo (n : Bytes) (payload : List Member) : List Member → Prog Unit
  | [] => return ()
  | peer :: rest =>
    if peer.id = n then gossipTo n payload rest
    else do
      let _ ← send peer.addr (fun x => do
        let _ ← Prog.on x (.merge payload)
        return .ok ())
      gossipTo n payload rest

/-- `Membership.Gossip`: push the view to every other member. -/
def gossip (n : Bytes) : Prog Unit := do
  let payload : List Member ← Prog.on n .snapshotProto
  let peers : List Member ← Prog.on n .members
  gossipTo n payload peers

/-- `sendJoin` and the JOIN handler: the seed readmits the node and answers with its view. -/
def sendJoin (me : Member) (seed : Bytes) : Prog (Except ServiceError (List Member)) :=
  send seed (fun x => do
    let _ ← Prog.on x (.rejoin me)
    let ms : List Member ← Prog.on x .snapshotProto
    return .ok ms)

/-- The loop of `Join`: whether a seed was reached. -/
def joinSeeds (me : Member) : List Bytes → Bool → Prog Bool
  | [], reached => return reached
  | seed :: rest, reached =>
    if seed = me.addr then joinSeeds me rest reached
    else do
      match ← sendJoin me seed with
      | .error _ => joinSeeds me rest reached
      | .ok ms =>
        let _ ← Prog.on me.id (.merge ms)
        joinSeeds me rest true

/-- `Membership.Join`. -/
def join (me : Member) (seeds : List Bytes) : Prog Unit := do
  let reached ← joinSeeds me seeds false
  if reached then gossip me.id else return ()

/-- The loop of `DetectFailures`. -/
def detectPeers (n : Bytes) (threshold : UInt8) : List Member → Prog Unit
  | [] => return ()
  | peer :: rest =>
    if peer.id = n then detectPeers n threshold rest
    else do
      let r ← ping peer.addr
      let _ ← Prog.on n (.detect peer.id (match r with | .ok _ => false | .error _ => true)
        threshold)
      detectPeers n threshold rest

/-- `Membership.DetectFailures`. -/
def detectFailures (n : Bytes) (threshold : UInt8) : Prog Unit := do
  let peers : List Member ← Prog.on n .members
  detectPeers n (if threshold = 0 then 1 else threshold) peers

/-- The loop of `AnnounceLeave`. -/
def announceTo (n : Bytes) : List Member → Prog Unit
  | [] => return ()
  | peer :: rest =>
    if peer.id = n then announceTo n rest
    else do
      let _ ← send peer.addr (fun x => do
        let _ ← Prog.on x (.removeMember n)
        return .ok ())
      announceTo n rest

/-- `Membership.AnnounceLeave`. -/
def announceLeave (n : Bytes) : Prog Unit := do
  let peers : List Member ← Prog.on n .members
  announceTo n peers

end Membership

namespace Node

/-- `Node.Leave`: hand over against the table without this node, announce, close. -/
def leave (n : Bytes) : Prog Unit := do
  let tbl : Table ← Prog.on n (.tableWithout n)
  let _ ← migrate n tbl
  Membership.announceLeave n
  Interleave.Prog.perform (R := Action.Resp) (.close n)

/-- A crash, and the process started again under the same id and address: it joins the seeds. -/
def restart (me : Member) (seeds : List Bytes) : Prog Unit := do
  let _ ← Interleave.Prog.perform (R := Action.Resp) (.crash me.id)
  let _ ← Interleave.Prog.perform (R := Action.Resp) (.start me.id)
  Membership.join me seeds

/-- The call of `SyncBackups` in the maintenance loop. -/
def antiEntropy (n : Bytes) (start : ℤ) (batch : ℕ) : Prog Unit := do
  let tbl : Table ← Prog.on n .table
  let _ ← syncBackups n tbl start batch
  return ()

/-- The call of `Migrate` in the maintenance loop, with the current table. -/
def rebalance (n : Bytes) : Prog Bool := do
  let tbl : Table ← Prog.on n .table
  migrate n tbl

/-- The calls of the maintenance loop. -/
inductive Job where
  | idle
  | gossip (n : Bytes)
  | join (n : Bytes) (seeds : List Bytes)
  | detectFailures (n : Bytes) (threshold : UInt8)
  | pruneTombstones (n : Bytes) (ttl : ℤ)
  | antiEntropy (n : Bytes) (start : ℤ) (batch : ℕ)
  | rebalance (n : Bytes)
  | sweep (n : Bytes)
deriving DecidableEq, Repr

/-- The program of a call, on nodes with the given addresses. -/
def Job.prog (addr : Bytes → Bytes) : Job → Prog Unit
  | .idle => return ()
  | .gossip n => Membership.gossip n
  | .join n seeds => Membership.join ⟨n, addr n⟩ seeds
  | .detectFailures n threshold => Membership.detectFailures n threshold
  | .pruneTombstones n ttl => do let _ ← Prog.on n (.pruneTombstones ttl); return ()
  | .antiEntropy n start batch => Node.antiEntropy n start batch
  | .rebalance n => do let _ ← Node.rebalance n; return ()
  | .sweep n => do let _ ← Prog.on n .sweep; return ()

/-- The node a call runs on. -/
def Job.node : Job → Option Bytes
  | .idle => none
  | .gossip n => some n
  | .join n _ => some n
  | .detectFailures n _ => some n
  | .pruneTombstones n _ => some n
  | .antiEntropy n _ _ => some n
  | .rebalance n => some n
  | .sweep n => some n

/-- Whether the call is one of `SyncBackups`. -/
def Job.syncs : Job → Bool
  | .antiEntropy _ _ _ => true
  | _ => false

end Node

end Medusa
