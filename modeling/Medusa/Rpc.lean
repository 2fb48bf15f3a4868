import Medusa.Node
import Medusa.Outcome
import Mathlib.Data.List.Infix

/-! # Remote calls over bytes

The dispatcher of a node, its two handlers and the calls of their clients, with the messages they marshal and
unmarshal.

* `dispatch`, `Service.handle`, `Membership.handle`: from a message type and the bytes of a request to a
  response or an error.
* `call`: `Send` and the handler of the peer.  A frame beyond the limit, either way, fails the call.
* `sendPut` to `sendAggregate`, `sendJoin`, `sendMemberList`, `ping`, `sendLeave`: the calls.

A request (`Request`) is what a call asks for, and `Request.apply` what the handler then does; `typedCall` is the
call without its bytes. -/

namespace Medusa

namespace Rpc

open Medusa.Partition Store Interleave Transport Proto

/-! ### Message types -/

/-- `medusav1.MessageType`. -/
inductive MessageType where
  | unspecified
  | error
  | joinRequest
  | joinResponse
  | heartbeat
  | memberList
  | putRequest
  | putResponse
  | getRequest
  | getResponse
  | removeRequest
  | removeResponse
  | leave
  | executeRequest
  | executeResponse
  | digestRequest
  | digestResponse
  | sizeRequest
  | sizeResponse
  | clearRequest
  | clearResponse
  | aggregateRequest
  | aggregateResponse
  | evictRequest
  | evictResponse
  | reconcileRequest
  | reconcileResponse
deriving DecidableEq, Repr

namespace MessageType

/-- The message types, by their numbers. -/
def all : List MessageType :=
  [.unspecified, .error, .joinRequest, .joinResponse, .heartbeat, .memberList, .putRequest,
    .putResponse, .getRequest, .getResponse, .removeRequest, .removeResponse, .leave, .executeRequest,
    .executeResponse, .digestRequest, .digestResponse, .sizeRequest, .sizeResponse, .clearRequest,
    .clearResponse, .aggregateRequest, .aggregateResponse, .evictRequest, .evictResponse,
    .reconcileRequest, .reconcileResponse]

/-- The number of a message type. -/
def code : MessageType → ℕ
  | unspecified => 0
  | error => 1
  | joinRequest => 2
  | joinResponse => 3
  | heartbeat => 4
  | memberList => 5
  | putRequest => 6
  | putResponse => 7
  | getRequest => 8
  | getResponse => 9
  | removeRequest => 10
  | removeResponse => 11
  | leave => 12
  | executeRequest => 13
  | executeResponse => 14
  | digestRequest => 15
  | digestResponse => 16
  | sizeRequest => 17
  | sizeResponse => 18
  | clearRequest => 19
  | clearResponse => 20
  | aggregateRequest => 21
  | aggregateResponse => 22
  | evictRequest => 23
  | evictResponse => 24
  | reconcileRequest => 25
  | reconcileResponse => 26

/-- The text of a message type. -/
def name : MessageType → String
  | unspecified => "MESSAGE_TYPE_UNSPECIFIED"
  | error => "MESSAGE_TYPE_ERROR"
  | joinRequest => "MESSAGE_TYPE_JOIN_REQUEST"
  | joinResponse => "MESSAGE_TYPE_JOIN_RESPONSE"
  | heartbeat => "MESSAGE_TYPE_HEARTBEAT"
  | memberList => "MESSAGE_TYPE_MEMBER_LIST"
  | putRequest => "MESSAGE_TYPE_PUT_REQUEST"
  | putResponse => "MESSAGE_TYPE_PUT_RESPONSE"
  | getRequest => "MESSAGE_TYPE_GET_REQUEST"
  | getResponse => "MESSAGE_TYPE_GET_RESPONSE"
  | removeRequest => "MESSAGE_TYPE_REMOVE_REQUEST"
  | removeResponse => "MESSAGE_TYPE_REMOVE_RESPONSE"
  | leave => "MESSAGE_TYPE_LEAVE"
  | executeRequest => "MESSAGE_TYPE_EXECUTE_REQUEST"
  | executeResponse => "MESSAGE_TYPE_EXECUTE_RESPONSE"
  | digestRequest => "MESSAGE_TYPE_DIGEST_REQUEST"
  | digestResponse => "MESSAGE_TYPE_DIGEST_RESPONSE"
  | sizeRequest => "MESSAGE_TYPE_SIZE_REQUEST"
  | sizeResponse => "MESSAGE_TYPE_SIZE_RESPONSE"
  | clearRequest => "MESSAGE_TYPE_CLEAR_REQUEST"
  | clearResponse => "MESSAGE_TYPE_CLEAR_RESPONSE"
  | aggregateRequest => "MESSAGE_TYPE_AGGREGATE_REQUEST"
  | aggregateResponse => "MESSAGE_TYPE_AGGREGATE_RESPONSE"
  | evictRequest => "MESSAGE_TYPE_EVICT_REQUEST"
  | evictResponse => "MESSAGE_TYPE_EVICT_RESPONSE"
  | reconcileRequest => "MESSAGE_TYPE_RECONCILE_REQUEST"
  | reconcileResponse => "MESSAGE_TYPE_RECONCILE_RESPONSE"

/-- The message type of a number. -/
def ofCode (n : ℕ) : Option MessageType := all[n]?

theorem code_of_ofCode {n : ℕ} {t : MessageType} (h : ofCode n = some t) : t.code = n := by
  have hn : n < 27 := (List.getElem?_eq_some_iff.mp h).1
  have hall : ∀ n < 27, (ofCode n).map code = some n := by decide
  have hcode := hall n hn
  rw [h] at hcode
  exact Option.some.inj hcode

end MessageType

/-- A message type as it is printed. -/
def typeText (type : ℕ) : String :=
  match MessageType.ofCode type with
  | some t => t.name
  | none => toString type

/-! ### Errors -/

/-- What the texts of errors take from elsewhere: `%q`, and the text of a map store's own error. -/
structure Texts where
  quote : Bytes → Bytes
  backing : Bytes

/-- The errors of a handler. -/
inductive HandleError where
  | proto (e : ProtoError)
  | service (e : ServiceError)
  | digestRange (p : UInt32)
  | reconcileRange (p : UInt32)
  | unhandled (component : String) (type : ℕ)
deriving DecidableEq, Repr

/-- The bytes of a text. -/
def ascii (s : String) : Bytes := s.toUTF8.toList

/-- `ErrUnknownAggregator`. -/
def errUnknownAggregator : Bytes := ascii "imap: unknown aggregator"

/-- The texts of the errors of the service. -/
def serviceText (T : Texts) : ServiceError → Bytes
  | .reservedMap => ascii "imap: map name is reserved for internal use"
  | .unknownProcessor name => ascii "imap: unknown processor " ++ T.quote name
  | .unknownQueueOp op => ascii "imap: unknown queue operation " ++ T.quote op
  | .unreachable => ascii "medusa/transport: no node listening at address"
  | .backingStore => T.backing
  | .unknownAggregator name => errUnknownAggregator ++ ascii " " ++ T.quote name
  | .emptyHolder => ascii "imap: lock holder must be non-empty"

/-- The texts of the errors of a handler. -/
def HandleError.text (T : Texts) : HandleError → Bytes
  | .proto e => ascii e.text
  | .service e => serviceText T e
  | .digestRange p => ascii ("imap: digest request partition " ++ toString p ++ " out of range")
  | .reconcileRange p => ascii ("imap: reconcile request partition " ++ toString p ++ " out of range")
  | .unhandled component type => ascii (component ++ ": unhandled message type " ++ typeText type)

/-! ### Handlers -/

/-- What a handler returns. -/
abbrev Handled := Except HandleError (MessageType × Bytes)

/-- A case of a handler: unmarshal the request, act, marshal the response. -/
def serve (Req Resp : Schema) (respType : MessageType) (act : Req.Msg → Prog (Except HandleError Resp.Msg))
    (req respBuf : Bytes) : Prog Handled :=
  match Req.unmarshalVT req Req.empty with
  | .error e => return .error (.proto e)
  | .ok m => do
      match ← act m with
      | .error e => return .error e
      | .ok resp =>
        match Resp.marshal respBuf resp with
        | .error e => return .error (.proto e)
        | .ok out => return .ok (respType, out)

/-- A case of a handler that answers with nothing but a type. -/
def receive (Req : Schema) (respType : MessageType) (act : Req.Msg → Prog Unit) (req : Bytes) : Prog Handled :=
  match Req.unmarshalVT req Req.empty with
  | .error e => return .error (.proto e)
  | .ok m => do
      act m
      return .ok (respType, [])

/-- The response to what the service returned. -/
def respond {α : Type} {Resp : Schema} (mk : α → Resp.Msg) : Except ServiceError α → Except HandleError Resp.Msg
  | .ok a => .ok (mk a)
  | .error e => .error (.service e)

/-- The check of a partition that comes off the wire. -/
def inRange {α : Type} (p : UInt32) (e : HandleError) (act : PartitionId → Prog (Except HandleError α)) :
    Prog (Except HandleError α) :=
  if h : p.toNat < Count then act ⟨p.toNat, h⟩ else return .error e

/-- A message with these fields. -/
def msg {S : Schema} (values : Values S.fields) : S.Msg := ⟨values, []⟩

/-- The reference of a `KeyRef`. -/
def refOf (k : keyRef.Msg) : Ref := (k.values.1, k.values.2.1)

/-- The `KeyRef` of a reference. -/
def keyRefOf (r : Ref) : keyRef.Msg := msg (S := keyRef) (r.1, r.2, ())

/-- `memberFromProto`. -/
def memberFromProto (m : member.Msg) : Member := ⟨m.values.1, m.values.2.1⟩

/-- `Member.toProto`. -/
def memberToProto (m : Member) : member.Msg := msg (S := member) (m.id, m.addr, ())

section handlers
variable (procs : Service.Registry) (aggs : Service.AggRegistry)

/-- `Service.Handle` of node `x`. -/
def serviceHandle (x : Bytes) (reqType : MessageType) (req respBuf : Bytes) : Prog Handled :=
  match reqType with
  | .putRequest => serve putRequest putResponse .putResponse (fun m => do
      let (name, key, value, backup, ttlMs, _) := m.values
      let out ← Service.applyPut x name key value ttlMs backup
      return respond (fun created => msg (S := putResponse) (created, ())) out) req respBuf
  | .getRequest => serve getRequest getResponse .getResponse (fun m => do
      let (name, key, _) := m.values
      let out ← Service.getThrough x name key
      return respond (fun v : Option Bytes => msg (S := getResponse) (v.isSome, v.getD [], ())) out) req respBuf
  | .removeRequest => serve removeRequest removeResponse .removeResponse (fun m => do
      let (name, key, backup, _) := m.values
      let out ← Service.applyRemove x name key backup
      return respond (fun existed => msg (S := removeResponse) (existed, ())) out) req respBuf
  | .executeRequest => serve executeRequest executeResponse .executeResponse (fun m => do
      let (name, key, processor, arg, _) := m.values
      let out ← Service.applyExecute procs x name key processor arg
      return respond (fun result => msg (S := executeResponse) (result, ())) out) req respBuf
  | .digestRequest => serve digestRequest digestResponse .digestResponse (fun m =>
    inRange m.values.1 (.digestRange m.values.1) fun p => do
      let d : UInt64 ← Prog.on x (.digest p)
      return .ok (msg (S := digestResponse) (d == m.values.2.1, ()))) req respBuf
  | .sizeRequest => serve sizeRequest sizeResponse .sizeResponse (fun m => do
      let count ← Service.localMapSize x m.values.1
      return .ok (msg (S := sizeResponse) (UInt64.ofNat count, ()))) req respBuf
  | .clearRequest => serve clearRequest clearResponse .clearResponse (fun m => do
      let removed ← Service.localClearMap x m.values.1
      return .ok (msg (S := clearResponse) (UInt64.ofNat removed, ()))) req respBuf
  | .aggregateRequest => serve aggregateRequest aggregateResponse .aggregateResponse (fun m => do
      let out ← Service.localAggregate aggs x m.values.1 m.values.2.1
      return respond (fun part => msg (S := aggregateResponse) (part, ())) out) req respBuf
  | .evictRequest => serve evictRequest evictResponse .evictResponse (fun m => do
      let out ← Service.applyEvict x m.values.1 m.values.2.1
      return respond (fun existed => msg (S := evictResponse) (existed, ())) out) req respBuf
  | .reconcileRequest => serve reconcileRequest reconcileResponse .reconcileResponse (fun m =>
    inRange m.values.1 (.reconcileRange m.values.1) fun p => do
      let out ← Service.reconcile x p (List.map refOf m.values.2.1)
      return respond (fun pruned => msg (S := reconcileResponse) (UInt64.ofNat pruned, ())) out) req respBuf
  | t => return .error (.unhandled "imap" t.code)

/-- `Membership.Handle` of node `x`. -/
def membershipHandle (x : Bytes) (reqType : MessageType) (req respBuf : Bytes) : Prog Handled :=
  match reqType with
  | .joinRequest => serve joinRequest joinResponse .joinResponse (fun m => do
      match m.values.1 with
      | some candidate =>
        let _ ← Prog.on x (.rejoin (memberFromProto candidate))
        let ms : List Member ← Prog.on x .snapshotProto
        return .ok (msg (S := joinResponse) (ms.map memberToProto, ()))
      | none =>
        let ms : List Member ← Prog.on x .snapshotProto
        return .ok (msg (S := joinResponse) (ms.map memberToProto, ()))) req respBuf
  | .memberList => receive memberList .memberList (fun m => do
      let _ ← Prog.on x (.merge (List.map memberFromProto m.values.1))
      return ()) req
  | .heartbeat => return .ok (.heartbeat, [])
  | .leave => receive leaveRequest .leave (fun m => do
      let _ ← Prog.on x (.removeMember m.values.1)
      return ()) req
  | t => return .error (.unhandled "cluster" t.code)

/-- `Node.dispatch` of node `x`. -/
def dispatch (x : Bytes) (type : ℕ) (req respBuf : Bytes) : Prog Handled :=
  match MessageType.ofCode type with
  | some t =>
    match t with
    | .joinRequest | .memberList | .heartbeat | .leave => membershipHandle x t req respBuf
    | .putRequest | .getRequest | .removeRequest | .executeRequest | .digestRequest | .sizeRequest
    | .clearRequest | .aggregateRequest | .evictRequest | .reconcileRequest =>
      serviceHandle procs aggs x t req respBuf
    | _ => return .error (.unhandled "medusa" type)
  | none => return .error (.unhandled "medusa" type)

end handlers

/-! ### Calls -/

/-- What the handler's return is for the transport. -/
def outcome (T : Texts) : Handled → Outcome
  | .ok r => .reply r.1.code r.2
  | .error e => .error (e.text T)

/-- What `Send` makes of the frame of an outcome; one beyond the limit is not read. -/
def readResponse (o : Outcome) : Result :=
  if o.payload.length ≤ maxFrameSize then received o.type o.payload else .failed

/-- The errors of a call. -/
inductive CallError where
  | proto (e : ProtoError)
  | transport
  | remote (e : ErrorMessage)
  | unexpectedType (component op : String) (type : ℕ)
  | unknownAggregator (peer : Bytes)
deriving DecidableEq, Repr

section calls
variable (T : Texts) (procs : Service.Registry) (aggs : Service.AggRegistry) (reqBuf respBuf : Bytes)

/-- `Send`, and the handler of the peer, which answers into `respBuf`. -/
def call (addr : Bytes) (type : ℕ) (req : Bytes) : Prog Result := do
  match ← Interleave.Prog.perform (R := Action.Resp) (.connect addr) with
  | none => return .failed
  | some x =>
    -- the peer closes the connection
    if maxFrameSize < req.length then return .failed
    else do
      let r ← dispatch procs aggs x type req respBuf
      let arrived ← Interleave.Prog.perform (R := Action.Resp) (.reply x)
      return if arrived then readResponse (outcome T r) else .failed

/-- Marshal the request into `reqBuf`, call, and read the response. -/
def exchange {α : Type} (addr : Bytes) (reqType : MessageType) {S : Schema} (m : S.Msg)
    (read : ℕ → Bytes → Except CallError α) : Prog (Except CallError α) :=
  match S.marshal reqBuf m with
  | .error e => return .error (.proto e)
  | .ok rb => do
      match ← call T procs aggs respBuf addr reqType.code rb with
      | .failed => return .error .transport
      | .remote e => return .error (.remote e)
      | .response type resp => return read type resp

/-- The check of the response type, and the fields of the response. -/
def expect {α : Type} (component op : String) (respType : MessageType) (S : Schema) (f : S.Msg → α) (type : ℕ)
    (resp : Bytes) : Except CallError α :=
  if type ≠ respType.code then .error (.unexpectedType component op type)
  else
    match S.unmarshalVT resp S.empty with
    | .error e => .error (.proto e)
    | .ok m => .ok (f m)

/-- `Service.sendPut`: the fields of the response are not looked at. -/
def sendPut (addr name key value : Bytes) (ttlMs : Int64) (backup : Bool) : Prog (Except CallError Unit) :=
  exchange T procs aggs reqBuf respBuf addr .putRequest (msg (S := putRequest) (name, key, value, backup, ttlMs, ()))
    fun type _ => if type ≠ MessageType.code .putResponse then .error (.unexpectedType "imap" "put" type) else .ok ()

/-- `Service.sendGet`. -/
def sendGet (addr name key : Bytes) : Prog (Except CallError (Option Bytes)) :=
  exchange T procs aggs reqBuf respBuf addr .getRequest (msg (S := getRequest) (name, key, ()))
    (expect "imap" "get" .getResponse getResponse fun m =>
      bif (m.values.1 : Bool) then some m.values.2.1 else none)

/-- `Service.sendRemove`. -/
def sendRemove (addr name key : Bytes) (backup : Bool) : Prog (Except CallError Bool) :=
  exchange T procs aggs reqBuf respBuf addr .removeRequest (msg (S := removeRequest) (name, key, backup, ()))
    (expect "imap" "remove" .removeResponse removeResponse fun m => m.values.1)

/-- `Service.sendEvict`. -/
def sendEvict (addr name key : Bytes) : Prog (Except CallError Bool) :=
  exchange T procs aggs reqBuf respBuf addr .evictRequest (msg (S := evictRequest) (name, key, ()))
    (expect "imap" "evict" .evictResponse evictResponse fun m => m.values.1)

/-- `Service.sendDigest`. -/
def sendDigest (addr : Bytes) (p : PartitionId) (digest : UInt64) : Prog (Except CallError Bool) :=
  exchange T procs aggs reqBuf respBuf addr .digestRequest
    (msg (S := digestRequest) (UInt32.ofNat p.val, digest, ()))
    (expect "imap" "digest" .digestResponse digestResponse fun m => m.values.1)

/-- `Service.sendReconcile`. -/
def sendReconcile (addr : Bytes) (p : PartitionId) (keys : List Ref) : Prog (Except CallError UInt64) :=
  exchange T procs aggs reqBuf respBuf addr .reconcileRequest
    (msg (S := reconcileRequest) (UInt32.ofNat p.val, keys.map keyRefOf, ()))
    (expect "imap" "reconcile" .reconcileResponse reconcileResponse fun m => m.values.1)

/-- `Service.sendExecute`. -/
def sendExecute (addr name key procName arg : Bytes) : Prog (Except CallError Bytes) :=
  exchange T procs aggs reqBuf respBuf addr .executeRequest (msg (S := executeRequest) (name, key, procName, arg, ()))
    (expect "imap" "execute" .executeResponse executeResponse fun m => m.values.1)

/-- `Service.sendClear`. -/
def sendClear (addr name : Bytes) : Prog (Except CallError UInt64) :=
  exchange T procs aggs reqBuf respBuf addr .clearRequest (msg (S := clearRequest) (name, ()))
    (expect "imap" "clear" .clearResponse clearResponse fun m => m.values.1)

/-- `Service.sendSize`. -/
def sendSize (addr name : Bytes) : Prog (Except CallError UInt64) :=
  exchange T procs aggs reqBuf respBuf addr .sizeRequest (msg (S := sizeRequest) (name, ()))
    (expect "imap" "size" .sizeResponse sizeResponse fun m => m.values.1)

/-- The peer's error with the text of an unknown aggregator is that error again. -/
def rewrapUnknown {α : Type} (addr : Bytes) : Except CallError α → Except CallError α
  | .error (.remote e) =>
    if errUnknownAggregator <:+: e.message then .error (.unknownAggregator addr) else .error (.remote e)
  | r => r

/-- `Service.sendAggregate`. -/
def sendAggregate (addr name aggName : Bytes) : Prog (Except CallError Bytes) := do
  let r ← exchange T procs aggs reqBuf respBuf addr .aggregateRequest
    (msg (S := aggregateRequest) (name, aggName, ()))
    (expect "imap" "aggregate" .aggregateResponse aggregateResponse fun m => m.values.1)
  return rewrapUnknown addr r

/-- `Membership.sendJoin`, which passes the member itself. -/
def sendJoin (addr : Bytes) (candidate : Option Member) : Prog (Except CallError (List Member)) :=
  exchange T procs aggs reqBuf respBuf addr .joinRequest
    (msg (S := joinRequest) (candidate.map memberToProto, ()))
    (expect "cluster" "join" .joinResponse joinResponse fun m => List.map memberFromProto m.values.1)

/-- The push of `Membership.Gossip` to one peer; no response is looked at. -/
def sendMemberList (addr : Bytes) (ms : List Member) (version : UInt64) : Prog (Except CallError Unit) :=
  exchange T procs aggs reqBuf respBuf addr .memberList
    (msg (S := memberList) (ms.map memberToProto, version, ())) fun _ _ => .ok ()

/-- `Membership.Ping`. -/
def ping (addr memberId : Bytes) : Prog (Except CallError Unit) :=
  exchange T procs aggs reqBuf respBuf addr .heartbeat
    (msg (S := heartbeat) (memberId, (0 : UInt64), ())) fun _ _ => .ok ()

/-- The announcement of `Membership.AnnounceLeave` to one peer. -/
def sendLeave (addr memberId : Bytes) : Prog (Except CallError Unit) :=
  exchange T procs aggs reqBuf respBuf addr .leave (msg (S := leaveRequest) (memberId, ())) fun _ _ => .ok ()

end calls

/-! ### Requests -/

/-- What a call asks a peer for. -/
inductive Request where
  | put (name key value : Bytes) (ttlMs : Int64) (backup : Bool)
  | get (name key : Bytes)
  | remove (name key : Bytes) (backup : Bool)
  | evict (name key : Bytes)
  | digest (p : PartitionId) (digest : UInt64)
  | reconcile (p : PartitionId) (keys : List Ref)
  | execute (name key procName arg : Bytes)
  | clear (name : Bytes)
  | size (name : Bytes)
  | aggregate (name aggName : Bytes)
  | join (candidate : Option Member)
  | memberList (ms : List Member) (version : UInt64)
  | ping (memberId : Bytes)
  | leave (memberId : Bytes)

namespace Request

/-- What the peer answers with. -/
abbrev Out : Request → Type
  | put .. | remove .. | evict .. | digest .. => Bool
  | get .. => Option Bytes
  | reconcile .. => ℕ
  | execute .. | aggregate .. => Bytes
  | clear .. | size .. => UInt64
  | join .. => List Member
  | memberList .. | ping .. | leave .. => Unit

/-- What the caller is told. -/
abbrev Resp : Request → Type
  | put .. => Unit
  | remove .. | evict .. | digest .. => Bool
  | get .. => Option Bytes
  | execute .. | aggregate .. => Bytes
  | reconcile .. | clear .. | size .. => UInt64
  | join .. => List Member
  | memberList .. | ping .. | leave .. => Unit

/-- What the caller is told of an answer. -/
def view : (r : Request) → r.Out → r.Resp
  | put .., _ => ()
  | remove .., b => b
  | evict .., b => b
  | digest .., b => b
  | get .., v => v
  | execute .., b => b
  | aggregate .., b => b
  | reconcile .., n => UInt64.ofNat n
  | clear .., n => n
  | size .., n => n
  | join .., ms => ms
  | memberList .., _ => ()
  | ping .., _ => ()
  | leave .., _ => ()

/-- The errors of the service, as those of its handler. -/
def served {α : Type} : Except ServiceError α → Except HandleError α
  | .ok a => .ok a
  | .error e => .error (.service e)

/-- What node `x` does for the request. -/
def handler (procs : Service.Registry) (aggs : Service.AggRegistry) :
    (r : Request) → Bytes → Prog (Except ServiceError r.Out)
  | put name key value ttlMs backup, x => Service.applyPut x name key value ttlMs backup
  | get name key, x => Service.getThrough x name key
  | remove name key backup, x => Service.applyRemove x name key backup
  | evict name key, x => Service.applyEvict x name key
  | digest p d, x => do
      let own : UInt64 ← Prog.on x (.digest p)
      return .ok (own == d)
  | reconcile p keys, x => Service.reconcile x p keys
  | execute name key procName arg, x => Service.applyExecute procs x name key procName arg
  | clear name, x => do
      let removed ← Service.localClearMap x name
      return .ok (UInt64.ofNat removed)
  | size name, x => do
      let count ← Service.localMapSize x name
      return .ok (UInt64.ofNat count)
  | aggregate name aggName, x => Service.localAggregate aggs x name aggName
  | join candidate, x => do
      match candidate with
      | some me =>
        let _ ← Prog.on x (.rejoin me)
        let ms : List Member ← Prog.on x .snapshotProto
        return .ok ms
      | none =>
        let ms : List Member ← Prog.on x .snapshotProto
        return .ok ms
  | memberList ms _, x => do
      let _ ← Prog.on x (.merge ms)
      return .ok ()
  | ping _, _ => return .ok ()
  | leave memberId, x => do
      let _ ← Prog.on x (.removeMember memberId)
      return .ok ()

/-- The same as a case of its handler. -/
def apply (procs : Service.Registry) (aggs : Service.AggRegistry) (r : Request) (x : Bytes) :
    Prog (Except HandleError r.Out) := do
  return served (← r.handler procs aggs x)

/-- The call of a request. -/
def send (T : Texts) (procs : Service.Registry) (aggs : Service.AggRegistry) (reqBuf respBuf addr : Bytes) :
    (r : Request) → Prog (Except CallError r.Resp)
  | put name key value ttlMs backup => sendPut T procs aggs reqBuf respBuf addr name key value ttlMs backup
  | get name key => sendGet T procs aggs reqBuf respBuf addr name key
  | remove name key backup => sendRemove T procs aggs reqBuf respBuf addr name key backup
  | evict name key => sendEvict T procs aggs reqBuf respBuf addr name key
  | digest p d => sendDigest T procs aggs reqBuf respBuf addr p d
  | reconcile p keys => sendReconcile T procs aggs reqBuf respBuf addr p keys
  | execute name key procName arg => sendExecute T procs aggs reqBuf respBuf addr name key procName arg
  | clear name => sendClear T procs aggs reqBuf respBuf addr name
  | size name => sendSize T procs aggs reqBuf respBuf addr name
  | aggregate name aggName => sendAggregate T procs aggs reqBuf respBuf addr name aggName
  | join candidate => sendJoin T procs aggs reqBuf respBuf addr candidate
  | memberList ms version => sendMemberList T procs aggs reqBuf respBuf addr ms version
  | ping memberId => Rpc.ping T procs aggs reqBuf respBuf addr memberId
  | leave memberId => sendLeave T procs aggs reqBuf respBuf addr memberId

/-- The type of the frame of the request. -/
def type : Request → MessageType
  | put .. => .putRequest
  | get .. => .getRequest
  | remove .. => .removeRequest
  | evict .. => .evictRequest
  | digest .. => .digestRequest
  | reconcile .. => .reconcileRequest
  | execute .. => .executeRequest
  | clear .. => .clearRequest
  | size .. => .sizeRequest
  | aggregate .. => .aggregateRequest
  | join .. => .joinRequest
  | memberList .. => .memberList
  | ping .. => .heartbeat
  | leave .. => .leave

/-- The payload of the frame of the request. -/
def bytes : Request → Bytes
  | put name key value ttlMs backup => putRequest.bytes (msg (name, key, value, backup, ttlMs, ()))
  | get name key => getRequest.bytes (msg (name, key, ()))
  | remove name key backup => removeRequest.bytes (msg (name, key, backup, ()))
  | evict name key => evictRequest.bytes (msg (name, key, ()))
  | digest p d => digestRequest.bytes (msg (UInt32.ofNat p.val, d, ()))
  | reconcile p keys => reconcileRequest.bytes (msg (UInt32.ofNat p.val, keys.map keyRefOf, ()))
  | execute name key procName arg => executeRequest.bytes (msg (name, key, procName, arg, ()))
  | clear name => clearRequest.bytes (msg (name, ()))
  | size name => sizeRequest.bytes (msg (name, ()))
  | aggregate name aggName => aggregateRequest.bytes (msg (name, aggName, ()))
  | join candidate => joinRequest.bytes (msg (candidate.map memberToProto, ()))
  | memberList ms version => Proto.memberList.bytes (msg (ms.map memberToProto, version, ()))
  | ping memberId => heartbeat.bytes (msg (memberId, (0 : UInt64), ()))
  | leave memberId => leaveRequest.bytes (msg (memberId, ()))

/-- The type of the frame of the response. -/
def respType : Request → MessageType
  | put .. => .putResponse
  | get .. => .getResponse
  | remove .. => .removeResponse
  | evict .. => .evictResponse
  | digest .. => .digestResponse
  | reconcile .. => .reconcileResponse
  | execute .. => .executeResponse
  | clear .. => .clearResponse
  | size .. => .sizeResponse
  | aggregate .. => .aggregateResponse
  | join .. => .joinResponse
  | memberList .. => .memberList
  | ping .. => .heartbeat
  | leave .. => .leave

/-- The payload of the frame of the response. -/
def respBytes : (r : Request) → r.Out → Bytes
  | put .., (created : Bool) => putResponse.bytes (msg (created, ()))
  | get .., (v : Option Bytes) => getResponse.bytes (msg (v.isSome, v.getD [], ()))
  | remove .., (existed : Bool) => removeResponse.bytes (msg (existed, ()))
  | evict .., (existed : Bool) => evictResponse.bytes (msg (existed, ()))
  | digest .., (same : Bool) => digestResponse.bytes (msg (same, ()))
  | reconcile .., (pruned : ℕ) => reconcileResponse.bytes (msg (UInt64.ofNat pruned, ()))
  | execute .., (result : Bytes) => executeResponse.bytes (msg (result, ()))
  | clear .., (removed : UInt64) => clearResponse.bytes (msg (removed, ()))
  | size .., (count : UInt64) => sizeResponse.bytes (msg (count, ()))
  | aggregate .., (part : Bytes) => aggregateResponse.bytes (msg (part, ()))
  | join .., (ms : List Member) => joinResponse.bytes (msg (ms.map memberToProto, ()))
  | memberList .., _ => []
  | ping .., _ => []
  | leave .., _ => []

end Request

/-! ### The handler of a request -/

section dispatch

variable {Req Resp : Schema} {t : MessageType} {m : Req.Msg} {respBuf : Bytes}

theorem serve_ok {act : Req.Msg → Prog (Except HandleError Resp.Msg)} {req : Bytes}
    (hreq : Req.unmarshalVT req Req.empty = .ok m) : serve Req Resp t act req respBuf =
      act m >>= fun r => return r.map fun resp => (t, Resp.bytes resp) := by
  rw [serve, hreq]
  dsimp only
  refine congrArg (act m >>= ·) (funext fun r => ?_)
  cases r with
  | error e => rfl
  | ok resp =>
    dsimp only
    rw [Schema.marshal_eq]
    rfl

theorem inRange_cases {α : Type} (p : UInt32) (e : HandleError) (act : PartitionId → Prog (Except HandleError α)) :
    (∃ q, inRange p e act = act q) ∨ inRange p e act = return .error e := by
  rw [inRange]
  split
  · exact Or.inl ⟨_, rfl⟩
  · exact Or.inr rfl

/-- Two ways to compute one result from what a program returns. -/
theorem return_bind {α β β' γ : Type} (p : Prog α) {f : α → β} {g : β → γ} {f' : α → β'} {g' : β' → γ}
    (h : ∀ a, g (f a) = g' (f' a)) :
    (p >>= (fun a => return f a) >>= fun b => return g b) =
      (p >>= (fun a => return f' a) >>= fun b => (return g' b : Prog γ)) := by
  rw [Prog.bind_assoc, Prog.bind_assoc]
  exact congrArg (p >>= ·) (funext fun a => congrArg Prog.done (h a))

variable (procs : Service.Registry) (aggs : Service.AggRegistry)

end dispatch

/-! ### The call of a request -/

namespace Request

/-- What the caller is told of an error of the handler. -/
def remote (addr : Bytes) (e : ErrorMessage) : (r : Request) → Except CallError r.Resp
  | aggregate .. => rewrapUnknown addr (.error (.remote e))
  | _ => .error (.remote e)

/-- What the caller is told of what the handler returned. -/
def answer (T : Texts) (addr : Bytes) (r : Request) : Except HandleError r.Out → Except CallError r.Resp
  | .ok out => if (r.respBytes out).length ≤ maxFrameSize then .ok (r.view out) else .error .transport
  | .error e =>
    if (marshalError ⟨1, e.text T⟩).length ≤ maxFrameSize then r.remote addr ⟨1, e.text T⟩
    else .error .transport

end Request

section send
variable (T : Texts) (procs : Service.Registry) (aggs : Service.AggRegistry) (reqBuf respBuf addr : Bytes)

end send

/-! ### Any frame -/

section anyFrame

theorem serve_cases {P : Prog Handled → Prop} {Req Resp : Schema} {t : MessageType}
    {act : Req.Msg → Prog (Except HandleError Resp.Msg)} (hrefused : ∀ e, P (return .error e))
    (hserved : ∀ m, P (act m >>= fun r => return r.map fun resp => (t, Resp.bytes resp))) (req respBuf : Bytes) :
    P (serve Req Resp t act req respBuf) := by
  cases hreq : Req.unmarshalVT req Req.empty with
  | error e =>
    rw [serve, hreq]
    exact hrefused (.proto e)
  | ok m =>
    rw [serve_ok hreq]
    exact hserved m

theorem receive_cases {P : Prog Handled → Prop} {Req : Schema} {t : MessageType} {act : Req.Msg → Prog Unit}
    (hrefused : ∀ e, P (return .error e)) (hserved : ∀ m, P (act m >>= fun _ => return .ok (t, []))) (req : Bytes) :
    P (receive Req t act req) := by
  rw [receive]
  cases Req.unmarshalVT req Req.empty with
  | error e => exact hrefused (.proto e)
  | ok m => exact hserved m

/-- **Whatever frame arrives, it is refused without any action, or served as a request of its type.** -/
theorem dispatch_cases (procs : Service.Registry) (aggs : Service.AggRegistry) (x : Bytes) (type : ℕ)
    (req respBuf : Bytes) :
    (∃ e, dispatch procs aggs x type req respBuf = return .error e) ∨
      ∃ r : Request, r.type.code = type ∧ dispatch procs aggs x type req respBuf =
        r.apply procs aggs x >>= fun out => return out.map fun o => (r.respType, r.respBytes o) := by
  let P : Prog Handled → Prop := fun p => (∃ e, p = return .error e) ∨
    ∃ r : Request, r.type.code = type ∧
      p = r.apply procs aggs x >>= fun out => return out.map fun o => (r.respType, r.respBytes o)
  have hrefused : ∀ e, P (return .error e) := fun e => Or.inl ⟨e, rfl⟩
  change P (dispatch procs aggs x type req respBuf)
  rw [dispatch]
  cases htype : MessageType.ofCode type with
  | none => exact hrefused _
  | some t =>
    have hcode := MessageType.code_of_ofCode htype
    cases t with
    | putRequest =>
      refine serve_cases hrefused ?_ req respBuf
      rintro ⟨⟨name, key, value, backup, ttlMs, _⟩, u⟩
      exact Or.inr ⟨.put name key value ttlMs backup, hcode, return_bind _ (by rintro (e | v) <;> rfl)⟩
    | getRequest =>
      refine serve_cases hrefused ?_ req respBuf
      rintro ⟨⟨name, key, _⟩, u⟩
      exact Or.inr ⟨.get name key, hcode, return_bind _ (by rintro (e | v) <;> rfl)⟩
    | removeRequest =>
      refine serve_cases hrefused ?_ req respBuf
      rintro ⟨⟨name, key, backup, _⟩, u⟩
      exact Or.inr ⟨.remove name key backup, hcode, return_bind _ (by rintro (e | v) <;> rfl)⟩
    | evictRequest =>
      refine serve_cases hrefused ?_ req respBuf
      rintro ⟨⟨name, key, _⟩, u⟩
      exact Or.inr ⟨.evict name key, hcode, return_bind _ (by rintro (e | v) <;> rfl)⟩
    | executeRequest =>
      refine serve_cases hrefused ?_ req respBuf
      rintro ⟨⟨name, key, procName, arg, _⟩, u⟩
      exact Or.inr ⟨.execute name key procName arg, hcode, return_bind _ (by rintro (e | v) <;> rfl)⟩
    | aggregateRequest =>
      refine serve_cases hrefused ?_ req respBuf
      rintro ⟨⟨name, aggName, _⟩, u⟩
      exact Or.inr ⟨.aggregate name aggName, hcode, return_bind _ (by rintro (e | v) <;> rfl)⟩
    | clearRequest =>
      refine serve_cases hrefused ?_ req respBuf
      rintro ⟨⟨name, _⟩, u⟩
      exact Or.inr ⟨.clear name, hcode, rfl⟩
    | sizeRequest =>
      refine serve_cases hrefused ?_ req respBuf
      rintro ⟨⟨name, _⟩, u⟩
      refine Or.inr ⟨.size name, hcode, ?_⟩
      simp only [Request.apply, Request.handler, Prog.bind_assoc]
      rfl
    | digestRequest =>
      refine serve_cases hrefused ?_ req respBuf
      rintro ⟨⟨p, d, _⟩, u⟩
      change P (inRange p _ _ >>= _)
      obtain ⟨q, hq⟩ | hq := inRange_cases p (.digestRange p) fun q => do
        let own : UInt64 ← Prog.on x (.digest q)
        return Except.ok (msg (S := digestResponse) (own == d, ()))
      · exact Or.inr ⟨.digest q d, hcode, congrArg (· >>= _) hq⟩
      · exact Or.inl ⟨_, congrArg (· >>= _) hq⟩
    | reconcileRequest =>
      refine serve_cases hrefused ?_ req respBuf
      rintro ⟨⟨p, keys, _⟩, u⟩
      change P (inRange p _ _ >>= _)
      obtain ⟨q, hq⟩ | hq := inRange_cases p (.reconcileRange p) fun q => do
        let out ← Service.reconcile x q (List.map refOf keys)
        return respond (fun pruned => msg (S := reconcileResponse) (UInt64.ofNat pruned, ())) out
      · refine Or.inr ⟨.reconcile q (List.map refOf keys), hcode, (congrArg (· >>= _) hq).trans ?_⟩
        exact return_bind _ (by rintro (e | v) <;> rfl)
      · exact Or.inl ⟨_, congrArg (· >>= _) hq⟩
    | joinRequest =>
      refine serve_cases hrefused ?_ req respBuf
      rintro ⟨⟨candidate, _⟩, u⟩
      refine Or.inr ⟨.join (Option.map memberFromProto candidate), hcode, ?_⟩
      cases candidate <;> rfl
    | memberList =>
      refine receive_cases hrefused ?_ req
      rintro ⟨⟨ms, version, _⟩, u⟩
      exact Or.inr ⟨.memberList (List.map memberFromProto ms) version, hcode, rfl⟩
    | heartbeat => exact Or.inr ⟨.ping [], hcode, rfl⟩
    | leave =>
      refine receive_cases hrefused ?_ req
      rintro ⟨⟨memberId, _⟩, u⟩
      exact Or.inr ⟨.leave memberId, hcode, rfl⟩
    | _ => exact hrefused _

end anyFrame

end Rpc

end Medusa
