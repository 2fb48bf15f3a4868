import Medusa.Service

/-! # The actions of client operations

A client operation (`Write`) consists of store changes on some nodes and of the *plumbing* around
them: clock readings, table and address lookups, messages, events, calls of a `MapStore`.  The
lemmas of this module show that all actions of an operation satisfy a predicate, from what the
predicate says of the plumbing (`Plumbing`) and of the store changes.

All of them are *calm*: no membership changes, and no node starts or stops listening.  So during
any number of concurrent client operations the tables and addresses stay as they are. -/

namespace Medusa

open Medusa.Partition Store Interleave Service Contract

/-- The critical section leaves the membership alone. -/
def NodeAction.Calm : NodeAction → Prop
  | .merge _ => False
  | .rejoin _ => False
  | .removeMember _ => False
  | .detect _ _ _ => False
  | .pruneTombstones _ => False
  | _ => True

/-- The action leaves memberships and listeners alone. -/
def Action.Calm : Action → Prop
  | .on _ a => a.Calm
  | .start _ => False
  | .crash _ => False
  | .close _ => False
  | _ => True

theorem NodeAction.Calm.mem {a : NodeAction} (h : a.Calm) (nd : Node) (c : Choice) :
    (nd.exec c a).2.mem = nd.mem := by
  cases a with
  | merge | rejoin | removeMember | detect | pruneTombstones => exact h.elim
  | emit ev => simp only [Node.exec]; split <;> rfl
  | _ => rfl

theorem Action.Calm.mem {e : Action} (h : e.Calm) (c : Choice) (C : Cluster) (n : Bytes) :
    ((exec e c C).2.nodes n).mem = (C.nodes n).mem := by
  cases e with
  | on m a =>
    by_cases hn : n = m
    · subst hn
      rw [exec_on_self, NodeAction.Calm.mem h]
      rfl
    · rw [exec_on_ne _ _ _ _ hn]
  | start | crash | close => exact h.elim
  | storeThrough | deleteThrough => simp only [exec]; split <;> rfl
  | _ => rfl

theorem Action.Calm.listen {e : Action} (h : e.Calm) (c : Choice) (C : Cluster) :
    (exec e c C).2.listen = C.listen := by
  cases e with
  | start | crash | close => exact h.elim
  | storeThrough | deleteThrough => simp only [exec]; split <;> rfl
  | _ => rfl

/-! ### The programs -/

/-- The critical sections around store changes. -/
def NodeAction.Plumbing : NodeAction → Prop
  | .nowNano => True
  | .table => True
  | .addrOf _ => True
  | .source _ => True
  | .emit _ => True
  | _ => False

/-- The predicate holds of the actions that send a message to another member. -/
structure Posting (P : Action → Prop) : Prop where
  now : ∀ n, P (.on n .nowNano)
  table : ∀ n, P (.on n .table)
  addrOf : ∀ n id, P (.on n (.addrOf id))
  connect : ∀ addr, P (.connect addr)
  reply : ∀ n, P (.reply n)

/-- The predicate holds of messages and of the critical sections around store changes. -/
structure Wiring (P : Action → Prop) : Prop where
  on : ∀ n {a : NodeAction}, a.Plumbing → P (.on n a)
  connect : ∀ addr, P (.connect addr)
  reply : ∀ n, P (.reply n)

/-- The predicate holds of the actions around store changes. -/
structure Plumbing (P : Action → Prop) : Prop extends Wiring P where
  toStore : ∀ name key value, P (.storeThrough name key value)
  toDelete : ∀ name key, P (.deleteThrough name key)

/-- The predicate holds of the store change that applies a replication message anywhere. -/
def Service.Replica.Applies (P : Action → Prop) : Replica → Prop
  | .put name key value _ => ∀ x expireAt, P (.on x (.put name key value expireAt))
  | .remove name key => ∀ x, P (.on x (.remove name key))

namespace Posting
variable {P : Action → Prop} (hP : Posting P) {α : Type}
include hP

theorem send {addr : Bytes} {handle : Bytes → Prog (Except ServiceError α)}
    (h : ∀ x, (handle x).All P) : (send addr handle).All P := by
  refine ⟨hP.connect addr, fun r => ?_⟩
  cases r with
  | none => trivial
  | some x => exact (h x).bind (fun _ => ⟨hP.reply x, fun _ => trivial⟩)

theorem replica (msg : Replica) (hmsg : msg.Applies P) (x : Bytes) : (msg.apply x).All P := by
  cases msg with
  | put => exact ⟨hP.now x, fun _ => ⟨hmsg x _, fun _ => trivial⟩⟩
  | remove => exact ⟨hmsg x, fun _ => trivial⟩

theorem replicateTo (n : Bytes) (msg : Replica) (hmsg : msg.Applies P) (l : List Bytes) :
    (replicateTo n msg l).All P := by
  induction l with
  | nil => trivial
  | cons b l ih =>
    unfold Service.replicateTo
    split
    · exact ih
    · refine ⟨hP.addrOf n b, fun r => ?_⟩
      cases r with
      | none => exact ih
      | some addr => exact (hP.send (fun x => hP.replica msg hmsg x)).bind (fun _ => ih)

theorem replicate (n : Bytes) (p : PartitionId) (msg : Replica) (hmsg : msg.Applies P) :
    (replicate n p msg).All P :=
  ⟨hP.table n, fun _ => hP.replicateTo n msg hmsg _⟩

end Posting

namespace Wiring
variable {P : Action → Prop} (hP : Wiring P) {α : Type}
include hP

theorem posting : Posting P where
  now n := hP.on n trivial
  table n := hP.on n trivial
  addrOf n _ := hP.on n trivial
  connect := hP.connect
  reply := hP.reply

theorem send {addr : Bytes} {handle : Bytes → Prog (Except ServiceError α)}
    (h : ∀ x, (handle x).All P) : (send addr handle).All P := hP.posting.send h

theorem replica (msg : Replica) (hmsg : msg.Applies P) (x : Bytes) : (msg.apply x).All P :=
  hP.posting.replica msg hmsg x

theorem replicate (n : Bytes) (p : PartitionId) (msg : Replica) (hmsg : msg.Applies P) :
    (replicate n p msg).All P := hP.posting.replicate n p msg hmsg

theorem replicateAll (n : Bytes) (p : PartitionId) {l : List Replica}
    (hl : ∀ msg ∈ l, msg.Applies P) : (replicateAll n p l).All P := by
  induction l with
  | nil => trivial
  | cons msg l ih =>
    exact (hP.replicate n p msg (hl msg List.mem_cons_self)).bind
      (fun _ => ih (fun m hm => hl m (List.mem_cons_of_mem _ hm)))

theorem emit (n : Bytes) (type : EventType) (name key value : Bytes) :
    (emit n type name key value).All P := by
  unfold Service.emit
  split
  · trivial
  · exact ⟨hP.on n trivial, fun _ => trivial⟩

theorem emitRemoved (n : Bytes) (existed : Bool) (name key : Bytes) :
    (emitRemoved n existed name key).All P := by
  unfold Service.emitRemoved
  split
  · exact hP.emit _ _ _ _ _
  · trivial

end Wiring

namespace Plumbing
variable {P : Action → Prop} (hP : Plumbing P) {α : Type}
include hP

theorem callThrough (n name : Bytes) {call : Prog Bool} (hcall : call.All P) (out : α) :
    (callThrough n name call out).All P := by
  refine Prog.All.step (hP.on n trivial) (fun r => ?_)
  split
  · exact hcall.bind fun _ => trivial
  · trivial

theorem writeThrough (n name key value : Bytes) (out : α) : (writeThrough n name key value out).All P :=
  hP.callThrough n name (Prog.All.perform (hP.toStore name key value)) out

theorem deleteThrough (n name key : Bytes) (out : α) : (deleteThrough n name key out).All P :=
  hP.callThrough n name (Prog.All.perform (hP.toDelete name key)) out

/-- What follows the store change of `applyPut`. -/
theorem afterPut (n name key value : Bytes) (ttlMs : Int64) (type : EventType) (out : α)
    (hput : ∀ x expireAt, P (.on x (.put name key value expireAt))) :
    (do Service.replicate n (routedPartition name key) (.put name key value ttlMs)
        Service.emit n type name key value
        Service.writeThrough n name key value out : Prog (Except ServiceError α)).All P :=
  (hP.replicate _ _ (.put name key value ttlMs) hput).bind
    (fun _ => (hP.emit _ _ _ _ _).bind (fun _ => hP.writeThrough _ _ _ _ _))

/-- What follows the store change of `applyRemove`. -/
theorem afterRemove (n name key : Bytes) (existed : Bool) (out : α)
    (hremove : ∀ x, P (.on x (.remove name key))) :
    (do Service.replicate n (routedPartition name key) (.remove name key)
        Service.emitRemoved n existed name key
        Service.deleteThrough n name key out : Prog (Except ServiceError α)).All P :=
  (hP.replicate _ _ (.remove name key) hremove).bind
    (fun _ => (hP.emitRemoved _ _ _ _).bind (fun _ => hP.deleteThrough _ _ _ _))

theorem applyPut (n name key value : Bytes) (ttlMs : Int64) (isBackup : Bool)
    (hput : ∀ x expireAt, P (.on x (.put name key value expireAt))) :
    (Service.applyPut n name key value ttlMs isBackup).All P := by
  unfold Service.applyPut
  split
  · exact hP.replica (.put name key value ttlMs) hput n
  · refine Prog.All.bind ⟨hP.on n trivial, fun _ => ⟨hput n _, fun _ => trivial⟩⟩ (fun _ => ?_)
    exact hP.afterPut _ _ _ _ _ _ _ hput

theorem applyRemove (n name key : Bytes) (isBackup : Bool)
    (hremove : ∀ x, P (.on x (.remove name key))) :
    (Service.applyRemove n name key isBackup).All P := by
  unfold Service.applyRemove
  split
  · exact hP.replica (.remove name key) hremove n
  · exact ⟨hremove n, fun _ => hP.afterRemove _ _ _ _ _ hremove⟩

section execute
variable (hput : ∀ x name key value expireAt, P (.on x (.put name key value expireAt)))
  (hremove : ∀ x name key, P (.on x (.remove name key)))
include hput hremove

theorem applyQueueExecute (n qname : Bytes) (op : QueueOp) (arg : Bytes)
    (hqueue : P (.on n (.queueExecute qname op arg))) :
    (Service.applyQueueExecute n qname op arg).All P := by
  refine Prog.All.step hqueue (fun r => ?_)
  split
  · trivial
  · refine (hP.replicateAll _ _ (fun msg hmsg => ?_)).bind (fun _ => trivial)
    obtain ⟨m, -, rfl⟩ := List.mem_map.mp hmsg
    unfold Replica.ofMutation
    split
    · exact fun x => hremove x _ _
    · exact fun x => hput x _ _ _

theorem finishExecute (n name key : Bytes) (r : Executed) :
    (Service.finishExecute n name key r).All P := by
  unfold Service.finishExecute
  split
  · trivial
  · refine ⟨hP.on n trivial, fun _ => ?_⟩
    refine (hP.replicate _ _ (.put _ _ _ _) (fun x => hput x _ _ _)).bind (fun _ => ?_)
    exact (hP.emit _ _ _ _ _).bind (fun _ => hP.writeThrough _ _ _ _ _)
  · refine (hP.replicate _ _ (.remove _ _) (fun x => hremove x _ _)).bind (fun _ => ?_)
    exact (hP.emitRemoved _ _ _ _).bind (fun _ => hP.deleteThrough _ _ _ _)

theorem applyExecute (procs : Registry) (n name key procName arg : Bytes)
    (hexecute : name ≠ queueSegMap → ∀ proc, P (.on n (.execute name key proc arg)))
    (hqueue : ∀ op, P (.on n (.queueExecute key op arg))) :
    (Service.applyExecute procs n name key procName arg).All P := by
  unfold Service.applyExecute
  split
  · exact hP.applyQueueExecute hput hremove _ _ _ _ (hqueue _)
  · split
    · trivial
    · next hname =>
      split
      · trivial
      · exact ⟨hexecute hname _, fun r => hP.finishExecute hput hremove n name key r⟩

/-- Every action of an operation satisfies the predicate. -/
theorem write (procs : Registry)
    (hexecute : ∀ n name key proc arg, name ≠ queueSegMap → P (.on n (.execute name key proc arg)))
    (hqueue : ∀ n qname op arg, P (.on n (.queueExecute qname op arg))) (w : Write) :
    (w.prog procs).All P := by
  cases w with
  | idle => trivial
  | put => exact (hP.applyPut _ _ _ _ _ _ (fun x => hput x _ _ _)).bind (fun _ => trivial)
  | remove => exact (hP.applyRemove _ _ _ _ (fun x => hremove x _ _)).bind (fun _ => trivial)
  | evict n name key =>
    refine Prog.All.bind (f := fun _ => pure ()) ⟨hremove n name key, fun _ => ?_⟩ (fun _ => trivial)
    exact (hP.replicate n (routedPartition name key) (.remove name key)
      (fun x => hremove x _ _)).bind (fun _ => trivial)
  | execute =>
    exact (hP.applyExecute hput hremove procs _ _ _ _ _ (fun hname proc => hexecute _ _ _ _ _ hname)
      (fun op => hqueue _ _ _ _)).bind (fun _ => trivial)

end execute

section pass
variable (hput : ∀ x name key value expireAt, P (.on x (.put name key value expireAt)))
include hput

theorem pushEntries (addr : Bytes) (now : ℕ) (es : List Entry) (ok : Bool) :
    (pushEntries addr now es ok).All P := by
  induction es generalizing ok with
  | nil => trivial
  | cons e es ih =>
    unfold Service.pushEntries
    split
    · exact ih ok
    · refine (hP.send (fun x => hP.applyPut x _ _ _ _ true (fun y => hput y _ _ _))).bind ?_
      rintro (err | b)
      · exact ih false
      · exact ih ok

theorem pushTargets (n : Bytes) (es : List Entry) (ids : List Bytes) (ok : Bool) :
    (pushTargets n es ids ok).All P := by
  induction ids generalizing ok with
  | nil => trivial
  | cons id ids ih =>
    refine Prog.All.step (hP.on n trivial) (fun r => ?_)
    cases r with
    | none => exact ih false
    | some addr =>
      exact Prog.All.step (hP.on n trivial)
        (fun now => (hP.pushEntries hput addr now es ok).bind (fun ok' => ih ok'))

theorem handOver {n : Bytes} (tbl : Table) (p : PartitionId) (es : List Entry)
    (hdrop : ∀ p entries, P (.on n (.drop p entries))) : (handOver n tbl p es).All P := by
  unfold Service.handOver
  split
  · trivial
  · refine (hP.pushTargets hput n _ _ _).bind (fun ok => ?_)
    split
    · exact ⟨hdrop _ _, fun _ => trivial⟩
    · trivial

/-- Every action of a pass satisfies a predicate that holds of messages, puts and the pass's own
critical sections. -/
theorem migrate {n : Bytes} (tbl : Table) (hctx : P .ctxErr) (hsnap : ∀ p, P (.on n (.snapshot p)))
    (hdrop : ∀ p entries, P (.on n (.drop p entries))) : (migrate n tbl).All P := by
  unfold Service.migrate
  generalize List.finRange Count = ps
  induction ps with
  | nil => trivial
  | cons p ps ih =>
    refine Prog.All.step hctx (fun stop => ?_)
    cases stop with
    | true => trivial
    | false =>
      exact Prog.All.bind (Prog.All.step (hsnap p) fun snap => hP.handOver hput tbl p _ hdrop)
        (fun _ => ih)

end pass

end Plumbing

/-! ### Contracts

A contract that always allows the actions around store changes is kept by the programs whose store
changes keep it. -/

section obeys
variable {K : Contract Action.Resp} {i : ℕ} {α : Type}

theorem Wiring.send_obeys (hK : Wiring (fun e => ∀ h, K.pre i h e)) {addr : Bytes}
    {handle : Bytes → Prog (Except ServiceError α)}
    (hhandle : ∀ x h, K.Obeys i (fun _ _ => True) (handle x) h) (h : List Event) :
    K.Obeys i (fun _ _ => True) (Service.send addr handle) h := by
  refine Obeys.step (hK.connect addr h) (fun r _ => ?_)
  cases r with
  | none => trivial
  | some x =>
    refine Obeys.bind ((hhandle x _).mono (fun out h' _ => ?_))
    exact ⟨hK.reply x h', fun _ _ => trivial⟩

theorem Wiring.replicateTo_obeys (hK : Wiring (fun e => ∀ h, K.pre i h e)) (n : Bytes) {msg : Replica}
    (hmsg : ∀ x h, K.Obeys i (fun _ _ => True) (msg.apply x) h) (l : List Bytes) (h : List Event) :
    K.Obeys i (fun _ _ => True) (Service.replicateTo n msg l) h := by
  induction l generalizing h with
  | nil => trivial
  | cons b l ih =>
    unfold Service.replicateTo
    split
    · exact ih h
    · refine Obeys.step (hK.on n (a := .addrOf b) trivial h) (fun r _ => ?_)
      cases r with
      | none => exact ih _
      | some addr => exact Obeys.bind ((hK.send_obeys hmsg _).mono fun _ h' _ => ih h')

theorem Wiring.replicate_obeys (hK : Wiring (fun e => ∀ h, K.pre i h e)) (n : Bytes) (p : PartitionId)
    {msg : Replica} (hmsg : ∀ x h, K.Obeys i (fun _ _ => True) (msg.apply x) h) (h : List Event) :
    K.Obeys i (fun _ _ => True) (Service.replicate n p msg) h :=
  Obeys.step (hK.on n (a := .table) trivial h) (fun _ _ => hK.replicateTo_obeys n hmsg _ _)

/-- What follows the store change of `applyPut`. -/
theorem Plumbing.afterPut_obeys (hK : Plumbing (fun e => ∀ h, K.pre i h e)) (n : Bytes)
    (p : PartitionId) {name key value : Bytes} {ttlMs : Int64} (type : EventType) (out : α)
    (hput : ∀ x h, K.Obeys i (fun _ _ => True) ((Replica.put name key value ttlMs).apply x) h)
    (h : List Event) :
    K.Obeys i (fun _ _ => True) (do
        Service.replicate n p (.put name key value ttlMs)
        Service.emit n type name key value
        Service.writeThrough n name key value out : Prog (Except ServiceError α)) h := by
  refine Obeys.bind ((hK.replicate_obeys n p hput h).mono fun _ h' _ => ?_)
  refine Obeys.of_all (P := fun e => ∀ h, K.pre i h e) ?_ (fun h e he => he h) h'
  exact (hK.emit _ _ _ _ _).bind fun _ => hK.writeThrough _ _ _ _ _

end obeys

theorem plumbing_calm : Plumbing Action.Calm where
  on _ {a} ha := by cases a <;> first | exact ha.elim | trivial
  connect _ := trivial
  reply _ := trivial
  toStore _ _ _ := trivial
  toDelete _ _ := trivial

/-- **Client operations are calm.** -/
theorem Service.Write.calm (procs : Registry) (w : Write) : (w.prog procs).All Action.Calm :=
  plumbing_calm.write (fun _ _ _ _ _ => trivial) (fun _ _ _ => trivial) procs
    (fun _ _ _ _ _ _ => trivial) (fun _ _ _ _ => trivial) w

end Medusa
