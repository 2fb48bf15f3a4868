import Medusa.Failover

/-! # The remote path of an operation

An operation issued on a node that does not own the key is sent to the owner.  Issued on the owner,
it runs there.  This module compares the two from the same state, with nothing else running: all
messages arrive, clocks stand still, and the external systems behind a loader answer the calls of
the operation with success or failure in a given order (`Alone`).

* `viaOwner_remote`: the remote path is the local one, followed by the backups when it failed.
* `remote_eq_local_iff`: **the two paths agree** exactly when the owner's call of the external
  system succeeds or is not made, or the operation is not a `Get` and the key has no backup.
* `remote_hides_failure`: a failed write through is reported to a local caller and not to a remote
  one, and a processor is run a second time, on a backup. -/

namespace Medusa

open Medusa.Partition Store Interleave Service

/-! ### Operations alone -/

/-- The action is a call of an external system. -/
def Action.external : Action → Bool
  | .load _ _ => true
  | .storeThrough _ _ _ => true
  | .deleteThrough _ _ => true
  | _ => false

/-- A cluster, and which of the coming calls of external systems fail. -/
abbrev Alone := Cluster × (ℕ → Bool)

/-- One action while nothing else happens. -/
def alone (e : Action) (s : Alone) : e.Resp × Alone :=
  if e.external then
    ((exec e { lost := s.2 0 } s.1).1, (exec e { lost := s.2 0 } s.1).2, fun k => s.2 (k + 1))
  else ((exec e .still s.1).1, (exec e .still s.1).2, s.2)

/-- Run a program alone. -/
def Prog.alone {α : Type} (p : Prog α) (s : Alone) : α × Alone :=
  Interleave.Prog.interp Medusa.alone p s

section alone
variable {α β : Type}

@[simp] theorem alone_done (a : α) (s : Alone) :
    Prog.alone (Interleave.Prog.done a) s = (a, s) := rfl

theorem alone_bind (p : Prog α) (f : α → Prog β) (s : Alone) :
    (p >>= f).alone s = (f (p.alone s).1).alone (p.alone s).2 := Interleave.Prog.interp_bind p f s

theorem alone_perform (e : Action) (f : e.Resp → Prog α) (s : Alone) :
    Prog.alone (Interleave.Prog.perform (R := Action.Resp) e >>= f) s =
      (f (alone e s).1).alone (alone e s).2 := rfl

end alone

theorem setNode_tick_zero (C : Cluster) (n : Bytes) :
    C.setNode n ((C.nodes n).tick 0) = C := by
  change { C with nodes := Function.update C.nodes n (C.nodes n) } = C
  rw [Function.update_eq_self]

/-- The critical section only reads. -/
def NodeAction.Pure (a : NodeAction) : Prop := ∀ (nd : Node) (c : Choice), (nd.exec c a).2 = nd

/-- A read returns what the node says, and changes nothing. -/
theorem alone_read {α : Type} {a : NodeAction} (ha : a.Pure) (n : Bytes) (f : a.Resp → Prog α)
    (s : Alone) : (Prog.on n a >>= f).alone s = (f ((s.1.nodes n).exec .still a).1).alone s := by
  have hstate : (exec (.on n a) .still s.1).2 = s.1 := by
    change s.1.setNode n (((s.1.nodes n).tick 0).exec .still a).2 = s.1
    rw [ha, setNode_tick_zero]
  change (f ((s.1.nodes n).exec .still a).1).alone ((exec (.on n a) .still s.1).2, s.2) = _
  rw [hstate]

theorem pure_table : NodeAction.Pure .table := fun _ _ => rfl

theorem pure_addrOf (id : Bytes) : NodeAction.Pure (.addrOf id) := fun _ _ => rfl

theorem pure_source (name : Bytes) : NodeAction.Pure (.source name) := fun _ _ => rfl

theorem pure_get (p : PartitionId) (name key : Bytes) : NodeAction.Pure (.get p name key) :=
  fun _ _ => rfl

/-- A program of calm actions keeps the links. -/
theorem Linked.alone {α : Type} {ids : List Bytes} {b : ℕ} {addr : Bytes → Bytes} {F : List Bytes}
    {p : Prog α} (hp : p.All Action.Calm) {s : Alone} (hL : Linked ids b addr F s.1) :
    Linked ids b addr F (p.alone s).2.1 := by
  refine Interleave.Prog.interp_of_all (I := fun s : Alone => Linked ids b addr F s.1) hp
    (fun e s he hs => ?_) hL
  unfold Medusa.alone
  split <;> exact hs.calm he _

section links
variable {ids : List Bytes} {b : ℕ} {addr : Bytes → Bytes} {s : Alone} {n x : Bytes} {α : Type}

theorem Linked.table_alone (hL : Linked ids b addr [] s.1) (hn : n ∈ ids) (f : Table → Prog α) :
    (Prog.on n .table >>= f).alone s = (f (newTable ids b)).alone s := by
  rw [alone_read pure_table, ← hL.table n hn]
  rfl

theorem Linked.addrOf_alone (hL : Linked ids b addr [] s.1) (hn : n ∈ ids) (hx : x ∈ ids)
    (f : Option Bytes → Prog α) :
    (Prog.on n (.addrOf x) >>= f).alone s = (f (some (addr x))).alone s := by
  rw [alone_read (pure_addrOf x), ← hL.addrOf n hn x hx]
  rfl

/-- A call is its handler. -/
theorem Linked.send (hL : Linked ids b addr [] s.1) (hx : x ∈ ids)
    (handle : Bytes → Prog (Except ServiceError α)) :
    (send (addr x) handle).alone s = (handle x).alone s := by
  have hconnect : Medusa.alone (.connect (addr x)) s = (some x, s) := by
    refine Prod.ext ?_ rfl
    change s.1.listen (addr x) = some x
    rw [hL.listen x hx, if_neg List.not_mem_nil]
  unfold Service.send
  rw [alone_perform, hconnect]
  change Prog.alone (handle x >>= _) s = _
  rw [alone_bind]
  rfl

/-- The owner of the key's partition. -/
abbrev ownerOf (ids : List Bytes) (b : ℕ) (key : Bytes) : Bytes := (newTable ids b).ownerOf (forKey key)

/-- On the owner an operation is not sent. -/
theorem route_local (hL : Linked ids b addr [] s.1) {key : Bytes} (hn : ownerOf ids b key ∈ ids) :
    (Map.route (ownerOf ids b key) key).alone s = (⟨forKey key, [], true⟩, s) := by
  unfold Map.route
  rw [hL.table_alone hn, if_pos rfl]
  rfl

theorem route_remote (hL : Linked ids b addr [] s.1) {key : Bytes} (hn : n ∈ ids)
    (ho : ownerOf ids b key ∈ ids) (hne : ownerOf ids b key ≠ n) :
    (Map.route n key).alone s = (⟨forKey key, addr (ownerOf ids b key), false⟩, s) := by
  unfold Map.route
  rw [hL.table_alone hn, if_neg hne, hL.addrOf_alone hn ho]
  rfl

/-! ### Writes -/

variable {serve : Option Bytes → Prog (Except ServiceError α)}
  {asOwner : Bytes → Prog (Except ServiceError α)}

theorem viaOwner_local (asOwner : Bytes → Prog (Except ServiceError α))
    (hL : Linked ids b addr [] s.1) {key : Bytes} (ho : ownerOf ids b key ∈ ids) :
    (Map.viaOwner (ownerOf ids b key) key (asOwner (ownerOf ids b key)) (fun a => send a asOwner)
      serve).alone s = (asOwner (ownerOf ids b key)).alone s := by
  unfold Map.viaOwner
  rw [alone_bind, route_local hL ho]
  rfl

/-- **The remote path is the local one, followed by the backups when it failed.** -/
theorem viaOwner_remote (hL : Linked ids b addr [] s.1) {key : Bytes} (hn : n ∈ ids)
    (ho : ownerOf ids b key ∈ ids) (hne : ownerOf ids b key ≠ n)
    (hcalm : ∀ x, (asOwner x).All Action.Calm) :
    (Map.viaOwner n key (asOwner n) (fun a => send a asOwner) serve).alone s =
      match (asOwner (ownerOf ids b key)).alone s with
      | (.ok out, s') => (.ok out, s')
      | (.error e, s') => (Map.tryEach n (Map.firstTaken serve)
          ((newTable ids b).backupsOf (forKey key)) (.error e)).alone s' := by
  unfold Map.viaOwner
  rw [alone_bind, route_remote hL hn ho hne]
  change Prog.alone (send (addr (ownerOf ids b key)) asOwner >>= _) s = _
  rw [alone_bind, hL.send ho]
  have hL' := hL.alone (hcalm (ownerOf ids b key))
  rcases hrun : (asOwner (ownerOf ids b key)).alone s with ⟨out, s'⟩
  rw [hrun] at hL'
  cases out with
  | ok out => rfl
  | error e => exact hL'.table_alone hn _

/-- When the owner took the operation, or there is no backup, the two paths are the same. -/
theorem viaOwner_eq (hL : Linked ids b addr [] s.1) {key : Bytes} (hn : n ∈ ids)
    (ho : ownerOf ids b key ∈ ids) (hne : ownerOf ids b key ≠ n)
    (hcalm : ∀ x, (asOwner x).All Action.Calm)
    (h : (∃ out, ((asOwner (ownerOf ids b key)).alone s).1 = .ok out) ∨
      (newTable ids b).backupsOf (forKey key) = []) :
    (Map.viaOwner n key (asOwner n) (fun a => send a asOwner) serve).alone s =
      (asOwner (ownerOf ids b key)).alone s := by
  rw [viaOwner_remote hL hn ho hne hcalm]
  rcases hrun : (asOwner (ownerOf ids b key)).alone s with ⟨out, s'⟩
  cases out with
  | ok out => rfl
  | error e =>
    rcases h with ⟨out, hout⟩ | hbs
    · rw [hrun] at hout
      cases hout
    · rw [hbs]
      rfl

variable {backup : Bytes → Prog (Except ServiceError α)}

theorem firstTaken_alone {taker : Option Bytes} {out : Except ServiceError α} {s' : Alone}
    (h : (serve taker).alone s = (out, s')) (e : Except ServiceError α) :
    (Map.firstTaken serve taker e).alone s = ((out.toBool, out), s') := by
  unfold Map.firstTaken
  rw [alone_bind, h]
  cases out <;> rfl

/-- The first backup's answer, when it takes the operation. -/
theorem tryEach_first (hL : Linked ids b addr [] s.1) (hn : n ∈ ids) {bs : List Bytes}
    (hbs : bs ⊆ ids) (hne : bs ≠ []) (hlocal : serve none = backup n)
    (hremote : ∀ a, serve (some a) = send a backup)
    (hok : ∀ x, ∃ out, ((backup x).alone s).1 = .ok out) (e : Except ServiceError α) :
    ∃ out, ((Map.tryEach n (Map.firstTaken serve) bs e).alone s).1 = .ok out := by
  obtain ⟨x, bs, rfl⟩ := List.exists_cons_of_ne_nil hne
  have hx : x ∈ ids := hbs List.mem_cons_self
  obtain ⟨out, hout⟩ := hok x
  rcases hrun : (backup x).alone s with ⟨out', s'⟩
  rw [hrun] at hout
  cases hout
  unfold Map.tryEach
  split
  · next hxn =>
    subst hxn
    rw [← hlocal] at hrun
    rw [alone_bind, firstTaken_alone hrun]
    exact ⟨out, rfl⟩
  · rw [hL.addrOf_alone hn hx]
    rw [← hL.send hx backup, ← hremote] at hrun
    dsimp only
    rw [alone_bind, firstTaken_alone hrun]
    exact ⟨out, rfl⟩

/-- When no backup takes the operation and none changes anything, it fails. -/
theorem tryEach_none (hL : Linked ids b addr [] s.1) (hn : n ∈ ids) {bs : List Bytes}
    (hbs : bs ⊆ ids) (hlocal : serve none = backup n) (hremote : ∀ a, serve (some a) = send a backup)
    {e : ServiceError} (hfail : ∀ x, (backup x).alone s = (.error e, s)) :
    (Map.tryEach n (Map.firstTaken serve) bs (.error e)).alone s = (.error e, s) := by
  induction bs with
  | nil => rfl
  | cons x bs ih =>
    have hx : x ∈ ids := hbs List.mem_cons_self
    have hrest := ih (fun y hy => hbs (List.mem_cons_of_mem _ hy))
    unfold Map.tryEach
    split
    · rw [alone_bind, firstTaken_alone (hlocal ▸ hfail n)]
      exact hrest
    · have hrun : (serve (some (addr x))).alone s = (.error e, s) := by
        rw [hremote, hL.send hx, hfail]
      rw [hL.addrOf_alone hn hx]
      dsimp only
      rw [alone_bind, firstTaken_alone hrun]
      exact hrest

end links

/-! ### Calls of external systems -/

/-- Calm, and no call of an external system. -/
def Action.Inner (e : Action) : Prop := e.Calm ∧ e.external = false

theorem wiring_inner : Wiring Action.Inner where
  on m {_} ha := ⟨plumbing_calm.on m ha, rfl⟩
  connect _ := ⟨trivial, rfl⟩
  reply _ := ⟨trivial, rfl⟩

section through
variable {α β : Type} {n name : Bytes}

theorem inner_alone {p : Prog α} (hp : p.All Action.Inner) (s : Alone) :
    (p.alone s).2.2 = s.2 ∧ ∀ m, ((p.alone s).2.1.nodes m).loaders = (s.1.nodes m).loaders := by
  refine Interleave.Prog.interp_of_all (I := fun s' : Alone => s'.2 = s.2 ∧
    ∀ m, (s'.1.nodes m).loaders = (s.1.nodes m).loaders) hp (fun e s' he hs' => ?_)
    ⟨rfl, fun _ => rfl⟩
  unfold Medusa.alone
  rw [he.2]
  exact ⟨hs'.1, fun m => (exec_loaders e _ s'.1 m).trans (hs'.2 m)⟩

/-- The program makes one call of the `MapStore` of node `n`, if there is one, and fails exactly when
the call does. -/
def Through (n name : Bytes) (p : Prog (Except ServiceError α)) : Prop :=
  ∀ s : Alone, ((s.1.nodes n).loaders name = .store → s.2 0 = true →
      (p.alone s).1 = .error .backingStore ∧ (p.alone s).2.2 = fun k => s.2 (k + 1)) ∧
    (((s.1.nodes n).loaders name ≠ .store ∨ s.2 0 = false) → ∃ out, (p.alone s).1 = .ok out)

theorem Through.after {p : Prog β} (hp : p.All Action.Inner) {f : β → Prog (Except ServiceError α)}
    (hf : ∀ a, Through n name (f a)) : Through n name (p >>= f) := by
  intro s
  have h := hf (p.alone s).1 (p.alone s).2
  rw [(inner_alone hp s).1, (inner_alone hp s).2] at h
  rw [alone_bind]
  exact h

theorem alone_source (n name : Bytes) (f : MapSource → Prog α) (s : Alone) :
    (Prog.on n (.source name) >>= f).alone s = (f ((s.1.nodes n).loaders name)).alone s :=
  alone_read (pure_source name) n f s

theorem through_write (n name key value : Bytes) (out : α) :
    Through n name (writeThrough n name key value out) := by
  intro s
  unfold writeThrough callThrough
  rw [alone_source]
  by_cases hstore : (s.1.nodes n).loaders name = .store
  · rw [if_pos hstore, alone_perform]
    cases hf : s.2 0 with
    | true => exact ⟨fun _ _ => by simp [Medusa.alone, Action.external, exec, hf], by simp [hstore]⟩
    | false => exact ⟨by simp, fun _ => ⟨out, by simp [Medusa.alone, Action.external, exec, hf]⟩⟩
  · rw [if_neg hstore]
    exact ⟨fun h => absurd h hstore, fun _ => ⟨out, rfl⟩⟩

theorem through_delete (n name key : Bytes) (out : α) :
    Through n name (deleteThrough n name key out) := by
  intro s
  unfold deleteThrough callThrough
  rw [alone_source]
  by_cases hstore : (s.1.nodes n).loaders name = .store
  · rw [if_pos hstore, alone_perform]
    cases hf : s.2 0 with
    | true => exact ⟨fun _ _ => by simp [Medusa.alone, Action.external, exec, hf], by simp [hstore]⟩
    | false => exact ⟨by simp, fun _ => ⟨out, by simp [Medusa.alone, Action.external, exec, hf]⟩⟩
  · rw [if_neg hstore]
    exact ⟨fun h => absurd h hstore, fun _ => ⟨out, rfl⟩⟩

theorem storePut_inner (n name key value : Bytes) (ttlMs : Int64) :
    (storePut n name key value ttlMs).All Action.Inner :=
  ⟨wiring_inner.on n trivial, fun _ => ⟨⟨trivial, rfl⟩, fun _ => trivial⟩⟩

/-- The owner's part of a put. -/
theorem through_applyPut (n name key value : Bytes) (ttlMs : Int64) :
    Through n name (Service.applyPut n name key value ttlMs false) :=
  Through.after (storePut_inner n name key value ttlMs) (fun _ =>
    Through.after (wiring_inner.replicate n _ (.put name key value ttlMs)
      (fun _ _ => ⟨trivial, rfl⟩)) (fun _ =>
    Through.after (wiring_inner.emit n _ name key value) (fun _ => through_write _ _ _ _ _)))

/-- The owner's part of a removal. -/
theorem through_applyRemove (n name key : Bytes) :
    Through n name (Service.applyRemove n name key false) := by
  have hremove : (Prog.on n (.remove name key)).All Action.Inner :=
    ⟨⟨trivial, rfl⟩, fun _ => trivial⟩
  exact Through.after hremove (fun existed =>
    Through.after (wiring_inner.replicate n _ (.remove name key) (fun _ => ⟨trivial, rfl⟩)) (fun _ =>
    Through.after (wiring_inner.emitRemoved n existed name key) (fun _ => through_delete _ _ _ _)))

/-- What follows a processor that changes the entry. -/
theorem through_finishExecute (n name key : Bytes) {r : Executed} (hr : r.action ≠ .keep) :
    Through n name (Service.finishExecute n name key r) := by
  unfold Service.finishExecute
  split
  · next h => exact absurd h hr
  · have hnow : (Prog.on n .nowNano).All Action.Inner :=
      ⟨wiring_inner.on n trivial, fun _ => trivial⟩
    exact Through.after hnow (fun _ =>
      Through.after (wiring_inner.replicate n _ (.put name key _ _) (fun _ _ => ⟨trivial, rfl⟩))
        (fun _ => Through.after (wiring_inner.emit n _ name key _) (fun _ => through_write _ _ _ _ _)))
  · exact Through.after (wiring_inner.replicate n _ (.remove name key) (fun _ => ⟨trivial, rfl⟩))
      (fun _ => Through.after (wiring_inner.emitRemoved n _ name key)
        (fun _ => through_delete _ _ _ _))

end through

section ordinary
variable {ids : List Bytes} {b : ℕ} {addr : Bytes → Bytes} {s : Alone} {r : Ref} {procs : Registry}
  {procName arg n x : Bytes} {proc : Processor}

/-- What a processor would do with the node's entry. -/
def Node.decides (nd : Node) (r : Ref) (proc : Processor) (arg : Bytes) : Store.Action :=
  (proc (nd.content r) arg).2.1

theorem applyExecute_action (hr : isReservedMap r.1 = false) (nd : Node) (proc : Processor)
    (arg : Bytes) : (Medusa.applyExecute nd.store r.1 r.2 proc arg nd.clock).out.action =
      nd.decides r proc arg := by
  unfold Node.decides Node.content
  rw [routedPartition_ordinary hr]
  rcases h : proc (nd.store.get (forKey r.2) r.1 r.2 nd.clock) arg with ⟨newVal, action, out⟩
  have h' : proc ((nd.store.lookup (forKey r.2) r.1 r.2 nd.clock).map Value.data) arg =
      (newVal, action, out) := h
  cases action <;> simp [Medusa.applyExecute, Store.update, h']

/-- A known processor on an ordinary map: its critical section, then what follows. -/
theorem applyExecute_alone (hr : isReservedMap r.1 = false) (hproc : procs procName = some proc)
    (n arg : Bytes) (s : Alone) : ∃ (res : Executed) (C' : Cluster),
      res.action = (s.1.nodes n).decides r proc arg ∧
      (∀ m, (C'.nodes m).loaders = (s.1.nodes m).loaders) ∧
      (Service.applyExecute procs n r.1 r.2 procName arg).alone s =
        (finishExecute n r.1 r.2 res).alone (C', s.2) := by
  have hq : r.1 ≠ queueMap := fun h => by simp [isReservedMap, h] at hr
  have hseg : r.1 ≠ queueSegMap := fun h => by simp [isReservedMap, h] at hr
  refine ⟨(Medusa.applyExecute (s.1.nodes n).store r.1 r.2 proc arg (s.1.nodes n).clock).out,
    (exec (.on n (.execute r.1 r.2 proc arg)) .still s.1).2, applyExecute_action hr _ _ _,
    fun m => exec_loaders _ _ _ m, ?_⟩
  unfold Service.applyExecute
  rw [if_neg hq, if_neg hseg, hproc]
  rfl

/-- The owner's part of a processor. -/
theorem execute_fails (hr : isReservedMap r.1 = false) (hproc : procs procName = some proc)
    (hkeep : (s.1.nodes n).decides r proc arg ≠ .keep) (hstore : (s.1.nodes n).loaders r.1 = .store)
    (hfail : s.2 0 = true) :
    ((Service.applyExecute procs n r.1 r.2 procName arg).alone s).1 = .error .backingStore ∧
      ((Service.applyExecute procs n r.1 r.2 procName arg).alone s).2.2 = fun k => s.2 (k + 1) := by
  obtain ⟨res, C', hact, hload, hrun⟩ := applyExecute_alone hr hproc n arg s
  rw [hrun]
  exact (through_finishExecute n r.1 r.2 (hact ▸ hkeep) (C', s.2)).1 ((hload n).symm ▸ hstore) hfail

theorem execute_succeeds (hr : isReservedMap r.1 = false) (hproc : procs procName = some proc)
    (h : (s.1.nodes n).decides r proc arg = .keep ∨ (s.1.nodes n).loaders r.1 ≠ .store ∨
      s.2 0 = false) :
    ∃ out, ((Service.applyExecute procs n r.1 r.2 procName arg).alone s).1 = .ok out := by
  obtain ⟨res, C', hact, hload, hrun⟩ := applyExecute_alone hr hproc n arg s
  rw [hrun]
  by_cases hkeep : res.action = .keep
  · unfold finishExecute
    rw [hkeep]
    exact ⟨_, rfl⟩
  · rcases h with hk | h
    · exact absurd (hact.trans hk) hkeep
    · exact (through_finishExecute n r.1 r.2 hkeep (C', s.2)).2 (by rwa [hload n])

/-! ### Reads -/

theorem alone_get (hr : isReservedMap r.1 = false) (x : Bytes) {α : Type}
    (f : Option Bytes → Prog α) (s : Alone) :
    (Prog.on x (.get (forKey r.2) r.1 r.2) >>= f).alone s =
      (f ((s.1.nodes x).content r)).alone s := by
  rw [alone_read (pure_get _ _ _), ← routedPartition_ordinary hr]
  rfl

/-- A node that is not the owner reads its store. -/
theorem getThrough_other (hL : Linked ids b addr [] s.1) (hr : isReservedMap r.1 = false)
    (hx : x ∈ ids) (hne : ownerOf ids b r.2 ≠ x) :
    (getThrough x r.1 r.2).alone s = (.ok ((s.1.nodes x).content r), s) := by
  unfold getThrough
  rw [routedPartition_ordinary hr, alone_get hr]
  cases (s.1.nodes x).content r with
  | some v => rfl
  | none =>
    dsimp only
    rw [alone_source]
    split
    · rfl
    · rw [hL.table_alone hx, if_pos hne]
      rfl

/-- The owner reads through: it fails exactly when it has to load and the load fails. -/
theorem getThrough_owner (hL : Linked ids b addr [] s.1) (hr : isReservedMap r.1 = false)
    (ho : ownerOf ids b r.2 ∈ ids) :
    ((s.1.nodes (ownerOf ids b r.2)).content r = none →
      (s.1.nodes (ownerOf ids b r.2)).loaders r.1 ≠ .none → s.2 0 = true →
      (getThrough (ownerOf ids b r.2) r.1 r.2).alone s =
        (.error .backingStore, s.1, fun k => s.2 (k + 1))) ∧
    (((s.1.nodes (ownerOf ids b r.2)).content r ≠ none ∨
      (s.1.nodes (ownerOf ids b r.2)).loaders r.1 = .none ∨ s.2 0 = false) →
      ∃ out, ((getThrough (ownerOf ids b r.2) r.1 r.2).alone s).1 = .ok out) := by
  unfold getThrough
  rw [routedPartition_ordinary hr, alone_get hr]
  cases (s.1.nodes (ownerOf ids b r.2)).content r with
  | some v => exact ⟨(fun h => nomatch h), fun _ => ⟨_, rfl⟩⟩
  | none =>
    dsimp only
    rw [alone_source]
    by_cases hnone : (s.1.nodes (ownerOf ids b r.2)).loaders r.1 = .none
    · rw [if_pos hnone]
      exact ⟨fun _ h => absurd hnone h, fun _ => ⟨none, rfl⟩⟩
    · rw [if_neg hnone, hL.table_alone ho, if_neg (not_not.mpr rfl), alone_perform]
      cases hf : s.2 0 with
      | true =>
        refine ⟨fun _ _ _ => ?_, by simp [hnone]⟩
        simp [Medusa.alone, Action.external, exec, hf]
      | false =>
        refine ⟨by simp, fun _ => ?_⟩
        simp only [Medusa.alone, Action.external, exec, hf, if_true, Bool.false_eq_true, if_false]
        cases s.1.backing (r.1, r.2) with
        | none => exact ⟨none, rfl⟩
        | some v => exact ⟨_, rfl⟩

/-- The search among the backups finds the first copy, wherever it starts. -/
theorem tryEach_get (hL : Linked ids b addr [] s.1) (hr : isReservedMap r.1 = false) (hn : n ∈ ids)
    {bs : List Bytes} (hbs : bs ⊆ ids) (howner : ownerOf ids b r.2 ∉ bs) :
    (Map.tryEach n (Map.getBackup n (forKey r.2) r.1 r.2) bs (.ok none)).alone s =
      (.ok (bs.findSome? (fun x => (s.1.nodes x).content r)), s) := by
  induction bs with
  | nil => rfl
  | cons x bs ih =>
    have hx : x ∈ ids := hbs List.mem_cons_self
    have hrest := ih (fun y hy => hbs (List.mem_cons_of_mem _ hy))
      (fun h => howner (List.mem_cons_of_mem _ h))
    have hne : ownerOf ids b r.2 ≠ x := fun h => howner (h ▸ List.mem_cons_self)
    have hstop : ∀ {p : Prog (Bool × Except ServiceError (Option Bytes))},
        p.alone s = ((((s.1.nodes x).content r).isSome, .ok ((s.1.nodes x).content r)), s) →
        (p >>= fun r' => if r'.1 then return r'.2
          else Map.tryEach n (Map.getBackup n (forKey r.2) r.1 r.2) bs r'.2).alone s =
        (.ok ((x :: bs).findSome? (fun x => (s.1.nodes x).content r)), s) := by
      intro p hp
      rw [alone_bind, hp, List.findSome?_cons]
      cases (s.1.nodes x).content r with
      | none => exact hrest
      | some v => rfl
    unfold Map.tryEach
    split
    · next hxn =>
      subst hxn
      refine hstop ?_
      unfold Map.getBackup
      rw [alone_get hr]
      rfl
    · rw [hL.addrOf_alone hn hx]
      refine hstop ?_
      unfold Map.getBackup sendGet
      rw [alone_bind, hL.send hx, getThrough_other hL hr hx hne]
      rfl

end ordinary

/-! ### The two paths -/

/-- An operation on one key of a map. -/
inductive MapOp where
  | put (value : Bytes) (ttlMs : Int64)
  | get
  | remove
  | execute (procName arg : Bytes)
deriving DecidableEq, Repr

/-- What a caller gets back. -/
inductive Answer where
  | stored
  | value (v : Option Bytes)
  | existed (e : Bool)
  | result (out : Bytes)
deriving DecidableEq, Repr

/-- The operation on node `n`. -/
def MapOp.prog (procs : Registry) (r : Ref) (n : Bytes) : MapOp → Prog (Except ServiceError Answer)
  | put value ttlMs => do return (← Map.putWithTTL n r.1 r.2 value ttlMs).map (fun _ => .stored)
  | get => do return (← Map.get n r.1 r.2).map .value
  | remove => do return (← Map.remove n r.1 r.2).map .existed
  | execute procName arg => do return (← Map.execute procs n r.1 r.2 procName arg).map .result

/-- The operation makes the owner call an external system. -/
def MapOp.Calls (procs : Registry) (r : Ref) (owner : Node) : MapOp → Prop
  | put _ _ => owner.loaders r.1 = .store
  | get => owner.content r = none ∧ owner.loaders r.1 ≠ .none
  | remove => owner.loaders r.1 = .store
  | execute procName arg => ∃ proc, procs procName = some proc ∧
      owner.decides r proc arg ≠ .keep ∧ owner.loaders r.1 = .store

/-- The same answer, or an error on both sides; the same stores on all nodes, and the same content
of the external systems. -/
def SameOutcome {α : Type} (x y : Except ServiceError α × Alone) : Prop :=
  x.1.toOption = y.1.toOption ∧ (∀ m, (x.2.1.nodes m).store = (y.2.1.nodes m).store) ∧
    x.2.1.backing = y.2.1.backing

theorem SameOutcome.refl {α : Type} (x : Except ServiceError α × Alone) : SameOutcome x x :=
  ⟨rfl, fun _ => rfl, rfl⟩

/-- The result of a run, translated. -/
def answering {α β : Type} (f : α → β) (x : Except ServiceError α × Alone) :
    Except ServiceError β × Alone := (x.1.map f, x.2)

theorem alone_answering {α β : Type} (p : Prog (Except ServiceError α)) (f : α → β) (s : Alone) :
    Prog.alone (do return (← p).map f) s = answering f (p.alone s) := alone_bind p _ s

theorem answering_answering {α β γ : Type} (f : α → β) (g : β → γ)
    (x : Except ServiceError α × Alone) :
    answering g (answering f x) = answering (fun a => g (f a)) x := by
  obtain ⟨out, s⟩ := x
  cases out <;> rfl

theorem not_sameOutcome {α β : Type} {f : α → β} {x y : Except ServiceError α × Alone} (out : α)
    {e : ServiceError} (hx : x.1 = .ok out) (hy : y.1 = .error e) :
    ¬ SameOutcome (answering f x) (answering f y) := by
  rintro ⟨h, -⟩
  rw [answering, answering, hx, hy] at h
  cases h

section paths
variable {ids : List Bytes} {b : ℕ} {addr : Bytes → Bytes} {C : Cluster} {r : Ref} {n : Bytes}

theorem SharedView.linked (hV : SharedView ids b addr C) : Linked ids b addr [] C where
  table _ hn := hV.table hn
  addrOf _ hn _ hx := hV.addrOf hn hx
  listen x hx := by rw [if_neg List.not_mem_nil, (hV.listen _ x).mpr ⟨hx, rfl⟩]

/-- The two paths of a write that fails when the owner's external call does. -/
theorem viaOwner_same_iff {α β : Type} (asOwner backup : Bytes → Prog (Except ServiceError α))
    (serve : Bytes → Option Bytes → Prog (Except ServiceError α)) (f : α → β) {key : Bytes}
    (calls : Prop) {first : Bool} (run : Bytes → Alone → Except ServiceError β × Alone)
    (hrun : ∀ m s, run m s = answering f
      ((Map.viaOwner m key (asOwner m) (fun a => send a asOwner) (serve m)).alone s))
    (hL : Linked ids b addr [] C) (hn : n ∈ ids) (hne : ownerOf ids b key ≠ n)
    (hcalm : ∀ x, (asOwner x).All Action.Calm) (hlocal : serve n none = backup n)
    (hremote : ∀ a, serve n (some a) = send a backup)
    (hfails : ∀ fails, calls → fails 0 = true → ∃ e,
      ((asOwner (ownerOf ids b key)).alone (C, fails)).1 = .error e)
    (hsucceeds : ∀ fails, ¬ calls ∨ fails 0 = false → ∃ out,
      ((asOwner (ownerOf ids b key)).alone (C, fails)).1 = .ok out)
    (hbackup : calls → ∃ fails : ℕ → Bool, fails 0 = true ∧ ∀ x, ∃ out, ((backup x).alone
      ((asOwner (ownerOf ids b key)).alone (C, fails)).2).1 = .ok out) :
    (∀ fails, fails 0 = first →
      SameOutcome (run n (C, fails)) (run (ownerOf ids b key) (C, fails))) ↔
    (calls → first = true → (newTable ids b).backupsOf (forKey key) = []) := by
  have hids : ids ≠ [] := List.ne_nil_of_mem hn
  have ho : ownerOf ids b key ∈ ids := mem_of_mem_holders (ownerOf_holder hids b _)
  have howner : ∀ fails, run (ownerOf ids b key) (C, fails) =
      answering f ((asOwner (ownerOf ids b key)).alone (C, fails)) := by
    intro fails
    rw [hrun, viaOwner_local (s := (C, fails)) asOwner hL ho]
  constructor
  · intro hsame hcalls hfirst
    by_contra hbs
    obtain ⟨fails, hfail, hok⟩ := hbackup hcalls
    obtain ⟨e, he⟩ := hfails fails hcalls hfail
    have hsub : (newTable ids b).backupsOf (forKey key) ⊆ ids := fun y hy =>
      mem_of_mem_holders (holders_eq_cons hids b (forKey key) ▸ List.mem_cons_of_mem _ hy)
    have hL' : Linked ids b addr [] ((asOwner (ownerOf ids b key)).alone (C, fails)).2.1 :=
      Linked.alone (hcalm _) hL
    obtain ⟨out, hout⟩ := tryEach_first hL' hn hsub hbs hlocal hremote hok (.error e)
    have h := hsame fails (hfail.trans hfirst.symm)
    rw [howner, hrun, viaOwner_remote (s := (C, fails)) hL hn ho hne hcalm] at h
    refine not_sameOutcome out ?_ he h
    rcases hown : (asOwner (ownerOf ids b key)).alone (C, fails) with ⟨res, s'⟩
    rw [hown] at he hout
    cases he
    exact hout
  · intro hcond fails hfails'
    rw [howner, hrun, viaOwner_eq (s := (C, fails)) hL hn ho hne hcalm]
    · exact SameOutcome.refl _
    · by_cases hcalls : calls
      · cases hfirst : first with
        | true => exact Or.inr (hcond hcalls hfirst)
        | false => exact Or.inl (hsucceeds fails (Or.inr (hfails'.trans hfirst)))
      · exact Or.inl (hsucceeds fails (Or.inl hcalls))

section get
variable {s : Alone} (hL : Linked ids b addr [] s.1)
include hL

theorem getBackups_alone (hnodup : ids.Nodup) (hr : isReservedMap r.1 = false) (hn : n ∈ ids) :
    (Map.tryBackups n (forKey r.2) (Map.getBackup n (forKey r.2) r.1 r.2) (.ok none)).alone s =
      (.ok (((newTable ids b).backupsOf (forKey r.2)).findSome?
        (fun x => (s.1.nodes x).content r)), s) := by
  have hcons := holders_eq_cons (List.ne_nil_of_mem hn) b (forKey r.2)
  have hnd : (holders ids b (forKey r.2)).Nodup := Ranking.top_nodup _ hnodup
  rw [hcons] at hnd
  unfold Map.tryBackups
  rw [hL.table_alone hn]
  exact tryEach_get hL hr hn (fun y hy => mem_of_mem_holders (hcons ▸ List.mem_cons_of_mem _ hy))
    (List.nodup_cons.mp hnd).1

/-- On the owner, `Get` reports an error of the load. -/
theorem get_local (ho : ownerOf ids b r.2 ∈ ids) : (Map.get (ownerOf ids b r.2) r.1 r.2).alone s =
    match (getThrough (ownerOf ids b r.2) r.1 r.2).alone s with
    | (.error e, s') => (.error e, s')
    | (.ok (some v), s') => (.ok (some v), s')
    | (.ok none, s') => (Map.tryBackups (ownerOf ids b r.2) (forKey r.2)
        (Map.getBackup (ownerOf ids b r.2) (forKey r.2) r.1 r.2) (.ok none)).alone s' := by
  unfold Map.get
  rw [alone_bind, route_local hL ho]
  dsimp only
  rw [if_pos rfl, alone_bind]
  rcases (getThrough (ownerOf ids b r.2) r.1 r.2).alone s with ⟨_ | _ | _, s'⟩ <;> rfl

/-- Elsewhere it takes the error for an owner without the key. -/
theorem get_remote (hn : n ∈ ids) (ho : ownerOf ids b r.2 ∈ ids) (hne : ownerOf ids b r.2 ≠ n) :
    (Map.get n r.1 r.2).alone s =
      match (getThrough (ownerOf ids b r.2) r.1 r.2).alone s with
      | (.ok (some v), s') => (.ok (some v), s')
      | (_, s') => (Map.tryBackups n (forKey r.2)
          (Map.getBackup n (forKey r.2) r.1 r.2) (.ok none)).alone s' := by
  unfold Map.get
  rw [alone_bind, route_remote hL hn ho hne]
  dsimp only
  rw [if_neg Bool.false_ne_true, sendGet, alone_bind, hL.send ho]
  rcases (getThrough (ownerOf ids b r.2) r.1 r.2).alone s with ⟨_ | _ | _, s'⟩ <;> rfl

end get

theorem getThrough_calm (n name key : Bytes) : (getThrough n name key).All Action.Calm := by
  refine ⟨trivial, fun v => ?_⟩
  cases v with
  | some v => trivial
  | none =>
    refine Interleave.Prog.All.step trivial (fun src => ?_)
    split
    · trivial
    · refine Interleave.Prog.All.step trivial (fun tbl => ?_)
      split
      · trivial
      · refine Interleave.Prog.All.step trivial (fun loaded => ?_)
        rcases loaded with _ | _ | v
        · trivial
        · trivial
        · exact ⟨trivial, fun _ => trivial⟩

/-- Issued on `n` and issued on the owner, the operation has the same outcome, however the external
systems behave after their first call. -/
def PathsAgree (ids : List Bytes) (b : ℕ) (C : Cluster) (r : Ref) (n : Bytes) (procs : Registry)
    (first : Bool) (op : MapOp) : Prop :=
  ∀ fails : ℕ → Bool, fails 0 = first → SameOutcome ((op.prog procs r n).alone (C, fails))
    ((op.prog procs r (ownerOf ids b r.2)).alone (C, fails))

/-- The calls fail at first and succeed from then on. -/
def failsOnce (k : ℕ) : Bool := k == 0

section operations
variable (hV : SharedView ids b addr C) (hr : isReservedMap r.1 = false) (hn : n ∈ ids)
  (hne : ownerOf ids b r.2 ≠ n) (procs : Registry) (first : Bool)
include hV hr hn hne

theorem put_paths_iff (value : Bytes) (ttlMs : Int64) :
    PathsAgree ids b C r n procs first (.put value ttlMs) ↔
      ((MapOp.put value ttlMs).Calls procs r (C.nodes (ownerOf ids b r.2)) → first = true →
        (newTable ids b).backupsOf (forKey r.2) = []) := by
  have hthrough := fun fails => through_applyPut (ownerOf ids b r.2) r.1 r.2 value ttlMs (C, fails)
  refine viaOwner_same_iff (fun x => Service.applyPut x r.1 r.2 value ttlMs false)
    (fun x => Service.applyPut x r.1 r.2 value ttlMs true)
    (fun m => Map.putBackup m r.1 r.2 value ttlMs) (fun _ => Answer.stored)
    ((C.nodes (ownerOf ids b r.2)).loaders r.1 = .store)
    (fun m => ((MapOp.put value ttlMs).prog procs r m).alone) (fun m s => ?_) hV.linked hn hne
    (fun x => plumbing_calm.applyPut _ _ _ _ _ _ (fun _ _ => trivial)) rfl (fun _ => rfl)
    (fun fails hcalls hfail => ⟨_, ((hthrough fails).1 hcalls hfail).1⟩)
    (fun fails h => (hthrough fails).2 h)
    (fun _ => ⟨failsOnce, rfl, fun x => ⟨_, rfl⟩⟩)
  unfold MapOp.prog Map.putWithTTL
  rw [hr, alone_answering, if_neg Bool.false_ne_true, alone_answering, answering_answering]
  rfl

theorem remove_paths_iff :
    PathsAgree ids b C r n procs first .remove ↔
      (MapOp.remove.Calls procs r (C.nodes (ownerOf ids b r.2)) → first = true →
        (newTable ids b).backupsOf (forKey r.2) = []) := by
  have hthrough := fun fails => through_applyRemove (ownerOf ids b r.2) r.1 r.2 (C, fails)
  refine viaOwner_same_iff (fun x => Service.applyRemove x r.1 r.2 false)
    (fun x => Service.applyRemove x r.1 r.2 true) (fun m => Map.removeBackup m r.1 r.2)
    Answer.existed ((C.nodes (ownerOf ids b r.2)).loaders r.1 = .store)
    (fun m => (MapOp.remove.prog procs r m).alone) (fun m s => ?_) hV.linked hn hne
    (fun x => plumbing_calm.applyRemove _ _ _ _ (fun _ => trivial)) rfl (fun _ => rfl)
    (fun fails hcalls hfail => ⟨_, ((hthrough fails).1 hcalls hfail).1⟩)
    (fun fails h => (hthrough fails).2 h)
    (fun _ => ⟨failsOnce, rfl, fun x => ⟨_, rfl⟩⟩)
  unfold MapOp.prog Map.remove
  rw [hr, alone_answering, if_neg Bool.false_ne_true]
  rfl

theorem execute_paths_iff (procName arg : Bytes) :
    PathsAgree ids b C r n procs first (.execute procName arg) ↔
      ((MapOp.execute procName arg).Calls procs r (C.nodes (ownerOf ids b r.2)) → first = true →
        (newTable ids b).backupsOf (forKey r.2) = []) := by
  have hL := hV.linked
  have hids : ids ≠ [] := List.ne_nil_of_mem hn
  have ho : ownerOf ids b r.2 ∈ ids := mem_of_mem_holders (ownerOf_holder hids b _)
  have hcalm : ∀ x, (Service.applyExecute procs x r.1 r.2 procName arg).All Action.Calm := fun x =>
    plumbing_calm.applyExecute (fun _ _ _ _ _ => trivial) (fun _ _ _ => trivial) procs _ _ _ _ _
      (fun _ _ => trivial) (fun _ => trivial)
  have hrun : ∀ m s, ((MapOp.execute procName arg).prog procs r m).alone s = answering Answer.result
      ((Map.viaOwner m r.2 (Service.applyExecute procs m r.1 r.2 procName arg)
        (fun a => send a (fun x => Service.applyExecute procs x r.1 r.2 procName arg))
        (Map.executeBackup procs m r.1 r.2 procName arg)).alone s) := fun m s => alone_answering _ _ s
  cases hproc : procs procName with
  | none =>
    -- every node knows the same processors
    have hunknown : ∀ x s, (Service.applyExecute procs x r.1 r.2 procName arg).alone s =
        (.error (.unknownProcessor procName), s) := by
      intro x s
      have hq : r.1 ≠ queueMap := fun h => by simp [isReservedMap, h] at hr
      have hseg : r.1 ≠ queueSegMap := fun h => by simp [isReservedMap, h] at hr
      unfold Service.applyExecute
      rw [if_neg hq, if_neg hseg, hproc]
      rfl
    have hsub : (newTable ids b).backupsOf (forKey r.2) ⊆ ids := fun y hy =>
      mem_of_mem_holders (holders_eq_cons hids b (forKey r.2) ▸ List.mem_cons_of_mem _ hy)
    have hcalls : ¬ (MapOp.execute procName arg).Calls procs r (C.nodes (ownerOf ids b r.2)) := by
      rintro ⟨_, h, _⟩
      exact absurd (hproc.symm.trans h) (by simp)
    refine ⟨fun _ h => absurd h hcalls, fun _ fails _ => ?_⟩
    have hnone : (Map.tryEach n (Map.firstTaken (Map.executeBackup procs n r.1 r.2 procName arg))
        ((newTable ids b).backupsOf (forKey r.2)) (.error (.unknownProcessor procName))).alone
          (C, fails) = (.error (.unknownProcessor procName), C, fails) :=
      tryEach_none (s := (C, fails)) hL hn hsub rfl (fun _ => rfl) (fun x => hunknown x _)
    rw [hrun, hrun, viaOwner_remote (s := (C, fails)) hL hn ho hne hcalm,
      viaOwner_local (s := (C, fails))
        (fun x => Service.applyExecute procs x r.1 r.2 procName arg) hL ho, hunknown]
    dsimp only
    rw [hnone]
    exact SameOutcome.refl _
  | some proc =>
    refine viaOwner_same_iff (fun x => Service.applyExecute procs x r.1 r.2 procName arg)
      (fun x => Service.applyExecute procs x r.1 r.2 procName arg)
      (fun m => Map.executeBackup procs m r.1 r.2 procName arg) Answer.result
      ((MapOp.execute procName arg).Calls procs r (C.nodes (ownerOf ids b r.2)))
      (fun m => ((MapOp.execute procName arg).prog procs r m).alone) hrun hL hn hne hcalm rfl
      (fun _ => rfl) ?_ ?_ ?_
    · rintro fails ⟨proc', hproc', hkeep, hstore⟩ hfail
      exact ⟨_, (execute_fails (s := (C, fails)) hr hproc' hkeep hstore hfail).1⟩
    · intro fails h
      refine execute_succeeds (s := (C, fails)) hr hproc ?_
      by_cases hkeep : (C.nodes (ownerOf ids b r.2)).decides r proc arg = .keep
      · exact Or.inl hkeep
      · exact Or.inr (h.imp_left (fun hcalls hstore => hcalls ⟨proc, hproc, hkeep, hstore⟩))
    · rintro ⟨proc', hproc', hkeep, hstore⟩
      refine ⟨failsOnce, rfl, fun x => execute_succeeds hr hproc (Or.inr (Or.inr ?_))⟩
      rw [(execute_fails (s := (C, failsOnce)) hr hproc' hkeep hstore rfl).2]
      rfl

/-- A remote caller of `Get` never sees the error of a load. -/
theorem get_paths_iff :
    PathsAgree ids b C r n procs first .get ↔
      (MapOp.get.Calls procs r (C.nodes (ownerOf ids b r.2)) → first = false) := by
  have hL := hV.linked
  have hids : ids ≠ [] := List.ne_nil_of_mem hn
  have ho : ownerOf ids b r.2 ∈ ids := mem_of_mem_holders (ownerOf_holder hids b _)
  have hrun : ∀ m s, (MapOp.get.prog procs r m).alone s =
      answering Answer.value ((Map.get m r.1 r.2).alone s) := fun m s => alone_answering _ _ s
  constructor
  · rintro hsame ⟨hnone, hloaders⟩
    by_contra hfirst
    rw [Bool.not_eq_false] at hfirst
    have h := hsame failsOnce hfirst.symm
    have hload := (getThrough_owner (s := (C, failsOnce)) hL hr ho).1 hnone hloaders rfl
    rw [hrun, hrun, get_local (s := (C, failsOnce)) hL ho,
      get_remote (s := (C, failsOnce)) hL hn ho hne, hload] at h
    dsimp only at h
    rw [getBackups_alone (s := (C, _)) hL hV.nodup hr hn] at h
    exact not_sameOutcome _ rfl rfl h
  · intro hcond fails hfails
    have hok : ∃ out, ((getThrough (ownerOf ids b r.2) r.1 r.2).alone (C, fails)).1 = .ok out := by
      refine (getThrough_owner (s := (C, fails)) hL hr ho).2 ?_
      by_cases hcalls : MapOp.get.Calls procs r (C.nodes (ownerOf ids b r.2))
      · exact Or.inr (Or.inr (hfails.trans (hcond hcalls)))
      · rw [MapOp.Calls, not_and_or, not_not] at hcalls
        exact hcalls.imp_right Or.inl
    have hL' : Linked ids b addr [] ((getThrough (ownerOf ids b r.2) r.1 r.2).alone (C, fails)).2.1 :=
      Linked.alone (getThrough_calm _ _ _) hL
    rw [hrun, hrun, get_local (s := (C, fails)) hL ho, get_remote (s := (C, fails)) hL hn ho hne]
    rcases hown : (getThrough (ownerOf ids b r.2) r.1 r.2).alone (C, fails) with ⟨out, s'⟩
    rw [hown] at hok hL'
    obtain ⟨v, rfl⟩ := hok
    cases v with
    | some v => exact SameOutcome.refl _
    | none =>
      dsimp only
      rw [getBackups_alone hL' hV.nodup hr hn, getBackups_alone hL' hV.nodup hr ho]
      exact SameOutcome.refl _

/-- **The remote path agrees with the local path** exactly when the owner makes no call of an external
system for the operation, or the call succeeds, or the operation is not a `Get` and the key has no
backup. -/
theorem remote_eq_local_iff (op : MapOp) :
    PathsAgree ids b C r n procs first op ↔
      (op.Calls procs r (C.nodes (ownerOf ids b r.2)) → first = true →
        op ≠ .get ∧ (newTable ids b).backupsOf (forKey r.2) = []) := by
  cases op with
  | put value ttlMs => simpa using put_paths_iff hV hr hn hne procs first value ttlMs
  | remove => simpa using remove_paths_iff hV hr hn hne procs first
  | execute procName arg => simpa using execute_paths_iff hV hr hn hne procs first procName arg
  | get =>
    rw [get_paths_iff hV hr hn hne procs first]
    simp

end operations

end paths

/-! ### A failing store -/

/-- The cluster `trio` with a `MapStore` registered on every node. -/
def backed : Cluster :=
  { trio with nodes := fun n => { trio.nodes n with loaders := fun _ => .store } }

theorem backed_sharedView : SharedView [[97], [98], [99]] 2 id backed :=
  ⟨trio_sharedView.nodup, trio_sharedView.named, trio_sharedView.addr_inj, trio_sharedView.self,
    trio_sharedView.count, trio_sharedView.known, trio_sharedView.full, trio_sharedView.listen⟩

theorem backed_owner : ownerOf [[97], [98], [99]] 2 [114] = [97] := by decide +kernel

/-- A processor that appends its argument to the value. -/
def appendArg : Processor := fun cur arg => (cur.getD [] ++ arg, .set, cur.getD [] ++ arg)

/-- With a store that works, a processor run from `b` is run once, on the owner. -/
theorem remote_eq_local_append : PathsAgree [[97], [98], [99]] 2 backed ([109], [114]) [98]
    (fun _ => some appendArg) false (.execute [] [49]) := by
  refine (remote_eq_local_iff backed_sharedView rfl (by decide) ?_ _ _ _).mpr
    (fun _ h => absurd h Bool.false_ne_true)
  rw [backed_owner]
  decide

/-- **A remote caller is not told of a failed store**: the store of the owner `a` fails once.  Issued
on `a`, a put and a processor report the error; issued on `b` they report success.  The processor
has then run a second time, on the first backup: `a` and the backups `c` and `b` disagree. -/
theorem remote_hides_failure :
    let put := fun n => ((MapOp.put [119] 0).prog (fun _ => none) ([109], [114]) n).alone
      (backed, failsOnce)
    let execute := fun n => ((MapOp.execute [] [49]).prog (fun _ => some appendArg) ([109], [114])
      n).alone (backed, failsOnce)
    SharedView [[97], [98], [99]] 2 id backed ∧ ownerOf [[97], [98], [99]] 2 [114] = [97] ∧
    (put [97]).1 = .error .backingStore ∧ (put [98]).1 = .ok .stored ∧
    (execute [97]).1 = .error .backingStore ∧ (execute [98]).1 = .ok (.result [118, 49, 49]) ∧
    ((execute [98]).2.1.nodes [97]).content ([109], [114]) = some [118, 49] ∧
    ((execute [98]).2.1.nodes [99]).content ([109], [114]) = some [118, 49, 49] ∧
    ((execute [98]).2.1.nodes [98]).content ([109], [114]) = some [118, 49, 49] := by
  refine ⟨backed_sharedView, backed_owner, ?_⟩
  decide +kernel

end Medusa
