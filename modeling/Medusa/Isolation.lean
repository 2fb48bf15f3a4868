import Medusa.Calls
import Medusa.Replicas

/-! # Queues and maps side by side

Queue state is stored as ordinary entries of two reserved maps, in the same shards as everything else.
On one node, queue operations and map operations run in any interleaving.

* `SameQueues`: two stores have the same queue entries, and none of them expires.
* `GridOp.obeys_queueOp`, `GridOp.obeys_other`: a queue operation reads and writes nothing else, and every
  other operation leaves the queue entries alone (`NodeAction.Spares`), also when it names a reserved map.
* `queues_and_maps`: **queue operations cannot tell whether the map operations ran**, and they change no
  other map. -/

namespace Medusa

open Medusa.Partition Store Interleave Service Contract

/-! ### Queue entries -/

/-- The stores have the same entries in the reserved maps, and these do not expire. -/
structure SameQueues (s s' : Store) : Prop where
  find : ∀ p r, isReservedMap r.1 = true → s'.find p r = s.find p r
  lasting : ∀ p r v, isReservedMap r.1 = true → s.find p r = some v → v.expireAt = 0

theorem not_expired_of_zero {v : Value} (h : v.expireAt = 0) (now : ℕ) : v.expired now = false := by
  simp [Value.expired, h]

section same
variable {s s' : Store}

theorem SameQueues.get (h : SameQueues s s') (p : PartitionId) (now now' : ℕ) {name : Bytes}
    (hname : isReservedMap name = true) (key : Bytes) :
    (⟨s'.shards p, []⟩ : Txn).get now' name key = (⟨s.shards p, []⟩ : Txn).get now name key := by
  have hfind : (s'.shards p).lookup (name, key) = (s.shards p).lookup (name, key) :=
    h.find p (name, key) hname
  unfold Txn.get
  rw [hfind]
  cases hv : (s.shards p).lookup (name, key) with
  | none => rfl
  | some v =>
    have hzero := h.lasting p (name, key) v hname hv
    simp [Option.filter_some, not_expired_of_zero hzero]

theorem SameQueues.set (h : SameQueues s s') (p : PartitionId) (r : Ref) (d : Bytes) :
    SameQueues (s.set p r ⟨d, 0⟩) (s'.set p r ⟨d, 0⟩) where
  find q r' hr := by rw [find_set, find_set, h.find q r' hr]
  lasting q r' v hr hv := by
    rw [find_set] at hv
    split at hv
    · rw [← Option.some.inj hv]
    · exact h.lasting q r' v hr hv

theorem SameQueues.erase (h : SameQueues s s') (p : PartitionId) (r : Ref) :
    SameQueues (s.erase p r) (s'.erase p r) where
  find q r' hr := by rw [find_erase, find_erase, h.find q r' hr]
  lasting q r' v hr hv := by
    rw [find_erase] at hv
    split at hv
    · cases hv
    · exact h.lasting q r' v hr hv

/-- **A queue operation does the same to the same queues.** -/
theorem SameQueues.queueTxn (h : SameQueues s s') (now now' : ℕ) (q : Bytes) (op : QueueOp)
    (arg : Bytes) :
    (queueTxn s' now' q op arg).1 = (queueTxn s now q op arg).1 ∧
      (queueTxn s' now' q op arg).2.1 = (queueTxn s now q op arg).2.1 ∧
      SameQueues (queueTxn s now q op arg).2.2 (queueTxn s' now' q op arg).2.2 := by
  have hget : ∀ name key, isReservedMap name = true →
      (⟨s'.shards (forKey q), []⟩ : Txn).get now' name key =
        (⟨s.shards (forKey q), []⟩ : Txn).get now name key :=
    fun name key hname => h.get (forKey q) now now' hname key
  have hnone : (⟨s'.shards (forKey q), []⟩ : Txn).muts = (⟨s.shards (forKey q), []⟩ : Txn).muts := rfl
  obtain ⟨hout, hmuts⟩ := queueOp_congr hnone hget q op arg
  refine ⟨hout, hmuts, ?_⟩
  rw [queueTxn_store, queueTxn_store,
    show (Medusa.queueTxn s' now' q op arg).2.1 = (Medusa.queueTxn s now q op arg).2.1 from hmuts]
  exact applyMutations_rel (fun _ _ r d hs => hs.set _ r d) (fun _ _ r hs => hs.erase _ r) h _

/-- The second store may be compared with any store that has the same queue entries as the first. -/
theorem SameQueues.of_find {t : Store} (h : SameQueues s s')
    (ht : ∀ p r, isReservedMap r.1 = true → t.find p r = s.find p r) : SameQueues t s' where
  find p r hr := (h.find p r hr).trans (ht p r hr).symm
  lasting p r v hr hv := h.lasting p r v hr ((ht p r hr).symm.trans hv)

end same

/-! ### Critical sections that leave queues alone -/

/-- The critical section changes no entry of a reserved map. -/
def NodeAction.Spares : NodeAction → Prop
  | .cacheLoaded _ name _ _ => isReservedMap name = false
  | .put name _ _ _ => isReservedMap name = false
  | .remove name _ => isReservedMap name = false
  | .execute name _ _ _ => isReservedMap name = false
  | .queueExecute _ op _ => ∃ name, op = .other name
  | .clearMap name => isReservedMap name = false
  | .drop _ _ => False
  | .prune _ _ => False
  | _ => True

theorem ne_of_reserved {name key : Bytes} {r : Ref} (hname : isReservedMap name = false)
    (hr : isReservedMap r.1 = true) : r ≠ (name, key) := by
  rintro rfl
  rw [hname] at hr
  cases hr

/-- Outside the queue operations, sparing is not touching. -/
theorem NodeAction.Spares.not_touches {a : NodeAction} (ha : a.Spares)
    (hne : ∀ q op arg, a ≠ .queueExecute q op arg) {r : Ref} (hr : isReservedMap r.1 = true) :
    ¬ a.Touches r := by
  cases a with
  | cacheLoaded | put | remove | execute => exact ne_of_reserved ha hr
  | clearMap name =>
    rintro rfl
    exact absurd hr (by rw [show isReservedMap r.1 = false from ha]; simp)
  | queueExecute q op arg => exact (hne q op arg rfl).elim
  | drop | prune => exact ha.elim
  | _ => exact id

/-- Entries of reserved maps stay as they are, when they do not expire. -/
theorem NodeAction.Spares.find {a : NodeAction} (ha : a.Spares) (nd : Node) {s' : Store}
    (h : SameQueues nd.store s') (c : Choice) (p : PartitionId) {r : Ref}
    (hr : isReservedMap r.1 = true) : (nd.exec c a).2.store.find p r = nd.store.find p r := by
  by_cases hq : ∃ q op arg, a = .queueExecute q op arg
  · obtain ⟨q, op, arg, rfl⟩ := hq
    obtain ⟨name, rfl⟩ := ha
    change (Medusa.queueTxn nd.store nd.clock q (.other name) arg).2.2.find p r = _
    rw [queueTxn_store, find_foldl_applyMutation]
    rfl
  · have hnot := ha.not_touches (fun q op arg he => hq ⟨q, op, arg, he⟩) hr
    rcases find_of_not_touches hnot nd c p with hsame | hswept
    · exact hsame
    · rw [hswept]
      cases hv : nd.store.find p r with
      | none => rfl
      | some v => simp [not_expired_of_zero (h.lasting p r v hr hv)]

/-! ### The contract -/

/-- The node is alone, has no loader of a reserved map, and its queue entries are those of a node with
the same membership. -/
structure Beside (n : Bytes) (C C' : Cluster) : Prop where
  alone : (C.nodes n).mem.members.keys = [n]
  mem : (C'.nodes n).mem = (C.nodes n).mem
  loaders : ∀ name, isReservedMap name = true → (C.nodes n).loaders name = .none
  queues : SameQueues (C.nodes n).store (C'.nodes n).store

/-- What a queue operation does on a node alone. -/
def Action.Queues (n : Bytes) : Action → Prop
  | .on m .table => m = n
  | .on m (.queueExecute _ _ _) => m = n
  | _ => False

/-- The action leaves the queues of node `n` alone, and its membership. -/
def Action.Spares (n : Bytes) : Action → Prop
  | .on m a => m = n → a.Spares ∧ a.Calm
  | .start _ => False
  | .crash _ => False
  | .close _ => False
  | _ => True

/-- Threads on node `n`, those in `keep` queue operations and the others not.  They are told that the
node is alone, that no reserved map has a loader, that a sample has what it was asked for, and that an
operation that is none of a queue fails. -/
def apart (n : Bytes) (keep : ℕ → Prop) : Contract Action.Resp where
  pre i _ e := (keep i → e.Queues n) ∧ (¬ keep i → e.Spares n)
  post _ _ e resp :=
    match e, resp with
    | .on m .table, tbl => m = n → ∀ p, tbl.ownerOf p = n ∧ tbl.backupsOf p = []
    | .on m (.source name), src => m = n → isReservedMap name = true → src = .none
    | .on _ (.liveEntries _ _ select), es => ∀ d ∈ es, select d.mapName = true
    | .on _ (.queueExecute _ (.other _) _), r => ∃ err, r.1 = .error err
    | _, _ => True

section projects
variable {n : Bytes} {keep : ℕ → Prop}

theorem Beside.table {C C' : Cluster} (h : Beside n C C') (p : PartitionId) :
    (C.nodes n).mem.table.ownerOf p = n ∧ (C.nodes n).mem.table.backupsOf p = [] := by
  rw [(C.nodes n).mem.table_eq, h.alone]
  exact newTable_single n _ p

/-- What the threads are told is so. -/
theorem Beside.post {C C' : Cluster} (h : Beside n C C') (i : ℕ) (hist : List Event) (e : Action)
    (c : Choice) : (apart n keep).post i hist e (exec e c C).1 := by
  cases e with
  | on m a =>
    cases a with
    | table =>
      rintro rfl p
      exact h.table p
    | source name =>
      rintro rfl hname
      exact h.loaders name hname
    | liveEntries p now select =>
      intro d hd
      exact (List.mem_filter.mp ((exec_liveEntries_perm m c C p now select).mem_iff.mp hd)).2
    | queueExecute q op arg =>
      cases op with
      | other name => exact ⟨_, rfl⟩
      | _ => trivial
    | _ => trivial
  | _ => trivial

/-- A queue operation does the same beside the others as without them. -/
theorem Beside.queues_step {C C' : Cluster} (h : Beside n C C') {e : Action} (he : e.Queues n)
    (c : Choice) : (exec e c C').1 = (exec e c C).1 ∧ Beside n (exec e c C).2 (exec e c C').2 := by
  cases e with
  | on m a =>
    cases a with
    | table =>
      obtain rfl : m = n := he
      refine ⟨congrArg Membership.table h.mem, ?_⟩
      constructor
      all_goals simp only [exec_on_self]
      exacts [h.alone, h.mem, h.loaders, h.queues]
    | queueExecute q op arg =>
      obtain rfl : m = n := he
      obtain ⟨hout, hmuts, hqueues⟩ := h.queues.queueTxn ((C.nodes m).tick c.tick).clock
        ((C'.nodes m).tick c.tick).clock q op arg
      refine ⟨Prod.ext hout hmuts, ?_⟩
      constructor
      all_goals simp only [exec_on_self]
      exacts [h.alone, h.mem, h.loaders, hqueues]
    | _ => exact he.elim
  | _ => exact he.elim

theorem Beside.of_nodes {C C' D : Cluster} (h : Beside n C C') (hn : D.nodes n = C.nodes n) :
    Beside n D C' :=
  ⟨by rw [hn]; exact h.alone, by rw [hn]; exact h.mem, by rw [hn]; exact h.loaders,
    by rw [hn]; exact h.queues⟩

/-- Another action keeps the queues apart. -/
theorem Beside.spares_step {C C' : Cluster} (h : Beside n C C') {e : Action} (he : e.Spares n)
    (c : Choice) : Beside n (exec e c C).2 C' := by
  cases e with
  | start | crash | close => exact he.elim
  | storeThrough | deleteThrough =>
    refine h.of_nodes ?_
    simp only [exec]
    split <;> rfl
  | connect | reply | ctxErr | load => exact h
  | on m a =>
    by_cases hm : m = n
    · subst hm
      obtain ⟨hspares, hcalm⟩ := he rfl
      have hmem : ((exec (.on m a) c C).2.nodes m).mem = (C.nodes m).mem := by
        rw [exec_on_self, hcalm.mem]
        rfl
      refine ⟨by rw [hmem]; exact h.alone, by rw [hmem]; exact h.mem,
        by rw [exec_loaders]; exact h.loaders, h.queues.of_find fun p r hr => ?_⟩
      rw [exec_on_self]
      exact hspares.find ((C.nodes m).tick c.tick) h.queues c p hr
    · exact h.of_nodes (exec_on_ne m a c C (Ne.symm hm))

theorem apart_projects : Contract.Projects exec (apart n keep) keep (Beside n) where
  kept i e c _ _ hi hrel hpre :=
    have hstep := hrel.queues_step (hpre.1 hi) c
    ⟨hstep.1, hstep.2, hrel.post i _ e c⟩
  dropped i e c _ _ hi hrel hpre := ⟨hrel.spares_step (hpre.2 hi) c, hrel.post i _ e c⟩

end projects

/-! ### The node alone -/

section alone
variable {n : Bytes} {keep : ℕ → Prop} {i : ℕ} {α : Type}

theorem table_apart (h : List Event) : (apart n keep).pre i h (.on n .table) :=
  ⟨fun _ => rfl, fun _ _ => ⟨trivial, trivial⟩⟩

/-- Every key is owned here. -/
theorem route_apart (key : Bytes) (h : List Event) :
    (apart n keep).Obeys i (fun r _ => r.ownerLocal = true) (Map.route n key) h := by
  refine Obeys.step (table_apart h) (fun tbl htbl => ?_)
  rw [if_pos (htbl rfl _).1]
  exact rfl

theorem viaOwner_apart (key : Bytes) {asOwner : Prog (Except ServiceError α)}
    (sendOwner : Bytes → Prog (Except ServiceError α))
    (serve : Option Bytes → Prog (Except ServiceError α))
    {Q : Except ServiceError α → List Event → Prop}
    (howner : ∀ h, (apart n keep).Obeys i Q asOwner h) (h : List Event) :
    (apart n keep).Obeys i Q (Map.viaOwner n key asOwner sendOwner serve) h := by
  refine Obeys.bind ((route_apart key h).mono fun r h' hr => ?_)
  rw [if_pos hr]
  exact howner h'

/-- Nothing is replicated. -/
theorem replicate_apart (p : PartitionId) (msg : Replica) (h : List Event) :
    (apart n keep).Obeys i (fun _ _ => True) (replicate n p msg) h := by
  refine Obeys.step (table_apart h) (fun tbl htbl => ?_)
  rw [(htbl rfl p).2]
  trivial

theorem replicateAll_apart (p : PartitionId) (l : List Replica) (h : List Event) :
    (apart n keep).Obeys i (fun _ _ => True) (replicateAll n p l) h := by
  induction l generalizing h with
  | nil => trivial
  | cons msg l ih => exact Obeys.bind ((replicate_apart p msg h).mono fun _ h' _ => ih h')

end alone

/-! ### Queue operations -/

section queues
variable {n : Bytes} {keep : ℕ → Prop} {i : ℕ}

/-- **A queue operation works on the queues only.** -/
theorem queueExecute_apart (hi : keep i) (procs : Registry) (q procName arg : Bytes) (h : List Event) :
    (apart n keep).Obeys i (fun _ _ => True) (Map.execute procs n queueMap q procName arg) h := by
  refine viaOwner_apart q _ _ (fun h' => ?_) h
  unfold Service.applyExecute
  rw [if_pos rfl]
  refine Obeys.step ⟨fun _ => rfl, fun hn => (hn hi).elim⟩ (fun r _ => ?_)
  split
  · trivial
  · exact Obeys.bind ((replicateAll_apart _ _ _).mono fun _ _ _ => trivial)

end queues

/-! ### The other operations -/

section others
variable {n : Bytes} {keep : ℕ → Prop} {i : ℕ} (hi : ¬ keep i)
include hi

theorem reading_apart : Reading (fun e => ∀ h, (apart n keep).pre i h e) where
  on m {a} ha _ := ⟨fun hk => (hi hk).elim, fun _ _ => by
    cases a <;> first | exact ha.elim | exact ⟨trivial, trivial⟩⟩
  connect _ _ := ⟨fun hk => (hi hk).elim, fun _ => trivial⟩
  reply _ _ := ⟨fun hk => (hi hk).elim, fun _ => trivial⟩
  toStore _ _ _ _ := ⟨fun hk => (hi hk).elim, fun _ => trivial⟩
  toDelete _ _ _ := ⟨fun hk => (hi hk).elim, fun _ => trivial⟩
  reads m {a} ha hc _ := ⟨fun hk => (hi hk).elim, fun _ _ => by
    cases a <;> first | exact ha.elim | exact ⟨trivial, hc⟩⟩
  load _ _ _ := ⟨fun hk => (hi hk).elim, fun _ => trivial⟩

theorem on_apart (x : Bytes) {a : NodeAction} (ha : a.Spares) (hc : a.Calm) (h : List Event) :
    (apart n keep).pre i h (.on x a) :=
  ⟨fun hk => (hi hk).elim, fun _ _ => ⟨ha, hc⟩⟩

theorem finishExecute_apart {name : Bytes} (hname : isReservedMap name = false) (key : Bytes)
    (r : Executed) : (finishExecute n name key r).All (fun e => ∀ h, (apart n keep).pre i h e) := by
  have hR := reading_apart (n := n) hi
  unfold Service.finishExecute
  cases r.action with
  | keep => trivial
  | set =>
    refine Prog.All.step (hR.on n (a := .nowNano) trivial) (fun now => ?_)
    refine (hR.replicate n _ (.put name key r.newVal _) fun x expireAt => ?_).bind fun _ =>
      (hR.emit _ _ _ _ _).bind fun _ => hR.writeThrough _ _ _ _ _
    exact on_apart hi x (a := .put name key r.newVal expireAt) hname trivial
  | delete =>
    refine (hR.replicate n _ (.remove name key) fun x => ?_).bind fun _ =>
      (hR.emitRemoved _ _ _ _).bind fun _ => hR.deleteThrough _ _ _ _
    exact on_apart hi x (a := .remove name key) hname trivial

/-- **A processor works on no queue**: the metadata map takes queue operations only, and the segments
take none. -/
theorem execute_apart (procs : Registry) (name key procName arg : Bytes)
    (hop : name = queueMap → ∃ x, queueOpOf procName = .other x) (h : List Event) :
    (apart n keep).Obeys i (fun _ _ => True) (Map.execute procs n name key procName arg) h := by
  refine viaOwner_apart key _ _ (fun h' => ?_) h
  unfold Service.applyExecute
  split
  · next hname =>
    obtain ⟨x, hx⟩ := hop hname
    rw [hx]
    refine Obeys.step (on_apart hi n (a := .queueExecute key (.other x) arg) ⟨x, rfl⟩ trivial h') (fun r hr => ?_)
    obtain ⟨err, herr⟩ := hr
    rw [herr]
    trivial
  next hmap =>
  split
  · trivial
  next hseg =>
  have hname : isReservedMap name = false := by simp [isReservedMap, hmap, hseg]
  split
  · trivial
  · next proc _ =>
    refine Obeys.step (on_apart hi n (a := .execute name key proc arg) hname trivial h')
      (fun r _ => ?_)
    exact Obeys.of_all (finishExecute_apart hi hname key r) (fun h _ he => he h) _

/-- **A read of a reserved map caches nothing**: it has no loader. -/
theorem getThrough_apart (name key : Bytes) (h : List Event) :
    (apart n keep).Obeys i (fun _ _ => True) (getThrough n name key) h := by
  have hR := reading_apart (n := n) hi
  refine Obeys.step (hR.reads n (a := .get _ name key) trivial trivial h) (fun v _ => ?_)
  cases v with
  | some v => trivial
  | none =>
    refine Obeys.step (hR.reads n (a := .source name) trivial trivial _)
      (fun src hsrc => ?_)
    split
    · trivial
    next hne =>
    have hname : isReservedMap name = false := by
      by_contra hres
      exact hne (hsrc rfl (by simpa using hres))
    refine Obeys.step (table_apart _) (fun tbl _ => ?_)
    split
    · trivial
    refine Obeys.step (hR.load name key _) (fun out _ => ?_)
    split
    · trivial
    · trivial
    · next v _ =>
      exact ⟨on_apart hi n (a := .cacheLoaded _ name key v) hname trivial _, fun _ _ => trivial⟩

theorem get_apart (name key : Bytes) (h : List Event) :
    (apart n keep).Obeys i (fun _ _ => True) (Map.get n name key) h := by
  refine Obeys.bind ((route_apart key h).mono fun r h' hr => ?_)
  rw [if_pos hr]
  refine Obeys.bind ((getThrough_apart hi name key h').mono fun out h'' _ => ?_)
  split
  · trivial
  · trivial
  · refine Obeys.step (table_apart h'') (fun tbl htbl => ?_)
    rw [(htbl rfl _).2]
    trivial

/-- A sample has no entry of a queue. -/
theorem sampleLoop_apart (now limit : ℕ) (ps : List PartitionId) {out : List Ref}
    (hout : ∀ r ∈ out, isReservedMap r.1 = false) (h : List Event) :
    (apart n keep).Obeys i (fun out _ => ∀ r ∈ out, isReservedMap r.1 = false)
      (sampleLoop n now limit ps out) h := by
  induction ps generalizing out h with
  | nil => exact hout
  | cons p ps ih =>
    refine Obeys.step ((reading_apart hi).reads n
      (a := .liveEntries p now fun m => !isReservedMap m) trivial trivial h) (fun live hlive => ?_)
    have hout' : ∀ r ∈ out ++ (live.take (limit - out.length)).map Entry.ref,
        isReservedMap r.1 = false := by
      intro r hr
      rcases List.mem_append.mp hr with hr | hr
      · exact hout r hr
      · obtain ⟨d, hd, rfl⟩ := List.mem_map.mp hr
        exact (Bool.not_eq_true' _).mp (hlive d (List.mem_of_mem_take hd))
    dsimp only
    split
    · exact hout'
    · exact ih hout' _

theorem sampleOwned_apart (tbl : Table) (limit : ℤ) (h : List Event) :
    (apart n keep).Obeys i (fun out _ => ∀ r ∈ out, isReservedMap r.1 = false)
      (sampleOwned n tbl limit) h := by
  unfold Service.sampleOwned
  split
  · exact fun r hr => absurd hr List.not_mem_nil
  · refine Obeys.step ((reading_apart hi).reads n (a := .nowNano) trivial trivial h)
      (fun now _ => ?_)
    exact sampleLoop_apart hi now _ _ (fun r hr => absurd hr List.not_mem_nil) _

/-- **Eviction spares queues.** -/
theorem evict_apart (max batch : ℤ) (h : List Event) :
    (apart n keep).Obeys i (fun _ _ => True) (Service.evict n max batch) h := by
  have hR := reading_apart (n := n) hi
  unfold Service.evict
  split
  · trivial
  refine Obeys.step (table_apart h) (fun tbl _ => ?_)
  have hcount : (countOwned n tbl).All (fun e => ∀ h, (apart n keep).pre i h e) :=
    ⟨hR.reads n trivial trivial, fun now => hR.shedding.countLoop n now _ _ 0⟩
  refine Obeys.bind ((Obeys.of_all hcount (fun h _ he => he h) _).mono
    fun count h₁ _ => ?_)
  split
  · trivial
  refine Obeys.bind ((sampleOwned_apart hi tbl _ h₁).mono fun victims h₂ hvictims => ?_)
  have hall : (evictAll n victims).All (fun e => ∀ h, (apart n keep).pre i h e) :=
    hR.shedding.evictAll n fun r hr x => on_apart hi x (a := .remove r.1 r.2) (hvictims r hr) trivial
  exact Obeys.bind ((Obeys.of_all hall (fun h _ he => he h) h₂).mono
    fun _ _ _ => trivial)

end others

/-! ### Runs -/

/-- An operation on the node: of a queue, of a map under any name, or of its upkeep. -/
inductive GridOp where
  | idle
  | offer (q value : Bytes)
  | poll (q : Bytes)
  | peek (q : Bytes)
  | queueSize (q : Bytes)
  | execute (name key procName arg : Bytes)
  | put (name key value : Bytes)
  | putTTL (name key value : Bytes) (ttl : Int64)
  | get (name key : Bytes)
  | remove (name key : Bytes)
  | clear (name : Bytes)
  | evict (name key : Bytes)
  | putIfAbsent (name key value : Bytes)
  | compareAndSwap (name key expected newVal : Bytes)
  | lock (name key holder : Bytes)
  | unlock (name key holder : Bytes)
  | size (name : Bytes)
  | aggregate (name aggName : Bytes)
  | evictTo (max batch : ℤ)
  | sweepExpired

/-- What an operation returns, as far as it may be one of a queue. -/
inductive GridReply where
  | other
  | count (r : Except ServiceError Int64)
  | item (r : Except ServiceError (Option Bytes))
  | out (r : Except ServiceError Bytes)

namespace GridOp

/-- The program of an operation. -/
def prog (procs : Registry) (aggs : AggRegistry) (n : Bytes) : GridOp → Prog GridReply
  | idle => return .other
  | offer q value => do return .count (← Queue.offer procs n q value)
  | poll q => do return .item (← Queue.poll procs n q)
  | peek q => do return .item (← Queue.peek procs n q)
  | queueSize q => do return .count (← Queue.size procs n q)
  | execute name key procName arg => do return .out (← Map.execute procs n name key procName arg)
  | put name key value => do let _ ← Map.putWithTTL n name key value 0; return .other
  | putTTL name key value ttl => do let _ ← Map.putTTL n name key value ttl; return .other
  | get name key => do let _ ← Map.get n name key; return .other
  | remove name key => do let _ ← Map.remove n name key; return .other
  | clear name => do let _ ← Map.clear n name; return .other
  | evict name key => do let _ ← Map.evict n name key; return .other
  | putIfAbsent name key value => do let _ ← Map.putIfAbsent procs n name key value; return .other
  | compareAndSwap name key expected newVal => do
      let _ ← Map.compareAndSwap procs n name key expected newVal
      return .other
  | lock name key holder => do let _ ← Map.lock procs n name key holder; return .other
  | unlock name key holder => do let _ ← Map.unlock procs n name key holder; return .other
  | size name => do let _ ← Map.size n name; return .other
  | aggregate name aggName => do let _ ← Map.aggregate aggs n name aggName; return .other
  | evictTo max batch => do let _ ← Service.evict n max batch; return .other
  | sweepExpired => do let _ ← Prog.on n .sweep; return .other

/-- The operation is one of a queue.  So is a processor on the metadata map that has the name of a queue
operation. -/
def isQueueOp : GridOp → Bool
  | offer _ _ => true
  | poll _ => true
  | peek _ => true
  | queueSize _ => true
  | execute name _ procName _ =>
    decide (name = queueMap ∧ queueOpOf procName ≠ .other procName)
  | _ => false

/-- The operation, if it is one of a queue. -/
def onlyQueue (op : GridOp) : GridOp := if op.isQueueOp then op else idle

section obeys
variable {n : Bytes} {keep : ℕ → Prop} {i : ℕ} (procs : Registry) (aggs : AggRegistry) {op : GridOp}

theorem obeys_queueOp (hi : keep i) (hop : op.isQueueOp = true) :
    (apart n keep).Obeys i (fun _ _ => True) (op.prog procs aggs n) [] := by
  cases op with
  | offer | poll | peek | queueSize =>
    exact Obeys.bind (Obeys.bind ((queueExecute_apart hi procs _ _ _ []).mono
      fun _ _ _ => trivial))
  | execute name key procName arg =>
    obtain ⟨rfl, -⟩ := of_decide_eq_true hop
    exact Obeys.bind ((queueExecute_apart hi procs _ _ _ []).mono fun _ _ _ => trivial)
  | _ => cases hop

theorem obeys_other (hi : ¬ keep i) (hop : op.isQueueOp = false) :
    (apart n keep).Obeys i (fun _ _ => True) (op.prog procs aggs n) [] := by
  have hR := reading_apart (n := n) hi
  -- a program that leaves the queues alone whatever it is told
  have hall : ∀ {α : Type} {p : Prog α}, p.All (fun e => ∀ h, (apart n keep).pre i h e) →
      (apart n keep).Obeys i (fun _ _ => True) (p >>= fun _ => pure GridReply.other) [] := fun hp =>
    Obeys.bind ((Obeys.of_all hp (fun h _ he => he h) []).mono fun _ _ _ => trivial)
  have hexec : ∀ {α : Type} (name key procName arg : Bytes) (f : Except ServiceError Bytes → α),
      queueOpOf procName = .other procName → (apart n keep).Obeys i (fun _ _ => True)
        (Map.execute procs n name key procName arg >>= fun r => pure (f r)) [] :=
    fun name key procName arg f hother => Obeys.bind
      ((execute_apart hi procs name key procName arg (fun _ => ⟨_, hother⟩) []).mono fun _ _ _ => trivial)
  cases op with
  | offer | poll | peek | queueSize => cases hop
  | idle => trivial
  | execute name key procName arg =>
    refine Obeys.bind ((execute_apart hi procs name key procName arg (fun hname => ⟨procName, ?_⟩)
      []).mono fun _ _ _ => trivial)
    by_contra hne
    exact absurd hop (by simp [isQueueOp, hname, hne])
  | put name key value =>
    exact hall (hR.putWithTTL n name key value 0 fun hname x expireAt =>
      on_apart hi x (a := .put name key value expireAt) hname trivial)
  | putTTL name key value ttl =>
    exact hall (hR.putWithTTL n name key value (ttl / 1000000) fun hname x expireAt =>
      on_apart hi x (a := .put name key value expireAt) hname trivial)
  | get name key =>
    exact Obeys.bind ((get_apart hi name key []).mono fun _ _ _ => trivial)
  | remove name key =>
    exact hall (hR.remove n name key fun hname x => on_apart hi x (a := .remove name key) hname trivial)
  | clear name =>
    exact hall (hR.clear n name fun hname x => on_apart hi x (a := .clearMap name) hname trivial)
  | evict name key =>
    exact hall (hR.evictKey n name key fun hname x => on_apart hi x (a := .remove name key) hname trivial)
  | putIfAbsent name key value =>
    exact Obeys.bind ((hexec name key _ value _ (by decide)).mono
      fun _ _ _ => trivial)
  | compareAndSwap name key expected newVal =>
    exact Obeys.bind ((hexec name key _ _ _ (by decide)).mono fun _ _ _ => trivial)
  | lock name key holder =>
    refine Obeys.bind (Obeys.mono (Q := fun _ _ => True) ?_ fun _ _ _ => trivial)
    unfold Map.lock
    split
    · trivial
    · exact hexec name key _ holder _ (by decide)
  | unlock name key holder =>
    refine Obeys.bind (Obeys.mono (Q := fun _ _ => True) ?_ fun _ _ _ => trivial)
    unfold Map.unlock
    split
    · trivial
    · exact hexec name key _ holder _ (by decide)
  | size name => exact hall (hR.size n name)
  | aggregate name aggName => exact hall (hR.aggregate aggs n name aggName)
  | evictTo max batch =>
    exact Obeys.bind ((evict_apart hi max batch []).mono fun _ _ _ => trivial)
  | sweepExpired => exact ⟨on_apart hi n (a := .sweep) trivial trivial [], fun _ _ => trivial⟩

end obeys

end GridOp

section runs
variable {n : Bytes} {C : Cluster}

theorem Beside.left {C' : Cluster} (h : Beside n C C') : Beside n C C :=
  ⟨h.alone, rfl, h.loaders, fun _ _ _ => rfl, h.queues.lasting⟩

theorem apart_sound (keep : ℕ → Prop) : (apart n keep).Sound exec
    (fun w => Beside n w.state w.state) (fun _ _ _ _ => True) := by
  intro i e c w hw _ he
  refine ⟨?_, hw.post i _ e c⟩
  by_cases hi : keep i
  · exact (hw.queues_step (he.1 hi) c).2
  · exact (hw.spares_step (he.2 hi) c).left

/-- A queue operation changes no other map. -/
theorem Action.Queues.find {e : Action} (he : e.Queues n) (c : Choice) (C : Cluster) (m : Bytes)
    (p : PartitionId) {r : Ref} (hr : isReservedMap r.1 = false) :
    ((exec e c C).2.nodes m).store.find p r = (C.nodes m).store.find p r := by
  cases e with
  | on x a =>
    cases a with
    | table => rw [NodeAction.Reads.exec_store (by exact trivial)]
    | queueExecute q op arg =>
      by_cases hm : m = x
      · subst hm
        rw [exec_on_self]
        exact find_queueTxn_of_not_reserved (by simp [hr]) (C.nodes m).store _ q op arg p
      · rw [exec_on_ne _ _ _ _ hm]
    | _ => exact he.elim
  | _ => exact he.elim

/-- **Queues and maps do not interfere**: on a node alone, with no loader of a reserved map, queue
operations run in any interleaving with calls of maps of any name, eviction and sweeps.  The queue
operations return what they return, and the queues hold what they hold, when only the queue operations
run; and no step of a queue operation changes an entry of another map. -/
theorem queues_and_maps (halone : (C.nodes n).mem.members.keys = [n])
    (hloaders : ∀ name, isReservedMap name = true → (C.nodes n).loaders name = .none)
    (hlasting : ∀ p r v, isReservedMap r.1 = true → (C.nodes n).store.find p r = some v → v.expireAt = 0)
    (procs : Registry) (aggs : AggRegistry) (ops : ℕ → GridOp) (sched : List (ℕ × Choice)) :
    let f := Conf.init C fun j => (ops j).prog procs aggs n
    let g := Conf.init C fun j => (ops j).onlyQueue.prog procs aggs n
    (∀ j, (ops j).isQueueOp = true → (Conf.run exec sched g).pool j = (Conf.run exec sched f).pool j) ∧
    (∀ p r, isReservedMap r.1 = true →
      ((Conf.run exec sched g).world.state.nodes n).store.find p r =
        ((Conf.run exec sched f).world.state.nodes n).store.find p r) ∧
    Meets exec (fun i e c w => (ops i).isQueueOp = true → ∀ m p r, isReservedMap r.1 = false →
      ((exec e c w.state).2.nodes m).store.find p r = (w.state.nodes m).store.find p r) sched f := by
  intro f g
  have hstart : Beside n C C := ⟨halone, rfl, hloaders, fun _ _ _ => rfl, hlasting⟩
  have hobeys : ∀ j, (apart n fun j => (ops j).isQueueOp = true).Obeys j (fun _ _ => True) (f.pool j)
      (f.world.own j) := by
    intro j
    by_cases hj : (ops j).isQueueOp = true
    · exact GridOp.obeys_queueOp procs aggs hj hj
    · exact GridOp.obeys_other procs aggs hj (by simpa using hj)
  obtain ⟨hbeside, hpool⟩ := apart_projects.run sched (f := f) (g := g) hstart hobeys
    (fun j hj => by
      change (ops j).onlyQueue.prog procs aggs n = (ops j).prog procs aggs n
      rw [GridOp.onlyQueue, if_pos hj])
    (fun j hj => by
      change ((ops j).onlyQueue.prog procs aggs n).returned = true
      rw [GridOp.onlyQueue, if_neg hj]
      rfl)
  refine ⟨hpool, hbeside.queues.find, ?_⟩
  obtain ⟨-, hmeets, -⟩ := (apart_sound _).run (f := f) hstart hobeys
    (Meets.of_forall (fun _ _ _ _ => trivial) _ _)
  refine hmeets.mono fun i e c w hstep hi m p r hr => ?_
  exact Action.Queues.find (hstep.2.2.1 hi) c w.state m p hr

end runs

/-- An offer, a processor on the metadata of the same queue, and an eviction. -/
def mixedOps : ℕ → GridOp
  | 0 => .offer [113] [7]
  | 1 => .putIfAbsent queueMap [113] [1]
  | 2 => .evictTo 1 1
  | _ => .idle

/-- The others run between the steps of the offer. -/
def mixedSched : List (ℕ × Choice) :=
  List.replicate 2 (0, .still) ++ List.replicate 5 (1, .still) ++ List.replicate 5 (2, .still) ++
    List.replicate 5 (0, .still)

/-- An empty node alone. -/
def emptyNode : Cluster := oneEntry [[97]] 0 [] ([109], [114]) []

/-- The offer beside the others, on an empty node. -/
theorem queues_and_maps_mixedOps :
    let f := Conf.init emptyNode fun j => (mixedOps j).prog (fun _ => none) (fun _ => none) [97]
    let g := Conf.init emptyNode fun j => (mixedOps j).onlyQueue.prog (fun _ => none) (fun _ => none) [97]
    ((Conf.run exec mixedSched f).pool 0).returned = true ∧
    (Conf.run exec mixedSched g).pool 0 = (Conf.run exec mixedSched f).pool 0 := by
  have hkeys : (emptyNode.nodes [97]).mem.members.keys = [[97]] := by decide +kernel
  have hempty : ∀ p r, (emptyNode.nodes [97]).store.find p r = none := fun _ _ => rfl
  have h := queues_and_maps hkeys (fun _ _ => rfl) (fun p r v _ hv => by rw [hempty] at hv; cases hv)
    (fun _ => none) (fun _ => none) mixedOps mixedSched
  exact ⟨by decide +kernel, h.1 0 rfl⟩

end Medusa
