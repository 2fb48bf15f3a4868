import Medusa.Lib.Cache
import Medusa.ReadThrough

/-! # Eviction from a map with a backing store

A node alone, and a map with a `MapStore` whose calls succeed.  Memory is a cache over the backing
store (`Cache`): `Put` and `Remove` write through, `Get` reads through, and `Execute` runs its
processor on what is in memory.

* `BackedOp.prog_ensures`: each operation is the call of the cache.
* `evictions_unnoticed`: **evictions change neither what `Get` and `Execute` return nor the backing store,
  when no processor runs on an entry that is only in the backing store.**
* `evicted_entry_restarts`: a processor takes an evicted entry for an absent one, and its result
  overwrites the record. -/

namespace Medusa

open Medusa.Partition Store Interleave Service

/-! ### Operations -/

/-- An operation on the map, or an eviction. -/
inductive BackedOp where
  | put (key value : Bytes)
  | get (key : Bytes)
  | remove (key : Bytes)
  | execute (key procName arg : Bytes)
  | evict (key : Bytes)
  | evictTo (max batch : ℤ)
deriving DecidableEq, Repr

namespace BackedOp

/-- The operation on node `n`, with what `Get` or `Execute` returns. -/
def prog (procs : Registry) (n name : Bytes) :
    BackedOp → Prog (Option (Except ServiceError (Option Bytes)))
  | put key value => do let _ ← Map.putWithTTL n name key value 0; return none
  | get key => do return some (← Map.get n name key)
  | remove key => do let _ ← Map.remove n name key; return none
  | execute key procName arg => do
      return some ((← Map.execute procs n name key procName arg).map some)
  | evict key => do let _ ← Map.evict n name key; return none
  | evictTo max batch => do let _ ← Service.evict n max batch; return none

/-- Whether the operation is none of the evictions. -/
def isCall : BackedOp → Bool
  | evict _ => false
  | evictTo _ _ => false
  | _ => true

/-- A processor runs on an entry that is in memory, or of which there is no record. -/
def resident (n name : Bytes) (C : Cluster) : BackedOp → Bool
  | execute key _ _ => (copyOf (name, key) n C).isSome || (C.backing (name, key)).isNone
  | _ => true

end BackedOp

/-- An operation, with the choices of the environment while it runs. -/
abbrev BackedStep := BackedOp × (ℕ → Choice)

/-- The operations one after another: what the calls of `Get` and `Execute` return, and the final state. -/
def runBacked (procs : Registry) (n name : Bytes) :
    List BackedStep → Cluster → List (Except ServiceError (Option Bytes)) × Cluster
  | [], C => ([], C)
  | (op, cs) :: rest, C =>
    let r := (op.prog procs n name).eval exec cs C
    let out := runBacked procs n name rest r.2
    (r.1.toList ++ out.1, out.2)

/-- Every processor runs on an entry that is in memory, or of which there is no record. -/
def residentAll (procs : Registry) (n name : Bytes) : List BackedStep → Cluster → Bool
  | [], _ => true
  | (op, cs) :: rest, C => op.resident n name C &&
      residentAll procs n name rest ((op.prog procs n name).eval exec cs C).2

/-! ### Memory as a cache -/

/-- What a processor writes to its entry, if anything. -/
def written : Bytes × Store.Action × Bytes → Option (Option Bytes)
  | (_, .keep, _) => none
  | (value, .set, _) => some (some value)
  | (_, .delete, _) => some none

/-- What the processor of a name writes to its entry, and its result. -/
def processed (procs : Registry) (procName arg : Bytes) (cur : Option Bytes) :
    Option (Option Bytes) × Except ServiceError Bytes :=
  match procs procName with
  | none => (none, .error (.unknownProcessor procName))
  | some proc => (written (proc cur arg), .ok (proc cur arg).2.2)

/-- Node `n` is alone and the map has a `MapStore`; its memory and the backing store are `s`. -/
structure Shows (n name : Bytes) (s : Cache.State Bytes Bytes) (C : Cluster) : Prop where
  alone : (C.nodes n).mem.members.keys = [n]
  source : (C.nodes n).loaders name = .store
  mem : ∀ key, copyOf (name, key) n C = (s.mem key).map fun v => ⟨v, 0⟩
  record : ∀ key, C.backing (name, key) = s.record key

namespace Shows
variable {n name : Bytes} {s s' : Cache.State Bytes Bytes} {C : Cluster}

theorem table (h : Shows n name s C) (p : PartitionId) :
    (C.nodes n).mem.table.ownerOf p = n ∧ (C.nodes n).mem.table.backupsOf p = [] := by
  rw [(C.nodes n).mem.table_eq, h.alone]
  exact newTable_single n _ p

/-- An action that leaves the membership alone. -/
theorem calm (h : Shows n name s C) {e : Action} (he : e.Calm) {c : Choice}
    (hmem : ∀ key, copyOf (name, key) n (exec e c C).2 = (s'.mem key).map fun v => ⟨v, 0⟩)
    (hrecord : ∀ key, (exec e c C).2.backing (name, key) = s'.record key) :
    Shows n name s' (exec e c C).2 where
  alone := by rw [he.mem]; exact h.alone
  source := by rw [exec_loaders]; exact h.source
  mem := hmem
  record := hrecord

theorem reads (h : Shows n name s C) {m : Bytes} {a : NodeAction} (hr : a.Reads) (ha : a.Calm)
    (c : Choice) : Shows n name s (exec (.on m a) c C).2 := by
  refine h.calm (e := .on m a) ha (fun key => ?_) h.record
  rw [copyOf, hr.exec_store]
  exact h.mem key

/-- A change of one entry in memory. -/
theorem change (h : Shows n name s C) {a : NodeAction} (ha : a.Calm) {c : Choice} (key : Bytes)
    {d : Option Bytes} (hfind : ∀ r, copyOf r n (exec (.on n a) c C).2 =
      if r = (name, key) then d.map (fun v => ⟨v, 0⟩) else copyOf r n C) :
    Shows n name ⟨Function.update s.mem key d, s.record⟩ (exec (.on n a) c C).2 := by
  refine h.calm (e := .on n a) ha (fun k => ?_) h.record
  change _ = Option.map _ (Function.update s.mem key d k)
  rw [hfind]
  by_cases hk : k = key
  · rw [if_pos (by rw [hk]), hk, Function.update_self]
  · rw [if_neg fun heq => hk (congrArg Prod.snd heq), Function.update_of_ne hk]
    exact h.mem k

/-- What is in memory does not expire. -/
theorem lookup (h : Shows n name s C) (key : Bytes) (now : ℕ) :
    (C.nodes n).store.lookup (routedPartition name key) name key now =
      (s.mem key).map fun v => ⟨v, 0⟩ := by
  rw [Store.lookup]
  change Option.filter _ (copyOf (name, key) n C) = _
  rw [h.mem]
  cases s.mem key <;> simp [Value.expired]

/-! ### Reads -/

section reads
variable {α : Type} {Q : α → Cluster → Prop} (h : Shows n name s C)
include h

theorem on_table {f : Table → Prog α} (hf : ∀ (tbl : Table) C',
      (∀ p, tbl.ownerOf p = n ∧ tbl.backupsOf p = []) → Shows n name s C' →
        (f tbl).Ensures exec Arrives Q C') :
    (Prog.on n .table >>= f).Ensures exec Arrives Q C :=
  fun c _ => hf _ _ h.table (h.reads (a := .table) trivial trivial c)

theorem on_source {f : MapSource → Prog α}
    (hf : ∀ C', Shows n name s C' → (f .store).Ensures exec Arrives Q C') :
    (Prog.on n (.source name) >>= f).Ensures exec Arrives Q C := by
  intro c _
  change (f ((C.nodes n).loaders name)).Ensures exec Arrives Q _
  rw [h.source]
  exact hf _ (h.reads (a := .source name) trivial trivial c)

theorem on_get (key : Bytes) {f : Option Bytes → Prog α}
    (hf : ∀ C', Shows n name s C' → (f (s.mem key)).Ensures exec Arrives Q C') :
    (Prog.on n (.get (routedPartition name key) name key) >>= f).Ensures exec Arrives Q C := by
  intro c _
  change (f (Option.map Value.data ((C.nodes n).store.lookup _ name key _))).Ensures exec Arrives Q _
  rw [h.lookup, Option.map_map]
  change (f (Option.map id (s.mem key))).Ensures exec Arrives Q _
  rw [Option.map_id_apply]
  exact hf _ (h.reads (a := .get _ name key) trivial trivial c)

theorem on_load (key : Bytes) {f : Except ServiceError (Option Bytes) → Prog α}
    (hf : (f (.ok (s.record key))).Ensures exec Arrives Q C) :
    (Interleave.Prog.perform (R := Action.Resp) (.load name key) >>= f).Ensures exec Arrives Q C := by
  intro c hc
  have hlost : c.lost = false := hc
  change (f (if c.lost then _ else .ok (C.backing (name, key)))).Ensures exec Arrives Q C
  rw [hlost, h.record]
  exact hf

end reads

/-! ### What surrounds the store changes -/

theorem replicate (h : Shows n name s C) (p : PartitionId) (msg : Replica) :
    (replicate n p msg).Ensures exec Arrives (fun _ C' => Shows n name s C') C := by
  refine h.on_table fun tbl C' htbl h' => ?_
  rw [(htbl p).2]
  exact h'

theorem emit (h : Shows n name s C) (type : EventType) (key value : Bytes) :
    (emit n type name key value).Ensures exec Arrives (fun _ C' => Shows n name s C') C := by
  unfold Service.emit
  split
  · exact h
  · exact fun c _ => h.reads (a := .emit _) trivial trivial c

theorem emitRemoved (h : Shows n name s C) (existed : Bool) (key : Bytes) :
    (emitRemoved n existed name key).Ensures exec Arrives (fun _ C' => Shows n name s C') C := by
  unfold Service.emitRemoved
  split
  · exact h.emit _ _ _
  · exact h

theorem route (h : Shows n name s C) (key : Bytes) :
    (Map.route n key).Ensures exec Arrives
      (fun r C' => r.ownerLocal = true ∧ Shows n name s C') C := by
  refine h.on_table fun tbl C' htbl h' => ?_
  rw [if_pos (htbl _).1]
  exact ⟨rfl, h'⟩

/-- The node is the owner of every key. -/
theorem viaOwner {α : Type} {Q : Except ServiceError α → Cluster → Prop} (h : Shows n name s C)
    {key : Bytes} {asOwner : Prog (Except ServiceError α)}
    {sendOwner : Bytes → Prog (Except ServiceError α)}
    {serve : Option Bytes → Prog (Except ServiceError α)}
    (hQ : ∀ C', Shows n name s C' → asOwner.Ensures exec Arrives Q C') :
    (Map.viaOwner n key asOwner sendOwner serve).Ensures exec Arrives Q C := by
  refine Prog.Ensures.bind (p := Map.route n key) ((h.route key).mono fun r C' hr => ?_)
  rw [if_pos hr.1]
  exact hQ C' hr.2

/-- A change of one record. -/
theorem through (h : Shows n name s C) (key : Bytes) (d : Option Bytes) :
    Shows n name ⟨s.mem, Function.update s.record key d⟩
      { C with backing := Function.update C.backing (name, key) d } where
  alone := h.alone
  source := h.source
  mem := h.mem
  record k := by
    change Function.update C.backing (name, key) d (name, k) = Function.update s.record key d k
    by_cases hk : k = key
    · rw [hk, Function.update_self, Function.update_self]
    · rw [Function.update_of_ne hk, Function.update_of_ne fun heq => hk (congrArg Prod.snd heq)]
      exact h.record k

theorem writeThrough {α : Type} (h : Shows n name s C) (key value : Bytes) (out : α) :
    (writeThrough n name key value out).Ensures exec Arrives (fun r C' => r = .ok out ∧
      Shows n name ⟨s.mem, Function.update s.record key (some value)⟩ C') C := by
  refine h.on_source fun C' h' c hc => ?_
  have hlost : c.lost = false := hc
  simp only [exec, hlost]
  exact ⟨rfl, h'.through key (some value)⟩

theorem deleteThrough {α : Type} (h : Shows n name s C) (key : Bytes) (out : α) :
    (deleteThrough n name key out).Ensures exec Arrives (fun r C' => r = .ok out ∧
      Shows n name ⟨s.mem, Function.update s.record key none⟩ C') C := by
  refine h.on_source fun C' h' c hc => ?_
  have hlost : c.lost = false := hc
  simp only [exec, hlost]
  exact ⟨rfl, h'.through key none⟩

/-! ### Store changes -/

theorem storePut (h : Shows n name s C) (key value : Bytes) :
    (storePut n name key value 0).Ensures exec Arrives
      (fun _ C' => Shows n name ⟨Function.update s.mem key (some value), s.record⟩ C') C := by
  intro c _ c' _
  refine (h.reads (m := n) (a := .nowNano) trivial trivial c).change (a := .put name key value _) trivial
    key fun r => ?_
  rw [copyOf, exec_on_self]
  exact find_set_routed _ (name, key) r _

theorem remove (h : Shows n name s C) (key : Bytes) (c : Choice) :
    Shows n name ⟨Function.update s.mem key none, s.record⟩
      (exec (.on n (.remove name key)) c C).2 := by
  refine h.change (a := .remove name key) trivial key fun r => ?_
  rw [copyOf, exec_on_self]
  exact find_erase_routed _ (name, key) r

theorem cacheLoaded (h : Shows n name s C) {key : Bytes} (hnone : s.mem key = none) (value : Bytes)
    (c : Choice) :
    (exec (.on n (.cacheLoaded (routedPartition name key) name key value)) c C).1 = value ∧
      Shows n name ⟨Function.update s.mem key (some value), s.record⟩
        (exec (.on n (.cacheLoaded (routedPartition name key) name key value)) c C).2 := by
  have hmiss : ∀ now, (C.nodes n).store.cacheLoaded (routedPartition name key) name key value now =
      (value, (C.nodes n).store.set (routedPartition name key) (name, key) ⟨value, 0⟩) := by
    intro now
    rw [Store.cacheLoaded, h.lookup, hnone]
    rfl
  refine ⟨congrArg Prod.fst (hmiss _), ?_⟩
  refine h.change (a := .cacheLoaded _ name key value) trivial key fun r => ?_
  rw [copyOf, exec_on_self]
  refine Eq.trans (congrArg (fun x : Bytes × Store => x.2.find _ r) (hmiss _)) ?_
  exact find_set_routed _ (name, key) r _

/-! ### Operations -/

theorem putWithTTL (h : Shows n name s C) (hname : isReservedMap name = false) (key value : Bytes) :
    (Map.putWithTTL n name key value 0).Ensures exec Arrives
      (fun _ C' => Shows n name (s.write key (some value)) C') C := by
  unfold Map.putWithTTL
  rw [hname, if_neg Bool.false_ne_true]
  refine Prog.Ensures.bind (h.viaOwner fun C₁ h₁ => ?_)
  refine Prog.Ensures.bind ((h₁.storePut key value).mono fun created C₂ h₂ => ?_)
  refine Prog.Ensures.bind ((h₂.replicate _ _).mono fun _ C₃ h₃ => ?_)
  refine Prog.Ensures.bind ((h₃.emit _ _ _).mono fun _ C₄ h₄ => ?_)
  exact (h₄.writeThrough key value created).mono fun _ _ h₅ => h₅.2

theorem mapRemove (h : Shows n name s C) (hname : isReservedMap name = false) (key : Bytes) :
    (Map.remove n name key).Ensures exec Arrives
      (fun _ C' => Shows n name (s.write key none) C') C := by
  unfold Map.remove
  rw [hname, if_neg Bool.false_ne_true]
  refine h.viaOwner fun C₁ h₁ c _ => ?_
  have h₂ := h₁.remove key c
  refine Prog.Ensures.bind (p := Service.replicate n _ (.remove name key))
    ((h₂.replicate _ _).mono fun _ C₃ h₃ => ?_)
  refine Prog.Ensures.bind ((h₃.emitRemoved _ _).mono fun _ C₄ h₄ => ?_)
  exact (h₄.deleteThrough key _).mono fun _ _ h₅ => h₅.2

theorem getThrough (h : Shows n name s C) (key : Bytes) :
    (getThrough n name key).Ensures exec Arrives (fun r C' =>
      r = .ok ((s.mem key).or (s.record key)) ∧
        Shows n name ⟨Function.update s.mem key ((s.mem key).or (s.record key)), s.record⟩ C') C := by
  refine h.on_get key fun C₁ h₁ => ?_
  cases hk : s.mem key with
  | some v =>
    refine ⟨rfl, ?_⟩
    rwa [Option.some_or, ← hk, Function.update_eq_self]
  | none =>
    refine h₁.on_source fun C₂ h₂ => ?_
    rw [if_neg (by decide)]
    refine h₂.on_table fun tbl C₃ htbl h₃ => ?_
    rw [if_neg (not_not_intro (htbl _).1)]
    refine h₃.on_load key ?_
    rw [Option.none_or]
    cases s.record key with
    | none =>
      refine ⟨rfl, ?_⟩
      rwa [← hk, Function.update_eq_self]
    | some v =>
      intro c _
      obtain ⟨hv, h₄⟩ := h₃.cacheLoaded hk v c
      exact ⟨congrArg (Except.ok ∘ some) hv, h₄⟩

theorem get (h : Shows n name s C) (key : Bytes) :
    (Map.get n name key).Ensures exec Arrives (fun r C' =>
      r = .ok ((s.mem key).or (s.record key)) ∧
        Shows n name ⟨Function.update s.mem key ((s.mem key).or (s.record key)), s.record⟩ C') C := by
  refine Prog.Ensures.bind (p := Map.route n key) ((h.route key).mono fun r C₁ h₁ => ?_)
  rw [if_pos h₁.1]
  refine Prog.Ensures.bind (p := Service.getThrough n name key)
    ((h₁.2.getThrough key).mono fun out C₂ h₂ => ?_)
  obtain ⟨rfl, h₂⟩ := h₂
  cases hv : (s.mem key).or (s.record key) with
  | some v => exact ⟨rfl, hv ▸ h₂⟩
  | none =>
    rw [hv] at h₂
    refine h₂.on_table fun tbl C₃ htbl h₃ => ?_
    rw [(htbl _).2]
    exact ⟨rfl, h₃⟩

section execute
variable (h : Shows n name s C) (hname : isReservedMap name = false) (key : Bytes)
include h hname

/-- The critical section of a processor. -/
theorem executed {proc : Processor} {arg value out : Bytes} {action : Store.Action}
    (hproc : proc (s.mem key) arg = (value, action, out)) (now : ℕ) :
    (applyExecute (C.nodes n).store name key proc arg now).out =
        ⟨action, value, 0, (s.mem key).isSome, out⟩ ∧
      (applyExecute (C.nodes n).store name key proc arg now).store = match action with
        | .keep => (C.nodes n).store
        | .set => (C.nodes n).store.set (routedPartition name key) (name, key) ⟨value, 0⟩
        | .delete => (C.nodes n).store.erase (routedPartition name key) (name, key) := by
  have hlookup := h.lookup key now
  rw [routedPartition_ordinary hname] at hlookup ⊢
  have hdata : Option.map Value.data ((C.nodes n).store.lookup (forKey key) name key now) =
      s.mem key := by
    rw [hlookup]
    cases s.mem key <;> rfl
  have hexpire : (Option.map Value.expireAt
      ((C.nodes n).store.lookup (forKey key) name key now)).getD 0 = 0 := by
    rw [hlookup]
    cases s.mem key <;> rfl
  cases action <;> simp [applyExecute, Store.update, Store.get, hdata, hproc, hexpire]

theorem execute_proc {proc : Processor} {arg value out : Bytes} {action : Store.Action}
    (hproc : proc (s.mem key) arg = (value, action, out)) :
    (do let r : Executed ← Prog.on n (.execute name key proc arg)
        finishExecute n name key r : Prog _).Ensures exec Arrives (fun r C' => r = .ok out ∧
      Shows n name (s.writeIf key (written (value, action, out))) C') C := by
  intro c _
  obtain ⟨hout, hstore⟩ := h.executed hname key hproc ((C.nodes n).clock + c.tick)
  have hcopy : ∀ r, copyOf r n (exec (.on n (.execute name key proc arg)) c C).2 =
      (applyExecute (C.nodes n).store name key proc arg
        ((C.nodes n).clock + c.tick)).store.find (routedPartition r.1 r.2) r := by
    intro r
    rw [copyOf, exec_on_self]
    rfl
  change Prog.Ensures exec Arrives _ (finishExecute n name key (applyExecute
    (C.nodes n).store name key proc arg ((C.nodes n).clock + c.tick)).out) _
  rw [hout]
  cases action with
  | keep =>
    refine ⟨rfl, h.calm (e := .on n (.execute name key proc arg)) trivial (fun k => ?_) h.record⟩
    rw [hcopy, hstore]
    exact h.mem k
  | set =>
    have h₂ := h.change (a := .execute name key proc arg) (c := c) trivial key
      (d := some value) fun r => by
        rw [hcopy, hstore]
        exact find_set_routed _ (name, key) r _
    intro c₂ _
    have h₃ := h₂.reads (m := n) (a := .nowNano) trivial trivial c₂
    refine Prog.Ensures.bind (p := Service.replicate n _ _)
      ((h₃.replicate _ _).mono fun _ C₄ h₄ => ?_)
    refine Prog.Ensures.bind ((h₄.emit _ _ _).mono fun _ C₅ h₅ => ?_)
    exact h₅.writeThrough key value out
  | delete =>
    have h₂ := h.change (a := .execute name key proc arg) (c := c) trivial key (d := none) fun r => by
        rw [hcopy, hstore]
        exact find_erase_routed _ (name, key) r
    refine Prog.Ensures.bind (p := Service.replicate n _ _)
      ((h₂.replicate _ _).mono fun _ C₃ h₃ => ?_)
    refine Prog.Ensures.bind ((h₃.emitRemoved _ _).mono fun _ C₄ h₄ => ?_)
    exact h₄.deleteThrough key out

theorem execute (procs : Registry) (procName arg : Bytes) :
    (Map.execute procs n name key procName arg).Ensures exec Arrives (fun r C' =>
      r = (processed procs procName arg (s.mem key)).2 ∧
        Shows n name (s.writeIf key (processed procs procName arg (s.mem key)).1) C') C := by
  have hqueue : name ≠ queueMap ∧ name ≠ queueSegMap := by simpa [isReservedMap] using hname
  refine h.viaOwner fun C₁ h₁ => ?_
  unfold Service.applyExecute processed
  rw [if_neg hqueue.1, if_neg hqueue.2]
  cases procs procName with
  | none => exact ⟨rfl, h₁⟩
  | some proc => exact h₁.execute_proc hname key rfl

end execute

end Shows

/-! ### The operations as calls of the cache -/

namespace BackedOp

/-- The call of the cache; an eviction is none. -/
def call (procs : Registry) : BackedOp → Option (Cache.Call Bytes Bytes (Except ServiceError Bytes))
  | put key value => some (.put key value)
  | get key => some (.get key)
  | remove key => some (.remove key)
  | execute key procName arg => some (.update key (processed procs procName arg))
  | evict _ => none
  | evictTo _ _ => none

theorem isSome_call (procs : Registry) (op : BackedOp) : (op.call procs).isSome = op.isCall := by
  cases op <;> rfl

end BackedOp

/-- What `Get` or `Execute` returns, by the reply of the cache. -/
def answer : Cache.Reply Bytes (Except ServiceError Bytes) →
    Option (Except ServiceError (Option Bytes))
  | .done => none
  | .value v => some (.ok v)
  | .out o => some (o.map some)

/-- The actions of an eviction. -/
def Action.Evicts : Action → Prop
  | .on _ (.remove _ _) => True
  | .on _ a => a.Reads ∧ a.Calm
  | .connect _ => True
  | .reply _ => True
  | .load _ _ => True
  | _ => False

theorem querying_evicts : Querying Action.Evicts where
  on n {a} ha := by cases a <;> first | exact ha.elim | exact ⟨trivial, trivial⟩
  connect _ := trivial
  reply _ := trivial
  reads n {a} hr ha := by cases a <;> first | exact hr.elim | exact ⟨hr, ha⟩
  load _ _ := trivial

/-- Some entries of the map were dropped from memory. -/
def Evicted (n name : Bytes) (s : Cache.State Bytes Bytes) (C : Cluster) : Prop :=
  ∃ s' : Cache.State Bytes Bytes, s'.record = s.record ∧
    (∀ key, s'.mem key = s.mem key ∨ s'.mem key = none) ∧ Shows n name s' C

section evicted
variable {n name : Bytes} {s : Cache.State Bytes Bytes} {C : Cluster}

theorem Evicted.remove (h : Evicted n name s C) (m name' key : Bytes) (c : Choice) :
    Evicted n name s (exec (.on m (.remove name' key)) c C).2 := by
  obtain ⟨s', hrecord, hmem, hs⟩ := h
  by_cases hm : n = m ∧ name' = name
  · obtain ⟨rfl, rfl⟩ := hm
    refine ⟨⟨Function.update s'.mem key none, s'.record⟩, hrecord, fun k => ?_, hs.remove key c⟩
    by_cases hk : k = key
    · exact Or.inr (by rw [hk]; exact Function.update_self _ _ _)
    · have hkeep : Function.update s'.mem key none k = s'.mem k := Function.update_of_ne hk _ _
      exact (hmem k).imp hkeep.trans hkeep.trans
  · refine ⟨s', hrecord, hmem, hs.calm (e := .on m (.remove name' key)) trivial (fun k => ?_) hs.record⟩
    rw [← hs.mem k, copyOf, copyOf]
    by_cases hn : n = m
    · subst hn
      rw [exec_on_self]
      refine (find_erase_routed _ (name', key) (name, k)).trans (if_neg fun heq => ?_)
      exact hm ⟨rfl, (congrArg Prod.fst heq).symm⟩
    · rw [exec_on_ne _ _ _ _ hn]

theorem Evicted.next (h : Evicted n name s C) {e : Action} (he : e.Evicts) (c : Choice) :
    Evicted n name s (exec e c C).2 := by
  cases e with
  | on m a =>
    have hreads : a.Reads ∧ a.Calm → Evicted n name s (exec (.on m a) c C).2 := by
      obtain ⟨s', hrecord, hmem, hs⟩ := h
      exact fun ha => ⟨s', hrecord, hmem, hs.reads ha.1 ha.2 c⟩
    cases a with
    | remove name' key => exact h.remove m name' key c
    | _ => exact hreads he
  | connect | reply | load => exact h
  | _ => exact he.elim

end evicted

namespace BackedOp
variable {procs : Registry} {n name : Bytes} {s : Cache.State Bytes Bytes} {C : Cluster}
  {op : BackedOp}

/-- **Each operation is a call of the cache.** -/
theorem prog_ensures (h : Shows n name s C) (hname : isReservedMap name = false)
    {c : Cache.Call Bytes Bytes (Except ServiceError Bytes)} (hc : op.call procs = some c) :
    (op.prog procs n name).Ensures exec Arrives
      (fun out C' => out = answer (c.run s).1 ∧ Shows n name (c.run s).2 C') C := by
  cases op with
  | put key value =>
    cases hc
    exact Prog.Ensures.bind ((h.putWithTTL hname key value).mono fun _ C' h' => ⟨rfl, h'⟩)
  | get key =>
    cases hc
    rw [Cache.run_get]
    exact Prog.Ensures.bind
      ((h.get key).mono fun r C' h' => ⟨congrArg some h'.1, h'.2⟩)
  | remove key =>
    cases hc
    exact Prog.Ensures.bind ((h.mapRemove hname key).mono fun _ C' h' => ⟨rfl, h'⟩)
  | execute key procName arg =>
    cases hc
    exact Prog.Ensures.bind ((h.execute hname key procs procName arg).mono
      fun r C' h' => ⟨congrArg (fun r => some (Except.map some r)) h'.1, h'.2⟩)
  | evict | evictTo => cases hc

/-- An eviction drops entries from memory. -/
theorem prog_evicts (h : Shows n name s C) (hop : op.call procs = none) :
    (op.prog procs n name).Ensures exec Arrives
      (fun out C' => out = none ∧ Evicted n name s C') C := by
  have hevicts : ∀ {α : Type} {p : Prog α}, p.All Action.Evicts →
      (p >>= fun _ => return none : Prog (Option (Except ServiceError (Option Bytes)))).Ensures exec
        Arrives (fun out C' => out = none ∧ Evicted n name s C') C := by
    intro α p hp
    refine Prog.Ensures.bind ((Prog.Ensures.of_all hp
      (fun e c C he _ hC => hC.next he c) ?_).mono fun _ C' h' => ⟨rfl, h'⟩)
    exact ⟨s, rfl, fun _ => Or.inl rfl, h⟩
  cases op with
  | evict key => exact hevicts (querying_evicts.evictKey n name key fun _ _ => trivial)
  | evictTo max batch => exact hevicts (querying_evicts.shedding.evict n max batch fun _ _ _ => trivial)
  | _ => cases hop

end BackedOp

/-! ### Runs -/

section runs
variable {procs : Registry} {n name : Bytes} {s t : Cache.State Bytes Bytes} {C D : Cluster}

theorem Shows.resident (h : Shows n name s C) {op : BackedOp} (hop : op.resident n name C = true)
    {c : Cache.Call Bytes Bytes (Except ServiceError Bytes)} (hc : op.call procs = some c) :
    ∀ k f, c = .update k f → s.mem k = none → s.record k = none := by
  rintro k f rfl hk
  cases op with
  | execute key procName arg =>
    cases hc
    simpa [BackedOp.resident, h.mem, h.record, hk] using hop
  | _ => cases hc

/-- The runs with and without evictions, from comparable states. -/
theorem runBacked_less (hname : isReservedMap name = false) {steps plain : List BackedStep}
    (hs : Shows n name s C) (ht : Shows n name t D) (hless : Cache.Less s t)
    (hcalls : plain.map Prod.fst = (steps.map Prod.fst).filter BackedOp.isCall)
    (hsteps : ∀ st ∈ steps, ∀ i, Arrives (st.2 i)) (hplain : ∀ st ∈ plain, ∀ i, Arrives (st.2 i))
    (hresident : residentAll procs n name steps C = true) :
    (runBacked procs n name steps C).1 = (runBacked procs n name plain D).1 ∧
      ∀ key, (runBacked procs n name steps C).2.backing (name, key) =
        (runBacked procs n name plain D).2.backing (name, key) := by
  induction steps generalizing plain C D s t with
  | nil =>
    obtain rfl : plain = [] := List.map_eq_nil_iff.mp hcalls
    exact ⟨rfl, fun key => (hs.record key).trans ((congrFun hless.record key).trans
      (ht.record key).symm)⟩
  | cons st steps ih =>
    obtain ⟨op, cs⟩ := st
    rw [residentAll, Bool.and_eq_true] at hresident
    have hcs : ∀ i, Arrives (cs i) := hsteps _ List.mem_cons_self
    have hrest : ∀ st ∈ steps, ∀ i, Arrives (st.2 i) :=
      fun st hst => hsteps st (List.mem_cons_of_mem _ hst)
    rw [List.map_cons, List.filter_cons, ← op.isSome_call procs] at hcalls
    cases hop : op.call procs with
    | none =>
      rw [hop] at hcalls
      obtain ⟨hout, s', hrecord, hmem, hs'⟩ := (BackedOp.prog_evicts hs hop).eval hcs
      rw [runBacked, hout]
      exact ih hs' ht (hless.evict hrecord hmem) hcalls hrest hplain hresident.2
    | some c =>
      rw [hop] at hcalls
      obtain ⟨⟨op', cs'⟩, plain, rfl, rfl, hcalls'⟩ := List.map_eq_cons_iff.mp hcalls
      obtain ⟨hreply, hless'⟩ := hless.run c (hs.resident hresident.1 hop)
      obtain ⟨hout, hs'⟩ := (BackedOp.prog_ensures hs hname hop).eval hcs
      obtain ⟨hout', ht'⟩ := (BackedOp.prog_ensures ht hname hop).eval
        (hplain _ List.mem_cons_self)
      have hrun := ih hs' ht' hless' hcalls' hrest
        (fun st hst => hplain st (List.mem_cons_of_mem _ hst)) hresident.2
      rw [runBacked, runBacked, hout, hout', hreply]
      exact ⟨congrArg (_ ++ ·) hrun.1, hrun.2⟩

/-- **Evictions go unnoticed**: on a node alone, a map has a `MapStore` whose calls succeed, and what
memory has of the map does not expire and is in the backing store.  Any operations run one after another,
with evictions in between.  The calls of `Get` and `Execute` return what they return without the
evictions, and the backing store ends with the same records, when every processor runs on an entry that is
in memory or of which there is no record. -/
theorem evictions_unnoticed (procs : Registry) (hname : isReservedMap name = false)
    (halone : (C.nodes n).mem.members.keys = [n]) (hsource : (C.nodes n).loaders name = .store)
    (hmem : ∀ key v, copyOf (name, key) n C = some v →
      v.expireAt = 0 ∧ C.backing (name, key) = some v.data)
    (steps plain : List BackedStep)
    (hcalls : plain.map Prod.fst = (steps.map Prod.fst).filter BackedOp.isCall)
    (hsteps : ∀ st ∈ steps, ∀ i, Arrives (st.2 i)) (hplain : ∀ st ∈ plain, ∀ i, Arrives (st.2 i))
    (hresident : residentAll procs n name steps C = true) :
    (runBacked procs n name steps C).1 = (runBacked procs n name plain C).1 ∧
      ∀ key, (runBacked procs n name steps C).2.backing (name, key) =
        (runBacked procs n name plain C).2.backing (name, key) := by
  let s : Cache.State Bytes Bytes :=
    ⟨fun key => (copyOf (name, key) n C).map Value.data, fun key => C.backing (name, key)⟩
  have hs : Shows n name s C := by
    refine ⟨halone, hsource, fun key => ?_, fun _ => rfl⟩
    change _ = Option.map _ (Option.map Value.data (copyOf (name, key) n C))
    cases hv : copyOf (name, key) n C with
    | none => rfl
    | some v =>
      obtain ⟨data, expireAt⟩ := v
      obtain rfl : expireAt = 0 := (hmem key _ hv).1
      rfl
  have hheld : ∀ key v, s.mem key = some v → s.record key = some v := by
    intro key v hv
    obtain ⟨v, hcopy, rfl⟩ := Option.map_eq_some_iff.mp hv
    exact (hmem key v hcopy).2
  exact runBacked_less hname hs hs ⟨rfl, fun _ => Or.inl rfl, hheld⟩ hcalls hsteps hplain hresident

end runs

/-- An entry is put, evicted and read, and a processor appends to it. -/
def readBetween : List BackedStep :=
  [.put [114] [118], .evict [114], .get [114], .execute [114] Builtin.append.name [119],
    .evictTo 1 1].map fun op => (op, fun _ => .still)

theorem evictions_unnoticed_readBetween :
    (runBacked processors [97] [109] readBetween backedNode).1 =
      [.ok (some [118]), .ok (some [118, 119])] ∧
    (runBacked processors [97] [109] readBetween backedNode).1 =
      (runBacked processors [97] [109] (readBetween.filter fun st => st.1.isCall) backedNode).1 := by
  have harrives : ∀ st ∈ readBetween, ∀ i, Arrives (st.2 i) := by
    intro st hst i
    obtain ⟨op, -, rfl⟩ := List.mem_map.mp hst
    rfl
  have h := evictions_unnoticed (n := [97]) (C := backedNode) processors
    (show isReservedMap [109] = false by decide) (by decide +kernel) rfl (fun _ _ hv => by cases hv)
    readBetween (readBetween.filter fun st => st.1.isCall) (by decide) harrives
    (fun st hst => harrives st (List.mem_of_mem_filter hst)) (by decide +kernel)
  exact ⟨by decide +kernel, h.1⟩

/-- **A processor takes an evicted entry for an absent one**: an entry is put and evicted, and a processor
appends to it.  It finds nothing, and its result overwrites the record in the backing store, although
every call succeeds.  Without the eviction it appends to the entry. -/
theorem evicted_entry_restarts :
    let put : BackedStep := (.put [114] [118], fun _ => .still)
    let evict : BackedStep := (.evict [114], fun _ => .still)
    let append : BackedStep := (.execute [114] Builtin.append.name [119], fun _ => .still)
    let evicted := runBacked processors [97] [109] [put, evict, append] backedNode
    let plain := runBacked processors [97] [109] [put, append] backedNode
    (backedNode.nodes [97]).mem.members.keys = [[97]] ∧
    (backedNode.nodes [97]).loaders [109] = .store ∧
    evicted.1 = [.ok (some [119])] ∧ evicted.2.backing ([109], [114]) = some [119] ∧
    plain.1 = [.ok (some [118, 119])] ∧ plain.2.backing ([109], [114]) = some [118, 119] := by
  decide +kernel

end Medusa
