import Medusa.Map
import Medusa.Node
import Medusa.Writes

/-! # The actions of every call

`Medusa.Writes` has the actions of replicated writes and of `Migrate`.  Here are those of the other
programs: the remaining handlers of `Handle`, the operations of map and queue handles, `SyncBackups`
and `Service.Evict`.  Each lemma says that a predicate of actions holds throughout a program when it
holds of the critical sections that only read (`Querying`), of the calls of a `MapStore` (`Reading`), and
of the program's own store changes. -/

namespace Medusa

open Medusa.Partition Store Interleave Service

/-! ### Eviction -/

/-- The predicate holds of messages and of the readings of an eviction. -/
structure Shedding (P : Action → Prop) : Prop extends Posting P where
  live : ∀ n p now select, P (.on n (.liveEntries p now select))

namespace Shedding
variable {P : Action → Prop} (hP : Shedding P)
include hP

theorem applyEvict (n name key : Bytes) (hremove : ∀ x, P (.on x (.remove name key))) :
    (applyEvict n name key).All P :=
  ⟨hremove n, fun _ => (hP.replicate _ _ (.remove name key) hremove).bind (fun _ => trivial)⟩

theorem countLoop (n : Bytes) (now : ℕ) (select : Bytes → Bool) (ps : List PartitionId) (count : ℕ) :
    (countLoop n now select ps count).All P := by
  induction ps generalizing count with
  | nil => trivial
  | cons p ps ih => exact ⟨hP.live n _ _ _, fun _ => ih _⟩

theorem sampleLoop (n : Bytes) (now limit : ℕ) (ps : List PartitionId) (out : List Ref) :
    (sampleLoop n now limit ps out).All P := by
  induction ps generalizing out with
  | nil => trivial
  | cons p ps ih =>
    refine Prog.All.step (hP.live n _ _ _) (fun live => ?_)
    dsimp only
    split
    · trivial
    · exact ih _

theorem sampleOwned (n : Bytes) (tbl : Table) (limit : ℤ) : (sampleOwned n tbl limit).All P := by
  unfold Service.sampleOwned
  split
  · trivial
  · exact ⟨hP.now n, fun _ => hP.sampleLoop _ _ _ _ _⟩

theorem evictAll (n : Bytes) {l : List Ref} (hremove : ∀ r ∈ l, ∀ x, P (.on x (.remove r.1 r.2))) :
    (evictAll n l).All P := by
  induction l with
  | nil => trivial
  | cons r l ih =>
    exact (hP.applyEvict n r.1 r.2 (hremove r List.mem_cons_self)).bind
      (fun _ => ih fun s hs => hremove s (List.mem_cons_of_mem _ hs))

theorem evict (n : Bytes) (max batch : ℤ) (hremove : ∀ name key x, P (.on x (.remove name key))) :
    (evict n max batch).All P := by
  unfold Service.evict
  split
  · trivial
  · refine Prog.All.step (hP.table n) (fun tbl => ?_)
    refine Prog.All.bind (Prog.All.step (hP.now n)
      (fun now => hP.countLoop n now _ _ 0)) (fun count => ?_)
    split
    · trivial
    · exact (hP.sampleOwned n tbl _).bind fun victims =>
        (hP.evictAll n fun r _ => hremove r.1 r.2).bind fun _ => trivial

end Shedding

/-! ### Reads -/

/-- The predicate holds of messages, of loads, and of the critical sections that change no store and no
membership. -/
structure Querying (P : Action → Prop) : Prop extends Wiring P where
  reads : ∀ n {a : NodeAction}, a.Reads → a.Calm → P (.on n a)
  load : ∀ name key, P (.load name key)

/-- The predicate holds of every action that changes no store and no membership. -/
structure Reading (P : Action → Prop) : Prop extends Querying P, Plumbing P

namespace Querying
variable {P : Action → Prop} (hP : Querying P) {α : Type}
include hP

theorem shedding : Shedding P where
  toPosting := hP.posting
  live n _ _ _ := hP.reads n trivial trivial

/-! ### Handlers -/

theorem getThrough (n name key : Bytes)
    (hcache : ∀ value, P (.on n (.cacheLoaded (routedPartition name key) name key value))) :
    (getThrough n name key).All P := by
  refine Prog.All.step (hP.reads n trivial trivial) (fun v => ?_)
  cases v with
  | some v => trivial
  | none =>
    refine Prog.All.step (hP.reads n trivial trivial) (fun src => ?_)
    split
    · trivial
    · refine Prog.All.step (hP.reads n trivial trivial) (fun tbl => ?_)
      split
      · trivial
      · refine Prog.All.step (hP.load _ _) (fun loaded => ?_)
        split
        · trivial
        · trivial
        · exact ⟨hcache _, fun _ => trivial⟩

theorem localMapSize (n name : Bytes) : (localMapSize n name).All P :=
  ⟨hP.reads n trivial trivial, fun _ => ⟨hP.reads n trivial trivial, fun _ => hP.shedding.countLoop _ _ _ _ _⟩⟩

theorem sendSize (addr name : Bytes) : (sendSize addr name).All P :=
  hP.send fun x => (hP.localMapSize x name).bind fun _ => trivial

theorem sendClear (addr name : Bytes) (hclear : ∀ x, P (.on x (.clearMap name))) :
    (sendClear addr name).All P :=
  hP.send fun x => ⟨hclear x, fun _ => trivial⟩

theorem collectLoop (n : Bytes) (now : ℕ) (name : Bytes) (ps : List PartitionId) (out : List Bytes) :
    (collectLoop n now name ps out).All P := by
  induction ps generalizing out with
  | nil => trivial
  | cons p ps ih => exact ⟨hP.reads n trivial trivial, fun _ => ih _⟩

theorem localAggregate (aggs : AggRegistry) (n name aggName : Bytes) :
    (localAggregate aggs n name aggName).All P := by
  unfold Service.localAggregate
  split
  · trivial
  · refine ⟨hP.reads n trivial trivial, fun tbl => ⟨hP.reads n trivial trivial, fun now => ?_⟩⟩
    exact (hP.collectLoop n now name _ []).bind (fun _ => trivial)

theorem reconcile (x : Bytes) (p : PartitionId) (keep : List Ref) (hprune : P (.on x (.prune p keep))) :
    (reconcile x p keep).All P := by
  refine Prog.All.step (hP.reads x trivial trivial) (fun tbl => ?_)
  split
  · trivial
  · exact ⟨hprune, fun _ => trivial⟩

theorem sendDigest (addr : Bytes) (p : PartitionId) (digest : UInt64) :
    (sendDigest addr p digest).All P :=
  hP.send fun x => ⟨hP.reads x trivial trivial, fun _ => trivial⟩

/-! ### Anti-entropy -/

theorem probe (n : Bytes) (p : PartitionId) (digest : UInt64) (ids : List Bytes) :
    (probe n p digest ids).All P := by
  induction ids with
  | nil => trivial
  | cons b ids ih =>
    unfold Service.probe
    split
    · exact ih
    · refine Prog.All.step (hP.reads n trivial trivial) (fun addr => ?_)
      cases addr with
      | none => exact ih
      | some addr =>
        exact (hP.sendDigest addr p digest).bind fun _ => ih.bind fun _ => trivial

theorem reconcileAll (p : PartitionId) (keyset : List Ref) (stale : List Bytes)
    (hprune : ∀ x p keep, P (.on x (.prune p keep))) : (reconcileAll p keyset stale).All P := by
  induction stale with
  | nil => trivial
  | cons addr stale ih =>
    exact (hP.send fun x => hP.reconcile x p keyset (hprune _ _ _)).bind fun _ => ih

section sync
variable (hput : ∀ x name key value expireAt, P (.on x (.put name key value expireAt)))
include hput

theorem pushStale (name key value : Bytes) (ttlMs : Int64) (stale : List Bytes) (sent : Bool) :
    (pushStale name key value ttlMs stale sent).All P := by
  induction stale generalizing sent with
  | nil => trivial
  | cons addr stale ih =>
    refine (hP.send fun x => hP.replica (.put name key value ttlMs)
      (fun y => hput y _ _ _) x).bind ?_
    rintro (err | b)
    · exact ih sent
    · exact ih true

theorem syncEntries (n : Bytes) (p : PartitionId) (now : ℕ) (stale : List Bytes) (es : List Entry)
    (keyset : List Ref) (pushed : ℕ) : (syncEntries n p now stale es keyset pushed).All P := by
  induction es generalizing keyset pushed with
  | nil => trivial
  | cons e es ih =>
    refine Prog.All.step (hP.reads n trivial trivial) (fun v => ?_)
    cases v with
    | none => exact ih _ _
    | some v =>
      dsimp only
      split
      · exact ih _ _
      · exact (hP.pushStale hput _ _ _ _ _ _).bind fun _ => ih _ _

variable (hprune : ∀ x p keep, P (.on x (.prune p keep)))
include hprune

theorem syncPartition (n : Bytes) (tbl : Table) (now : ℕ) (p : PartitionId) :
    (syncPartition n tbl now p).All P := by
  unfold Service.syncPartition
  split
  · trivial
  · refine Prog.All.step (hP.reads n trivial trivial) (fun digest => ?_)
    refine (hP.probe n p digest _).bind fun stale => ?_
    split
    · trivial
    · refine Prog.All.step (hP.reads n trivial trivial) (fun snap => ?_)
      exact (hP.syncEntries hput n p now stale _ [] 0).bind fun r =>
        (hP.reconcileAll p r.1 stale hprune).bind fun _ => trivial

theorem syncLoop (n : Bytes) (tbl : Table) (now k : ℕ) (p : PartitionId) (pushed : ℕ) :
    (syncLoop n tbl now k p pushed).All P := by
  induction k generalizing p pushed with
  | zero => trivial
  | succ k ih => exact (hP.syncPartition hput hprune n tbl now p).bind fun _ => ih _ _

theorem syncBackups (n : Bytes) (tbl : Table) (start : ℤ) (batch : ℕ) :
    (syncBackups n tbl start batch).All P :=
  ⟨hP.reads n trivial trivial, fun now => hP.syncLoop hput hprune n tbl now _ _ _⟩

end sync

/-! ### Handles -/

theorem route (n key : Bytes) : (Map.route n key).All P := by
  refine Prog.All.step (hP.reads n trivial trivial) (fun tbl => ?_)
  split
  · trivial
  · exact ⟨hP.reads n trivial trivial, fun _ => trivial⟩

theorem tryBackups {σ : Type} (n : Bytes) (p : PartitionId) {fn : Option Bytes → σ → Prog (Bool × σ)}
    (hfn : ∀ backup s, (fn backup s).All P) (s : σ) : (Map.tryBackups n p fn s).All P := by
  have heach : ∀ (ids : List Bytes) (s : σ), (Map.tryEach n fn ids s).All P := by
    intro ids
    induction ids with
    | nil => exact fun _ => trivial
    | cons id ids ih =>
      intro s
      have hstop : ∀ r : Bool × σ, (if r.1 then pure r.2 else Map.tryEach n fn ids r.2 :
          Prog σ).All P := by
        intro r
        split
        · trivial
        · exact ih r.2
      unfold Map.tryEach
      split
      · exact (hfn none s).bind hstop
      · refine Prog.All.step (hP.reads n trivial trivial) (fun addr => ?_)
        cases addr with
        | none => exact ih s
        | some addr => exact (hfn (some addr) s).bind hstop
  exact ⟨hP.reads n trivial trivial, fun tbl => heach _ s⟩

theorem viaOwner (n key : Bytes) {asOwner : Prog (Except ServiceError α)}
    {sendOwner : Bytes → Prog (Except ServiceError α)}
    {serve : Option Bytes → Prog (Except ServiceError α)} (howner : asOwner.All P)
    (hsend : ∀ owner, (sendOwner owner).All P) (hserve : ∀ backup, (serve backup).All P) :
    (Map.viaOwner n key asOwner sendOwner serve).All P := by
  refine (hP.route n key).bind fun r => ?_
  split
  · exact howner
  · refine (hsend r.owner).bind fun out => ?_
    cases out with
    | ok out => trivial
    | error err =>
      refine hP.tryBackups n r.p (fun backup s => (hserve backup).bind fun out => ?_) _
      cases out <;> trivial

/-- `Execute`, when the handler of every node keeps to the predicate. -/
theorem execute (procs : Registry) (n name key procName arg : Bytes)
    (happly : ∀ x, (Service.applyExecute procs x name key procName arg).All P) :
    (Map.execute procs n name key procName arg).All P := by
  refine hP.viaOwner n key (happly n) (fun owner => hP.send fun x => happly x) fun backup => ?_
  cases backup with
  | none => exact happly n
  | some addr => exact hP.send fun x => happly x

/-- `Get`, when the handler of every node keeps to the predicate. -/
theorem get (n name key : Bytes) (hget : ∀ x, (Service.getThrough x name key).All P) :
    (Map.get n name key).All P := by
  have hsend : ∀ addr, (sendGet addr name key).All P := fun addr => hP.send fun x => hget x
  have hbackups : ∀ p, (Map.tryBackups n p (Map.getBackup n p name key) (.ok none)).All P := by
    intro p
    refine hP.tryBackups n p (fun backup s => ?_) _
    cases backup with
    | none => exact ⟨hP.reads n trivial trivial, fun _ => trivial⟩
    | some addr =>
      refine (hsend addr).bind fun out => ?_
      cases out <;> trivial
  refine (hP.route n key).bind fun r => ?_
  split
  · refine (hget n).bind fun out => ?_
    rcases out with err | (- | v)
    · trivial
    · exact hbackups r.p
    · trivial
  · refine (hsend r.owner).bind fun out => ?_
    rcases out with err | (- | v)
    · exact hbackups r.p
    · exact hbackups r.p
    · trivial

theorem evictKey (n name key : Bytes) (hremove : isReservedMap name = false →
    ∀ x, P (.on x (.remove name key))) : (Map.evict n name key).All P := by
  unfold Map.evict
  split
  · trivial
  · next hname =>
    have happly : ∀ x, (Service.applyEvict x name key).All P :=
      fun x => hP.shedding.applyEvict x name key (hremove (by simpa using hname))
    refine (hP.route n key).bind fun r => ?_
    split
    · exact happly n
    · exact hP.send fun x => happly x

theorem size (n name : Bytes) : (Map.size n name).All P := by
  have hloop : ∀ (ms : List Member) (total : UInt64) (firstErr : Option ServiceError),
      (Map.sizeLoop n name ms total firstErr).All P := by
    intro ms
    induction ms with
    | nil => exact fun _ _ => trivial
    | cons m ms ih =>
      intro total firstErr
      unfold Map.sizeLoop
      split
      · exact (hP.localMapSize n name).bind fun _ => ih _ _
      · refine (hP.sendSize m.addr name).bind fun out => ?_
        cases out <;> exact ih _ _
  exact ⟨hP.reads n trivial trivial, fun ms => hloop ms _ _⟩

theorem clear (n name : Bytes) (hclear : isReservedMap name = false →
    ∀ x, P (.on x (.clearMap name))) : (Map.clear n name).All P := by
  unfold Map.clear
  split
  · trivial
  · next hname =>
    have hone : ∀ x, P (.on x (.clearMap name)) := hclear (by simpa using hname)
    have hloop : ∀ (ms : List Member) (firstErr : Option ServiceError),
        (Map.clearLoop n name ms firstErr).All P := by
      intro ms
      induction ms with
      | nil => exact fun _ => trivial
      | cons m ms ih =>
        intro firstErr
        unfold Map.clearLoop
        split
        · exact ⟨hone n, fun _ => ih _⟩
        · refine (hP.sendClear m.addr name hone).bind fun out => ?_
          cases out <;> exact ih _
    exact ⟨hP.reads n trivial trivial, fun ms => hloop ms none⟩

theorem aggregate (aggs : AggRegistry) (n name aggName : Bytes) :
    (Map.aggregate aggs n name aggName).All P := by
  have hloop : ∀ (ms : List Member) (partials : List Bytes) (firstErr : Option ServiceError),
      (Map.aggregateLoop aggs n name aggName ms partials firstErr).All P := by
    intro ms
    induction ms with
    | nil => exact fun _ _ => trivial
    | cons m ms ih =>
      intro partials firstErr
      unfold Map.aggregateLoop
      split
      · refine (hP.localAggregate aggs n name aggName).bind fun out => ?_
        cases out with
        | error err => trivial
        | ok p => exact ih _ _
      · refine (hP.send fun x => hP.localAggregate aggs x name aggName).bind fun out => ?_
        split
        · trivial
        · exact ih _ _
        · exact ih _ _
  unfold Map.aggregate
  split
  · trivial
  · exact ⟨hP.reads n trivial trivial, fun ms => (hloop ms [] none).bind fun _ => trivial⟩

end Querying

namespace Reading
variable {P : Action → Prop} (hP : Reading P)
include hP

theorem putWithTTL (n name key value : Bytes) (ttlMs : Int64) (hput : isReservedMap name = false →
    ∀ x expireAt, P (.on x (.put name key value expireAt))) :
    (Map.putWithTTL n name key value ttlMs).All P := by
  unfold Map.putWithTTL
  split
  · trivial
  · next hname =>
    have happly : ∀ x backup, (Service.applyPut x name key value ttlMs backup).All P :=
      fun x backup => hP.applyPut x name key value ttlMs backup (hput (by simpa using hname))
    refine (hP.viaOwner n key (happly n false) (fun owner => hP.send fun x => happly x false)
      fun backup => ?_).bind fun _ => trivial
    cases backup with
    | none => exact happly n true
    | some addr => exact hP.send fun x => happly x true

theorem remove (n name key : Bytes) (hremove : isReservedMap name = false →
    ∀ x, P (.on x (.remove name key))) : (Map.remove n name key).All P := by
  unfold Map.remove
  split
  · trivial
  · next hname =>
    have happly : ∀ x backup, (Service.applyRemove x name key backup).All P :=
      fun x backup => hP.applyRemove x name key backup (hremove (by simpa using hname))
    refine hP.viaOwner n key (happly n false) (fun owner => hP.send fun x => happly x false)
      fun backup => ?_
    cases backup with
    | none => exact happly n true
    | some addr => exact hP.send fun x => happly x true

end Reading

end Medusa
