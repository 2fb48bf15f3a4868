import Mathlib.Data.List.Perm.Basic
import Medusa.Queue

/-! # Active expiry

Expired entries are hidden by every read and reclaimed now and then by `sweepExpired`.  Two stores look
the same from an instant `t` on (`SameLive t`) when each entry is either the same in both or not live in
either.  A sweep at `t` leads to such a store, every call of the store keeps the relation, and no call can
tell the two stores apart, so the time of the last sweep cannot be observed (`sweep_unobservable`).

`StoreCall` lists the calls; `update` reports what its function was shown, which is all the closures of
the source can learn. -/

namespace Medusa

open Medusa.Partition Store

/-! ### Calls of the store -/

/-- One call, with its arguments. -/
inductive StoreCall where
  | get (p : PartitionId) (name key : Bytes)
  | lookup (p : PartitionId) (name key : Bytes)
  | put (p : PartitionId) (name key data : Bytes) (expireAt : Int64)
  | remove (p : PartitionId) (name key : Bytes)
  | update (p : PartitionId) (name key : Bytes) (fn : Option Bytes → Bytes × Action)
  | updateMulti (p : PartitionId) (qname : Bytes) (op : QueueOp) (arg : Bytes)
  | cacheLoaded (p : PartitionId) (name key data : Bytes)
  | snapshotPartition (p : PartitionId)
  | partitionDigest (p : PartitionId)
  | countMap (name : Bytes) (owned : PartitionId → Bool)
  | collectOwnedValues (name : Bytes) (owned : PartitionId → Bool)
  | countOwned (owned : PartitionId → Bool)

/-- What a call returns. -/
inductive StoreReply where
  | data (d : Option Bytes)
  | value (v : Option Value)
  | flag (b : Bool)
  | updated (seen : Option Bytes) (action : Action) (expireAt : Int64)
  | queue (out : Except ServiceError Bytes) (muts : List Mutation)
  | loaded (d : Bytes)
  | entries (es : List Entry)
  | digest (d : UInt64)
  | count (n : ℕ)
  | values (vs : List Bytes)

/-- Entries and values come in the order of a Go map; everything else is the same or not. -/
def StoreReply.Same : StoreReply → StoreReply → Prop
  | entries es, entries es' => es.Perm es'
  | values vs, values vs' => vs.Perm vs'
  | r, r' => r = r'

/-- A call at the instant `now`. -/
def StoreCall.run (s : Store) (now : ℕ) : StoreCall → StoreReply × Store
  | get p name key => (.data (s.get p name key now), s)
  | lookup p name key => (.value (s.lookup p name key now), s)
  | put p name key data expireAt =>
    (.flag (s.put p name key data expireAt now).1, (s.put p name key data expireAt now).2)
  | remove p name key => (.flag (s.remove p name key now).1, (s.remove p name key now).2)
  | update p name key fn =>
    (.updated (s.get p name key now) (s.update p name key now fn).1.1 (s.update p name key now fn).1.2,
      (s.update p name key now fn).2)
  | updateMulti p qname op arg =>
    (.queue (s.updateMulti p (queueOp now qname op arg)).1
        (s.updateMulti p (queueOp now qname op arg)).2.1,
      (s.updateMulti p (queueOp now qname op arg)).2.2)
  | cacheLoaded p name key data =>
    (.loaded (s.cacheLoaded p name key data now).1, (s.cacheLoaded p name key data now).2)
  | snapshotPartition p => (.entries (s.snapshotPartition p now), s)
  | partitionDigest p => (.digest (s.partitionDigest p now), s)
  | countMap name owned => (.count (s.countMap name owned now), s)
  | collectOwnedValues name owned => (.values (s.collectOwnedValues name owned now), s)
  | countOwned owned => (.count (s.countOwned owned now), s)

/-- The replies to a sequence of calls, each at its instant. -/
def StoreCall.replies : List (ℕ × StoreCall) → Store → List StoreReply
  | [], _ => []
  | (now, c) :: rest, s => (c.run s now).1 :: StoreCall.replies rest (c.run s now).2

/-! ### Stores that differ by expired entries -/

/-- From `t` on, every partition shows the same live values. -/
def SameLive (t : ℕ) (s s' : Store) : Prop :=
  ∀ now, t ≤ now → ∀ p r,
    (s'.find p r).filter (fun v => !v.expired now) = (s.find p r).filter (fun v => !v.expired now)

theorem sameLive_sweepExpired (s : Store) (t : ℕ) : SameLive t s (s.sweepExpired t) := by
  intro now hnow p r
  rw [find_sweepExpired]
  cases s.find p r with
  | none => rfl
  | some v =>
    cases hx : v.expired t with
    | true => simp [Option.filter_some, hx, Value.expired_mono hx hnow]
    | false => simp [Option.filter_some, hx]

section same
variable {t : ℕ} {s s' : Store}

theorem SameLive.set (h : SameLive t s s') (p : PartitionId) (r : Ref) (v : Value) :
    SameLive t (s.set p r v) (s'.set p r v) := by
  intro now hnow q r'
  rw [find_set, find_set]
  split
  · rfl
  · exact h now hnow q r'

theorem SameLive.erase (h : SameLive t s s') (p : PartitionId) (r : Ref) :
    SameLive t (s.erase p r) (s'.erase p r) := by
  intro now hnow q r'
  rw [find_erase, find_erase]
  split
  · rfl
  · exact h now hnow q r'

variable {now : ℕ} (h : SameLive t s s') (hnow : t ≤ now)
include h hnow

theorem SameLive.lookup (p : PartitionId) (name key : Bytes) :
    s'.lookup p name key now = s.lookup p name key now := h now hnow p (name, key)

theorem SameLive.snapshotPartition (p : PartitionId) :
    (s.snapshotPartition p now).Perm (s'.snapshotPartition p now) := by
  have hnodup : ∀ u : Store, (u.snapshotPartition p now).Nodup := fun u =>
    (nodup_ref_snapshotPartition u p now).of_map
  refine (List.perm_ext_iff_of_nodup (hnodup s) (hnodup s')).mpr fun e => ?_
  have hlive : ∀ u : Store, e ∈ u.snapshotPartition p now ↔
      (u.find p e.ref).filter (fun v => !v.expired now) = some e.val := fun u => by
    rw [mem_snapshotPartition, Option.filter_eq_some_iff]
    simp
  rw [hlive, hlive, h now hnow]

theorem SameLive.ownedLive (owned : PartitionId → Bool) (select : Bytes → Bool) :
    (s.ownedLive owned now select).Perm (s'.ownedLive owned now select) :=
  List.Perm.flatMap_left _ fun p _ => (h.snapshotPartition hnow p).filter _

theorem SameLive.partitionDigest (p : PartitionId) :
    s'.partitionDigest p now = s.partitionDigest p now := by
  refine partitionDigest_congr fun r d => ?_
  have hlive : ∀ u : Store, u.Live p now r d ↔
      ((u.find p r).filter (fun v => !v.expired now)).map Value.data = some d := fun u => by
    simp only [Live, Option.map_eq_some_iff, Option.filter_eq_some_iff, Bool.not_eq_true', and_assoc]
  rw [hlive, hlive, h now hnow]

theorem SameLive.cacheLoaded (p : PartitionId) (name key data : Bytes) :
    (s'.cacheLoaded p name key data now).1 = (s.cacheLoaded p name key data now).1 ∧
      SameLive t (s.cacheLoaded p name key data now).2 (s'.cacheLoaded p name key data now).2 := by
  unfold Store.cacheLoaded
  rw [h.lookup hnow]
  split
  · exact ⟨rfl, h⟩
  · exact ⟨rfl, h.set _ _ _⟩

theorem SameLive.update (p : PartitionId) (name key : Bytes) (fn : Option Bytes → Bytes × Action) :
    (s'.update p name key now fn).1 = (s.update p name key now fn).1 ∧
      SameLive t (s.update p name key now fn).2 (s'.update p name key now fn).2 := by
  unfold Store.update
  rw [h.lookup hnow]
  dsimp only
  split
  · exact ⟨rfl, h.set _ _ _⟩
  · exact ⟨rfl, h.erase _ _⟩
  · exact ⟨rfl, h⟩

theorem SameLive.updateMulti (p : PartitionId) (q : Bytes) (op : QueueOp) (arg : Bytes) :
    (s'.updateMulti p (queueOp now q op arg)).1 = (s.updateMulti p (queueOp now q op arg)).1 ∧
      (s'.updateMulti p (queueOp now q op arg)).2.1 = (s.updateMulti p (queueOp now q op arg)).2.1 ∧
      SameLive t (s.updateMulti p (queueOp now q op arg)).2.2
        (s'.updateMulti p (queueOp now q op arg)).2.2 := by
  have hget : ∀ name key, isReservedMap name = true →
      (⟨s'.shards p, []⟩ : Txn).get now name key = (⟨s.shards p, []⟩ : Txn).get now name key :=
    fun name key _ => congrArg (Option.map Value.data) (h now hnow p (name, key))
  have hnone : (⟨s'.shards p, []⟩ : Txn).muts = (⟨s.shards p, []⟩ : Txn).muts := rfl
  obtain ⟨hout, hmuts⟩ := queueOp_congr hnone hget q op arg
  refine ⟨hout, hmuts, ?_⟩
  -- both transactions make the same mutations
  have hshard : ∀ u : Store, (queueOp now q op arg ⟨u.shards p, []⟩).2.shard =
      (queueOp now q op arg ⟨u.shards p, []⟩).2.muts.foldl applyMutation (u.shards p) := fun u => by
    have hfaithful : (⟨u.shards p, []⟩ : Txn).Faithful (u.shards p) := rfl
    exact queueOp_faithful hfaithful now q op arg
  change SameLive t (s.setShard p (queueOp now q op arg ⟨s.shards p, []⟩).2.shard)
    (s'.setShard p (queueOp now q op arg ⟨s'.shards p, []⟩).2.shard)
  rw [hshard, hshard, hmuts]
  exact applyMutations_rel (fun _ _ r d hs => hs.set _ r ⟨d, 0⟩) (fun _ _ r hs => hs.erase _ r) h _

/-- **One call**: the replies are the same, and the stores stay alike. -/
theorem SameLive.run (c : StoreCall) :
    (c.run s now).1.Same (c.run s' now).1 ∧ SameLive t (c.run s now).2 (c.run s' now).2 := by
  have hget : ∀ p name key, s'.get p name key now = s.get p name key now := fun p name key => by
    rw [Store.get, Store.get, h.lookup hnow]
  cases c with
  | get p name key => exact ⟨congrArg StoreReply.data (hget p name key).symm, h⟩
  | lookup p name key => exact ⟨congrArg StoreReply.value (h.lookup hnow p name key).symm, h⟩
  | put p name key data expireAt =>
    refine ⟨congrArg StoreReply.flag ?_, h.set _ _ _⟩
    rw [Store.put, Store.put, h.lookup hnow]
  | remove p name key =>
    refine ⟨congrArg StoreReply.flag ?_, h.erase _ _⟩
    rw [Store.remove, Store.remove, h.lookup hnow]
  | update p name key fn =>
    obtain ⟨hreply, hs⟩ := h.update hnow p name key fn
    refine ⟨?_, hs⟩
    simp only [StoreCall.run, StoreReply.Same, hreply, hget]
  | updateMulti p qname op arg =>
    obtain ⟨hout, hmuts, hs⟩ := h.updateMulti hnow p qname op arg
    refine ⟨?_, hs⟩
    simp only [StoreCall.run, StoreReply.Same, hout, hmuts]
  | cacheLoaded p name key data =>
    obtain ⟨hreply, hs⟩ := h.cacheLoaded hnow p name key data
    exact ⟨congrArg StoreReply.loaded hreply.symm, hs⟩
  | snapshotPartition p => exact ⟨h.snapshotPartition hnow p, h⟩
  | partitionDigest p => exact ⟨congrArg StoreReply.digest (h.partitionDigest hnow p).symm, h⟩
  | countMap name owned => exact ⟨congrArg StoreReply.count (h.ownedLive hnow owned _).length_eq, h⟩
  | collectOwnedValues name owned => exact ⟨(h.ownedLive hnow owned _).map _, h⟩
  | countOwned owned => exact ⟨congrArg StoreReply.count (h.ownedLive hnow owned _).length_eq, h⟩

end same

theorem SameLive.replies {t : ℕ} {calls : List (ℕ × StoreCall)} (hcalls : ∀ x ∈ calls, t ≤ x.1)
    {s s' : Store} (h : SameLive t s s') :
    List.Forall₂ StoreReply.Same (StoreCall.replies calls s) (StoreCall.replies calls s') := by
  induction calls generalizing s s' with
  | nil => exact List.Forall₂.nil
  | cons x calls ih =>
    obtain ⟨hreply, hs⟩ := h.run (hcalls x List.mem_cons_self) x.2
    exact List.Forall₂.cons hreply (ih (fun y hy => hcalls y (List.mem_cons_of_mem _ hy)) hs)

/-- **Active expiry is unobservable**: no call at an instant from `t` on can tell whether the store was
swept at `t`. -/
theorem sweep_unobservable (s : Store) (t : ℕ) (calls : List (ℕ × StoreCall))
    (hcalls : (t :: calls.map Prod.fst).Pairwise (· ≤ ·)) :
    List.Forall₂ StoreReply.Same (StoreCall.replies calls s)
      (StoreCall.replies calls (s.sweepExpired t)) := by
  refine (sameLive_sweepExpired s t).replies fun x hx => ?_
  exact (List.pairwise_cons.mp hcalls).1 x.1 (List.mem_map_of_mem hx)

/-- A put over an expired entry creates the key, and an `update` is shown nothing, swept or not. -/
theorem sweep_unobservable_put :
    let s := Store.empty.set 0 ([109], [107]) ⟨[1], 5⟩
    let calls : List (ℕ × StoreCall) := [(7, .put 0 [109] [107] [2] 0), (8, .remove 0 [109] [107]),
      (8, .update 0 [109] [107] (fun _ => ([3], .set)))]
    s.find 0 ([109], [107]) ≠ (s.sweepExpired 6).find 0 ([109], [107]) ∧
      List.Forall₂ StoreReply.Same (StoreCall.replies calls s)
        (StoreCall.replies calls (s.sweepExpired 6)) := by
  refine ⟨by decide +kernel, sweep_unobservable _ 6 _ ?_⟩
  simp

end Medusa
