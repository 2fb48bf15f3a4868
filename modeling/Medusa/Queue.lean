import Medusa.Store
import Medusa.Lib.ItemStream

/-! # Queue operations

`imap/queue.go`: a queue is a metadata record under `__queue` and a chain of segments under
`__queueseg`, all in the partition of the queue's name.  `queueOp` applies one operation through
the accessors of a store transaction; it touches the metadata and at most one segment.

* `packed_stream_codec`: **packing items and taking them off again are inverse**, on any value below 4 GiB.
* `poll_delivers_or_spares`: **a poll takes off the item it delivers and nothing else**, in any state of the
  store.

Proofs work on the *view* of a queue (`QueueView`): the metadata and the segments, the only part
of a shard that operations on the queue read or write.  `view_insert_meta`, `view_insert_seg` and
`view_erase_seg` say how writes act on the view of their own queue, and `queueOp_view_ne` that the
views of all other queues stay as they are. -/

namespace Medusa

open BigEndian Medusa.Partition Store

/-! ### The operations -/

/-- The operation names `queueOp` switches on. -/
inductive QueueOp where
  | queueoffer
  | queuepoll
  | queuepeek
  | queuesize
  | other (op : Bytes)
deriving DecidableEq, Repr

/-- The name of an operation, as the bytes of its text. -/
def QueueOp.name : QueueOp → Bytes
  | queueoffer => [113, 117, 101, 117, 101, 111, 102, 102, 101, 114]
  | queuepoll => [113, 117, 101, 117, 101, 112, 111, 108, 108]
  | queuepeek => [113, 117, 101, 117, 101, 112, 101, 101, 107]
  | queuesize => [113, 117, 101, 117, 101, 115, 105, 122, 101]
  | other op => op

/-- What the service reports instead of a result. -/
inductive ServiceError where
  | reservedMap
  | unknownProcessor (name : Bytes)
  | unknownQueueOp (op : Bytes)
  | unreachable
  | backingStore
  | unknownAggregator (name : Bytes)
  | emptyHolder
deriving DecidableEq, Repr

/-- `putI64`: a big-endian `int64`. -/
def putI64 (n : Int64) : Bytes := beBytes 8 n.toUInt64.toNat

/-- `decodeI64`. -/
def decodeI64 (b : Bytes) : Int64 :=
  if b.length < 8 then 0 else (UInt64.ofNat (beNat (b.take 8))).toInt64

theorem decodeI64_putI64 (n : Int64) : decodeI64 (putI64 n) = n := by
  have h8 : (putI64 n).length = 8 := by simp [putI64]
  rw [decodeI64, if_neg (by omega), List.take_of_length_le h8.le, putI64, ofNat_beNat_beBytes]
  simp

/-- `decodeQueueItem`: the item after a found flag. -/
def decodeQueueItem : Bytes → Option Bytes
  | [] => none
  | flag :: item => if flag = 0 then none else some item

/-- `queueCount`: the number of packed items.  Every round consumes at least four bytes, so the
length bounds the number of rounds. -/
def queueCountLoop : ℕ → Bytes → ℕ
  | 0, _ => 0
  | fuel + 1, b =>
    if b.length < 4 then 0
    else if b.length < 4 + beNat (b.take 4) then 0
    else queueCountLoop fuel (b.drop (4 + beNat (b.take 4))) + 1

@[inherit_doc queueCountLoop] def queueCount (b : Bytes) : ℕ := queueCountLoop b.length b

/-- `queueCount` counts what `queueHead` takes off, round by round. -/
theorem queueCountLoop_eq (fuel : ℕ) (b : Bytes) :
    queueCountLoop fuel b = (ItemStream.scan queueHead fuel b).1.length := by
  induction fuel generalizing b with
  | zero => rfl
  | succ fuel ih =>
    unfold queueCountLoop
    split
    · next h4 =>
      have hnone : queueHead b = none := if_pos h4
      rw [ItemStream.scan_none hnone]
      rfl
    · next h4 =>
      split
      · next hn =>
        have hnone : queueHead b = none := (if_neg h4).trans (if_pos hn)
        rw [ItemStream.scan_none hnone]
        rfl
      · next hn =>
        have hsome : queueHead b = some _ := (if_neg h4).trans (if_neg hn)
        rw [ItemStream.scan_some hsome, ih]
        rfl

section codec
variable {items : List Bytes} (hitems : ∀ x ∈ items, x.length < 2 ^ 31)
include hitems

theorem scan_packItems (fuel : ℕ) : ItemStream.scan queueHead fuel (packItems items) =
    (items.take fuel, packItems (items.drop fuel)) := by
  have hnext : ∀ x ∈ items, ∀ more, queueHead ((beBytes 4 x.length ++ x) ++ more) = some (x, more) := by
    intro x hx more
    have := hitems x hx
    exact queueHead_append (by omega) more
  have h := ItemStream.scan_flatMap hnext queueHead_nil fuel
  rwa [List.append_nil, List.append_nil, ← packItems_eq_flatMap, ← packItems_eq_flatMap] at h

theorem queueCount_packItems : queueCount (packItems items) = items.length := by
  rw [queueCount, queueCountLoop_eq, scan_packItems hitems, List.take_of_length_le (length_le_packItems items)]

end codec

/-- What `queueHead` takes off a value, packed again, and the rest make up the value. -/
theorem packItems_scan {b : Bytes} (hb : b.length < 2 ^ 32) (fuel : ℕ) :
    packItems (ItemStream.scan queueHead fuel b).1 ++ (ItemStream.scan queueHead fuel b).2 = b := by
  rw [packItems_eq_flatMap]
  refine ItemStream.flatMap_scan (fun t x rest ht h => ?_) fuel
  exact (queueHead_eq_some (ht.length_le.trans_lt hb)).mp h

/-- **The packed stream codec.**  Items that were packed are taken off one by one, with nothing left behind
them, and counted.  From any value below 4 GiB, a number of rounds bounded by its length takes off all the
items that can be taken off; they are as many as `queueCount` says, and packed again in front of what is
left they give the value back. -/
theorem packed_stream_codec (items : List Bytes) (hitems : ∀ x ∈ items, x.length < 2 ^ 31) (b : Bytes)
    (hb : b.length < 2 ^ 32) :
    ((∀ rounds, items.length ≤ rounds →
        ItemStream.scan queueHead rounds (items.foldl appendPacked []) = (items, [])) ∧
      queueCount (items.foldl appendPacked []) = items.length) ∧
    ∃ taken left, (∀ rounds, b.length ≤ rounds → ItemStream.scan queueHead rounds b = (taken, left)) ∧
      queueHead left = none ∧ queueCount b = taken.length ∧ taken.foldl appendPacked [] ++ left = b := by
  refine ⟨⟨fun rounds hrounds => ?_, queueCount_packItems hitems⟩, ?_⟩
  · change ItemStream.scan queueHead rounds (packItems items) = _
    rw [scan_packItems hitems, List.take_of_length_le hrounds, List.drop_of_length_le hrounds]
    rfl
  · have hend : queueHead (ItemStream.scan queueHead b.length b).2 = none :=
      ItemStream.next_scan (fun s x rest h => length_lt_of_queueHead h) le_rfl
    exact ⟨_, _, fun rounds hrounds => ItemStream.scan_eq_of_le hend hrounds, hend,
      queueCountLoop_eq b.length b, packItems_scan hb b.length⟩

/-- An empty item between two others; and a value with a torn item behind two whole ones. -/
theorem packed_stream_codec_torn :
    queueCount ([[1], [], [2, 3]].foldl appendPacked []) = 3 ∧
    ∃ taken left, (∀ rounds, 13 ≤ rounds →
        ItemStream.scan queueHead rounds [0, 0, 0, 1, 7, 0, 0, 0, 0, 0, 0, 0, 2] = (taken, left)) ∧
      queueHead left = none ∧ queueCount [0, 0, 0, 1, 7, 0, 0, 0, 0, 0, 0, 0, 2] = taken.length ∧
      taken.foldl appendPacked [] ++ left = [0, 0, 0, 1, 7, 0, 0, 0, 0, 0, 0, 0, 2] := by
  have h := packed_stream_codec [[1], [], [2, 3]] (by decide)
    [0, 0, 0, 1, 7, 0, 0, 0, 0, 0, 0, 0, 2] (by decide)
  exact ⟨h.1.2, h.2⟩

/-- The segment an offer appends to: the tail segment, or the next one when the tail segment is
full.  With a zero count the content at the tail id is stale and is overwritten. -/
def offerTarget (now : ℕ) (name : Bytes) (tail count : UInt64) (arg : Bytes) (t : Txn) :
    UInt64 × Bytes :=
  let seg := if 0 < count then (t.get now queueSegMap (queueSegKey tail name)).getD [] else []
  if seg.length ≠ 0 ∧ maxSegBytes < seg.length + 4 + arg.length then
    (tail + 1, (t.get now queueSegMap (queueSegKey (tail + 1) name)).getD [])
  else (tail, seg)

/-- `queueOp`: one queue operation inside a store transaction. -/
def queueOp (now : ℕ) (name : Bytes) (op : QueueOp) (arg : Bytes) (t : Txn) :
    Except ServiceError Bytes × Txn :=
  let mv := t.get now queueMap name
  let (head, tail, count) := decodeQueueMeta (mv.getD [])
  match op with
  | .queueoffer =>
    let (tail, seg) := offerTarget now name tail count arg t
    let t := t.set queueSegMap (queueSegKey tail name) (appendPacked seg arg)
    let t := t.set queueMap name (encodeQueueMeta head tail (count + 1))
    (.ok (putI64 (count + 1).toInt64), t)
  | .queuepoll =>
    if mv = none ∨ count = 0 then (.ok [0], t)
    else match t.get now queueSegMap (queueSegKey head name) with
      | none => (.ok [0], t)
      | some seg => match queueHead seg with
        | none => (.ok [0], t)
        | some (item, rest) =>
          if rest.length = 0 then
            let t := t.del queueSegMap (queueSegKey head name)
            let head := if head < tail then head + 1 else head
            (.ok (1 :: item), t.set queueMap name (encodeQueueMeta head tail (count - 1)))
          else
            let t := t.set queueSegMap (queueSegKey head name) rest
            (.ok (1 :: item), t.set queueMap name (encodeQueueMeta head tail (count - 1)))
  | .queuepeek =>
    if mv = none ∨ count = 0 then (.ok [0], t)
    else match t.get now queueSegMap (queueSegKey head name) with
      | none => (.ok [0], t)
      | some seg => match queueHead seg with
        | none => (.ok [0], t)
        | some (item, _) => (.ok (1 :: item), t)
  | .queuesize => (.ok (putI64 count.toInt64), t)
  | .other op => (.error (.unknownQueueOp op), t)

/-- The store part of `applyQueueExecute`: the operation as a transaction on the partition of the
queue's name. -/
def queueTxn (s : Store) (now : ℕ) (qname : Bytes) (op : QueueOp) (arg : Bytes) :
    Except ServiceError Bytes × List Mutation × Store :=
  s.updateMulti (forKey qname) (queueOp now qname op arg)

/-! ### What an operation writes -/

/-- An operation writes nothing, or one segment and then the metadata. -/
theorem queueOp_cases (now : ℕ) (q : Bytes) (op : QueueOp) (arg : Bytes) (t : Txn) :
    (queueOp now q op arg t).2 = t ∨
    (∃ i data info, info.length = 24 ∧ (queueOp now q op arg t).2 =
      (t.set queueSegMap (queueSegKey i q) data).set queueMap q info) ∨
    (∃ i info, info.length = 24 ∧ (queueOp now q op arg t).2 =
      (t.del queueSegMap (queueSegKey i q)).set queueMap q info) := by
  cases op with
  | queueoffer => exact Or.inr (Or.inl ⟨_, _, _, encodeQueueMeta_length _ _ _, rfl⟩)
  | queuepoll =>
    simp only [queueOp]
    split
    · exact Or.inl rfl
    · split
      · exact Or.inl rfl
      · split
        · exact Or.inl rfl
        · split
          · exact Or.inr (Or.inr ⟨_, _, encodeQueueMeta_length _ _ _, rfl⟩)
          · exact Or.inr (Or.inl ⟨_, _, _, encodeQueueMeta_length _ _ _, rfl⟩)
  | queuepeek =>
    simp only [queueOp]
    split
    · exact Or.inl rfl
    · split
      · exact Or.inl rfl
      · split <;> exact Or.inl rfl
  | queuesize => exact Or.inl rfl
  | other op => exact Or.inl rfl

/-- An operation reads only the entries of reserved maps. -/
theorem queueOp_congr {now now' : ℕ} {t t' : Txn} (hmuts : t'.muts = t.muts)
    (hget : ∀ name key, isReservedMap name = true → t'.get now' name key = t.get now name key)
    (q : Bytes) (op : QueueOp) (arg : Bytes) :
    (queueOp now' q op arg t').1 = (queueOp now q op arg t).1 ∧
      (queueOp now' q op arg t').2.muts = (queueOp now q op arg t).2.muts := by
  have hmeta := hget queueMap q rfl
  have hseg : ∀ i, t'.get now' queueSegMap (queueSegKey i q) = t.get now queueSegMap (queueSegKey i q) :=
    fun i => hget queueSegMap _ rfl
  have hoffer : ∀ tail count, offerTarget now' q tail count arg t' = offerTarget now q tail count arg t :=
    fun tail count => by simp only [offerTarget, hseg]
  cases op with
  | queueoffer => simp only [queueOp, hmeta, hoffer, Txn.set, hmuts, and_self]
  | queuepoll =>
    simp only [queueOp, hmeta, hseg]
    split
    · exact ⟨rfl, hmuts⟩
    · split
      · exact ⟨rfl, hmuts⟩
      · split
        · exact ⟨rfl, hmuts⟩
        · split <;> simp only [Txn.set, Txn.del, hmuts, and_self]
  | queuepeek =>
    simp only [queueOp, hmeta, hseg]
    split
    · exact ⟨rfl, hmuts⟩
    · split
      · exact ⟨rfl, hmuts⟩
      · split <;> exact ⟨rfl, hmuts⟩
  | queuesize =>
    simp only [queueOp, hmeta]
    exact ⟨trivial, hmuts⟩
  | other op => exact ⟨rfl, hmuts⟩

theorem queueOp_faithful {m : Shard} {t : Txn} (h : t.Faithful m) (now : ℕ) (q : Bytes)
    (op : QueueOp) (arg : Bytes) : (queueOp now q op arg t).2.Faithful m := by
  rcases queueOp_cases now q op arg t with e | ⟨i, data, info, -, e⟩ | ⟨i, info, -, e⟩
  · rw [e]
    exact h
  · rw [e]
    exact (h.set _ _ _).set _ _ _
  · rw [e]
    exact (h.del _ _).set _ _ _

/-- The store after a queue operation is the store before it with the mutations applied. -/
theorem queueTxn_store (s : Store) (now : ℕ) (q : Bytes) (op : QueueOp) (arg : Bytes) :
    (queueTxn s now q op arg).2.2 = s.setShard (forKey q)
      ((queueTxn s now q op arg).2.1.foldl applyMutation (s.shards (forKey q))) := by
  have h : (⟨s.shards (forKey q), []⟩ : Txn).Faithful (s.shards (forKey q)) := rfl
  exact congrArg (s.setShard (forKey q)) (queueOp_faithful h now q op arg)

/-- An operation makes no mutation, or one of a segment and then one of the metadata. -/
theorem queueTxn_muts (s : Store) (now : ℕ) (q : Bytes) (op : QueueOp) (arg : Bytes) :
    (queueTxn s now q op arg).2.1 = [] ∨
    ∃ i info, info.length = 24 ∧ ((∃ data, (queueTxn s now q op arg).2.1 =
        [⟨queueSegMap, queueSegKey i q, data, false⟩, ⟨queueMap, q, info, false⟩]) ∨
      (queueTxn s now q op arg).2.1 =
        [⟨queueSegMap, queueSegKey i q, [], true⟩, ⟨queueMap, q, info, false⟩]) := by
  have hm : (queueTxn s now q op arg).2.1 =
      (queueOp now q op arg ⟨s.shards (forKey q), []⟩).2.muts := rfl
  rw [hm]
  rcases queueOp_cases now q op arg ⟨s.shards (forKey q), []⟩ with
    e | ⟨i, data, info, hi, e⟩ | ⟨i, info, hi, e⟩
  · exact Or.inl (by rw [e])
  · exact Or.inr ⟨i, info, hi, Or.inl ⟨data, by rw [e]; rfl⟩⟩
  · exact Or.inr ⟨i, info, hi, Or.inr (by rw [e]; rfl)⟩

/-- Everything an operation writes belongs to the partition of the queue. -/
theorem queueTxn_routed {s : Store} {now : ℕ} {q : Bytes} {op : QueueOp} {arg : Bytes}
    {mu : Mutation} (hmu : mu ∈ (queueTxn s now q op arg).2.1) :
    routedPartition mu.mapName mu.key = forKey q := by
  rcases queueTxn_muts s now q op arg with e | ⟨i, info, -, ⟨data, e⟩ | e⟩
  · simp [e] at hmu
  · rw [e] at hmu
    rcases List.mem_pair.mp hmu with rfl | rfl
    · exact routedPartition_seg i q
    · exact routedPartition_meta q
  · rw [e] at hmu
    rcases List.mem_pair.mp hmu with rfl | rfl
    · exact routedPartition_seg i q
    · exact routedPartition_meta q

/-- Everything an operation writes is in the reserved maps. -/
theorem queueTxn_reserved {s : Store} {now : ℕ} {q : Bytes} {op : QueueOp} {arg : Bytes}
    {mu : Mutation} (hmu : mu ∈ (queueTxn s now q op arg).2.1) : isReservedMap mu.mapName = true := by
  rcases queueTxn_muts s now q op arg with e | ⟨i, info, -, ⟨data, e⟩ | e⟩
  · simp [e] at hmu
  · rw [e] at hmu
    rcases List.mem_pair.mp hmu with rfl | rfl <;> rfl
  · rw [e] at hmu
    rcases List.mem_pair.mp hmu with rfl | rfl <;> rfl

/-! ### The view of a queue -/

/-- A queue operation leaves every other map as it is. -/
theorem find_queueTxn_of_not_reserved {r : Ref} (hr : isReservedMap r.1 ≠ true) (s : Store) (now : ℕ)
    (q : Bytes) (op : QueueOp) (arg : Bytes) (p : PartitionId) :
    (queueTxn s now q op arg).2.2.find p r = s.find p r := by
  rw [queueTxn_store, find_foldl_applyMutation]
  refine find_foldl_of_ne (fun mu hmu he => hr ?_) _
  rw [he]
  exact queueTxn_reserved hmu

/-- The entries of one queue: its metadata and its segments. -/
@[ext] structure QueueView where
  info : Option Value
  seg : UInt64 → Option Value

/-- The view of queue `q` in a shard. -/
def view (m : Shard) (q : Bytes) : QueueView :=
  ⟨m.lookup (queueMap, q), fun i => m.lookup (queueSegMap, queueSegKey i q)⟩

theorem queueMap_ne_queueSegMap : queueMap ≠ queueSegMap := by decide

@[simp] theorem view_insert_meta (m : Shard) (q : Bytes) (v : Value) :
    view (m.insert (queueMap, q) v) q = { view m q with info := some v } := by
  ext1
  · simp [view]
  · simp [view, queueMap_ne_queueSegMap.symm]

@[simp] theorem view_insert_seg (m : Shard) (q : Bytes) (i : UInt64) (v : Value) :
    view (m.insert (queueSegMap, queueSegKey i q) v) q =
      { view m q with seg := Function.update (view m q).seg i (some v) } := by
  ext1
  · simp [view, Assoc.lookup_insert_if, queueMap_ne_queueSegMap]
  · funext j
    simp only [view, Assoc.lookup_insert_if, Prod.mk.injEq, true_and, queueSegKey_inj, and_true,
      Function.update_apply]

@[simp] theorem view_erase_seg (m : Shard) (q : Bytes) (i : UInt64) :
    view (m.erase (queueSegMap, queueSegKey i q)) q =
      { view m q with seg := Function.update (view m q).seg i none } := by
  ext1
  · simp [view, Assoc.lookup_erase_if, queueMap_ne_queueSegMap]
  · funext j
    simp only [view, Assoc.lookup_erase_if, Prod.mk.injEq, true_and, queueSegKey_inj, and_true,
      Function.update_apply]

/-- Entries of other queues are none of the business of queue `q`. -/
theorem view_insert_of_ne {m : Shard} {q : Bytes} {r : Ref} (h1 : (queueMap, q) ≠ r)
    (h2 : ∀ i, (queueSegMap, queueSegKey i q) ≠ r) (v : Value) : view (m.insert r v) q = view m q := by
  ext1
  · simp [view, Assoc.lookup_insert_if, h1]
  · funext i
    simp [view, Assoc.lookup_insert_if, h2 i]

theorem view_erase_of_ne {m : Shard} {q : Bytes} {r : Ref} (h1 : (queueMap, q) ≠ r)
    (h2 : ∀ i, (queueSegMap, queueSegKey i q) ≠ r) : view (m.erase r) q = view m q := by
  ext1
  · simp [view, Assoc.lookup_erase_if, h1]
  · funext i
    simp [view, Assoc.lookup_erase_if, h2 i]

section other
variable {q q' : Bytes} (hq : q' ≠ q)
include hq

theorem view_insert_meta_ne (m : Shard) (v : Value) :
    view (m.insert (queueMap, q) v) q' = view m q' :=
  view_insert_of_ne (by simp [hq]) (by simp [queueMap_ne_queueSegMap.symm]) v

theorem view_insert_seg_ne (m : Shard) (i : UInt64) (v : Value) :
    view (m.insert (queueSegMap, queueSegKey i q) v) q' = view m q' :=
  view_insert_of_ne (by simp [queueMap_ne_queueSegMap]) (fun j => by simp [queueSegKey_inj, hq]) v

theorem view_erase_seg_ne (m : Shard) (i : UInt64) :
    view (m.erase (queueSegMap, queueSegKey i q)) q' = view m q' :=
  view_erase_of_ne (by simp [queueMap_ne_queueSegMap]) (fun j => by simp [queueSegKey_inj, hq])

/-- An operation on one queue leaves the view of every other queue as it is. -/
theorem queueOp_view_ne (now : ℕ) (op : QueueOp) (arg : Bytes) (t : Txn) :
    view (queueOp now q op arg t).2.shard q' = view t.shard q' := by
  rcases queueOp_cases now q op arg t with e | ⟨i, data, info, -, e⟩ | ⟨i, info, -, e⟩
  · rw [e]
  · simp only [e, Txn.set, view_insert_meta_ne hq, view_insert_seg_ne hq]
  · simp only [e, Txn.set, Txn.del, view_insert_meta_ne hq, view_erase_seg_ne hq]

end other

/-- The view of a queue in a store. -/
def Store.queueView (s : Store) (q : Bytes) : QueueView := view (s.shards (forKey q)) q

theorem queueTxn_view_ne {q q' : Bytes} (hq : q' ≠ q) (s : Store) (now : ℕ) (op : QueueOp)
    (arg : Bytes) : (queueTxn s now q op arg).2.2.queueView q' = s.queueView q' := by
  unfold Store.queueView queueTxn updateMulti setShard
  by_cases hp : forKey q' = forKey q
  · simp only [hp, Function.update_self]
    exact queueOp_view_ne hq now op arg _
  · simp only [Function.update_of_ne hp]

/-! ### Polling -/

/-- What a poll finds: the metadata, the first item of the head segment and what is packed behind it. -/
structure Front where
  head : UInt64
  tail : UInt64
  count : UInt64
  item : Bytes
  rest : Bytes

/-- The front of a queue, if it has one: there may be no metadata, no item counted, no head segment, or no
whole item in it. -/
def front (now : ℕ) (q : Bytes) (t : Txn) : Option Front :=
  let (head, tail, count) := decodeQueueMeta ((t.get now queueMap q).getD [])
  if t.get now queueMap q = none ∨ count = 0 then none
  else do
    let seg ← t.get now queueSegMap (queueSegKey head q)
    let (item, rest) ← queueHead seg
    return ⟨head, tail, count, item, rest⟩

/-- The metadata after the front item is gone: the head moves on from a segment that is used up. -/
def Front.info (f : Front) : Bytes :=
  encodeQueueMeta (if f.rest = [] ∧ f.head < f.tail then f.head + 1 else f.head) f.tail (f.count - 1)

/-- The mutations that take the front item off. -/
def Front.muts (f : Front) (q : Bytes) : List Mutation :=
  [⟨queueSegMap, queueSegKey f.head q, f.rest, decide (f.rest = [])⟩, ⟨queueMap, q, f.info, false⟩]

section poll
variable {now : ℕ} {q : Bytes} {t : Txn}

theorem front_eq_some {f : Front} (h : front now q t = some f) :
    (∃ info, t.get now queueMap q = some info ∧ decodeQueueMeta info = (f.head, f.tail, f.count)) ∧
      f.count ≠ 0 ∧
      ∃ seg, t.get now queueSegMap (queueSegKey f.head q) = some seg ∧ queueHead seg = some (f.item, f.rest) := by
  unfold front at h
  dsimp only at h
  split at h
  · cases h
  next hcount =>
  obtain ⟨hinfo, hcount⟩ := not_or.mp hcount
  obtain ⟨info, hinfo⟩ := Option.ne_none_iff_exists'.mp hinfo
  simp only [Option.bind_eq_bind, Option.bind_eq_some_iff] at h
  obtain ⟨seg, hseg, ⟨item, rest⟩, hitem, hf⟩ := h
  cases Option.some.inj hf
  rw [hinfo] at hcount hseg ⊢
  exact ⟨⟨info, rfl, rfl⟩, hcount, seg, hseg, hitem⟩

/-- `queuepeek` reports the front item and changes nothing. -/
theorem queueOp_peek (arg : Bytes) : queueOp now q .queuepeek arg t =
    (.ok (match front now q t with | none => [0] | some f => 1 :: f.item), t) := by
  simp only [queueOp, front]
  split
  · rfl
  · cases hseg : t.get now queueSegMap (queueSegKey (decodeQueueMeta ((t.get now queueMap q).getD [])).1 q) with
    | none => rfl
    | some seg =>
      dsimp only [Option.bind_eq_bind, Option.bind_some]
      cases queueHead seg <;> rfl

/-- `queuepoll` reports it too, and takes it off. -/
theorem queueOp_poll (now : ℕ) (q : Bytes) (t : Txn) (arg : Bytes) :
    (queueOp now q .queuepoll arg t).1 = (queueOp now q .queuepeek [] t).1 ∧
    (queueOp now q .queuepoll arg t).2.muts = t.muts ++ (front now q t).elim [] (Front.muts · q) := by
  simp only [queueOp, front]
  split
  · exact ⟨rfl, (List.append_nil _).symm⟩
  · cases hseg : t.get now queueSegMap (queueSegKey (decodeQueueMeta ((t.get now queueMap q).getD [])).1 q) with
    | none => exact ⟨rfl, (List.append_nil _).symm⟩
    | some seg =>
      dsimp only [Option.bind_eq_bind, Option.bind_some]
      cases hhead : queueHead seg with
      | none => exact ⟨rfl, (List.append_nil _).symm⟩
      | some r =>
        obtain ⟨item, rest⟩ := r
        dsimp only [Option.bind_some, Option.pure_def, Option.elim_some, Front.muts, Front.info]
        split
        · next hrest =>
          cases List.length_eq_zero_iff.mp hrest
          simp [Txn.set, Txn.del]
        · next hrest =>
          have hne : rest ≠ [] := fun h => hrest (by rw [h]; rfl)
          simp [Txn.set, hne]

end poll

/-- An operation without mutations leaves the store as it is. -/
theorem queueTxn_spares {s : Store} {now : ℕ} {q arg : Bytes} {op : QueueOp}
    (h : (queueTxn s now q op arg).2.1 = []) : (queueTxn s now q op arg).2 = ([], s) := by
  have hstore := queueTxn_store s now q op arg
  rw [h, List.foldl_nil, setShard, Function.update_eq_self] at hstore
  exact Prod.ext h hstore

/-- The entries after the front item is gone. -/
theorem Front.find_muts (f : Front) (q : Bytes) (s : Store) (p : PartitionId) (r : Ref) :
    (s.setShard (forKey q) ((f.muts q).foldl applyMutation (s.shards (forKey q)))).find p r =
      if p = forKey q ∧ r = (queueMap, q) then some ⟨f.info, 0⟩
      else if p = forKey q ∧ r = (queueSegMap, queueSegKey f.head q) then
        if f.rest = [] then none else some ⟨f.rest, 0⟩
      else s.find p r := by
  rw [find_foldl_applyMutation]
  by_cases hrest : f.rest = []
  · simp only [Front.muts, hrest, decide_true, List.foldl_cons, List.foldl_nil, if_true, Bool.false_eq_true,
      if_false, find_set, find_erase]
  · simp only [Front.muts, hrest, decide_false, List.foldl_cons, List.foldl_nil, Bool.false_eq_true,
      if_false, find_set]

/-- **A poll takes off what it delivers and nothing else**, whatever is in the store.  When it reports empty
nothing changes.  When it reports an item, this is the first packed item of the head segment; its bytes are
gone from the segment, the count is one less, the head moves on by one if the segment is used up and there
is another one, and no other entry changes.  `queuepeek` and `queuesize` change nothing, and a poll after a
peek, with no entry of the queue expiring in between, reports what the peek did. -/
theorem poll_delivers_or_spares (s : Store) (now : ℕ) (q arg : Bytes)
    (hsmall : ∀ p r v, s.find p r = some v → v.data.length < 2 ^ 32) :
    (∃ out, (queueTxn s now q .queuepoll arg).1 = .ok out ∧
      (decodeQueueItem out = none → (queueTxn s now q .queuepoll arg).2 = ([], s)) ∧
      ∀ item, decodeQueueItem out = some item → ∃ info head tail count rest,
        s.get (forKey q) queueMap q now = some info ∧ decodeQueueMeta info = (head, tail, count) ∧ count ≠ 0 ∧
        s.get (forKey q) queueSegMap (queueSegKey head q) now = some (appendPacked [] item ++ rest) ∧
        let info' := encodeQueueMeta (if rest = [] ∧ head < tail then head + 1 else head) tail (count - 1)
        let s' := (queueTxn s now q .queuepoll arg).2.2
        (queueTxn s now q .queuepoll arg).2.1 =
          [⟨queueSegMap, queueSegKey head q, rest, decide (rest = [])⟩, ⟨queueMap, q, info', false⟩] ∧
        s'.find (forKey q) (queueSegMap, queueSegKey head q) = (if rest = [] then none else some ⟨rest, 0⟩) ∧
        s'.find (forKey q) (queueMap, q) = some ⟨info', 0⟩ ∧
        ∀ p r, (p, r) ≠ (forKey q, queueSegMap, queueSegKey head q) → (p, r) ≠ (forKey q, queueMap, q) →
          s'.find p r = s.find p r) ∧
    ∀ other, (queueTxn s now q .queuepeek other).2 = ([], s) ∧
      (queueTxn s now q .queuesize other).2 = ([], s) ∧
      ∀ now', (∀ r v, s.find (forKey q) r = some v → v.expired now' = v.expired now) →
        (queueTxn (queueTxn s now q .queuepeek other).2.2 now' q .queuepoll arg).1 =
          (queueTxn s now q .queuepeek other).1 := by
  have hpeek : ∀ other, (queueTxn s now q .queuepeek other).2 = ([], s) := fun other =>
    queueTxn_spares (by rw [queueTxn, updateMulti, queueOp_peek])
  refine ⟨?_, fun other => ⟨hpeek other, queueTxn_spares rfl, fun now' hnow => ?_⟩⟩
  · obtain ⟨hout, hmuts⟩ := queueOp_poll now q ⟨s.shards (forKey q), []⟩ arg
    rw [queueOp_peek] at hout
    rw [List.nil_append] at hmuts
    refine ⟨_, hout, ?_⟩
    cases hf : front now q ⟨s.shards (forKey q), []⟩ with
    | none =>
      rw [hf] at hmuts
      exact ⟨fun _ => queueTxn_spares hmuts, fun item h => by cases h⟩
    | some f =>
      rw [hf] at hmuts
      refine ⟨fun h => by simp [decodeQueueItem] at h, fun item h => ?_⟩
      cases (Option.some.inj h : f.item = item)
      obtain ⟨⟨info, hinfo, hmeta⟩, hcount, seg, hseg, hhead⟩ := front_eq_some hf
      have hlen : seg.length < 2 ^ 32 := by
        obtain ⟨v, hv, rfl⟩ := Option.map_eq_some_iff.mp hseg
        exact hsmall (forKey q) _ v (Option.filter_eq_some_iff.mp hv).1
      rw [(queueHead_eq_some hlen).mp hhead] at hseg
      have hstore := queueTxn_store s now q .queuepoll arg
      have hmuts' : (queueTxn s now q .queuepoll arg).2.1 = f.muts q := hmuts
      refine ⟨info, f.head, f.tail, f.count, f.rest, hinfo, hmeta, hcount, hseg, hmuts', ?_⟩
      rw [hstore, hmuts']
      refine ⟨?_, ?_, fun p r hseg hmeta => ?_⟩
      · rw [f.find_muts, if_neg (by simp [queueMap_ne_queueSegMap.symm]), if_pos ⟨rfl, rfl⟩]
      · rw [f.find_muts, if_pos ⟨rfl, rfl⟩]
        rfl
      · rw [f.find_muts, if_neg fun h => hmeta (Prod.ext h.1 h.2), if_neg fun h => hseg (Prod.ext h.1 h.2)]
  · rw [hpeek other]
    have hget : ∀ name key, isReservedMap name = true → (⟨s.shards (forKey q), []⟩ : Txn).get now' name key =
        (⟨s.shards (forKey q), []⟩ : Txn).get now name key := fun name key _ => by
      unfold Txn.get
      cases hv : (s.shards (forKey q)).lookup (name, key) with
      | none => rfl
      | some v => simp only [Option.filter_some, hnow _ v hv]
    have harg : queueOp now q .queuepeek [] ⟨s.shards (forKey q), []⟩ =
        queueOp now q .queuepeek other ⟨s.shards (forKey q), []⟩ := by rw [queueOp_peek, queueOp_peek]
    calc (queueTxn s now' q .queuepoll arg).1
        = (queueOp now' q .queuepeek [] ⟨s.shards (forKey q), []⟩).1 := (queueOp_poll now' q _ arg).1
      _ = (queueOp now q .queuepeek [] ⟨s.shards (forKey q), []⟩).1 := (queueOp_congr rfl hget q _ []).1
      _ = (queueTxn s now q .queuepeek other).1 := congrArg Prod.fst harg

/-- A queue that counts five items but has only two, and nothing in its next segment. -/
def patchyQueue : Store :=
  (Store.empty.set (forKey [113]) (queueMap, [113]) ⟨encodeQueueMeta 3 9 5, 0⟩).set (forKey [113])
    (queueSegMap, queueSegKey 3 [113]) ⟨packItems [[7], [8]], 0⟩

theorem poll_delivers_or_spares_patchy :
    (queueTxn patchyQueue 1 [113] .queuepoll []).1 = .ok [1, 7] ∧
    (queueTxn (queueTxn patchyQueue 1 [113] .queuepeek []).2.2 2 [113] .queuepoll []).1 =
      (queueTxn patchyQueue 1 [113] .queuepeek []).1 := by
  have hfind : ∀ p r v, patchyQueue.find p r = some v → v.expireAt = 0 ∧ v.data.length ≤ 24 := by
    intro p r v hv
    rw [patchyQueue, find_set, find_set] at hv
    split at hv
    · cases hv
      exact ⟨rfl, by decide⟩
    · split at hv
      · cases hv
        exact ⟨rfl, by decide⟩
      · cases hv
  have h := poll_delivers_or_spares patchyQueue 1 [113] [] fun p r v hv =>
    (hfind p r v hv).2.trans_lt (by norm_num)
  refine ⟨by decide +kernel, (h.2 []).2.2 2 fun r v hv => ?_⟩
  simp [Value.expired, (hfind _ r v hv).1]

end Medusa
