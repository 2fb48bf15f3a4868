import Medusa.Lib.BigEndian
import Medusa.Partition

/-! # Entries, expiry and the queue encodings

The data of `imap/store.go` and `imap/queue.go` below the store: stored values with an absolute
expiry, entries as migration and snapshots carry them, the routing of an entry to its partition,
and the byte formats of a queue (metadata record, segment keys, packed item streams).

Expiry times are `int64` unix nanoseconds and wrap as Go's do; the clock itself is a natural
number of nanoseconds.  `remainingTTLms_pos` is the fact the copying code relies on: an entry with
at least a millisecond left is copied with a positive TTL. -/

namespace Medusa

open BigEndian

/-! ### Values and entries -/

/-- A stored entry: its bytes and an absolute expiry in unix nanoseconds (`0` = never). -/
structure Value where
  data : Bytes
  expireAt : Int64
deriving DecidableEq, Repr

/-- `value.expired`. -/
def Value.expired (v : Value) (now : ℕ) : Bool :=
  decide (v.expireAt ≠ 0) && decide (v.expireAt.toInt < now)

/-- One key/value pair within a partition. -/
structure Entry where
  mapName : Bytes
  key : Bytes
  value : Bytes
  expireAt : Int64
deriving DecidableEq, Repr

/-- A map name and a key. -/
abbrev Ref := Bytes × Bytes

/-- What an entry is stored under. -/
def Entry.ref (e : Entry) : Ref := (e.mapName, e.key)

/-- The reading of `nowNano()` when the clock shows `now`. -/
def nowNano (now : ℕ) : Int64 := Int64.ofInt now

/-- `expireFromTTL`: a relative TTL in milliseconds as an absolute expiry. -/
def expireFromTTL (now : ℕ) (ttlMs : Int64) : Int64 :=
  if ttlMs ≤ 0 then 0 else nowNano now + ttlMs * 1000000

/-- `remainingTTLms`: the milliseconds left until `expireAt` (`0` for an entry that never
expires). -/
def remainingTTLms (expireAt : Int64) (now : ℕ) : Int64 :=
  if expireAt = 0 then 0 else (expireAt - nowNano now) / 1000000

/-- A copy of the value may still be taken at `now`: it never expires, or at least a millisecond
of its lifetime is left. -/
def Value.Lasting (v : Value) (now : ℕ) : Prop :=
  v.expireAt = 0 ∨ (now : ℤ) + 1000000 ≤ v.expireAt.toInt

instance (v : Value) (now : ℕ) : Decidable (v.Lasting now) :=
  inferInstanceAs (Decidable (_ ∨ _))

theorem Value.Lasting.not_expired {v : Value} {now : ℕ} (h : v.Lasting now) :
    v.expired now = false := by
  rcases h with h | h
  · simp [Value.expired, h]
  · have : ¬ v.expireAt.toInt < now := by omega
    simp [Value.expired, this]

theorem Value.Lasting.mono {v : Value} {now now' : ℕ} (h : v.Lasting now') (hn : now ≤ now') :
    v.Lasting now := by
  rcases h with h | h
  · exact Or.inl h
  · exact Or.inr (by omega)

/-- Once expired, always expired. -/
theorem Value.expired_mono {v : Value} {now now' : ℕ} (h : v.expired now = true)
    (hn : now ≤ now') : v.expired now' = true := by
  simp only [Value.expired, Bool.and_eq_true, decide_eq_true_eq] at h ⊢
  exact ⟨h.1, by omega⟩

theorem Value.live_of_live_later {v : Value} {now now' : ℕ} (h : v.expired now' = false)
    (hn : now ≤ now') : v.expired now = false := by
  by_contra hl
  rw [Value.expired_mono (by simpa using hl) hn] at h
  cases h

theorem toInt_remaining (e : Int64) (now : ℕ) :
    ((e - nowNano now) / 1000000).toInt =
      ((e.toInt - (now : ℤ).bmod (2 ^ 64)).bmod (2 ^ 64)).tdiv 1000000 := by
  have hne : ((1000000 : Int64).toInt) = 1000000 := by decide
  have hs : (e - nowNano now).toInt = (e.toInt - (now : ℤ).bmod (2 ^ 64)).bmod (2 ^ 64) := by
    rw [Int64.toInt_sub, nowNano, Int64.toInt_ofInt]
    rfl
  rw [Int64.toInt_div_of_ne_right _ _ (by decide), hs, hne]

/-- The milliseconds left, of an expiry that is not past. -/
theorem toInt_remainingTTLms {e : Int64} {now : ℕ} (he : e ≠ 0) (h : (now : ℤ) ≤ e.toInt) :
    (remainingTTLms e now).toInt = (e.toInt - now) / 1000000 := by
  have hlt := Int64.toInt_lt e
  have hn : (now : ℤ).bmod (2 ^ 64) = now := by
    apply Int.bmod_eq_of_le <;> omega
  have hb : ((e.toInt : ℤ) - now).bmod (2 ^ 64) = e.toInt - now := by
    apply Int.bmod_eq_of_le <;> omega
  rw [remainingTTLms, if_neg he, toInt_remaining, hn, hb, Int.tdiv_eq_ediv_of_nonneg (by omega)]

/-- **Copying keeps a lasting entry alive**: with at least a millisecond left, the relative TTL
sent along is positive. -/
theorem remainingTTLms_pos {e : Int64} {now : ℕ} (he : e ≠ 0) (h : (now : ℤ) + 1000000 ≤ e.toInt) :
    0 < remainingTTLms e now := by
  have : (0 : Int64).toInt = 0 := by decide
  rw [Int64.lt_iff_toInt_lt, toInt_remainingTTLms he (by omega), this]
  omega

theorem toInt_expireFromTTL {now : ℕ} {ttlMs : Int64} (hpos : 0 < ttlMs) :
    (expireFromTTL now ttlMs).toInt = ((now : ℤ) + ttlMs.toInt * 1000000).bmod (2 ^ 64) := by
  have hc : (1000000 : Int64).toInt = 1000000 := by decide
  rw [expireFromTTL, if_neg (Int64.not_le.mpr hpos), Int64.toInt_add, Int64.toInt_mul, hc, nowNano,
    Int64.toInt_ofInt]
  simp [Int.add_bmod]

/-- The expiry of a copy taken at `t`: the whole milliseconds left when it was sent, from `t` on. -/
theorem toInt_expireFromTTL_remaining {e : Int64} {now : ℕ} (t : ℕ) (he : e ≠ 0)
    (h : (now : ℤ) + 1000000 ≤ e.toInt) : (expireFromTTL t (remainingTTLms e now)).toInt =
      (t + (e.toInt - now) / 1000000 * 1000000).bmod (2 ^ 64) := by
  rw [toInt_expireFromTTL (remainingTTLms_pos he h), toInt_remainingTTLms he (by omega)]

/-- A copy taken at `t` is not expired at `T`, if a millisecond more than the time in between was left
when it was sent, and its expiry is not out of range. -/
theorem le_expireFromTTL {e : Int64} (now : ℕ) {t T : ℕ} (he : e ≠ 0) (ht : t ≤ T)
    (hleft : (T : ℤ) - t + now + 1000000 ≤ e.toInt)
    (hfits : (t : ℤ) + (e.toInt - now) / 1000000 * 1000000 < 2 ^ 63) :
    (T : ℤ) ≤ (expireFromTTL t (remainingTTLms e now)).toInt := by
  rw [toInt_expireFromTTL_remaining t he (by omega), Int.bmod_eq_of_le (by omega) (by omega)]
  omega

/-- The expiry of a copy wraps around when it is out of range. -/
theorem expireFromTTL_neg {e : Int64} {now t : ℕ} (he : e ≠ 0) (h : (now : ℤ) + 1000000 ≤ e.toInt)
    (ht : t < 2 ^ 63) (hover : 2 ^ 63 ≤ (t : ℤ) + (e.toInt - now) / 1000000 * 1000000) :
    (expireFromTTL t (remainingTTLms e now)).toInt < 0 := by
  have hmax := Int64.toInt_lt e
  rw [toInt_expireFromTTL_remaining t he h, Int.bmod_def]
  omega

/-- Conversely, a copy is skipped only when less than a millisecond is left. -/
theorem lt_of_remainingTTLms_le {e : Int64} {now : ℕ} (he : e ≠ 0)
    (h : remainingTTLms e now ≤ 0) : e.toInt < now + 1000000 := by
  by_contra hc
  have := remainingTTLms_pos he (by omega : (now : ℤ) + 1000000 ≤ e.toInt)
  rw [Int64.lt_iff_toInt_lt] at this
  rw [Int64.le_iff_toInt_le] at h
  omega

/-! ### Reserved maps and routing -/

/-- `"__queue"`: the metadata of every queue. -/
def queueMap : Bytes := [95, 95, 113, 117, 101, 117, 101]

/-- `"__queueseg"`: the segments of every queue. -/
def queueSegMap : Bytes := [95, 95, 113, 117, 101, 117, 101, 115, 101, 103]

example : queueMap = "__queue".toUTF8.toList ∧ queueSegMap = "__queueseg".toUTF8.toList := by
  decide +kernel

/-- `IsReservedMap`. -/
def isReservedMap (name : Bytes) : Bool := name == queueMap || name == queueSegMap

/-- `routedPartition`: segments route by the queue name embedded in their key. -/
def routedPartition (name key : Bytes) : PartitionId :=
  if name = queueSegMap ∧ 8 ≤ key.length then Partition.forKey (key.drop 8)
  else Partition.forKey key

theorem routedPartition_of_ne {name : Bytes} (h : name ≠ queueSegMap) (key : Bytes) :
    routedPartition name key = Partition.forKey key := if_neg (fun h' => h h'.1)

/-- Keys of ordinary maps lie in their own partition. -/
theorem routedPartition_ordinary {name : Bytes} (h : isReservedMap name = false) (key : Bytes) :
    routedPartition name key = Partition.forKey key :=
  routedPartition_of_ne (fun h' => by simp [isReservedMap, h'] at h) key

/-- The store key of segment `segId` of a queue: `[segId][name]`. -/
def queueSegKey (segId : UInt64) (name : Bytes) : Bytes := beBytes 8 segId.toNat ++ name

/-- A queue's metadata lies in the partition of its name. -/
theorem routedPartition_meta (name : Bytes) :
    routedPartition queueMap name = Partition.forKey name := by
  simp [routedPartition, queueMap, queueSegMap]

/-- So does every one of its segments. -/
theorem routedPartition_seg (segId : UInt64) (name : Bytes) :
    routedPartition queueSegMap (queueSegKey segId name) = Partition.forKey name := by
  simp [routedPartition, queueSegKey]

theorem queueSegKey_inj {i j : UInt64} {a b : Bytes} :
    queueSegKey i a = queueSegKey j b ↔ i = j ∧ a = b := by
  constructor
  · intro h
    obtain ⟨h1, h2⟩ := List.append_inj h (by simp)
    refine ⟨UInt64.toNat_inj.mp (beBytes_injective (w := 8) ?_ ?_ h1), h2⟩
    · exact i.toNat_lt
    · exact j.toNat_lt
  · rintro ⟨rfl, rfl⟩
    rfl

/-! ### Queue metadata: `[headSeg:8][tailSeg:8][count:8]` -/

/-- `encodeQueueMeta`. -/
def encodeQueueMeta (head tail count : UInt64) : Bytes :=
  beBytes 8 head.toNat ++ (beBytes 8 tail.toNat ++ beBytes 8 count.toNat)

/-- `decodeQueueMeta`: head, tail and count; all zero for a short record. -/
def decodeQueueMeta (b : Bytes) : UInt64 × UInt64 × UInt64 :=
  if b.length < 24 then (0, 0, 0)
  else (UInt64.ofNat (beNat (b.take 8)), UInt64.ofNat (beNat ((b.drop 8).take 8)),
    UInt64.ofNat (beNat ((b.drop 16).take 8)))

@[simp] theorem encodeQueueMeta_length (head tail count : UInt64) :
    (encodeQueueMeta head tail count).length = 24 := by simp [encodeQueueMeta]

theorem ofNat_beNat_beBytes (x : UInt64) : UInt64.ofNat (beNat (beBytes 8 x.toNat)) = x := by
  rw [beNat_beBytes_of_lt (w := 8) x.toNat_lt]
  simp

@[simp] theorem decode_encodeQueueMeta (head tail count : UInt64) :
    decodeQueueMeta (encodeQueueMeta head tail count) = (head, tail, count) := by
  have h1 : (encodeQueueMeta head tail count).take 8 = beBytes 8 head.toNat := by
    rw [encodeQueueMeta, List.take_left' (by simp)]
  have h2 : ((encodeQueueMeta head tail count).drop 8).take 8 = beBytes 8 tail.toNat := by
    rw [encodeQueueMeta, List.drop_left' (by simp), List.take_left' (by simp)]
  have h3 : ((encodeQueueMeta head tail count).drop 16).take 8 = beBytes 8 count.toNat := by
    rw [encodeQueueMeta, ← List.append_assoc, List.drop_left' (by simp),
      List.take_of_length_le (by simp)]
  simp only [decodeQueueMeta, encodeQueueMeta_length, h1, h2, h3, ofNat_beNat_beBytes]
  simp

@[simp] theorem decodeQueueMeta_nil : decodeQueueMeta [] = (0, 0, 0) := rfl

/-! ### Segment values: a packed `[uint32 len][item]…` stream -/

/-- The cap on a segment's packed size. -/
def maxSegBytes : ℕ := 64 * 1024

/-- `queueHead`: the first item and the remainder.  The item's end `4 + n` is computed in
`uint32` arithmetic. -/
def queueHead (b : Bytes) : Option (Bytes × Bytes) :=
  if b.length < 4 then none
  else
    let n := beNat (b.take 4)
    if b.length < 4 + n then none
    else some ((b.take ((4 + n) % 2 ^ 32)).drop 4, b.drop (4 + n))

/-- `appendPacked`: append one length-prefixed item. -/
def appendPacked (seg item : Bytes) : Bytes := seg ++ (beBytes 4 item.length ++ item)

/-- The packed stream of a list of items. -/
def packItems (items : List Bytes) : Bytes := items.foldl appendPacked []

theorem appendPacked_eq (seg item : Bytes) : appendPacked seg item = seg ++ appendPacked [] item := by
  simp [appendPacked]

theorem foldl_appendPacked (seg : Bytes) (items : List Bytes) :
    items.foldl appendPacked seg = seg ++ packItems items := by
  induction items generalizing seg with
  | nil => simp [packItems]
  | cons x items ih =>
    rw [packItems, List.foldl_cons, List.foldl_cons, ih, ih (appendPacked [] x),
      appendPacked_eq seg, List.append_assoc]

@[simp] theorem packItems_nil : packItems [] = [] := rfl

theorem packItems_cons (x : Bytes) (items : List Bytes) :
    packItems (x :: items) = beBytes 4 x.length ++ (x ++ packItems items) := by
  rw [packItems, List.foldl_cons, foldl_appendPacked]
  simp [appendPacked]

theorem appendPacked_packItems (items : List Bytes) (x : Bytes) :
    appendPacked (packItems items) x = packItems (items ++ [x]) := by
  simp [packItems]

theorem packItems_eq_nil {items : List Bytes} : packItems items = [] ↔ items = [] := by
  cases items with
  | nil => simp
  | cons x items =>
    simp only [reduceCtorEq, iff_false]
    intro h
    have := congrArg List.length h
    simp [packItems_cons] at this

theorem length_packItems_cons (x : Bytes) (items : List Bytes) :
    (packItems (x :: items)).length = 4 + x.length + (packItems items).length := by
  simp [packItems_cons, Nat.add_assoc]

theorem length_le_packItems (items : List Bytes) : items.length ≤ (packItems items).length := by
  induction items with
  | nil => simp
  | cons x items ih =>
    rw [length_packItems_cons, List.length_cons]
    omega

theorem packItems_cons_eq (x : Bytes) (items : List Bytes) :
    packItems (x :: items) = (beBytes 4 x.length ++ x) ++ packItems items := by
  rw [packItems_cons, List.append_assoc]

/-- The item that was packed first, if its length fits the prefix. -/
theorem queueHead_append {x : Bytes} (hx : 4 + x.length < 2 ^ 32) (more : Bytes) :
    queueHead ((beBytes 4 x.length ++ x) ++ more) = some (x, more) := by
  have hmod : (4 + x.length) % 2 ^ 32 = 4 + x.length := Nat.mod_eq_of_lt hx
  have hlen : ((beBytes 4 x.length ++ x) ++ more).length = 4 + x.length + more.length := by
    simp [Nat.add_assoc]
  have htake : beNat (((beBytes 4 x.length ++ x) ++ more).take 4) = x.length := by
    rw [List.append_assoc, List.take_left' (by simp), beNat_beBytes_of_lt (by norm_num; omega)]
  simp only [queueHead, htake, hmod, hlen]
  rw [if_neg (by omega), if_neg (by omega), List.take_left' (by simp), List.drop_left' (by simp),
    List.drop_left' (by simp)]

/-- The head of a packed stream is its first item. -/
theorem queueHead_packItems {x : Bytes} (hx : x.length < 2 ^ 31) (items : List Bytes) :
    queueHead (packItems (x :: items)) = some (x, packItems items) := by
  rw [packItems_cons_eq, queueHead_append (by omega)]

/-- What `queueHead` takes off a value is an item with its length in front. -/
theorem queueHead_eq_some {b x rest : Bytes} (hb : b.length < 2 ^ 32) :
    queueHead b = some (x, rest) ↔ b = (beBytes 4 x.length ++ x) ++ rest := by
  constructor
  · intro h
    unfold queueHead at h
    split at h
    · cases h
    next h4 =>
    dsimp only at h
    split at h
    · cases h
    next hn =>
    rw [Nat.mod_eq_of_lt (by omega)] at h
    simp only [Option.some.injEq, Prod.mk.injEq] at h
    obtain ⟨rfl, rfl⟩ := h
    have hlen : ((b.take (4 + beNat (b.take 4))).drop 4).length = beNat (b.take 4) := by
      rw [List.length_drop, List.length_take]
      omega
    have hprefix : beBytes 4 (beNat (b.take 4)) = (b.take (4 + beNat (b.take 4))).take 4 := by
      rw [beBytes_beNat (List.length_take_of_le (by omega)), List.take_take, Nat.min_eq_left (by omega)]
    rw [hlen, hprefix, List.take_append_drop, List.take_append_drop]
  · rintro rfl
    refine queueHead_append ?_ rest
    simp only [List.length_append, beBytes_length] at hb
    omega

theorem length_lt_of_queueHead {b x rest : Bytes} (h : queueHead b = some (x, rest)) :
    rest.length < b.length := by
  unfold queueHead at h
  split at h
  · cases h
  dsimp only at h
  split at h
  · cases h
  simp only [Option.some.injEq, Prod.mk.injEq] at h
  rw [← h.2, List.length_drop]
  omega

/-- A packed stream, item by item. -/
theorem packItems_eq_flatMap (items : List Bytes) :
    packItems items = items.flatMap fun x => beBytes 4 x.length ++ x := by
  induction items with
  | nil => rfl
  | cons x items ih => rw [packItems_cons_eq, List.flatMap_cons, ih]

theorem queueHead_nil : queueHead [] = none := rfl

/-! ### Legacy queues and the order of a push -/

/-- A `__queue` value of the format before segmentation: neither empty nor a metadata record. -/
def isLegacyQueue (name value : Bytes) : Bool :=
  name == queueMap && decide (value.length ≠ 24) && decide (0 < value.length)

/-- The segment entry `flush` appends, if the segment is not empty. -/
def flushSegment (name : Bytes) (tail : UInt64) (seg : Bytes) : List Entry :=
  if 0 < seg.length then [⟨queueSegMap, queueSegKey tail name, seg, 0⟩] else []

/-- The loop of `convertLegacyQueue`; every round consumes at least four bytes, so the length of
the packed value bounds the number of rounds. -/
def convertLoop (name : Bytes) : ℕ → Bytes → List Entry → UInt64 → UInt64 → Bytes → List Entry
  | 0, _, out, tail, count, seg =>
    if count = 0 then []
    else out ++ flushSegment name tail seg ++ [⟨queueMap, name, encodeQueueMeta 0 tail count, 0⟩]
  | fuel + 1, packed, out, tail, count, seg =>
    match queueHead packed with
    | none => convertLoop name 0 packed out tail count seg
    | some (item, rest) =>
      if seg.length ≠ 0 ∧ maxSegBytes < seg.length + 4 + item.length then
        convertLoop name fuel rest (out ++ flushSegment name tail seg) (tail + 1) (count + 1)
          (appendPacked [] item)
      else convertLoop name fuel rest out tail (count + 1) (appendPacked seg item)

/-- `convertLegacyQueue`: a whole queue packed in one value as metadata and segments. -/
def convertLegacyQueue (name packed : Bytes) : List Entry :=
  convertLoop name packed.length packed [] 0 0 []

/-- An entry of the current format for the queue `name`: a segment or the metadata. -/
def IsConverted (name : Bytes) (e : Entry) : Prop :=
  (∃ tail seg, e = ⟨queueSegMap, queueSegKey tail name, seg, 0⟩) ∨
    ∃ tail count, e = ⟨queueMap, name, encodeQueueMeta 0 tail count, 0⟩

theorem isConverted_flushSegment {name : Bytes} {tail : UInt64} {seg : Bytes} {e : Entry}
    (he : e ∈ flushSegment name tail seg) : IsConverted name e := by
  unfold flushSegment at he
  split at he
  · exact Or.inl ⟨_, _, List.mem_singleton.mp he⟩
  · simp at he

theorem isConverted_convertLoop {name : Bytes} (fuel : ℕ) {packed : Bytes} {out : List Entry}
    {tail count : UInt64} {seg : Bytes} (hout : ∀ e ∈ out, IsConverted name e)
    {e : Entry} (he : e ∈ convertLoop name fuel packed out tail count seg) : IsConverted name e := by
  have hstop : ∀ {out tail count seg}, (∀ e ∈ out, IsConverted name e) →
      ∀ {packed}, e ∈ convertLoop name 0 packed out tail count seg → IsConverted name e := by
    intro out tail count seg hout packed he
    rw [convertLoop] at he
    split at he
    · simp at he
    · rcases List.mem_append.mp he with he | he
      · rcases List.mem_append.mp he with he | he
        · exact hout e he
        · exact isConverted_flushSegment he
      · exact Or.inr ⟨_, _, List.mem_singleton.mp he⟩
  induction fuel generalizing packed out tail count seg with
  | zero => exact hstop hout he
  | succ fuel ih =>
    rw [convertLoop] at he
    split at he
    · exact hstop hout he
    · split at he
      · refine ih (fun d hd => ?_) he
        rcases List.mem_append.mp hd with hd | hd
        · exact hout d hd
        · exact isConverted_flushSegment hd
      · exact ih hout he

theorem isConverted_convertLegacyQueue {name packed : Bytes} {e : Entry}
    (he : e ∈ convertLegacyQueue name packed) : IsConverted name e :=
  isConverted_convertLoop _ (by simp) he

theorem IsConverted.expireAt {name : Bytes} {e : Entry} (he : IsConverted name e) :
    e.expireAt = 0 := by
  obtain ⟨tail, seg, rfl⟩ | ⟨tail, count, rfl⟩ := he <;> rfl

theorem IsConverted.not_legacy {name : Bytes} {e : Entry} (he : IsConverted name e) :
    isLegacyQueue e.mapName e.value = false := by
  obtain ⟨tail, seg, rfl⟩ | ⟨tail, count, rfl⟩ := he
  · simp [isLegacyQueue, queueMap, queueSegMap]
  · simp [isLegacyQueue]

/-- `orderQueueMetaLast`: queue metadata after everything else. -/
def orderQueueMetaLast (entries : List Entry) : List Entry :=
  entries.filter (fun e => e.mapName ≠ queueMap) ++ entries.filter (fun e => e.mapName = queueMap)

@[simp] theorem mem_orderQueueMetaLast {entries : List Entry} {e : Entry} :
    e ∈ orderQueueMetaLast entries ↔ e ∈ entries := by
  simp only [orderQueueMetaLast, List.mem_append, List.mem_filter, decide_eq_true_eq]
  by_cases h : e.mapName = queueMap <;> simp [h]

end Medusa
