import Medusa.Queue

/-! # The write-ahead log

`imap/wal.go` and the logged mutations of `imap/service.go`.  Records are framed as
`[uint32 payload length][op][payload]`, the payload being a marshalled `SnapshotEntry`; the
generated marshalling code is a parameter (`Codec`) that carries its only assumption; `Medusa.EntryCodec` has
the code itself.

* `frame`, `appendLocked`, `replayWAL`: the file format.  `replayWAL_frames` reads back a file of
  whole records, and `replayWAL_torn` one that ends in a torn record.
* `Logged`: the outcome of a store mutation together with the records that log it, one definition
  for each mutation of the service.
* `restore`, `openWAL`: what a restarting service does with the last snapshot and the log. -/

namespace Medusa

open BigEndian Medusa.Partition Store

/-! ### Records and the file -/

/-- The operation byte of a record. -/
inductive WalOp where
  | put
  | remove
  | clear
deriving DecidableEq, Repr

/-- `walOpPut`, `walOpRemove`, `walOpClear`. -/
def WalOp.code : WalOp → UInt8
  | put => 1
  | remove => 2
  | clear => 3

/-- One mutation in the log. -/
structure WalRecord where
  op : WalOp
  entry : Entry
deriving DecidableEq, Repr

/-- The marshalling of a `SnapshotEntry`; lengths are `int`s. -/
structure Codec where
  marshal : Entry → Bytes
  unmarshal : Bytes → Option Entry
  unmarshal_marshal : ∀ e, (marshal e).length < 2 ^ 63 → unmarshal (marshal e) = some e

/-- The cap on the declared payload length. -/
def maxWALRecord : ℕ := 128 * 2 ^ 20

section file
variable (C : Codec)

/-- The bytes of one record. -/
def frame (r : WalRecord) : Bytes :=
  beBytes 4 (C.marshal r.entry).length ++ (r.op.code :: C.marshal r.entry)

/-- `appendLocked`. -/
def appendLocked (file : Bytes) (r : WalRecord) : Bytes := file ++ frame C r

/-- The loop of `replayWAL`: the intact records as operation bytes and entries, and the length of
the valid part.  Every round consumes at least five bytes. -/
def replayLoop : ℕ → Bytes → ℕ → List (UInt8 × Entry) × ℕ
  | 0, _, valid => ([], valid)
  | fuel + 1, b, valid =>
    match b.drop 4 with
    | [] => ([], valid)
    | op :: rest =>
      let n := beNat (b.take 4)
      if maxWALRecord < n then ([], valid)
      else if rest.length < n then ([], valid)
      else match C.unmarshal (rest.take n) with
        | none => ([], valid)
        | some e =>
          let r := replayLoop fuel (rest.drop n) (valid + (5 + n))
          ((op, e) :: r.1, r.2)

/-- `replayWAL`: the records read from a file, and the length of its valid part. -/
def replayWAL (file : Bytes) : List (UInt8 × Entry) × ℕ := replayLoop C file.length file 0

/-- The record is under the size cap. -/
def UnderCap (r : WalRecord) : Prop := (C.marshal r.entry).length ≤ maxWALRecord

/-- Bytes that replay reads as one record. -/
structure Chunk where
  op : UInt8
  payload : Bytes
  entry : Entry
  cap : payload.length ≤ maxWALRecord
  decodes : C.unmarshal payload = some entry

variable {C}

/-- The chunk in the file. -/
def Chunk.bytes (ch : Chunk C) : Bytes := beBytes 4 ch.payload.length ++ (ch.op :: ch.payload)

/-- What replay reports of the chunk. -/
def Chunk.read (ch : Chunk C) : UInt8 × Entry := (ch.op, ch.entry)

theorem Chunk.length_bytes (ch : Chunk C) : ch.bytes.length = 5 + ch.payload.length := by
  simp [Chunk.bytes]
  omega

theorem replayLoop_chunk (ch : Chunk C) (fuel : ℕ) (rest : Bytes) (valid : ℕ) :
    replayLoop C (fuel + 1) (ch.bytes ++ rest) valid =
      (ch.read :: (replayLoop C fuel rest (valid + ch.bytes.length)).1,
        (replayLoop C fuel rest (valid + ch.bytes.length)).2) := by
  have htake : (ch.bytes ++ rest).take 4 = beBytes 4 ch.payload.length := by
    rw [Chunk.bytes, List.append_assoc, List.take_left' (by simp)]
  have hdrop : (ch.bytes ++ rest).drop 4 = ch.op :: (ch.payload ++ rest) := by
    rw [Chunk.bytes, List.append_assoc, List.drop_left' (by simp), List.cons_append]
  have hn : beNat (beBytes 4 ch.payload.length) = ch.payload.length := by
    refine beNat_beBytes_of_lt (ch.cap.trans_lt ?_)
    decide
  simp only [replayLoop, hdrop, htake, hn]
  rw [if_neg (not_lt.mpr ch.cap), if_neg (by simp)]
  simp only [List.take_left', List.drop_left', ch.decodes, ch.length_bytes, Chunk.read]

theorem replayLoop_chunks (chs : List (Chunk C)) (tail : Bytes) (fuel valid : ℕ) :
    replayLoop C (chs.length + fuel) (chs.flatMap Chunk.bytes ++ tail) valid =
      (chs.map Chunk.read ++
          (replayLoop C fuel tail (valid + (chs.flatMap Chunk.bytes).length)).1,
        (replayLoop C fuel tail (valid + (chs.flatMap Chunk.bytes).length)).2) := by
  induction chs generalizing valid with
  | nil => simp
  | cons ch chs ih =>
    rw [List.length_cons, Nat.succ_add, List.flatMap_cons, List.append_assoc, replayLoop_chunk, ih]
    simp [Nat.add_assoc]

/-- Every file starts with the chunks that replay reads, and they make up its valid part. -/
theorem replayLoop_split (fuel : ℕ) (b : Bytes) (valid : ℕ) :
    ∃ chs : List (Chunk C), chs.flatMap Chunk.bytes <+: b ∧
      replayLoop C fuel b valid =
        (chs.map Chunk.read, valid + (chs.flatMap Chunk.bytes).length) := by
  induction fuel generalizing b valid with
  | zero => exact ⟨[], List.nil_prefix, rfl⟩
  | succ fuel ih =>
    unfold replayLoop
    split
    · exact ⟨[], List.nil_prefix, rfl⟩
    · next op rest hb =>
      dsimp only
      split
      · exact ⟨[], List.nil_prefix, rfl⟩
      · next hcap =>
        split
        · exact ⟨[], List.nil_prefix, rfl⟩
        · next hlen =>
          split
          · exact ⟨[], List.nil_prefix, rfl⟩
          · next e he =>
            have h4 : 4 < b.length := by
              by_contra h
              rw [List.drop_eq_nil_iff.mpr (by omega)] at hb
              cases hb
            have htake : (rest.take (beNat (b.take 4))).length = beNat (b.take 4) :=
              List.length_take_of_le (by omega)
            let ch : Chunk C := ⟨op, rest.take (beNat (b.take 4)), e, by rw [htake]; omega, he⟩
            have hbytes : b = ch.bytes ++ rest.drop (beNat (b.take 4)) := by
              change b = beBytes 4 (rest.take _).length ++ (op :: rest.take _) ++ _
              rw [htake, beBytes_beNat (List.length_take_of_le (by omega)), List.append_assoc,
                List.cons_append, List.take_append_drop, ← hb, List.take_append_drop]
            obtain ⟨chs, hpre, hread⟩ := ih (rest.drop (beNat (b.take 4)))
              (valid + (5 + beNat (b.take 4)))
            refine ⟨ch :: chs, ?_, ?_⟩
            · obtain ⟨t, ht⟩ := hpre
              exact ⟨t, by rw [List.flatMap_cons, List.append_assoc, ht, ← hbytes]⟩
            · have hch : ch.bytes.length = 5 + beNat (b.take 4) := by
                rw [ch.length_bytes]
                exact congrArg (5 + ·) htake
              rw [hread, List.flatMap_cons, List.length_append, hch]
              simp [Nat.add_assoc, Chunk.read, ch]

/-- A record under the cap, as a chunk. -/
def WalRecord.chunk (r : WalRecord) (hr : UnderCap C r) : Chunk C where
  op := r.op.code
  payload := C.marshal r.entry
  entry := r.entry
  cap := hr
  decodes := C.unmarshal_marshal r.entry (hr.trans_lt (by decide))

theorem replayLoop_frame {r : WalRecord} (hr : UnderCap C r) (fuel : ℕ) (rest : Bytes)
    (valid : ℕ) :
    replayLoop C (fuel + 1) (frame C r ++ rest) valid =
      ((r.op.code, r.entry) :: (replayLoop C fuel rest (valid + (frame C r).length)).1,
        (replayLoop C fuel rest (valid + (frame C r).length)).2) :=
  replayLoop_chunk (r.chunk hr) fuel rest valid

/-- A record over the cap stops the replay, whatever follows. -/
theorem replayLoop_over_cap {r : WalRecord} (hcap : ¬ UnderCap C r)
    (hlt : (C.marshal r.entry).length < 2 ^ 32) (fuel : ℕ) (more : Bytes) (valid : ℕ) :
    replayLoop C fuel (frame C r ++ more) valid = ([], valid) := by
  cases fuel with
  | zero => rfl
  | succ fuel =>
    have htake : (frame C r ++ more).take 4 = beBytes 4 (C.marshal r.entry).length := by
      rw [frame, List.append_assoc, List.take_left' (by simp)]
    have hdrop : (frame C r ++ more).drop 4 = r.op.code :: (C.marshal r.entry ++ more) := by
      rw [frame, List.append_assoc, List.drop_left' (by simp), List.cons_append]
    have hn : beNat (beBytes 4 (C.marshal r.entry).length) = (C.marshal r.entry).length :=
      beNat_beBytes_of_lt (by omega)
    simp only [replayLoop, hdrop, htake, hn]
    rw [if_pos (not_le.mp hcap)]

/-- A file that does not start with a whole record under the cap reads as empty. -/
theorem replayLoop_torn {r : WalRecord} {b : Bytes} (hb : b <+: frame C r) (hne : b ≠ frame C r)
    (hr : UnderCap C r) (fuel valid : ℕ) : replayLoop C fuel b valid = ([], valid) := by
  cases fuel with
  | zero => rfl
  | succ fuel =>
    obtain ⟨t, ht⟩ := hb
    have hlt : b.length < (frame C r).length := by
      rw [← ht, List.length_append]
      have : t ≠ [] := fun h0 => hne (by rw [← ht, h0, List.append_nil])
      have := List.length_pos_iff.mpr this
      omega
    have hlen : (frame C r).length = 5 + (C.marshal r.entry).length := by simp [frame]; omega
    cases hd : b.drop 4 with
    | nil => simp [replayLoop, hd]
    | cons op rest =>
      have h4 : 4 < b.length := by
        by_contra h
        rw [List.drop_eq_nil_iff.mpr (by omega)] at hd
        simp at hd
      have htake : b.take 4 = beBytes 4 (C.marshal r.entry).length := by
        have : (frame C r).take 4 = beBytes 4 (C.marshal r.entry).length := by
          rw [frame, List.take_left' (by simp)]
        rw [← this, ← ht, List.take_append_of_le_length (by omega)]
      have hn : beNat (beBytes 4 (C.marshal r.entry).length) = (C.marshal r.entry).length := by
        refine beNat_beBytes_of_lt (hr.trans_lt ?_)
        decide
      have hrest : rest.length < (C.marshal r.entry).length := by
        have := congrArg List.length hd
        simp at this
        omega
      simp only [replayLoop, hd, htake, hn]
      rw [if_neg (not_lt.mpr hr), if_pos hrest]

/-- What `replayWAL` reports for a list of records. -/
def records (rs : List WalRecord) : List (UInt8 × Entry) := rs.map (fun r => (r.op.code, r.entry))

theorem replayLoop_nil (fuel valid : ℕ) : replayLoop C fuel [] valid = ([], valid) := by
  cases fuel <;> rfl

theorem replayLoop_frames {rs : List WalRecord} (hrs : ∀ r ∈ rs, UnderCap C r) (tail : Bytes)
    (htail : ∀ fuel valid, replayLoop C fuel tail valid = ([], valid)) (fuel : ℕ)
    (hf : rs.length ≤ fuel) (valid : ℕ) :
    replayLoop C fuel (rs.flatMap (frame C) ++ tail) valid =
      (records rs, valid + (rs.flatMap (frame C)).length) := by
  induction rs generalizing fuel valid with
  | nil => simpa [records] using htail fuel valid
  | cons r rs ih =>
    obtain ⟨fuel, rfl⟩ : ∃ k, fuel = k + 1 := ⟨fuel - 1, by simp at hf; omega⟩
    rw [List.flatMap_cons, List.append_assoc, replayLoop_frame (hrs r (by simp)),
      ih (fun r' hr' => hrs r' (by simp [hr'])) _ (by simpa using hf)]
    simp [records, Nat.add_assoc]

theorem length_le_frames (rs : List WalRecord) : rs.length ≤ (rs.flatMap (frame C)).length := by
  induction rs with
  | nil => simp
  | cons r rs ih =>
    simp only [List.flatMap_cons, List.length_append, List.length_cons, frame]
    omega

/-- **The log reads back**: a file of whole records under the cap. -/
theorem replayWAL_frames {rs : List WalRecord} (hrs : ∀ r ∈ rs, UnderCap C r) :
    replayWAL C (rs.flatMap (frame C)) = (records rs, (rs.flatMap (frame C)).length) := by
  have h := replayLoop_frames hrs [] replayLoop_nil
    _ (length_le_frames (C := C) rs) 0
  simpa [replayWAL] using h

/-- A torn last record is dropped, and the valid part ends before it. -/
theorem replayWAL_torn {rs : List WalRecord} (hrs : ∀ r ∈ rs, UnderCap C r) {r : WalRecord}
    (hr : UnderCap C r) {tail : Bytes} (htail : tail <+: frame C r) (hne : tail ≠ frame C r) :
    replayWAL C (rs.flatMap (frame C) ++ tail) =
      (records rs, (rs.flatMap (frame C)).length) := by
  have h := replayLoop_frames hrs tail (replayLoop_torn htail hne hr)
    (rs.flatMap (frame C) ++ tail).length (by
      have := length_le_frames (C := C) rs
      simp only [List.length_append]
      omega) 0
  simpa [replayWAL] using h

end file

/-! ### Logged mutations -/

/-- A store mutation and the records that log it, as one unit under the log's lock. -/
structure Logged (α : Type) where
  out : α
  log : List WalRecord
  store : Store

/-- The store part of `applyPut`: whether the key was created. -/
def applyPut (s : Store) (name key value : Bytes) (expireAt : Int64) (now : ℕ) : Logged Bool :=
  let r := s.put (routedPartition name key) name key value expireAt now
  ⟨r.1, [⟨.put, ⟨name, key, value, expireAt⟩⟩], r.2⟩

/-- The store part of `applyRemove` and of `applyEvict`: whether the key existed. -/
def applyRemove (s : Store) (name key : Bytes) (now : ℕ) : Logged Bool :=
  let r := s.remove (routedPartition name key) name key now
  ⟨r.1, [⟨.remove, ⟨name, key, [], 0⟩⟩], r.2⟩

/-- A processor: from the live value, if any, and an argument to a new value, an action and an
output. -/
def Processor : Type := Option Bytes → Bytes → Bytes × Action × Bytes

/-- What `applyExecute` learns from its critical section. -/
structure Executed where
  action : Action
  newVal : Bytes
  expireAt : Int64
  existedBefore : Bool
  out : Bytes

/-- The store part of `applyExecute` on an ordinary map. -/
def applyExecute (s : Store) (name key : Bytes) (proc : Processor) (arg : Bytes) (now : ℕ) :
    Logged Executed :=
  let p := forKey key
  let cur := s.get p name key now
  let res := proc cur arg
  let r := s.update p name key now (fun cur => ((proc cur arg).1, (proc cur arg).2.1))
  ⟨⟨r.1.1, res.1, r.1.2, cur.isSome, res.2.2⟩,
    match r.1.1 with
    | .set => [⟨.put, ⟨name, key, res.1, r.1.2⟩⟩]
    | .delete => [⟨.remove, ⟨name, key, [], 0⟩⟩]
    | .keep => [],
    r.2⟩

/-- A processor leaves the entry, deletes it, or sets it and keeps the expiry of a live value. -/
theorem applyExecute_cases (s : Store) (name key : Bytes) (proc : Processor) (arg : Bytes)
    (now : ℕ) :
    let x := applyExecute s name key proc arg now
    (x.log = [] ∧ x.store = s) ∨
    (x.log = [⟨.remove, ⟨name, key, [], 0⟩⟩] ∧ x.store = s.erase (forKey key) (name, key)) ∨
    ∃ v : Value, v.expireAt = ((s.lookup (forKey key) name key now).map Value.expireAt).getD 0 ∧
      x.log = [⟨.put, ⟨name, key, v.data, v.expireAt⟩⟩] ∧
      x.store = s.set (forKey key) (name, key) v := by
  rcases h : proc (s.get (forKey key) name key now) arg with ⟨newVal, action, out⟩
  have h' : proc ((s.lookup (forKey key) name key now).map Value.data) arg =
      (newVal, action, out) := h
  cases action with
  | keep => exact Or.inl (by simp [applyExecute, Store.update, h'])
  | delete => exact Or.inr (Or.inl (by simp [applyExecute, Store.update, h']))
  | set =>
    exact Or.inr (Or.inr
      ⟨⟨newVal, ((s.lookup (forKey key) name key now).map Value.expireAt).getD 0⟩, rfl,
        by simp [applyExecute, Store.update, h, h'], by simp [applyExecute, Store.update, h']⟩)

/-- The store after a processor, by what it reports. -/
theorem applyExecute_store (s : Store) (name key : Bytes) (proc : Processor) (arg : Bytes)
    (now : ℕ) :
    (applyExecute s name key proc arg now).store =
      match (applyExecute s name key proc arg now).out.action with
      | .keep => s
      | .set => s.set (forKey key) (name, key) ⟨(applyExecute s name key proc arg now).out.newVal,
          (applyExecute s name key proc arg now).out.expireAt⟩
      | .delete => s.erase (forKey key) (name, key) := by
  rcases h : proc (s.get (forKey key) name key now) arg with ⟨newVal, action, out⟩
  have h' : proc ((s.lookup (forKey key) name key now).map Value.data) arg =
      (newVal, action, out) := h
  cases action <;> simp [applyExecute, Store.update, h, h']

/-- The record of one mutation of a transaction. -/
def Store.Mutation.record (m : Mutation) : WalRecord :=
  if m.del then ⟨.remove, ⟨m.mapName, m.key, [], 0⟩⟩
  else ⟨.put, ⟨m.mapName, m.key, m.value, 0⟩⟩

/-- The store part of `applyQueueExecute`: the result and the mutations to replicate. -/
def applyQueueExecute (s : Store) (qname : Bytes) (op : QueueOp) (arg : Bytes) (now : ℕ) :
    Logged (Except ServiceError Bytes × List Mutation) :=
  let r := queueTxn s now qname op arg
  ⟨(r.1, r.2.1), r.2.1.map Mutation.record, r.2.2⟩

/-- `localClearMap`: a clear that removed nothing is not logged. -/
def localClearMap (s : Store) (name : Bytes) : Logged ℕ :=
  let r := s.clearMap name
  ⟨r.1.length, if r.1.length = 0 then [] else [⟨.clear, ⟨name, [], [], 0⟩⟩], r.2⟩

/-- `dropMigratedLogged`: one remove record for every entry dropped. -/
def dropMigratedLogged (s : Store) (p : PartitionId) (entries : List Entry) :
    Logged (List Entry) :=
  let r := s.dropMigrated p entries
  ⟨r.1, r.1.map (fun e => ⟨.remove, ⟨e.mapName, e.key, [], 0⟩⟩), r.2⟩

/-- `pruneToKeysetLogged`: the number of keys pruned, one remove record for each. -/
def pruneToKeysetLogged (s : Store) (p : PartitionId) (keep : List Ref) : Logged ℕ :=
  let r := s.pruneToKeyset p keep
  ⟨r.1.length, r.1.map (fun e => ⟨.remove, ⟨e.mapName, e.key, [], 0⟩⟩), r.2⟩

/-! ### Restart -/

/-- An entry that expired while the node was down. -/
def Entry.dead (e : Entry) (now : ℕ) : Bool :=
  decide (e.expireAt ≠ 0) && decide (e.expireAt.toInt ≤ now)

/-- `Restore`: load a snapshot, without the entries that expired. -/
def restore (now : ℕ) (snapshot : List Entry) : Store :=
  Store.empty.loadAll (snapshot.filter (fun e => !e.dead now))

/-- The callbacks of `OpenWAL`. -/
def replayRecord (now : ℕ) (s : Store) (r : UInt8 × Entry) : Store :=
  if r.1 = WalOp.code .put then
    if r.2.dead now then s else s.loadAll [r.2]
  else if r.1 = WalOp.code .remove then
    (s.remove (routedPartition r.2.mapName r.2.key) r.2.mapName r.2.key now).2
  else if r.1 = WalOp.code .clear then (s.clearMap r.2.mapName).2
  else s

/-- `OpenWAL`: replay the log file into the store. -/
def openWAL (C : Codec) (now : ℕ) (file : Bytes) (s : Store) : Store :=
  (replayWAL C file).1.foldl (replayRecord now) s

end Medusa
