import Medusa.Reread

/-! # The messages

The kinds of fields of the `.proto` files, and the messages with their field numbers and names.

* `Kind.number`: numbers and flags, as varints.  `Kind.bytes`: strings and bytes.  `Kind.message` and
  `Kind.repeated`: a message, and any number of messages, inside another one. -/

namespace Medusa

namespace Proto

open Transport Cursor

/-! ### Lengths of varints -/

section lengths

theorem length_putVarint_le_iff {n : ℕ} (hn : n < 2 ^ 64) (k : ℕ) :
    (putVarint n).length ≤ k + 1 ↔ n < 128 ^ (k + 1) :=
  Varint.length_encode_le_iff (w := 9) (lt_of_lt_of_le hn (by norm_num)) k

theorem length_putVarint_pos {n : ℕ} (hn : n < 2 ^ 64) : ∃ k, (putVarint n).length = k + 1 := by
  refine ⟨(putVarint n).length - 1, ?_⟩
  have hne : (putVarint n).length ≠ 0 := by
    intro h
    have hlen := varint_putVarint hn []
    rw [List.eq_nil_of_length_eq_zero h] at hlen
    cases hlen
  omega

theorem length_putVarint_mono {a b : ℕ} (hab : a ≤ b) (hb : b < 2 ^ 64) :
    (putVarint a).length ≤ (putVarint b).length := by
  obtain ⟨k, hk⟩ := length_putVarint_pos hb
  rw [hk, length_putVarint_le_iff (by omega)]
  exact lt_of_le_of_lt hab ((length_putVarint_le_iff hb k).mp (by omega))

/-- The varint of a sum is no longer than the two. -/
theorem length_putVarint_add {a b : ℕ} (hab : a + b < 2 ^ 64) :
    (putVarint (a + b)).length ≤ (putVarint a).length + (putVarint b).length := by
  obtain ⟨j, hj⟩ := length_putVarint_pos (n := a) (by omega)
  obtain ⟨k, hk⟩ := length_putVarint_pos (n := b) (by omega)
  have ha := (length_putVarint_le_iff (n := a) (by omega) j).mp (by omega)
  have hb := (length_putVarint_le_iff (n := b) (by omega) k).mp (by omega)
  have hle : (putVarint (a + b)).length ≤ j + k + 1 + 1 := by
    rw [length_putVarint_le_iff hab]
    have hja : 128 ^ (j + 1) ≤ 128 ^ (j + k + 1) := Nat.pow_le_pow_right (by decide) (by omega)
    have hkb : 128 ^ (k + 1) ≤ 128 ^ (j + k + 1) := Nat.pow_le_pow_right (by decide) (by omega)
    rw [pow_succ 128 (j + k + 1)]
    omega
  omega

end lengths

/-! ### Kinds -/

namespace Kind

/-- A number or a flag; the default is left out. -/
def number (V : Type) [DecidableEq V] (zero : V) (encode : V → UInt64) (decode : UInt64 → V)
    (hdecode : ∀ v, decode (encode v) = v) (hencode : ∀ x, encode (decode x) ≤ x) : Kind where
  Value := V
  zero := zero
  wireType := .varint
  emit v := if v = zero then [] else [Chunk.varint (encode v)]
  set
    | _, .varint x => .ok (decode x)
    | _, .delimited _ => .error .stuck
  Valid _ := True
  emit_wireType v c hc := by
    split at hc
    · cases hc
    · rw [List.mem_singleton.mp hc]
      rfl
  emit_zero := if_pos rfl
  zero_valid := trivial
  set_valid _ _ _ := trivial
  set_safe v p hp _ := by
    cases p with
    | varint x => simp
    | delimited b => cases hp
  set_size {v v' p} hset _ := by
    cases p with
    | delimited b => cases hset
    | varint x =>
      cases hset
      have hmono := length_putVarint_mono (UInt64.le_iff_toNat_le.mp (hencode x)) x.toNat_lt
      split
      · exact Nat.zero_le _
      · change 1 + sizeOfVarint (encode (decode x)) + 0 ≤ _ + 1 + (putVarint x.toNat).length
        rw [sizeOfVarint_eq]
        omega
  restores {v} _ _ := by
    split
    · next hv => rw [hv]; rfl
    · exact congrArg Except.ok (hdecode v)

/-- `bool`. -/
def bool : Kind := number Bool false (fun v => if v then 1 else 0) (fun x => x != 0) (by decide) (by
  intro x
  by_cases hx : x = 0
  · simp [hx]
  · have hpos : x.toNat ≠ 0 := fun h => hx (UInt64.toNat_inj.mp h)
    rw [bne_iff_ne.mpr hx, if_pos rfl, UInt64.le_iff_toNat_le]
    exact Nat.one_le_iff_ne_zero.mpr hpos)

/-- `uint64`. -/
def uint64 : Kind := number UInt64 0 id id (fun _ => rfl) fun x => UInt64.le_refl x

/-- `int64`. -/
def int64 : Kind := number Int64 0 Int64.toUInt64 UInt64.toInt64 (fun v => by simp) fun x => by simp

/-- `uint32`: the bits above the lowest 32 are shifted out. -/
def uint32 : Kind := number UInt32 0 UInt32.toUInt64 UInt64.toUInt32 (fun v => by simp) fun x => by
  rw [UInt64.le_iff_toNat_le, UInt32.toNat_toUInt64, UInt64.toNat_toUInt32]
  exact Nat.mod_le _ _

/-- `string` and `bytes`. -/
def bytes : Kind where
  Value := Bytes
  zero := []
  wireType := .delimited
  emit v := if v.length > 0 then [Chunk.ofBytes v] else []
  set
    | _, .delimited b => .ok b
    | _, .varint _ => .error .stuck
  Valid _ := True
  emit_wireType v c hc := by
    split at hc
    · rw [List.mem_singleton.mp hc]
      rfl
    · cases hc
  emit_zero := rfl
  zero_valid := trivial
  set_valid _ _ _ := trivial
  set_safe v p hp _ := by
    cases p with
    | varint x => cases hp
    | delimited b => simp
  set_size {v v' p} hset _ := by
    cases p with
    | varint x => cases hset
    | delimited b =>
      cases hset
      have hchunk : chunksSize [Chunk.ofBytes v'] = 1 + (Payload.delimited v').bytes.length :=
        congrArg (1 + ·) (Chunk.size_eq _)
      split
      · rw [hchunk]
        omega
      · exact Nat.zero_le _
  restores {v} _ _ := by
    split
    · rfl
    · next hv => rw [List.eq_nil_of_length_eq_zero (Nat.eq_zero_of_not_pos hv)]; rfl

end Kind

section nested

/-- A message as a payload. -/
def Schema.chunk (S : Schema) (m : S.Msg) : Chunk :=
  Chunk.delimited (S.bytes m) (S.sizeVT m) (S.marshalToSizedBufferVT m) (Schema.sizeVT_eq m)
    (Schema.marshalToSizedBufferVT_writes m)

variable (S : Schema)

/-- A message that is read again, from its payload. -/
theorem Schema.unmarshalVT_bytes {S : Schema} {m : S.Msg} (hm : S.Valid m) (hsize : (S.bytes m).length < 2 ^ 63) :
    S.unmarshalVT (S.bytes m) S.empty = .ok m :=
  (unmarshalVT_eq_ok hsize).mpr (parse_bytes hm (sizeVT_eq m ▸ hsize))

theorem Schema.size_chunk {S : Schema} {m : S.Msg} (hm : S.sizeVT m < 2 ^ 63) :
    (S.chunk m).size = S.sizeVT m + (putVarint (S.sizeVT m)).length := by
  change S.sizeVT m + sizeOfVarint (UInt64.ofNat (S.sizeVT m)) = _
  rw [sizeOfVarint_eq, UInt64.toNat_ofNat_of_lt' (lt_of_lt_of_le hm (by norm_num [UInt64.size]))]

theorem length_bytes_delimited {b : Bytes} (hb : b.length < 2 ^ 63) :
    (Payload.delimited b).bytes.length = b.length + (putVarint b.length).length := by
  rw [Payload.bytes, List.length_append, UInt64.toNat_ofNat_of_lt' (lt_of_lt_of_le hb (by norm_num [UInt64.size])),
    Nat.add_comm]

/-- A message that was read into one of size `l` takes no more room than that one and what was read. -/
theorem Schema.size_chunk_le {S : Schema} {b : Bytes} {m m' : S.Msg} (h : S.unmarshalVT b m = .ok m')
    (hsize : S.sizeVT m + b.length < 2 ^ 63) :
    (S.chunk m').size ≤ S.sizeVT m + b.length + (putVarint (S.sizeVT m + b.length)).length := by
  have hle := parse_size ((unmarshalVT_eq_ok (by omega)).mp h) hsize
  have hmono := length_putVarint_mono hle (by omega)
  rw [size_chunk (by omega)]
  omega

/-- A payload of a repeated field: a message more. -/
def Schema.appendRead (v : List S.Msg) : Payload → Except ProtoError (List S.Msg)
  | .delimited b => do
      let m ← S.unmarshalVT b S.empty
      return v ++ [m]
  | .varint _ => .error .stuck

theorem Schema.foldlM_appendRead {ms : List S.Msg} (hms : ∀ m ∈ ms, S.Valid m)
    (hlen : ∀ m ∈ ms, (S.bytes m).length < 2 ^ 63) (done : List S.Msg) :
    (ms.map S.chunk).foldlM (fun v c => S.appendRead v c.payload) done = .ok (done ++ ms) := by
  induction ms generalizing done with
  | nil => rw [List.append_nil]; rfl
  | cons m ms ih =>
    have hread : S.appendRead done (S.chunk m).payload = .ok (done ++ [m]) := by
      change (S.unmarshalVT (S.bytes m) S.empty >>= fun m => pure (done ++ [m])) = _
      rw [unmarshalVT_bytes (hms m (by simp)) (hlen m (by simp))]
      rfl
    rw [List.map_cons, List.foldlM_cons, hread, ok_bind,
      ih (fun m' hm' => hms m' (by simp [hm'])) (fun m' hm' => hlen m' (by simp [hm'])), List.append_assoc]
    rfl

theorem Schema.size_appendRead {v v' : List S.Msg} {p : Payload} (hset : S.appendRead v p = .ok v')
    (hsize : chunksSize (v.map S.chunk) + 1 + p.bytes.length < 2 ^ 63) :
    chunksSize (v'.map S.chunk) ≤ chunksSize (v.map S.chunk) + 1 + p.bytes.length := by
  cases p with
  | varint x => cases hset
  | delimited b =>
    obtain ⟨m, hm, he⟩ := bind_eq_ok hset
    cases he
    have hvarint : b.length ≤ (Payload.delimited b).bytes.length := by simp [Payload.bytes]
    have hb := length_bytes_delimited (b := b) (by omega)
    have hle := Schema.size_chunk_le hm (by rw [Schema.sizeVT_empty]; omega)
    rw [Schema.sizeVT_empty, Nat.zero_add] at hle
    have happend : chunksSize ((v ++ [m]).map S.chunk) = chunksSize (v.map S.chunk) + (1 + (S.chunk m).size) := by
      simp [chunksSize]
    rw [happend]
    omega

namespace Kind

/-- A message; one that is read again is merged into the first. -/
def message : Kind where
  Value := Option S.Msg
  zero := none
  wireType := .delimited
  emit v := v.toList.map S.chunk
  set
    | v, .delimited b => do
        let m ← S.unmarshalVT b (v.getD S.empty)
        return some m
    | _, .varint _ => .error .stuck
  Valid v := ∀ m ∈ v, S.Valid m
  emit_wireType v c hc := by
    obtain ⟨m, -, rfl⟩ := List.mem_map.mp hc
    rfl
  emit_zero := rfl
  zero_valid := by simp
  set_valid {v v' p} hv hset hp := by
    cases p with
    | varint x => cases hset
    | delimited b =>
      obtain ⟨m, hm, he⟩ := bind_eq_ok hset
      cases he
      have hstart : S.Valid (v.getD S.empty) := by
        cases v with
        | none => exact Schema.empty_valid
        | some m => exact hv m rfl
      intro m' hm'
      cases hm'
      exact Schema.parse_valid ((Schema.unmarshalVT_eq_ok hp).mp hm) hp hstart
  set_safe v p hp hlen := by
    cases p with
    | varint x => cases hp
    | delimited b => exact bind_ne_error (Schema.unmarshalVT_eq hlen _).2 fun m => by simp [pure, Except.pure]
  set_size {v v' p} hset hsize := by
    cases p with
    | varint x => cases hset
    | delimited b =>
      obtain ⟨m, hm, he⟩ := bind_eq_ok hset
      cases he
      have hone : ∀ m, chunksSize [S.chunk m] = 1 + (S.chunk m).size := fun m => rfl
      have hvarint : b.length ≤ (Payload.delimited b).bytes.length := by simp [Payload.bytes]
      have hb := length_bytes_delimited (b := b) (by omega)
      change chunksSize [S.chunk m] ≤ _
      rw [hone]
      cases v with
      | none =>
        have hle := Schema.size_chunk_le hm (by rw [Option.getD_none, Schema.sizeVT_empty]; omega)
        rw [Option.getD_none, Schema.sizeVT_empty, Nat.zero_add] at hle
        omega
      | some m₀ =>
        change chunksSize [S.chunk m₀] + 1 + _ < _ at hsize
        change _ ≤ chunksSize [S.chunk m₀] + 1 + _
        rw [hone] at hsize ⊢
        have hsmall : S.sizeVT m₀ ≤ (S.chunk m₀).size := Nat.le_add_right _ _
        have hle := Schema.size_chunk_le hm (by rw [Option.getD_some]; omega)
        rw [Option.getD_some] at hle
        have hfirst : (S.chunk m₀).size = S.sizeVT m₀ + (putVarint (S.sizeVT m₀)).length :=
          Schema.size_chunk (by omega)
        have hadd := length_putVarint_add (a := S.sizeVT m₀) (b := b.length) (by omega)
        omega
  restores {v} hv hlen := by
    cases v with
    | none => rfl
    | some m =>
      have h := Schema.unmarshalVT_bytes (hv m rfl) (hlen (S.chunk m) (by simp))
      change (S.unmarshalVT (S.bytes m) S.empty >>= fun m => Except.ok (some m)) >>= Except.ok = _
      rw [h]
      rfl

/-- Any number of messages; one that is read is appended. -/
def repeated : Kind where
  Value := List S.Msg
  zero := []
  wireType := .delimited
  emit v := v.map S.chunk
  set := S.appendRead
  Valid v := ∀ m ∈ v, S.Valid m
  emit_wireType v c hc := by
    obtain ⟨m, -, rfl⟩ := List.mem_map.mp hc
    rfl
  emit_zero := rfl
  zero_valid := by simp
  set_valid {v v' p} hv hset hp := by
    cases p with
    | varint x => cases hset
    | delimited b =>
      obtain ⟨m, hm, he⟩ := bind_eq_ok hset
      cases he
      intro m' hm'
      rcases List.mem_append.mp hm' with hm' | hm'
      · exact hv m' hm'
      · rw [List.mem_singleton.mp hm']
        exact Schema.parse_valid ((Schema.unmarshalVT_eq_ok hp).mp hm) hp Schema.empty_valid
  set_safe v p hp hlen := by
    cases p with
    | varint x => cases hp
    | delimited b => exact bind_ne_error (Schema.unmarshalVT_eq hlen _).2 fun m => by simp [pure, Except.pure]
  set_size := S.size_appendRead
  restores {v} hv hlen := by
    have h := S.foldlM_appendRead hv (fun m hm => hlen (S.chunk m) (List.mem_map_of_mem hm)) []
    rwa [List.nil_append] at h

end Kind

end nested

/-! ### The messages -/

/-- `PutRequest`. -/
def putRequest : Schema :=
  ⟨"PutRequest", [⟨1, "Map", .bytes, rfl⟩,
    ⟨2, "Key", .bytes, rfl⟩,
    ⟨3, "Value", .bytes, rfl⟩,
    ⟨4, "Backup", .bool, rfl⟩,
    ⟨5, "TtlMs", .int64, rfl⟩], by decide⟩

/-- `PutResponse`. -/
def putResponse : Schema :=
  ⟨"PutResponse", [⟨1, "Created", .bool, rfl⟩], by decide⟩

/-- `GetRequest`. -/
def getRequest : Schema :=
  ⟨"GetRequest", [⟨1, "Map", .bytes, rfl⟩,
    ⟨2, "Key", .bytes, rfl⟩], by decide⟩

/-- `GetResponse`. -/
def getResponse : Schema :=
  ⟨"GetResponse", [⟨1, "Found", .bool, rfl⟩,
    ⟨2, "Value", .bytes, rfl⟩], by decide⟩

/-- `RemoveRequest`. -/
def removeRequest : Schema :=
  ⟨"RemoveRequest", [⟨1, "Map", .bytes, rfl⟩,
    ⟨2, "Key", .bytes, rfl⟩,
    ⟨3, "Backup", .bool, rfl⟩], by decide⟩

/-- `RemoveResponse`. -/
def removeResponse : Schema :=
  ⟨"RemoveResponse", [⟨1, "Existed", .bool, rfl⟩], by decide⟩

/-- `ExecuteRequest`. -/
def executeRequest : Schema :=
  ⟨"ExecuteRequest", [⟨1, "Map", .bytes, rfl⟩,
    ⟨2, "Key", .bytes, rfl⟩,
    ⟨3, "Processor", .bytes, rfl⟩,
    ⟨4, "Arg", .bytes, rfl⟩], by decide⟩

/-- `ExecuteResponse`. -/
def executeResponse : Schema :=
  ⟨"ExecuteResponse", [⟨1, "Result", .bytes, rfl⟩], by decide⟩

/-- `SnapshotEntry`. -/
def snapshotEntry : Schema :=
  ⟨"SnapshotEntry", [⟨1, "Map", .bytes, rfl⟩,
    ⟨2, "Key", .bytes, rfl⟩,
    ⟨3, "Value", .bytes, rfl⟩,
    ⟨4, "ExpireAt", .int64, rfl⟩], by decide⟩

/-- `Snapshot`. -/
def snapshot : Schema :=
  ⟨"Snapshot", [⟨1, "Entries", .repeated snapshotEntry, rfl⟩], by decide⟩

/-- `DigestRequest`. -/
def digestRequest : Schema :=
  ⟨"DigestRequest", [⟨1, "Partition", .uint32, rfl⟩,
    ⟨2, "Digest", .uint64, rfl⟩], by decide⟩

/-- `DigestResponse`. -/
def digestResponse : Schema :=
  ⟨"DigestResponse", [⟨1, "Match", .bool, rfl⟩], by decide⟩

/-- `SizeRequest`. -/
def sizeRequest : Schema :=
  ⟨"SizeRequest", [⟨1, "Map", .bytes, rfl⟩], by decide⟩

/-- `SizeResponse`. -/
def sizeResponse : Schema :=
  ⟨"SizeResponse", [⟨1, "Count", .uint64, rfl⟩], by decide⟩

/-- `ClearRequest`. -/
def clearRequest : Schema :=
  ⟨"ClearRequest", [⟨1, "Map", .bytes, rfl⟩], by decide⟩

/-- `ClearResponse`. -/
def clearResponse : Schema :=
  ⟨"ClearResponse", [⟨1, "Removed", .uint64, rfl⟩], by decide⟩

/-- `AggregateRequest`. -/
def aggregateRequest : Schema :=
  ⟨"AggregateRequest", [⟨1, "Map", .bytes, rfl⟩,
    ⟨2, "Aggregator", .bytes, rfl⟩], by decide⟩

/-- `AggregateResponse`. -/
def aggregateResponse : Schema :=
  ⟨"AggregateResponse", [⟨1, "Partial", .bytes, rfl⟩], by decide⟩

/-- `EvictRequest`. -/
def evictRequest : Schema :=
  ⟨"EvictRequest", [⟨1, "Map", .bytes, rfl⟩,
    ⟨2, "Key", .bytes, rfl⟩], by decide⟩

/-- `EvictResponse`. -/
def evictResponse : Schema :=
  ⟨"EvictResponse", [⟨1, "Existed", .bool, rfl⟩], by decide⟩

/-- `KeyRef`. -/
def keyRef : Schema :=
  ⟨"KeyRef", [⟨1, "Map", .bytes, rfl⟩,
    ⟨2, "Key", .bytes, rfl⟩], by decide⟩

/-- `ReconcileRequest`. -/
def reconcileRequest : Schema :=
  ⟨"ReconcileRequest", [⟨1, "Partition", .uint32, rfl⟩,
    ⟨2, "Keys", .repeated keyRef, rfl⟩], by decide⟩

/-- `ReconcileResponse`. -/
def reconcileResponse : Schema :=
  ⟨"ReconcileResponse", [⟨1, "Pruned", .uint64, rfl⟩], by decide⟩

/-- `Member`. -/
def member : Schema :=
  ⟨"Member", [⟨1, "Id", .bytes, rfl⟩,
    ⟨2, "Addr", .bytes, rfl⟩], by decide⟩

/-- `JoinRequest`. -/
def joinRequest : Schema :=
  ⟨"JoinRequest", [⟨1, "Candidate", .message member, rfl⟩], by decide⟩

/-- `JoinResponse`. -/
def joinResponse : Schema :=
  ⟨"JoinResponse", [⟨1, "Members", .repeated member, rfl⟩], by decide⟩

/-- `Heartbeat`. -/
def heartbeat : Schema :=
  ⟨"Heartbeat", [⟨1, "MemberId", .bytes, rfl⟩,
    ⟨2, "Sequence", .uint64, rfl⟩], by decide⟩

/-- `MemberList`. -/
def memberList : Schema :=
  ⟨"MemberList", [⟨1, "Members", .repeated member, rfl⟩,
    ⟨2, "Version", .uint64, rfl⟩], by decide⟩

/-- `LeaveRequest`. -/
def leaveRequest : Schema :=
  ⟨"LeaveRequest", [⟨1, "MemberId", .bytes, rfl⟩], by decide⟩

/-- `Error`. -/
def error : Schema :=
  ⟨"Error", [⟨1, "Code", .uint32, rfl⟩,
    ⟨2, "Message", .bytes, rfl⟩], by decide⟩

/-- The message types. -/
inductive Message where
  | putRequest
  | putResponse
  | getRequest
  | getResponse
  | removeRequest
  | removeResponse
  | executeRequest
  | executeResponse
  | snapshotEntry
  | snapshot
  | digestRequest
  | digestResponse
  | sizeRequest
  | sizeResponse
  | clearRequest
  | clearResponse
  | aggregateRequest
  | aggregateResponse
  | evictRequest
  | evictResponse
  | keyRef
  | reconcileRequest
  | reconcileResponse
  | member
  | joinRequest
  | joinResponse
  | heartbeat
  | memberList
  | leaveRequest
  | error
deriving DecidableEq, Repr

/-- The fields of a message type. -/
def Message.schema : Message → Schema
  | .putRequest => Proto.putRequest
  | .putResponse => Proto.putResponse
  | .getRequest => Proto.getRequest
  | .getResponse => Proto.getResponse
  | .removeRequest => Proto.removeRequest
  | .removeResponse => Proto.removeResponse
  | .executeRequest => Proto.executeRequest
  | .executeResponse => Proto.executeResponse
  | .snapshotEntry => Proto.snapshotEntry
  | .snapshot => Proto.snapshot
  | .digestRequest => Proto.digestRequest
  | .digestResponse => Proto.digestResponse
  | .sizeRequest => Proto.sizeRequest
  | .sizeResponse => Proto.sizeResponse
  | .clearRequest => Proto.clearRequest
  | .clearResponse => Proto.clearResponse
  | .aggregateRequest => Proto.aggregateRequest
  | .aggregateResponse => Proto.aggregateResponse
  | .evictRequest => Proto.evictRequest
  | .evictResponse => Proto.evictResponse
  | .keyRef => Proto.keyRef
  | .reconcileRequest => Proto.reconcileRequest
  | .reconcileResponse => Proto.reconcileResponse
  | .member => Proto.member
  | .joinRequest => Proto.joinRequest
  | .joinResponse => Proto.joinResponse
  | .heartbeat => Proto.heartbeat
  | .memberList => Proto.memberList
  | .leaveRequest => Proto.leaveRequest
  | .error => Proto.error

/-! ### Encoding and decoding -/

section codec

/-- **A message that was marshalled, into any buffer, fills exactly the size that was computed for it, and
decodes to itself.** -/
theorem message_round_trip (t : Message) (dst : Bytes) {m : t.schema.Msg} (hm : t.schema.Valid m)
    (hsize : t.schema.sizeVT m < 2 ^ 63) :
    ∃ b, t.schema.marshal dst m = .ok b ∧ b.length = t.schema.sizeVT m ∧
      t.schema.unmarshalVT b t.schema.empty = .ok m :=
  ⟨t.schema.bytes m, Schema.marshal_eq m dst, (Schema.sizeVT_eq m).symm,
    Schema.unmarshalVT_bytes hm (Schema.sizeVT_eq m ▸ hsize)⟩

/-- A negative TTL, and a field that this version does not know. -/
def futurePut : putRequest.Msg := ⟨([109], [107], [1, 2], true, (-5 : Int64), ()), [0x32, 1, 7]⟩

theorem futurePut_valid : putRequest.Valid futurePut :=
  ⟨⟨trivial, trivial, trivial, trivial, trivial, trivial⟩, fun _ => rfl⟩

theorem message_round_trip_future :
    putRequest.sizeVT futurePut = 26 ∧ ∃ b, putRequest.marshal [9, 9, 9] futurePut = .ok b ∧
      b.length = putRequest.sizeVT futurePut ∧ putRequest.unmarshalVT b putRequest.empty = .ok futurePut :=
  ⟨by decide +kernel, message_round_trip .putRequest [9, 9, 9] futurePut_valid (by decide +kernel)⟩

/-- **No input makes a decoder leave its buffer or loop.  What it accepts is valid; marshalled again it is
no longer, and decodes to the same message.** -/
theorem unmarshal_normalises (t : Message) {d : Bytes} (hd : d.length < 2 ^ 63) :
    t.schema.unmarshalVT d t.schema.empty ≠ .error .stuck ∧
      ∀ m, t.schema.unmarshalVT d t.schema.empty = .ok m → t.schema.Valid m ∧
        ∀ dst, ∃ b, t.schema.marshal dst m = .ok b ∧ b.length ≤ d.length ∧
          t.schema.unmarshalVT b t.schema.empty = .ok m := by
  refine ⟨(Schema.unmarshalVT_eq hd _).2, fun m hm => ?_⟩
  have hparse := (Schema.unmarshalVT_eq_ok hd).mp hm
  have hvalid := Schema.parse_valid hparse hd Schema.empty_valid
  have hsize := Schema.parse_size hparse (by rw [Schema.sizeVT_empty]; omega)
  rw [Schema.sizeVT_empty, Nat.zero_add, Schema.sizeVT_eq] at hsize
  exact ⟨hvalid, fun dst => ⟨_, Schema.marshal_eq m dst, hsize, Schema.unmarshalVT_bytes hvalid (by omega)⟩⟩

/-- The length of the name takes two bytes where one is enough. -/
theorem unmarshal_normalises_padded :
    let d : Bytes := [0x0A, 0x81, 0x00, 65, 0x12, 1, 66]
    ((Message.getRequest.schema.unmarshalVT d Message.getRequest.schema.empty).toOption.isSome = true) ∧
      Message.getRequest.schema.unmarshalVT d Message.getRequest.schema.empty ≠ .error .stuck ∧
      ∀ m, Message.getRequest.schema.unmarshalVT d Message.getRequest.schema.empty = .ok m →
        Message.getRequest.schema.Valid m ∧
        ∀ dst, ∃ b, Message.getRequest.schema.marshal dst m = .ok b ∧ b.length ≤ d.length ∧
          Message.getRequest.schema.unmarshalVT b Message.getRequest.schema.empty = .ok m :=
  ⟨by decide +kernel, unmarshal_normalises .getRequest (by decide)⟩

/-- **What follows an accepted input is decoded into the message that was decoded from it.** -/
theorem unmarshal_append (t : Message) {a b : Bytes} (hlen : (a ++ b).length < 2 ^ 63) {m m' : t.schema.Msg}
    (ha : t.schema.unmarshalVT a m = .ok m') (m'' : t.schema.Msg) :
    t.schema.unmarshalVT (a ++ b) m = .ok m'' ↔ t.schema.unmarshalVT b m' = .ok m'' := by
  have hsplit : a.length + b.length < 2 ^ 63 := List.length_append ▸ hlen
  rw [Schema.unmarshalVT_eq_ok (by omega)] at ha
  rw [Schema.unmarshalVT_eq_ok hlen, Schema.unmarshalVT_eq_ok (by omega), Schema.parse_append ha]

/-- Two candidates of a join are one member. -/
theorem unmarshal_append_join :
    ∃ m', joinRequest.unmarshalVT [0x0A, 3, 0x0A, 1, 65] joinRequest.empty = .ok m' ∧ ∀ m'',
      joinRequest.unmarshalVT ([0x0A, 3, 0x0A, 1, 65] ++ [0x0A, 3, 0x12, 1, 66]) joinRequest.empty = .ok m'' ↔
        joinRequest.unmarshalVT [0x0A, 3, 0x12, 1, 66] m' = .ok m'' :=
  ⟨⟨(some ⟨([65], [], ()), []⟩, ()), []⟩, rfl, unmarshal_append .joinRequest (by decide) rfl⟩

end codec

end Proto

end Medusa
