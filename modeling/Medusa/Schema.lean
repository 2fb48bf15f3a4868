import Medusa.Proto

/-! # Messages from their fields

The functions that the generator writes for one message, over the list of its fields.

* `Kind`: the type of a field, with its codec: how its values are emitted, and how what was read is put
  into a value.  A kind carries the facts about its codec that the results on messages need.
* `Schema`: the fields of a message.  `Schema.unmarshalVT`, `Schema.sizeVT`, `Schema.marshalToSizedBufferVT` and
  `Schema.marshal` are the generated functions and `codec.Marshal`.
* `Schema.bytes` and `Schema.parse`: what a message is on the wire, and how it is taken off the front. -/

namespace Medusa

namespace Proto

open Transport Cursor

/-! ### Writing -/

/-- `i -= n`; a negative index is out of range where it is used next. -/
def back (i n : ℕ) : Except ProtoError ℕ := if n ≤ i then .ok (i - n) else .error .stuck

/-- `dAtA[i] = b`. -/
def setAt (dAtA : Bytes) (i : ℕ) (b : UInt8) : Except ProtoError Bytes :=
  if i < dAtA.length then .ok (dAtA.set i b) else .error .stuck

/-- A byte right before the position. -/
def putByte (b : UInt8) (dAtA : Bytes) (i : ℕ) : Except ProtoError (Bytes × ℕ) := do
  let i ← back i 1
  let dAtA ← setAt dAtA i b
  return (dAtA, i)

/-- `copy(dAtA[i:], b)`, right before the position. -/
def copyBack (b dAtA : Bytes) (i : ℕ) : Except ProtoError (Bytes × ℕ) := do
  let i ← back i b.length
  return (dAtA.take i ++ b.take (dAtA.length - i) ++ dAtA.drop (i + b.length), i)

/-- `protohelpers.SizeOfVarint`, with `bits.Len64`. -/
def sizeOfVarint (x : UInt64) : ℕ := (Nat.size (x ||| 1).toNat + 6) / 7

/-- The loop of `protohelpers.EncodeVarint`. -/
def encodeLoop : ℕ → Bytes → ℕ → UInt64 → Except ProtoError Bytes
  | 0, _, _, _ => .error .stuck
  | rounds + 1, dAtA, offset, v =>
    if 0x80 ≤ v then do
      let dAtA ← setAt dAtA offset ((v &&& 0x7F) ||| 0x80).toUInt8
      encodeLoop rounds dAtA (offset + 1) (v >>> 7)
    else setAt dAtA offset v.toUInt8

/-- `protohelpers.EncodeVarint`. -/
def encodeVarint (v : UInt64) (dAtA : Bytes) (offset : ℕ) : Except ProtoError (Bytes × ℕ) := do
  let base ← back offset (sizeOfVarint v)
  let dAtA ← encodeLoop 10 dAtA base v
  return (dAtA, base)

section writes

theorem putByte_writes (b : UInt8) : Writes (putByte b) [b] := by
  intro pre old post hold
  obtain ⟨x, rfl⟩ := List.length_eq_one_iff.mp hold
  simp [putByte, back, setAt, ok_bind, pure, Except.pure]

theorem copyBack_writes (b : Bytes) : Writes (copyBack b) b := by
  intro pre old post hold
  have hroom : b.take ((pre ++ old ++ post).length - pre.length) = b := by
    refine List.take_of_length_le ?_
    simp only [List.length_append]
    omega
  rw [copyBack, back, if_pos (by omega), ok_bind, hold, Nat.add_sub_cancel, hroom, List.append_assoc pre,
    List.take_left, ← List.append_assoc, ← hold, ← List.length_append, List.drop_left]
  rfl

theorem setAt_middle (pre : Bytes) (x b : UInt8) (post : Bytes) :
    setAt (pre ++ x :: post) pre.length b = .ok (pre ++ b :: post) := by
  rw [setAt, if_pos (by simp), List.set_append_right _ _ (Nat.le_refl _), Nat.sub_self, List.set_cons_zero]

theorem toUInt8_group (v : UInt64) : ((v &&& 0x7F) ||| 0x80).toUInt8 = UInt8.ofNat (v.toNat % 128 + 128) := by
  have hlow : v.toNat &&& 127 = v.toNat % 128 := Nat.and_two_pow_sub_one_eq_mod v.toNat 7
  have hor := Nat.two_pow_add_eq_or_of_lt (Nat.mod_lt v.toNat (by decide : 2 ^ 7 > 0)) 1
  apply UInt8.toNat_inj.mp
  rw [UInt64.toNat_toUInt8, UInt64.toNat_or, UInt64.toNat_and, UInt8.toNat_ofNat']
  change ((v.toNat &&& 127) ||| 128) % 2 ^ 8 = _
  rw [hlow, Nat.or_comm]
  exact (congrArg (· % 2 ^ 8) hor.symm).trans (by rw [Nat.add_comm])

theorem encodeLoop_eq {rounds : ℕ} {v : UInt64} (hv : v.toNat < 128 ^ rounds) (pre old post : Bytes)
    (hold : old.length = (Varint.encode rounds v.toNat).length) (hrounds : rounds ≠ 0) :
    encodeLoop rounds (pre ++ old ++ post) pre.length v =
      .ok (pre ++ Varint.encode rounds v.toNat ++ post) := by
  induction rounds generalizing v pre old with
  | zero => exact absurd rfl hrounds
  | succ rounds ih =>
    have hle : 0x80 ≤ v ↔ ¬ v.toNat < 128 := by
      rw [UInt64.le_iff_toNat_le, Nat.not_lt]
      rfl
    rw [encodeLoop, Varint.encode]
    rw [Varint.encode] at hold
    by_cases hsmall : v.toNat < 128
    · rw [if_pos hsmall] at hold
      obtain ⟨x, rfl⟩ := List.length_eq_one_iff.mp hold
      have hbyte : v.toUInt8 = UInt8.ofNat v.toNat := by
        apply UInt8.toNat_inj.mp
        rw [UInt64.toNat_toUInt8, UInt8.toNat_ofNat']
      rw [if_neg (mt hle.mp (not_not.mpr hsmall)), if_pos hsmall, List.append_assoc, hbyte]
      exact (setAt_middle pre x _ post).trans (by simp)
    · rw [if_neg hsmall, List.length_cons] at hold
      obtain ⟨x, old, rfl⟩ := List.exists_cons_of_length_eq_add_one hold
      have hshift : (v >>> 7).toNat = v.toNat / 128 := by
        rw [UInt64.toNat_shiftRight]
        exact Nat.shiftRight_eq_div_pow v.toNat 7
      have hdiv : v.toNat / 128 < 128 ^ rounds := by
        rw [Nat.div_lt_iff_lt_mul (by decide), ← pow_succ]
        exact hv
      have hrounds' : rounds ≠ 0 := by
        rintro rfl
        rw [pow_zero] at hdiv
        omega
      rw [if_pos (hle.mpr hsmall), if_neg hsmall, List.append_assoc, List.cons_append, setAt_middle, ok_bind,
        toUInt8_group]
      have h := ih (v := v >>> 7) (hshift ▸ hdiv) (pre ++ [UInt8.ofNat (v.toNat % 128 + 128)]) old
        (by rw [hshift]; simpa using hold) hrounds'
      simpa [hshift] using h

/-- As many bytes as a varint has. -/
theorem sizeOfVarint_eq (v : UInt64) : sizeOfVarint v = (putVarint v.toNat).length := by
  rw [putVarint, Varint.length_encode (lt_of_lt_of_le v.toNat_lt (by norm_num)), sizeOfVarint, UInt64.toNat_or]
  rfl

theorem encodeVarint_writes (v : UInt64) : Writes (encodeVarint v) (putVarint v.toNat) := by
  intro pre old post hold
  rw [encodeVarint, back, sizeOfVarint_eq, ← hold, if_pos (by omega), ok_bind, Nat.add_sub_cancel]
  have h := encodeLoop_eq (lt_of_lt_of_le v.toNat_lt (by norm_num)) pre old post hold (by decide : 10 ≠ 0)
  rw [h]
  rfl

/-- A length and the bytes in front of which it stands. -/
def writeDelimited (write : Bytes → ℕ → Except ProtoError (Bytes × ℕ)) (dAtA : Bytes) (i : ℕ) :
    Except ProtoError (Bytes × ℕ) := do
  let (dAtA, j) ← write dAtA i
  encodeVarint (UInt64.ofNat (i - j)) dAtA j

theorem writeDelimited_writes {write : Bytes → ℕ → Except ProtoError (Bytes × ℕ)} {b : Bytes}
    (hwrite : Writes write b) :
    Writes (writeDelimited write) (putVarint (UInt64.ofNat b.length).toNat ++ b) := by
  intro pre old post hold
  have h := (hwrite.comp (encodeVarint_writes (UInt64.ofNat b.length))) pre old post hold
  rw [List.length_append] at hold
  -- the bytes are written behind the room for the length
  have hfirst := hwrite (pre ++ old.take (putVarint (UInt64.ofNat b.length).toNat).length)
    (old.drop (putVarint (UInt64.ofNat b.length).toNat).length) post (by rw [List.length_drop]; omega)
  rw [List.append_assoc pre, List.take_append_drop, List.length_append, Nat.add_assoc, ← List.length_append,
    List.take_append_drop] at hfirst
  dsimp only at h
  rw [hfirst, ok_bind] at h
  rw [writeDelimited, hfirst, ok_bind]
  dsimp only at h ⊢
  rw [List.length_take, Nat.min_eq_left (by omega)] at h ⊢
  rwa [show pre.length + old.length - (pre.length + (putVarint (UInt64.ofNat b.length).toNat).length) = b.length by
    omega]

end writes

/-! ### Payloads and kinds of fields -/

/-- The wire types of the fields of the messages. -/
inductive WireType where
  | varint
  | delimited
deriving DecidableEq, Repr

/-- The number of the wire type in a tag. -/
def WireType.code : WireType → ℕ
  | varint => 0
  | delimited => 2

/-- What stands behind a tag. -/
inductive Payload where
  | varint (x : UInt64)
  | delimited (b : Bytes)
deriving DecidableEq, Repr

namespace Payload

/-- The wire type of the tag in front of a payload. -/
def wireType : Payload → WireType
  | varint _ => .varint
  | delimited _ => .delimited

/-- How much was read behind a length. -/
def length : Payload → ℕ
  | varint _ => 0
  | delimited b => b.length

/-- A payload on the wire. -/
def bytes : Payload → Bytes
  | varint x => putVarint x.toNat
  | delimited b => putVarint (UInt64.ofNat b.length).toNat ++ b

end Payload

/-- A payload that a field emits: the size that `SizeVT` counts for it, and the code that writes it. -/
structure Chunk where
  payload : Payload
  size : ℕ
  write : Bytes → ℕ → Except ProtoError (Bytes × ℕ)
  size_eq : size = payload.bytes.length
  writes : Writes write payload.bytes

namespace Chunk

/-- A number. -/
def varint (x : UInt64) : Chunk where
  payload := .varint x
  size := sizeOfVarint x
  write := encodeVarint x
  size_eq := sizeOfVarint_eq x
  writes := encodeVarint_writes x

/-- Bytes that are written by `write`, behind their length. -/
def delimited (b : Bytes) (size : ℕ) (write : Bytes → ℕ → Except ProtoError (Bytes × ℕ))
    (hsize : size = b.length) (hwrite : Writes write b) : Chunk where
  payload := .delimited b
  size := size + sizeOfVarint (UInt64.ofNat size)
  write := writeDelimited write
  size_eq := by rw [hsize, sizeOfVarint_eq, Payload.bytes, List.length_append, Nat.add_comm]
  writes := writeDelimited_writes hwrite

/-- A string or bytes. -/
def ofBytes (b : Bytes) : Chunk := delimited b b.length (copyBack b) rfl (copyBack_writes b)

end Chunk

/-- What `SizeVT` counts for the payloads of one field, each behind a tag of one byte. -/
def chunksSize (cs : List Chunk) : ℕ := (cs.map fun c => 1 + c.size).sum

/-- The type of a field: what it emits, and what a payload that was read does to its value. -/
structure Kind : Type 1 where
  Value : Type
  zero : Value
  wireType : WireType
  emit : Value → List Chunk
  set : Value → Payload → Except ProtoError Value
  /-- What the values that are built by the program, or read, have. -/
  Valid : Value → Prop
  emit_wireType : ∀ v, ∀ c ∈ emit v, c.payload.wireType = wireType
  emit_zero : emit zero = []
  zero_valid : Valid zero
  set_valid : ∀ {v v' p}, Valid v → set v p = .ok v' → p.length < 2 ^ 63 → Valid v'
  /-- Nothing is read outside the buffer. -/
  set_safe : ∀ v {p}, p.wireType = wireType → p.length < 2 ^ 63 → set v p ≠ .error .stuck
  /-- A value grows by no more than what was read. -/
  set_size : ∀ {v v' p}, set v p = .ok v' → chunksSize (emit v) + 1 + p.bytes.length < 2 ^ 63 →
    chunksSize (emit v') ≤ chunksSize (emit v) + 1 + p.bytes.length
  /-- What is emitted restores the value. -/
  restores : ∀ {v}, Valid v → (∀ c ∈ emit v, c.payload.length < 2 ^ 63) →
    (emit v).foldlM (fun v c => set v c.payload) zero = .ok v

/-! ### Messages -/

/-- A field; its tag is one byte. -/
structure Field : Type 1 where
  num : ℕ
  name : String
  kind : Kind
  legal : (0 < num && num < 16) = true

/-- A value for every field. -/
abbrev Values : List Field → Type
  | [] => Unit
  | f :: fs => f.kind.Value × Values fs

namespace Values

/-- Every field has its default. -/
def zero : (fs : List Field) → Values fs
  | [] => ()
  | f :: fs => (f.kind.zero, zero fs)

/-- What was read for the field of the number is put into its value. -/
def set : (fs : List Field) → Values fs → ℕ → Payload → Except ProtoError (Values fs)
  | [], vs, _, _ => .ok vs
  | f :: fs, (v, vs), num, p =>
    if f.num = num then do
      let v ← f.kind.set v p
      return (v, vs)
    else do
      let vs ← set fs vs num p
      return (v, vs)

/-- What `SizeVT` counts for the fields. -/
def size : (fs : List Field) → Values fs → ℕ
  | [], _ => 0
  | f :: fs, (v, vs) => chunksSize (f.kind.emit v) + size fs vs

/-- Every value has what its kind asks for. -/
def Valid : (fs : List Field) → Values fs → Prop
  | [], _ => True
  | f :: fs, (v, vs) => f.kind.Valid v ∧ Valid fs vs

end Values

/-- A message type of the `.proto` files. -/
structure Schema : Type 1 where
  name : String
  fields : List Field
  nodup : (fields.map Field.num).Nodup

/-- A message: its fields, and the records that none of them took. -/
structure Schema.Msg (S : Schema) where
  values : Values S.fields
  unknownFields : Bytes

/-- The tag in front of a payload. -/
def Field.tag (f : Field) : UInt8 := UInt8.ofNat (8 * f.num + f.kind.wireType.code)

/-- A payload and its tag. -/
def Field.writeChunk (f : Field) (c : Chunk) (dAtA : Bytes) (i : ℕ) : Except ProtoError (Bytes × ℕ) := do
  let (dAtA, i) ← c.write dAtA i
  putByte f.tag dAtA i

/-- The payloads of a field, the last one first. -/
def Field.writeChunks (f : Field) : List Chunk → Bytes → ℕ → Except ProtoError (Bytes × ℕ)
  | [], dAtA, i => .ok (dAtA, i)
  | c :: cs, dAtA, i => do
      let (dAtA, i) ← f.writeChunks cs dAtA i
      f.writeChunk c dAtA i

/-- The fields, the last one first. -/
def Values.write : (fs : List Field) → Values fs → Bytes → ℕ → Except ProtoError (Bytes × ℕ)
  | [], _, dAtA, i => .ok (dAtA, i)
  | f :: fs, (v, vs), dAtA, i => do
      let (dAtA, i) ← write fs vs dAtA i
      f.writeChunks (f.kind.emit v) dAtA i

/-- `int32(wire >> 3)`. -/
def fieldNum (wire : UInt64) : Int32 := (wire >>> 3).toUInt32.toInt32

/-- What a field of the wire type reads. -/
def readPayload (dAtA : Bytes) (i : ℕ) : WireType → Except ProtoError (Payload × ℕ)
  | .varint => do
      let (x, i) ← readVarint dAtA i
      return (.varint x, i)
  | .delimited => do
      let (b, i) ← readBytes dAtA i
      return (.delimited b, i)

namespace Schema

variable (S : Schema)

/-- `&Message{}`. -/
def empty : S.Msg := ⟨Values.zero S.fields, []⟩

/-- `SizeVT`. -/
def sizeVT (m : S.Msg) : ℕ := Values.size S.fields m.values + m.unknownFields.length

/-- `MarshalToSizedBufferVT` of `dAtA[:i]`: the buffer, and where the message begins. -/
def marshalToSizedBufferVT (m : S.Msg) (dAtA : Bytes) (i : ℕ) : Except ProtoError (Bytes × ℕ) := do
  let (dAtA, i) ← copyBack m.unknownFields dAtA i
  Values.write S.fields m.values dAtA i

/-- `codec.Marshal` into a buffer of which `dst` is the whole backing array. -/
def marshal (dst : Bytes) (m : S.Msg) : Except ProtoError Bytes := do
  let dst := if dst.length < S.sizeVT m then List.replicate (S.sizeVT m) 0 else dst.take (S.sizeVT m)
  let (dst, _) ← S.marshalToSizedBufferVT m dst dst.length
  return dst

/-- `MarshalVT`. -/
def marshalVT (m : S.Msg) : Except ProtoError Bytes := do
  let (dAtA, i) ← S.marshalToSizedBufferVT m (List.replicate (S.sizeVT m) 0) (S.sizeVT m)
  return dAtA.take (S.sizeVT m - i)

/-- The case of the switch over the field number. -/
def find (num : Int32) : Option Field := S.fields.find? fun f => Int32.ofNat f.num = num

/-- One round of the loop of `UnmarshalVT`. -/
def unmarshalRecord (dAtA : Bytes) (preIndex : ℕ) (m : S.Msg) : Except ProtoError (S.Msg × ℕ) := do
  let (wire, iNdEx) ← readVarint dAtA preIndex
  if wire.toNat % 8 = 4 then .error (.endGroup S.name)
  else if fieldNum wire ≤ 0 then .error (.illegalTag S.name (fieldNum wire) wire)
  else
    match S.find (fieldNum wire) with
    | some f =>
      if wire.toNat % 8 ≠ f.kind.wireType.code then .error (.wrongWireType (wire.toNat % 8) f.name)
      else do
        let (p, iNdEx) ← readPayload dAtA iNdEx f.kind.wireType
        let values ← Values.set S.fields m.values f.num p
        return ({ m with values }, iNdEx)
    | none => do
        let (u, iNdEx) ← readUnknown dAtA preIndex
        return ({ m with unknownFields := m.unknownFields ++ u }, iNdEx)

/-- The loop of `UnmarshalVT`. -/
def unmarshalLoop (dAtA : Bytes) : ℕ → ℕ → S.Msg → Except ProtoError S.Msg
  | 0, _, _ => .error .stuck
  | rounds + 1, iNdEx, m =>
    if iNdEx < dAtA.length then do
      let (m, iNdEx) ← S.unmarshalRecord dAtA iNdEx m
      unmarshalLoop dAtA rounds iNdEx m
    else if dAtA.length < iNdEx then .error .unexpectedEOF
    else .ok m

/-- `UnmarshalVT`, into the message `m`. -/
def unmarshalVT (dAtA : Bytes) (m : S.Msg) : Except ProtoError S.Msg :=
  S.unmarshalLoop dAtA (dAtA.length + 1) 0 m

end Schema

/-! ### Off the front -/

/-- The payload of a field off the front. -/
def takePayload : WireType → Bytes → Option (Payload × Bytes)
  | .varint, s => do
      let r ← takeVarint s
      return (.varint r.1, r.2)
  | .delimited, s => do
      let r ← takeBytes s
      return (.delimited r.1, r.2)

/-- One record off the front, and what it does to the message. -/
def Schema.step (S : Schema) (m : S.Msg) (s : Bytes) : Option (S.Msg × Bytes) := do
  let wire ← takeVarint s
  if wire.1.toNat % 8 = 4 ∨ fieldNum wire.1 ≤ 0 then none
  else
    match S.find (fieldNum wire.1) with
    | some f =>
      if wire.1.toNat % 8 ≠ f.kind.wireType.code then none
      else do
        let p ← takePayload f.kind.wireType wire.2
        let values ← (Values.set S.fields m.values f.num p.1).toOption
        return ({ m with values }, p.2)
    | none => do
        let u ← takeUnknown s
        return ({ m with unknownFields := m.unknownFields ++ u.1 }, u.2)

/-- The records of a buffer, one after the other. -/
def Schema.parse (S : Schema) (d : Bytes) (m : S.Msg) : Option S.Msg := run S.step d.length d m

section locality

theorem takeVarint_local : Local takeVarint := by
  intro s x rest h
  obtain ⟨r, hr, he⟩ := Option.map_eq_some_iff.mp h
  cases he
  obtain ⟨u, hu, hs, hmore⟩ := varint_local s r.1 r.2 hr
  exact ⟨u, hu, hs, fun more => by rw [takeVarint, hmore]; rfl⟩

theorem takeBytes_local : Local takeBytes := by
  refine takeVarint_local.bind fun n s b rest h => ?_
  obtain ⟨rest', hrest, he⟩ := Option.bind_eq_some_iff.mp h
  cases he
  obtain ⟨u, hlen, rfl, hmore⟩ := skipBytes_local hrest
  refine ⟨u, rfl, fun more => ?_⟩
  dsimp only
  rw [hmore, Option.bind_eq_bind, Option.bind_some, List.take_left' hlen, List.take_left' hlen]
  rfl

theorem takePayload_local (w : WireType) : Local (takePayload w) := by
  cases w with
  | varint => exact takeVarint_local.map Payload.varint
  | delimited => exact takeBytes_local.map Payload.delimited

/-- What was taken is what is gone. -/
theorem takeUnknown_eq {s u rest : Bytes} (h : takeUnknown s = some (u, rest)) :
    u ≠ [] ∧ s = u ++ rest ∧ ∀ more, takeUnknown (u ++ more) = some (u, more) := by
  obtain ⟨r, hr, he⟩ := Option.map_eq_some_iff.mp h
  obtain ⟨rfl, rfl⟩ := Prod.mk.inj he
  obtain ⟨u, hu, rfl, hmore⟩ := skip_local hr
  have htaken : ∀ more, (u ++ more).take ((u ++ more).length - more.length) = u := fun more => by
    rw [List.length_append, Nat.add_sub_cancel, List.take_left]
  rw [htaken]
  refine ⟨hu, rfl, fun more => ?_⟩
  rw [takeUnknown, hmore more _ (by rw [List.length_append]; omega), Option.map_some, htaken]

/-- What was taken begins with the tag. -/
theorem takeUnknown_tag {s u rest t : Bytes} {wire : UInt64} (h : takeUnknown s = some (u, rest))
    (hwire : takeVarint s = some (wire, t)) (more : Bytes) : ∃ t', takeVarint (u ++ more) = some (wire, t') := by
  obtain ⟨hne, rfl, hmore⟩ := takeUnknown_eq h
  have halone := hmore []
  rw [List.append_nil] at halone
  obtain ⟨r, hr, -⟩ := Option.map_eq_some_iff.mp halone
  obtain ⟨n, hn⟩ : ∃ n, u.length = n + 1 := ⟨u.length - 1, by have := List.length_pos_iff.mpr hne; omega⟩
  rw [hn, skip] at hr
  obtain ⟨⟨x, t'⟩, hx, -⟩ := Option.bind_eq_some_iff.mp hr
  have htag : takeVarint u = some (UInt64.ofNat x, t') := by rw [takeVarint, hx]; rfl
  have heq := takeVarint_local.append htag rest
  rw [hwire] at heq
  cases heq
  exact ⟨_, takeVarint_local.append htag more⟩

namespace Schema

variable {S : Schema}

/-- **What one record does**: it sets a field, or it is kept. -/
theorem step_cases {m m' : S.Msg} {s rest : Bytes} (h : S.step m s = some (m', rest)) :
    ∃ wire t, takeVarint s = some (wire, t) ∧ ¬ (wire.toNat % 8 = 4 ∨ fieldNum wire ≤ 0) ∧
      ((∃ f p values, S.find (fieldNum wire) = some f ∧ wire.toNat % 8 = f.kind.wireType.code ∧
          takePayload f.kind.wireType t = some (p, rest) ∧
          Values.set S.fields m.values f.num p = .ok values ∧ m' = { m with values }) ∨
        ∃ u, S.find (fieldNum wire) = none ∧ takeUnknown s = some (u, rest) ∧
          m' = { m with unknownFields := m.unknownFields ++ u }) := by
  obtain ⟨⟨wire, t⟩, hwire, h⟩ := Option.bind_eq_some_iff.mp h
  refine ⟨wire, t, hwire, ?_⟩
  dsimp only at h
  split at h
  · cases h
  · next hlegal =>
      refine ⟨hlegal, ?_⟩
      cases hfind : S.find (fieldNum wire) with
      | some f =>
        simp only [hfind] at h
        split at h
        · cases h
        · next hw =>
            obtain ⟨⟨p, t'⟩, hp, h⟩ := Option.bind_eq_some_iff.mp h
            obtain ⟨values, hvalues, he⟩ := Option.bind_eq_some_iff.mp h
            cases he
            refine Or.inl ⟨f, p, values, rfl, not_not.mp hw, hp, ?_, rfl⟩
            cases hset : Values.set S.fields m.values f.num p with
            | ok values' =>
              rw [hset] at hvalues
              exact congrArg _ (Option.some.inj hvalues)
            | error e =>
              rw [hset] at hvalues
              cases hvalues
      | none =>
        simp only [hfind] at h
        obtain ⟨⟨u, t'⟩, hu, he⟩ := Option.bind_eq_some_iff.mp h
        cases he
        exact Or.inr ⟨u, rfl, hu, rfl⟩

theorem step_set {m : S.Msg} {s t rest : Bytes} {wire : UInt64} {f : Field} {p : Payload}
    {values : Values S.fields} (hwire : takeVarint s = some (wire, t))
    (hlegal : ¬ (wire.toNat % 8 = 4 ∨ fieldNum wire ≤ 0)) (hfind : S.find (fieldNum wire) = some f)
    (hw : wire.toNat % 8 = f.kind.wireType.code) (hp : takePayload f.kind.wireType t = some (p, rest))
    (hset : Values.set S.fields m.values f.num p = .ok values) :
    S.step m s = some ({ m with values }, rest) := by
  rw [step, hwire, Option.bind_eq_bind, Option.bind_some, if_neg hlegal, hfind]
  dsimp only
  rw [if_neg (not_not.mpr hw), hp, Option.bind_eq_bind, Option.bind_some, hset]
  rfl

theorem step_unknown {s t u rest : Bytes} {wire : UInt64} (hwire : takeVarint s = some (wire, t))
    (hlegal : ¬ (wire.toNat % 8 = 4 ∨ fieldNum wire ≤ 0)) (hfind : S.find (fieldNum wire) = none)
    (hu : takeUnknown s = some (u, rest)) (m : S.Msg) :
    S.step m s = some ({ m with unknownFields := m.unknownFields ++ u }, rest) := by
  rw [step, hwire, Option.bind_eq_bind, Option.bind_some, if_neg hlegal, hfind]
  dsimp only
  rw [hu]
  rfl

theorem step_local (m : S.Msg) : Local (S.step m) := by
  intro s m' rest h
  obtain ⟨wire, t, hwire, hlegal, ⟨f, p, values, hfind, hw, hp, hset, rfl⟩ | ⟨u, hfind, hu, rfl⟩⟩ := step_cases h
  · obtain ⟨v, hv, rfl, hmore⟩ := takeVarint_local s wire t hwire
    obtain ⟨v', -, rfl, hmore'⟩ := takePayload_local _ t p rest hp
    refine ⟨v ++ v', by simp [hv], (List.append_assoc _ _ _).symm, fun more => ?_⟩
    rw [List.append_assoc]
    exact step_set (hmore _) hlegal hfind hw (hmore' more) hset
  · obtain ⟨hne, rfl, hmore⟩ := takeUnknown_eq hu
    refine ⟨u, hne, rfl, fun more => ?_⟩
    obtain ⟨t', htag⟩ := takeUnknown_tag hu hwire more
    exact step_unknown htag hlegal hfind (hmore more) m

end Schema

end locality

/-! ### The loop of `UnmarshalVT` takes off the front -/

section agreement

theorem length_takeBytes {s b rest : Bytes} (h : takeBytes s = some (b, rest)) : b.length ≤ s.length := by
  obtain ⟨r, hr, h⟩ := Option.bind_eq_some_iff.mp h
  obtain ⟨rest', hrest, he⟩ := Option.bind_eq_some_iff.mp h
  cases he
  have hlt := takeVarint_local.length_lt hr
  have hle : (r.2.take r.1.toNat).length ≤ r.2.length := List.length_take_le' _ _
  omega

theorem readPayload_agrees {d : Bytes} {i : ℕ} (hd : d.length < 2 ^ 63) (hi : i ≤ d.length) (w : WireType) :
    Agrees .stuck d (readPayload d i w) (takePayload w (d.drop i)) := by
  cases w with
  | varint => exact (readVarint_agrees hi).map Payload.varint
  | delimited => exact (readBytes_agrees hd hi).map Payload.delimited

/-- A payload has the wire type that was asked for, and is no longer than the buffer. -/
theorem takePayload_wireType {w : WireType} {s rest : Bytes} {p : Payload} (h : takePayload w s = some (p, rest)) :
    p.wireType = w ∧ p.length ≤ s.length := by
  cases w with
  | varint =>
    obtain ⟨r, hr, he⟩ := Option.bind_eq_some_iff.mp h
    cases he
    exact ⟨rfl, Nat.zero_le _⟩
  | delimited =>
    obtain ⟨r, hr, he⟩ := Option.bind_eq_some_iff.mp h
    cases he
    exact ⟨rfl, length_takeBytes hr⟩

theorem Values.set_safe {fs : List Field} (vs : Values fs) {num : ℕ} {p : Payload} (hp : p.length < 2 ^ 63)
    (hw : ∀ f ∈ fs, f.num = num → p.wireType = f.kind.wireType) : set fs vs num p ≠ .error .stuck := by
  induction fs with
  | nil => simp [set]
  | cons f fs ih =>
    obtain ⟨v, vs⟩ := vs
    rw [set]
    by_cases hnum : f.num = num
    · rw [if_pos hnum]
      exact bind_ne_error (f.kind.set_safe v (hw f (by simp) hnum) hp) fun v => by simp [pure, Except.pure]
    · rw [if_neg hnum]
      exact bind_ne_error (ih vs fun g hg => hw g (by simp [hg])) fun vs => by simp [pure, Except.pure]

namespace Schema

variable {S : Schema}

theorem find_mem {num : Int32} {f : Field} (h : S.find num = some f) : f ∈ S.fields := List.mem_of_find?_eq_some h

theorem eq_of_num {f g : Field} (hf : f ∈ S.fields) (hg : g ∈ S.fields) (h : f.num = g.num) : f = g :=
  List.inj_on_of_nodup_map S.nodup hf hg h

/-- **One round of the loop reads one record off the front.** -/
theorem unmarshalRecord_agrees {d : Bytes} {i : ℕ} (hd : d.length < 2 ^ 63) (hi : i ≤ d.length) (m : S.Msg) :
    Agrees .stuck d (S.unmarshalRecord d i m) (S.step m (d.drop i)) := by
  refine (readVarint_agrees hi).bind fun wire rest _ hrest => ?_
  dsimp only
  have hle := hrest.length_le
  by_cases hgroup : wire.toNat % 8 = 4
  · rw [if_pos hgroup, if_pos (Or.inl hgroup)]
    exact .error (by simp)
  · by_cases hnum : fieldNum wire ≤ 0
    · rw [if_neg hgroup, if_pos hnum, if_pos (Or.inr hnum)]
      exact .error (by simp)
    · rw [if_neg hgroup, if_neg hnum, if_neg (by simp [hgroup, hnum])]
      cases hfind : S.find (fieldNum wire) with
      | none =>
        dsimp only
        exact (readUnknown_agrees hd hi).map fun u => { m with unknownFields := m.unknownFields ++ u }
      | some f =>
        dsimp only
        by_cases hw : wire.toNat % 8 ≠ f.kind.wireType.code
        · rw [if_pos hw, if_pos hw]
          exact .error (by simp)
        · rw [if_neg hw, if_neg hw]
          have hpayload := readPayload_agrees hd (i := d.length - rest.length) (by omega) f.kind.wireType
          rw [drop_of_suffix hrest] at hpayload
          refine hpayload.bind fun p rest' hp hrest' => ?_
          obtain ⟨hwire, hlen⟩ := takePayload_wireType hp
          have hsafe : Values.set S.fields m.values f.num p ≠ .error .stuck :=
            Values.set_safe m.values (by omega) fun g hg hnum => eq_of_num hg (find_mem hfind) hnum ▸ hwire
          dsimp only
          cases hset : Values.set S.fields m.values f.num p with
          | ok values => exact .ok _ hrest'
          | error e => exact .error fun he => hsafe (by rw [hset, he])

theorem unmarshalLoop_eq {d : Bytes} (hd : d.length < 2 ^ 63) {rounds i : ℕ} (hi : i ≤ d.length)
    (hrounds : d.length - i < rounds) (m : S.Msg) :
    (S.unmarshalLoop d rounds i m).toOption = run S.step (d.length - i) (d.drop i) m ∧
      S.unmarshalLoop d rounds i m ≠ .error .stuck := by
  induction rounds generalizing i m with
  | zero => omega
  | succ rounds ih =>
    rw [unmarshalLoop]
    by_cases hmore : i < d.length
    · have hbs : d.drop i ≠ [] := by simpa using hmore
      rw [if_pos hmore]
      obtain ⟨m', rest, hrest, hrec, hstep⟩ | ⟨e, he, hrec, hstep⟩ := (unmarshalRecord_agrees hd hi m).cases
      · rw [hrec, ok_bind]
        have hlt := (step_local m).length_lt hstep
        have hle := hrest.length_le
        rw [List.length_drop] at hlt
        obtain ⟨heq, hsafe⟩ := ih (i := d.length - rest.length) (by omega) (by omega) m'
        refine ⟨?_, hsafe⟩
        obtain ⟨k, hk⟩ : ∃ k, d.length - i = k + 1 := ⟨d.length - i - 1, by omega⟩
        rw [heq, hk, run_step hstep hbs, drop_of_suffix hrest]
        exact run_fuel step_local (by omega) (by omega) m'
      · rw [hrec, error_bind, run_none hstep hbs]
        exact ⟨rfl, by simpa using he⟩
    · obtain rfl : i = d.length := by omega
      rw [if_neg hmore, if_neg hmore, List.drop_length, run_nil]
      exact ⟨rfl, by simp⟩

/-- **`UnmarshalVT` accepts what parses, with the same message, and never leaves the buffer.** -/
theorem unmarshalVT_eq {d : Bytes} (hd : d.length < 2 ^ 63) (m : S.Msg) :
    (S.unmarshalVT d m).toOption = S.parse d m ∧ S.unmarshalVT d m ≠ .error .stuck := by
  have h := unmarshalLoop_eq hd (Nat.zero_le _) (by omega : d.length - 0 < d.length + 1) m
  rwa [Nat.sub_zero, List.drop_zero] at h

/-- **A message that is appended is merged.** -/
theorem parse_append {as bs : Bytes} {m m' : S.Msg} (h : S.parse as m = some m') :
    S.parse (as ++ bs) m = S.parse bs m' :=
  run_append step_local h (Nat.le_refl _)

end Schema

end agreement

/-! ### What is written -/

/-- The records of the fields, in their order. -/
def Values.records : (fs : List Field) → Values fs → List (Field × Payload)
  | [], _ => []
  | f :: fs, (v, vs) => (f.kind.emit v).map (fun c => (f, c.payload)) ++ records fs vs

/-- A record on the wire. -/
def recordBytes (r : Field × Payload) : Bytes := r.1.tag :: r.2.bytes

/-- A message on the wire. -/
def Schema.bytes (S : Schema) (m : S.Msg) : Bytes :=
  (Values.records S.fields m.values).flatMap recordBytes ++ m.unknownFields

section writing

theorem Field.writeChunks_writes (f : Field) (cs : List Chunk) :
    Writes (f.writeChunks cs) ((cs.map fun c => (f, c.payload)).flatMap recordBytes) := by
  induction cs with
  | nil => exact Writes.nil
  | cons c cs ih => exact ih.comp (c.writes.comp (putByte_writes f.tag))

theorem Values.write_writes {fs : List Field} (vs : Values fs) :
    Writes (write fs vs) ((records fs vs).flatMap recordBytes) := by
  induction fs with
  | nil => exact Writes.nil
  | cons f fs ih =>
    obtain ⟨v, vs⟩ := vs
    rw [records, List.flatMap_append]
    exact (ih vs).comp (f.writeChunks_writes (f.kind.emit v))

theorem chunksSize_eq (f : Field) (cs : List Chunk) :
    chunksSize cs = ((cs.map fun c => (f, c.payload)).flatMap recordBytes).length := by
  induction cs with
  | nil => rfl
  | cons c cs ih =>
    rw [List.map_cons, List.flatMap_cons, List.length_append, ← ih, recordBytes, List.length_cons, ← c.size_eq]
    simp only [chunksSize, List.map_cons, List.sum_cons]
    omega

theorem Values.size_eq {fs : List Field} (vs : Values fs) :
    size fs vs = ((records fs vs).flatMap recordBytes).length := by
  induction fs with
  | nil => rfl
  | cons f fs ih =>
    obtain ⟨v, vs⟩ := vs
    rw [size, records, List.flatMap_append, List.length_append, ← ih, ← chunksSize_eq f]

namespace Schema

variable {S : Schema} (m : S.Msg)

/-- **`SizeVT` is the length of what is written.** -/
theorem sizeVT_eq : S.sizeVT m = (S.bytes m).length := by
  rw [sizeVT, bytes, List.length_append, Values.size_eq]

theorem marshalToSizedBufferVT_writes : Writes (S.marshalToSizedBufferVT m) (S.bytes m) :=
  (copyBack_writes m.unknownFields).comp (Values.write_writes m.values)

theorem marshalToSizedBufferVT_eq {buf : Bytes} (hbuf : buf.length = (S.bytes m).length) :
    S.marshalToSizedBufferVT m buf buf.length = .ok (S.bytes m, 0) := by
  have h := marshalToSizedBufferVT_writes m [] buf [] hbuf
  simpa using h

/-- **`codec.Marshal` gives the message and nothing else, whatever the buffer held.** -/
theorem marshal_eq (dst : Bytes) : S.marshal dst m = .ok (S.bytes m) := by
  rw [marshal, sizeVT_eq]
  split
  · rw [marshalToSizedBufferVT_eq m (by simp)]
    rfl
  · rw [marshalToSizedBufferVT_eq m (by rw [List.length_take]; omega)]
    rfl

theorem marshalVT_eq : S.marshalVT m = .ok (S.bytes m) := by
  have h := marshalToSizedBufferVT_eq m (List.length_replicate (a := (0 : UInt8)))
  rw [List.length_replicate] at h
  rw [marshalVT, sizeVT_eq, h]
  exact congrArg Except.ok List.take_length

end Schema

end writing

end Proto

end Medusa
