import Medusa.Messages
import Medusa.Wal

/-! # Entries in the log

A record of the log carries a `SnapshotEntry` as the generated code marshals it.

* `entryCodec`: the generated code as a `Codec` of the log.
* `length_marshalEntry_le`, `not_underCap_of_value`: a marshalled entry takes more room than its value, and
  little more than its fields. -/

namespace Medusa

open Proto

/-- The message of an entry. -/
def entryMsg (e : Entry) : snapshotEntry.Msg := ⟨(e.mapName, e.key, e.value, e.expireAt, ()), []⟩

/-- The entry of a message. -/
def entryOfMsg (m : snapshotEntry.Msg) : Entry :=
  ⟨m.values.1, m.values.2.1, m.values.2.2.1, m.values.2.2.2.1⟩

theorem entryMsg_valid (e : Entry) : snapshotEntry.Valid (entryMsg e) :=
  ⟨⟨trivial, trivial, trivial, trivial, trivial⟩, Schema.Foreign.nil⟩

/-- `MarshalVT` of an entry. -/
def marshalEntry (e : Entry) : Bytes := (snapshotEntry.marshalVT (entryMsg e)).toOption.getD []

theorem marshalEntry_eq (e : Entry) : marshalEntry e = snapshotEntry.bytes (entryMsg e) := by
  rw [marshalEntry, Schema.marshalVT_eq]
  rfl

/-- The generated code for the records of the log. -/
def entryCodec : Codec where
  marshal := marshalEntry
  unmarshal b := (snapshotEntry.unmarshalVT b snapshotEntry.empty).toOption.map entryOfMsg
  unmarshal_marshal e hlen := by
    rw [marshalEntry_eq] at hlen ⊢
    rw [Schema.unmarshalVT_bytes (entryMsg_valid e) hlen]
    rfl

/-! ### Lengths -/

theorem sizeOfVarint_le (x : UInt64) : sizeOfVarint x ≤ 10 := by
  have hsize : Nat.size (x ||| 1).toNat ≤ 64 := Nat.size_le.mpr (UInt64.toNat_lt _)
  unfold sizeOfVarint
  omega

/-- A field of bytes has a tag and a length in front, or is left out. -/
theorem chunksSize_bytes (b : Bytes) :
    (b ≠ [] → b.length < chunksSize (Kind.bytes.emit b)) ∧ chunksSize (Kind.bytes.emit b) ≤ b.length + 11 := by
  have hvarint := sizeOfVarint_le (UInt64.ofNat b.length)
  change (b ≠ [] → b.length < chunksSize (if b.length > 0 then [Chunk.ofBytes b] else [])) ∧
    chunksSize (if b.length > 0 then [Chunk.ofBytes b] else []) ≤ b.length + 11
  split
  · have hsize : chunksSize [Chunk.ofBytes b] = 1 + (b.length + sizeOfVarint (UInt64.ofNat b.length)) := rfl
    rw [hsize]
    omega
  · next hb => exact ⟨fun hne => absurd (List.length_pos_iff.mpr hne) hb, Nat.zero_le _⟩

theorem chunksSize_int64 (x : Int64) : chunksSize (Kind.int64.emit x) ≤ 11 := by
  have hvarint := sizeOfVarint_le x.toUInt64
  change chunksSize (if x = 0 then [] else [Chunk.varint x.toUInt64]) ≤ 11
  split
  · exact Nat.zero_le _
  · have hsize : chunksSize [Chunk.varint x.toUInt64] = 1 + sizeOfVarint x.toUInt64 := rfl
    omega

/-- The length is the sum over the fields. -/
theorem length_marshalEntry (e : Entry) : (marshalEntry e).length =
    chunksSize (Kind.bytes.emit e.mapName) + (chunksSize (Kind.bytes.emit e.key) +
      (chunksSize (Kind.bytes.emit e.value) + (chunksSize (Kind.int64.emit e.expireAt) + 0))) + 0 := by
  rw [marshalEntry_eq, ← Schema.sizeVT_eq]
  rfl

/-- A value of the size of the cap takes its record over it. -/
theorem not_underCap_of_value {r : WalRecord} (hvalue : maxWALRecord ≤ r.entry.value.length) :
    ¬ UnderCap entryCodec r := by
  have hne : r.entry.value ≠ [] := by
    intro hnil
    rw [hnil] at hvalue
    exact absurd hvalue (by decide)
  have hlt : r.entry.value.length < (marshalEntry r.entry).length := by
    have h := (chunksSize_bytes r.entry.value).1 hne
    rw [length_marshalEntry]
    omega
  exact not_le.mpr (hvalue.trans_lt hlt)

theorem length_marshalEntry_le (e : Entry) :
    (marshalEntry e).length ≤ e.mapName.length + e.key.length + e.value.length + 44 := by
  have hname := (chunksSize_bytes e.mapName).2
  have hkey := (chunksSize_bytes e.key).2
  have hvalue := (chunksSize_bytes e.value).2
  have hexpire := chunksSize_int64 e.expireAt
  rw [length_marshalEntry]
  omega

end Medusa
