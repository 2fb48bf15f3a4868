import Medusa.Lib.Cursor
import Medusa.Frame

/-! # The generated protobuf code

`protohelpers` and the functions `SizeVT`, `MarshalToSizedBufferVT` and `UnmarshalVT` that the generator
writes for every message of `genproto/medusa/v1`.  They differ from message to message only in the fields, so
each is one definition over a `Schema`.

The decoder works on a buffer and a position, as the source does, with every error it returns; an index
or slice expression out of range is `stuck`, and so is a loop without rounds left.  A Go slice is shorter
than `2 ^ 63` bytes, and a sum of two lengths is negative when it is not.

* `readVarint_agrees`, `readBytes_agrees`, `readUnknown_agrees`: what the decoder reads at a position is what is
  taken off the front of the rest of the buffer. -/

namespace Medusa

namespace Proto

open Transport Cursor

/-! ### Reading -/

/-- The errors of `UnmarshalVT` and `protohelpers.Skip`. -/
inductive ProtoError where
  | intOverflow
  | unexpectedEOF
  | invalidLength
  | unexpectedEndOfGroup
  | illegalWireType (wireType : ℕ)
  | endGroup (message : String)
  | illegalTag (message : String) (fieldNum : Int32) (wire : UInt64)
  | wrongWireType (wireType : ℕ) (field : String)
  | stuck
deriving DecidableEq, Repr

/-- The texts of the errors. -/
def ProtoError.text : ProtoError → String
  | intOverflow => "proto: integer overflow"
  | unexpectedEOF => "unexpected EOF"
  | invalidLength => "proto: negative length found during unmarshaling"
  | unexpectedEndOfGroup => "proto: unexpected end of group"
  | illegalWireType wireType => "proto: illegal wireType " ++ toString wireType
  | endGroup message => "proto: " ++ message ++ ": wiretype end group for non-group"
  | illegalTag message fieldNum wire =>
    "proto: " ++ message ++ ": illegal tag " ++ toString fieldNum ++ " (wire type " ++ toString wire ++ ")"
  | wrongWireType wireType field => "proto: wrong wireType = " ++ toString wireType ++ " for field " ++ field
  | stuck => ""

/-- `dAtA[i]`. -/
def index (dAtA : Bytes) (i : ℕ) : Except ProtoError UInt8 :=
  match dAtA[i]? with
  | some b => .ok b
  | none => .error .stuck

/-- `dAtA[i:j]`. -/
def slice (dAtA : Bytes) (i j : ℕ) : Except ProtoError Bytes :=
  if i ≤ j ∧ j ≤ dAtA.length then .ok ((dAtA.drop i).take (j - i)) else .error .stuck

/-- The loop that reads a varint.  After ten rounds the shift is past 63. -/
def varintLoop (dAtA : Bytes) : ℕ → ℕ → ℕ → UInt64 → Except ProtoError (UInt64 × ℕ)
  | 0, _, _, _ => .error .intOverflow
  | rounds + 1, shift, i, v =>
    if dAtA.length ≤ i then .error .unexpectedEOF
    else do
      let b ← index dAtA i
      let v := v ||| ((b &&& 0x7F).toUInt64 <<< UInt64.ofNat shift)
      if b < 0x80 then return (v, i + 1) else varintLoop dAtA rounds (shift + 7) (i + 1) v

/-- A varint at position `i`, and the position after it. -/
def readVarint (dAtA : Bytes) (i : ℕ) : Except ProtoError (UInt64 × ℕ) := varintLoop dAtA 10 0 i 0

/-- The bytes of a string, of bytes or of a message, behind their length. -/
def readBytes (dAtA : Bytes) (i : ℕ) : Except ProtoError (Bytes × ℕ) := do
  let (n, i) ← readVarint dAtA i
  if 2 ^ 63 ≤ n.toNat then .error .invalidLength
  else if 2 ^ 63 ≤ i + n.toNat then .error .invalidLength
  else if dAtA.length < i + n.toNat then .error .unexpectedEOF
  else do
    let b ← slice dAtA i (i + n.toNat)
    return (b, i + n.toNat)

/-- The loop of `Skip` over a varint. -/
def skipVarint (dAtA : Bytes) : ℕ → ℕ → Except ProtoError ℕ
  | 0, _ => .error .intOverflow
  | rounds + 1, i =>
    if dAtA.length ≤ i then .error .unexpectedEOF
    else do
      let b ← index dAtA i
      if b < 0x80 then return i + 1 else skipVarint dAtA rounds (i + 1)

/-- The switch of `Skip` over the wire type: the position after the record, and the depth of groups. -/
def skipOne (dAtA : Bytes) (wireType i depth : ℕ) : Except ProtoError (ℕ × ℕ) :=
  match wireType with
  | 0 => do
      let i ← skipVarint dAtA 10 i
      return (i, depth)
  | 1 => return (i + 8, depth)
  | 2 => do
      let (n, i) ← readVarint dAtA i
      if 2 ^ 63 ≤ n.toNat then .error .invalidLength else return (i + n.toNat, depth)
  | 3 => return (i, depth + 1)
  | 4 => if depth = 0 then .error .unexpectedEndOfGroup else return (i, depth - 1)
  | 5 => return (i + 4, depth)
  | _ => .error (.illegalWireType wireType)

/-- The loop of `Skip`. -/
def skipLoop (dAtA : Bytes) : ℕ → ℕ → ℕ → Except ProtoError ℕ
  | 0, _, _ => .error .stuck
  | rounds + 1, i, depth =>
    if dAtA.length ≤ i then .error .unexpectedEOF
    else do
      let (wire, i) ← readVarint dAtA i
      let (i, depth) ← skipOne dAtA (wire.toNat % 8) i depth
      if 2 ^ 63 ≤ i then .error .invalidLength
      else if depth = 0 then return i
      else skipLoop dAtA rounds i depth

/-- `protohelpers.Skip`: the offset of the next record, which may be behind the end. -/
def skipRecords (dAtA : Bytes) : Except ProtoError ℕ := skipLoop dAtA (dAtA.length + 1) 0 0

/-- A record that no field of the message takes: its bytes, and the position after it. -/
def readUnknown (dAtA : Bytes) (i : ℕ) : Except ProtoError (Bytes × ℕ) := do
  let rest ← slice dAtA i dAtA.length
  let skippy ← skipRecords rest
  if 2 ^ 63 ≤ i + skippy then .error .invalidLength
  else if dAtA.length < i + skippy then .error .unexpectedEOF
  else do
    let u ← slice dAtA i (i + skippy)
    return (u, i + skippy)

/-! ### Off the front -/

/-- A varint off the front. -/
def takeVarint (s : Bytes) : Option (UInt64 × Bytes) := (varint s).map fun r => (UInt64.ofNat r.1, r.2)

/-- A length and so many bytes off the front. -/
def takeBytes (s : Bytes) : Option (Bytes × Bytes) := do
  let r ← takeVarint s
  let rest ← skipBytes r.1.toNat r.2
  return (r.2.take r.1.toNat, rest)

/-- A record off the front. -/
def takeUnknown (s : Bytes) : Option (Bytes × Bytes) :=
  (skip s.length 0 s).map fun rest => (s.take (s.length - rest.length), rest)

theorem varint_local : Local varint := by
  intro s n rest h
  obtain ⟨r, hr, he⟩ := Option.map_eq_some_iff.mp h
  cases he
  obtain ⟨u, hu, hs, -, hmore⟩ := Varint.decode_local hr
  exact ⟨u, hu, hs, fun more => by rw [varint, hmore]; rfl⟩

theorem skipBytes_local {n : ℕ} {s rest : Bytes} (h : skipBytes n s = some rest) :
    ∃ u, u.length = n ∧ s = u ++ rest ∧ ∀ more, skipBytes n (u ++ more) = some more := by
  rw [skipBytes] at h
  split at h
  · cases h
  · next hlen =>
      cases h
      have htake : (s.take n).length = n := by rw [List.length_take]; omega
      refine ⟨s.take n, htake, (List.take_append_drop n s).symm, fun more => ?_⟩
      rw [skipBytes, if_neg (by rw [List.length_append]; omega), List.drop_left' htake]

theorem skipRecord_local {wireType depth depth' : ℕ} {s rest : Bytes}
    (h : skipRecord wireType depth s = some (rest, depth')) :
    ∃ u, s = u ++ rest ∧ ∀ more, skipRecord wireType depth (u ++ more) = some (more, depth') := by
  rcases wireType with _ | _ | _ | _ | _ | _ | wireType
  · obtain ⟨r, hr, he⟩ := Option.map_eq_some_iff.mp h
    cases he
    obtain ⟨u, -, hs, hmore⟩ := varint_local s r.1 r.2 hr
    exact ⟨u, hs, fun more => by change (varint _).map _ = _; rw [hmore]; rfl⟩
  · obtain ⟨r, hr, he⟩ := Option.map_eq_some_iff.mp h
    cases he
    obtain ⟨u, -, hs, hmore⟩ := skipBytes_local hr
    exact ⟨u, hs, fun more => by change (skipBytes 8 _).map _ = _; rw [hmore]; rfl⟩
  · obtain ⟨⟨n, t⟩, hr, h⟩ := Option.bind_eq_some_iff.mp h
    obtain ⟨rest', hrest, he⟩ := Option.bind_eq_some_iff.mp h
    cases he
    obtain ⟨u, -, rfl, hmore⟩ := varint_local s n t hr
    obtain ⟨u', -, rfl, hmore'⟩ := skipBytes_local hrest
    refine ⟨u ++ u', (List.append_assoc _ _ _).symm, fun more => ?_⟩
    change ((varint _).bind fun r => (skipBytes r.1 r.2).bind _) = _
    rw [List.append_assoc, hmore, Option.bind_some, hmore']
    rfl
  · cases h
    exact ⟨[], rfl, fun more => rfl⟩
  · change (if depth = 0 then none else some (s, depth - 1)) = _ at h
    split at h
    · cases h
    · next hdepth =>
        cases h
        refine ⟨[], rfl, fun more => ?_⟩
        change (if depth = 0 then none else some (_, depth - 1)) = _
        rw [if_neg hdepth, List.nil_append]
  · obtain ⟨r, hr, he⟩ := Option.map_eq_some_iff.mp h
    cases he
    obtain ⟨u, -, hs, hmore⟩ := skipBytes_local hr
    exact ⟨u, hs, fun more => by change (skipBytes 4 _).map _ = _; rw [hmore]; rfl⟩
  · cases h

/-- Skipping looks at no more than it skips; as many rounds as there are bytes to skip are enough. -/
theorem skip_local {fuel depth : ℕ} {s rest : Bytes} (h : skip fuel depth s = some rest) :
    ∃ u, u ≠ [] ∧ s = u ++ rest ∧
      ∀ more fuel', u.length ≤ fuel' → skip fuel' depth (u ++ more) = some more := by
  induction fuel generalizing depth s with
  | zero => cases h
  | succ fuel ih =>
    rw [skip] at h
    obtain ⟨⟨wire, t⟩, hwire, hskip⟩ := Option.bind_eq_some_iff.mp h
    obtain ⟨⟨t', depth'⟩, hr, hloop⟩ := Option.bind_eq_some_iff.mp hskip
    dsimp only at hloop
    obtain ⟨u, hu, rfl, hmore⟩ := varint_local s wire t hwire
    obtain ⟨u', rfl, hmore'⟩ := skipRecord_local hr
    have hpos := List.length_pos_iff.mpr hu
    -- one round on any buffer that begins so
    have hround : ∀ more fuel', skip (fuel' + 1) depth (u ++ (u' ++ more)) =
        if depth' = 0 then some more else skip fuel' depth' more := by
      intro more fuel'
      rw [skip, hmore, Option.bind_eq_bind, Option.bind_some, hmore', Option.bind_eq_bind, Option.bind_some]
      rfl
    by_cases hdepth : depth' = 0
    · rw [if_pos hdepth] at hloop
      cases hloop
      refine ⟨u ++ u', by simp [hu], by simp, fun more fuel' hfuel => ?_⟩
      rw [List.length_append] at hfuel
      obtain ⟨k, rfl⟩ : ∃ k, fuel' = k + 1 := ⟨fuel' - 1, by omega⟩
      rw [List.append_assoc, hround, if_pos hdepth]
    · rw [if_neg hdepth] at hloop
      obtain ⟨u'', -, rfl, hmore''⟩ := ih hloop
      refine ⟨u ++ (u' ++ u''), by simp [hu], by simp, fun more fuel' hfuel => ?_⟩
      rw [List.length_append, List.length_append] at hfuel
      obtain ⟨k, rfl⟩ : ∃ k, fuel' = k + 1 := ⟨fuel' - 1, by omega⟩
      rw [List.append_assoc, List.append_assoc, hround, if_neg hdepth]
      exact hmore'' more k (by omega)

/-! ### Varints -/

theorem index_of_lt {d : Bytes} {i : ℕ} (hi : i < d.length) : index d i = .ok d[i] := by
  rw [index, List.getElem?_eq_getElem hi]

/-- A position that a rest of the buffer begins at. -/
theorem position_drop {d : Bytes} {i : ℕ} (hi : i ≤ d.length) : d.length - (d.drop i).length = i := by
  rw [List.length_drop]
  omega

/-- The bits below `shift` and those from `shift` on. -/
theorem or_shiftLeft {v x : UInt64} {shift : ℕ} (hshift : shift < 64) (hv : v.toNat < 2 ^ shift) :
    v ||| (x <<< UInt64.ofNat shift) = UInt64.ofNat (v.toNat + 2 ^ shift * x.toNat) := by
  have hpow : 2 ^ 64 = 2 ^ shift * 2 ^ (64 - shift) := by rw [← pow_add]; congr 1; omega
  have hcut : 2 ^ shift * x.toNat % 2 ^ 64 = 2 ^ shift * (x.toNat % 2 ^ (64 - shift)) := by
    rw [hpow, Nat.mul_mod_mul_left]
  have hx : (x <<< UInt64.ofNat shift).toNat = 2 ^ shift * (x.toNat % 2 ^ (64 - shift)) := by
    rw [UInt64.toNat_shiftLeft, UInt64.toNat_ofNat', Nat.mod_eq_of_lt (a := shift) (by omega),
      Nat.mod_eq_of_lt hshift, Nat.shiftLeft_eq, Nat.mul_comm, hcut]
  have hlt : v.toNat + 2 ^ shift * (x.toNat % 2 ^ (64 - shift)) < 2 ^ 64 := by
    have hmod : x.toNat % 2 ^ (64 - shift) < 2 ^ (64 - shift) := Nat.mod_lt _ (Nat.two_pow_pos _)
    have hmul := Nat.mul_le_mul_left (2 ^ shift) hmod
    rw [Nat.mul_succ] at hmul
    omega
  apply UInt64.toNat_inj.mp
  rw [UInt64.toNat_or, hx, Nat.or_comm, ← Nat.two_pow_add_eq_or_of_lt hv, UInt64.toNat_ofNat',
    ← Nat.add_mod_mod, hcut, Nat.mod_eq_of_lt hlt, Nat.add_comm]

theorem toNat_and_0x7F (b : UInt8) : (b &&& 0x7F).toUInt64.toNat = b.toNat % 128 := by
  rw [UInt8.toNat_toUInt64, UInt8.toNat_and]
  exact Nat.and_two_pow_sub_one_eq_mod b.toNat 7

/-- One more group of seven bits. -/
theorem add_group_lt {v group shift : ℕ} (hv : v < 2 ^ shift) (hgroup : group < 128) :
    v + 2 ^ shift * group < 2 ^ (shift + 7) := by
  calc v + 2 ^ shift * group < 2 ^ shift + 2 ^ shift * group := Nat.add_lt_add_right hv _
    _ = 2 ^ shift * (group + 1) := by rw [Nat.mul_succ, Nat.add_comm]
    _ ≤ 2 ^ shift * 2 ^ 7 := Nat.mul_le_mul_left _ hgroup
    _ = 2 ^ (shift + 7) := (pow_add 2 shift 7).symm

/-- The loop has read the groups below `shift`, and reads the others. -/
theorem varintLoop_agrees {d : Bytes} {rounds shift i : ℕ} {v : UInt64} (hrounds : shift + 7 * rounds = 70)
    (hi : i ≤ d.length) (hv : rounds ≠ 0 → v.toNat < 2 ^ shift) :
    Agrees .stuck d (varintLoop d rounds shift i v) ((Varint.decode rounds (d.drop i)).map fun r =>
      (UInt64.ofNat (v.toNat + 2 ^ shift * r.1), r.2)) := by
  induction rounds generalizing shift i v with
  | zero => exact .error (by simp)
  | succ rounds ih =>
    rw [varintLoop]
    by_cases hend : d.length ≤ i
    · rw [if_pos hend, List.drop_eq_nil_of_le hend]
      exact .error (by simp)
    · have hlt : i < d.length := by omega
      have hv' := or_shiftLeft (x := (d[i] &&& 0x7F).toUInt64) (by omega) (hv (by omega))
      rw [toNat_and_0x7F] at hv'
      rw [if_neg hend, index_of_lt hlt, List.drop_eq_getElem_cons hlt, Varint.decode]
      simp only [ok_bind, hv', UInt8.lt_iff_toNat_lt, UInt8.reduceToNat]
      by_cases hlast : d[i].toNat < 128
      · rw [if_pos hlast, if_pos hlast, Nat.mod_eq_of_lt hlast]
        have h : Agrees ProtoError.stuck d _ _ :=
          .ok (UInt64.ofNat (v.toNat + 2 ^ shift * d[i].toNat)) (List.drop_suffix (i + 1) d)
        rwa [position_drop (by omega)] at h
      · rw [if_neg hlast, if_neg hlast]
        have hgroup : d[i].toNat - 128 = d[i].toNat % 128 := by have := d[i].toNat_lt; omega
        -- the accumulator has room for one more group, if there is a round for it
        have hacc : rounds ≠ 0 → v.toNat + 2 ^ shift * (d[i].toNat % 128) < 2 ^ (shift + 7) ∧
            (UInt64.ofNat (v.toNat + 2 ^ shift * (d[i].toNat % 128))).toNat =
              v.toNat + 2 ^ shift * (d[i].toNat % 128) := by
          intro hne
          have hlt := add_group_lt (hv (by omega)) (Nat.mod_lt d[i].toNat (by decide : 0 < 128))
          have hpow : 2 ^ (shift + 7) ≤ 2 ^ 63 := Nat.pow_le_pow_right (by decide) (by omega)
          rw [UInt64.toNat_ofNat', Nat.mod_eq_of_lt (lt_of_lt_of_le hlt (hpow.trans (by decide)))]
          exact ⟨hlt, rfl⟩
        have h := @ih (shift + 7) (i + 1) (UInt64.ofNat (v.toNat + 2 ^ shift * (d[i].toNat % 128)))
          (by omega) (by omega) (fun hne => (hacc hne).2 ▸ (hacc hne).1)
        cases rounds with
        | zero => exact h
        | succ rounds =>
          rw [(hacc (by omega)).2] at h
          have hsum : ∀ n, v.toNat + 2 ^ shift * (d[i].toNat % 128 + 128 * n) =
              v.toNat + 2 ^ shift * (d[i].toNat % 128) + 2 ^ (shift + 7) * n := by
            intro n
            rw [pow_add]
            ring
          rw [Option.map_map, hgroup]
          simp only [Function.comp_def, hsum]
          exact h

theorem readVarint_agrees {d : Bytes} {i : ℕ} (hi : i ≤ d.length) :
    Agrees .stuck d (readVarint d i) (takeVarint (d.drop i)) := by
  have h := @varintLoop_agrees d 10 0 i 0 (by decide) hi (by decide)
  have hcut : ∀ n, UInt64.ofNat (n % 2 ^ 64) = UInt64.ofNat n := fun n => by
    apply UInt64.toNat_inj.mp
    rw [UInt64.toNat_ofNat', UInt64.toNat_ofNat', Nat.mod_mod]
  simp only [UInt64.toNat_zero, pow_zero, Nat.zero_add, Nat.one_mul] at h
  rw [takeVarint, varint, Option.map_map]
  simp only [Function.comp_def, hcut]
  exact h

theorem skipVarint_eq {d : Bytes} {rounds : ℕ} (shift i : ℕ) (v : UInt64) :
    skipVarint d rounds i = (varintLoop d rounds shift i v).map Prod.snd := by
  induction rounds generalizing shift i v with
  | zero => rfl
  | succ rounds ih =>
    rw [skipVarint, varintLoop]
    by_cases hend : d.length ≤ i
    · rw [if_pos hend, if_pos hend]
      rfl
    · rw [if_neg hend, if_neg hend, index_of_lt (by omega), ok_bind, ok_bind]
      by_cases hlast : d[i] < 0x80
      · rw [if_pos hlast, if_pos hlast]
        rfl
      · rw [if_neg hlast, if_neg hlast]
        exact ih _ _ _

/-! ### Bytes behind their length -/

/-- A slice at the position of a rest. -/
theorem slice_of_suffix {d rest : Bytes} (h : rest <:+ d) {n : ℕ} (hn : n ≤ rest.length) :
    slice d (d.length - rest.length) (d.length - rest.length + n) = .ok (rest.take n) := by
  have hlen := length_of_suffix h
  rw [slice, if_pos ⟨by omega, by omega⟩, drop_of_suffix h, Nat.add_sub_cancel_left]

/-- The position after the first `n` bytes of a rest. -/
theorem position_add {d rest : Bytes} (h : rest <:+ d) {n : ℕ} (hn : n ≤ rest.length) :
    d.length - rest.length + n = d.length - (rest.drop n).length := by
  have hlen := length_of_suffix h
  rw [List.length_drop]
  omega

theorem readBytes_agrees {d : Bytes} {i : ℕ} (hd : d.length < 2 ^ 63) (hi : i ≤ d.length) :
    Agrees .stuck d (readBytes d i) (takeBytes (d.drop i)) := by
  refine (readVarint_agrees hi).bind fun n rest _ hrest => ?_
  have hlen := length_of_suffix hrest
  dsimp only
  rw [skipBytes]
  by_cases hshort : rest.length < n.toNat
  · -- too short a buffer is refused by one of the three checks
    rw [if_pos hshort, if_pos (c := d.length < _) (by omega)]
    split
    · exact .error (by simp)
    · split
      · exact .error (by simp)
      · exact .error (by simp)
  · have hn : n.toNat ≤ rest.length := by omega
    rw [if_neg hshort, if_neg (by omega), if_neg (by omega), if_neg (by omega), slice_of_suffix hrest hn,
      position_add hrest hn]
    exact .ok _ ((List.drop_suffix _ _).trans hrest)

/-! ### Records -/

/-- The outcome of skipping in the buffer `d`, against what is left of it.  A record that is longer than
the buffer may end behind it. -/
inductive Lands (d : Bytes) : Except ProtoError (ℕ × ℕ) → Option (Bytes × ℕ) → Prop
  | at {rest : Bytes} (depth : ℕ) (h : rest <:+ d) :
      Lands d (.ok (d.length - rest.length, depth)) (some (rest, depth))
  | behind {i : ℕ} (depth : ℕ) (h : d.length < i) : Lands d (.ok (i, depth)) none
  | error {e : ProtoError} (h : e ≠ .stuck) : Lands d (.error e) none

/-- Skipping a fixed number of bytes. -/
theorem lands_add {d rest : Bytes} (h : rest <:+ d) (n depth : ℕ) :
    Lands d (.ok (d.length - rest.length + n, depth)) ((skipBytes n rest).map fun r => (r, depth)) := by
  have hlen := length_of_suffix h
  rw [skipBytes]
  by_cases hshort : rest.length < n
  · rw [if_pos hshort]
    exact .behind depth (by omega)
  · rw [if_neg hshort, position_add h (by omega)]
    exact .at depth ((List.drop_suffix _ _).trans h)

theorem varint_eq (s : Bytes) : varint s = (takeVarint s).map fun r => (r.1.toNat, r.2) := by
  have hcut : ∀ n, (UInt64.ofNat (n % 2 ^ 64)).toNat = n % 2 ^ 64 := fun n => by
    rw [UInt64.toNat_ofNat', Nat.mod_mod]
  rw [takeVarint, Option.map_map, varint, Option.map_map]
  simp only [Function.comp_def, hcut]

/-- A varint at the position of a rest. -/
theorem readVarint_cases {d rest : Bytes} (h : rest <:+ d) :
    (∃ n rest', rest' <:+ d ∧ readVarint d (d.length - rest.length) = .ok (n, d.length - rest'.length) ∧
        varint rest = some (n.toNat, rest')) ∨
      ∃ e, e ≠ .stuck ∧ readVarint d (d.length - rest.length) = .error e ∧ varint rest = none := by
  have hvarint := readVarint_agrees (Nat.sub_le d.length rest.length)
  rw [drop_of_suffix h] at hvarint
  rw [varint_eq]
  rcases hvarint.cases with ⟨n, rest', hrest, hread, htake⟩ | ⟨e, he, hread, htake⟩
  · exact Or.inl ⟨n, rest', hrest, hread, by rw [htake]; rfl⟩
  · exact Or.inr ⟨e, he, hread, by rw [htake]; rfl⟩

theorem skipOne_lands {d rest : Bytes} (hd : d.length < 2 ^ 63) (h : rest <:+ d) (wireType depth : ℕ) :
    Lands d (skipOne d wireType (d.length - rest.length) depth) (skipRecord wireType depth rest) := by
  rcases wireType with _ | _ | _ | _ | _ | _ | wireType
  · -- a varint
    change Lands d (skipVarint d 10 _ >>= _) ((varint rest).map _)
    rw [skipVarint_eq 0 _ 0]
    change Lands d ((readVarint d _).map Prod.snd >>= _) _
    rcases readVarint_cases h with ⟨n, rest', hrest, hread, htake⟩ | ⟨e, he, hread, htake⟩
    · rw [hread, htake]
      exact .at depth hrest
    · rw [hread, htake]
      exact .error he
  · exact lands_add h 8 depth
  · -- a length and so many bytes
    change Lands d (readVarint d _ >>= _) (varint rest >>= _)
    rcases readVarint_cases h with ⟨n, rest', hrest, hread, htake⟩ | ⟨e, he, hread, htake⟩
    · rw [hread, htake]
      have hle := hrest.length_le
      change Lands d (if 2 ^ 63 ≤ n.toNat then _ else _) (skipBytes n.toNat rest' >>= _)
      by_cases hlong : 2 ^ 63 ≤ n.toNat
      · rw [if_pos hlong, skipBytes, if_pos (by omega)]
        exact .error (by simp)
      · rw [if_neg hlong]
        have hland := lands_add hrest n.toNat depth
        rwa [Option.map_eq_bind] at hland
    · rw [hread, htake]
      exact .error he
  · exact .at _ h
  · change Lands d (if depth = 0 then _ else _) (if depth = 0 then _ else _)
    by_cases hdepth : depth = 0
    · rw [if_pos hdepth, if_pos hdepth]
      exact .error (by simp)
    · rw [if_neg hdepth, if_neg hdepth]
      exact .at _ h
  · exact lands_add h 4 depth
  · exact .error (by simp)

/-- **Skipping a record.**  It ends where the rest begins, or behind the buffer when there is none. -/
theorem skipLoop_lands {d rest : Bytes} (hd : d.length < 2 ^ 63) (h : rest <:+ d) {fuel : ℕ}
    (hfuel : rest.length ≤ fuel) (depth : ℕ) :
    Lands d ((skipLoop d (fuel + 1) (d.length - rest.length) depth).map fun i => (i, 0))
      ((skip fuel depth rest).map fun r => (r, 0)) := by
  induction fuel generalizing rest depth with
  | zero =>
    obtain rfl := List.eq_nil_of_length_eq_zero (Nat.le_zero.mp hfuel)
    rw [skipLoop, if_pos (by simp)]
    exact .error (by simp)
  | succ fuel ih =>
    have hlen := length_of_suffix h
    rw [skipLoop, skip]
    by_cases hend : d.length ≤ d.length - rest.length
    · obtain rfl : rest = [] := List.eq_nil_of_length_eq_zero (by omega)
      rw [if_pos hend]
      exact .error (by simp)
    · rw [if_neg hend]
      rcases readVarint_cases h with ⟨n, rest', hrest, hread, htake⟩ | ⟨e, he, hread, htake⟩
      · rw [hread, htake]
        have hland := skipOne_lands hd hrest (n.toNat % 8) depth
        have hshorter : ∀ r, skipRecord (n.toNat % 8) depth rest' = some r → r.1.length ≤ fuel := by
          intro r hr
          obtain ⟨u, hu, -⟩ := skipRecord_local hr
          have hlt := varint_local.length_lt htake
          rw [hu, List.length_append] at hlt
          omega
        change Lands d (Except.map _ (skipOne d (n.toNat % 8) _ depth >>= _))
          (Option.map _ (skipRecord (n.toNat % 8) depth rest' >>= _))
        generalize skipOne d (n.toNat % 8) _ depth = out at hland ⊢
        generalize skipRecord (n.toNat % 8) depth rest' = spec at hland hshorter ⊢
        cases hland with
        | error he => exact .error he
        | @behind i depth' hi =>
          change Lands d (Except.map _ (if 2 ^ 63 ≤ i then _ else if depth' = 0 then _ else _)) none
          by_cases hlong : 2 ^ 63 ≤ i
          · rw [if_pos hlong]
            exact .error (by simp)
          · rw [if_neg hlong]
            by_cases hdepth : depth' = 0
            · rw [if_pos hdepth]
              exact .behind 0 hi
            · rw [if_neg hdepth, skipLoop, if_pos (by omega)]
              exact .error (by simp)
        | @«at» rest'' depth' hrest' =>
          change Lands d (Except.map _ (if 2 ^ 63 ≤ d.length - rest''.length then _
            else if depth' = 0 then _ else _)) (Option.map _ (if depth' = 0 then _ else _))
          rw [if_neg (by omega)]
          by_cases hdepth : depth' = 0
          · rw [if_pos hdepth, if_pos hdepth]
            exact .at 0 hrest'
          · rw [if_neg hdepth, if_neg hdepth]
            exact ih hrest' (hshorter _ rfl) depth'
      · rw [hread, htake]
        exact .error he

theorem readUnknown_agrees {d : Bytes} {i : ℕ} (hd : d.length < 2 ^ 63) (hi : i ≤ d.length) :
    Agrees .stuck d (readUnknown d i) (takeUnknown (d.drop i)) := by
  have hslice : slice d i d.length = .ok (d.drop i) := by
    rw [slice, if_pos ⟨hi, Nat.le_refl _⟩, List.take_of_length_le (by rw [List.length_drop])]
  have hlen : (d.drop i).length = d.length - i := List.length_drop
  have hland := skipLoop_lands (d := d.drop i) (by omega) List.suffix_rfl (Nat.le_refl _) 0
  rw [Nat.sub_self] at hland
  rw [readUnknown, hslice, ok_bind, takeUnknown, skipRecords]
  generalize skipLoop (d.drop i) _ 0 0 = out at hland ⊢
  generalize skip (d.drop i).length 0 (d.drop i) = spec at hland ⊢
  cases out with
  | error e =>
    cases spec with
    | none =>
      cases hland with
      | error he => exact .error he
    | some rest => cases hland
  | ok skippy =>
    rw [ok_bind]
    cases spec with
    | none =>
      cases hland with
      | behind _ hbehind =>
        rw [if_pos (c := d.length < _) (by omega)]
        split
        · exact .error (by simp)
        · exact .error (by simp)
    | some rest =>
      cases hland with
      | «at» _ hrest =>
        have hle := hrest.length_le
        have hrest' := hrest.trans (List.drop_suffix i d)
        have hend : i + ((d.drop i).length - rest.length) = d.length - rest.length := by omega
        rw [if_neg (by omega), if_neg (by omega)]
        have hu := slice_of_suffix (List.drop_suffix i d) (n := (d.drop i).length - rest.length) (by omega)
        rw [position_drop hi] at hu
        rw [hu, ok_bind, hend]
        exact .ok _ hrest'

end Proto

end Medusa
