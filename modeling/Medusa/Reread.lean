import Medusa.Schema

/-! # What was written is read again

* `Schema.parse_bytes`: **a message that was written is read again**, with the records that it carries for
  others.
* `Schema.parse_valid`, `Schema.parse_size`: what is read is valid, and **takes no more room than what it was
  read from**. -/

namespace Medusa

namespace Proto

open Transport Cursor

section roundTrip

theorem takeVarint_putVarint (x : UInt64) (rest : Bytes) : takeVarint (putVarint x.toNat ++ rest) = some (x, rest) := by
  rw [takeVarint, varint_putVarint x.toNat_lt, Option.map_some, UInt64.ofNat_toNat]

theorem takeBytes_putVarint {b : Bytes} (hb : b.length < 2 ^ 63) (rest : Bytes) :
    takeBytes (putVarint (UInt64.ofNat b.length).toNat ++ (b ++ rest)) = some (b, rest) := by
  have hlen : (UInt64.ofNat b.length).toNat = b.length :=
    UInt64.toNat_ofNat_of_lt' (lt_of_lt_of_le hb (by norm_num [UInt64.size]))
  have hskip : skipBytes b.length (b ++ rest) = some rest := by
    rw [skipBytes, if_neg (by rw [List.length_append]; omega), List.drop_left]
  rw [takeBytes, takeVarint_putVarint, Option.bind_eq_bind, Option.bind_some]
  dsimp only
  rw [hlen, hskip, Option.bind_eq_bind, Option.bind_some, List.take_left]
  rfl

theorem takePayload_bytes {p : Payload} (hp : p.length < 2 ^ 63) (rest : Bytes) :
    takePayload p.wireType (p.bytes ++ rest) = some (p, rest) := by
  cases p with
  | varint x =>
    change (takeVarint (putVarint x.toNat ++ rest) >>= _) = _
    rw [takeVarint_putVarint]
    rfl
  | delimited b =>
    change (takeBytes (putVarint (UInt64.ofNat b.length).toNat ++ b ++ rest) >>= _) = _
    rw [List.append_assoc, takeBytes_putVarint hp]
    rfl

theorem fieldNum_tag {num : ℕ} (hnum : num < 16) (w : WireType) :
    fieldNum (UInt64.ofNat (8 * num + w.code)) = Int32.ofNat num ∧
      (UInt64.ofNat (8 * num + w.code)).toNat % 8 = w.code := by
  cases w with
  | varint =>
    revert num
    decide
  | delimited =>
    revert num
    decide

theorem int32_small {n : ℕ} (hn : n < 16) (hpos : 0 < n) : ¬ Int32.ofNat n ≤ 0 := by
  revert n
  decide

theorem int32_inj {a b : ℕ} (ha : a < 16) (hb : b < 16) (h : Int32.ofNat a = Int32.ofNat b) : a = b := by
  revert b
  revert a
  decide

namespace Field

variable (f : Field)

theorem pos : 0 < f.num := by
  have h := f.legal
  simp only [Bool.and_eq_true, decide_eq_true_eq] at h
  exact h.1

theorem small : f.num < 16 := by
  have h := f.legal
  simp only [Bool.and_eq_true, decide_eq_true_eq] at h
  exact h.2

/-- The tag as a number. -/
def wire : UInt64 := UInt64.ofNat (8 * f.num + f.kind.wireType.code)

theorem takeVarint_tag (rest : Bytes) : takeVarint (f.tag :: rest) = some (f.wire, rest) := by
  have hcode : f.kind.wireType.code ≤ 2 := by cases f.kind.wireType <;> decide
  have hsmall := f.small
  have hk : (8 * f.num + f.kind.wireType.code) < 128 := by omega
  have hwire : f.wire.toNat = 8 * f.num + f.kind.wireType.code :=
    UInt64.toNat_ofNat_of_lt' (lt_of_lt_of_le hk (by decide))
  have htag : putVarint f.wire.toNat = [f.tag] := by
    rw [hwire, putVarint, Varint.encode, if_pos hk]
    rfl
  have h := takeVarint_putVarint f.wire rest
  rwa [htag] at h

theorem wire_legal : ¬ (f.wire.toNat % 8 = 4 ∨ fieldNum f.wire ≤ 0) := by
  obtain ⟨hnum, hcode⟩ := fieldNum_tag f.small f.kind.wireType
  have hpos := int32_small f.small f.pos
  rw [wire, hnum, hcode]
  cases f.kind.wireType <;> simpa [WireType.code] using hpos

end Field

namespace Schema

variable {S : Schema}

theorem find_wire {f : Field} (hf : f ∈ S.fields) : S.find (fieldNum f.wire) = some f := by
  rw [Field.wire, (fieldNum_tag f.small f.kind.wireType).1]
  cases h : S.find (Int32.ofNat f.num) with
  | none =>
    have hnone := List.find?_eq_none.mp h f hf
    simp at hnone
  | some g =>
    have hg : Int32.ofNat g.num = Int32.ofNat f.num := by simpa using List.find?_some h
    rw [eq_of_num (find_mem h) hf (int32_inj g.small f.small hg)]

/-- A record of a field sets the field. -/
theorem parse_record {f : Field} (hf : f ∈ S.fields) {p : Payload} (hw : p.wireType = f.kind.wireType)
    (hp : p.length < 2 ^ 63) {m : S.Msg} {values : Values S.fields}
    (hset : Values.set S.fields m.values f.num p = .ok values) :
    S.parse (recordBytes (f, p)) m = some { m with values } := by
  have hpayload : takePayload f.kind.wireType p.bytes = some (p, []) := by
    have h := takePayload_bytes hp []
    rwa [List.append_nil, hw] at h
  have hstep := step_set (m := m) (f.takeVarint_tag p.bytes) f.wire_legal (find_wire hf)
    (fieldNum_tag f.small f.kind.wireType).2 hpayload hset
  rw [parse, recordBytes, List.length_cons, run_step hstep (by simp), run_nil]

theorem parse_records {rs : List (Field × Payload)}
    (hrs : ∀ r ∈ rs, r.1 ∈ S.fields ∧ r.2.wireType = r.1.kind.wireType ∧ r.2.length < 2 ^ 63) {m : S.Msg}
    {values : Values S.fields}
    (h : rs.foldlM (fun vs r => Values.set S.fields vs r.1.num r.2) m.values = .ok values) :
    S.parse (rs.flatMap recordBytes) m = some { m with values } := by
  induction rs generalizing m with
  | nil =>
    cases h
    exact run_nil _ _
  | cons r rs ih =>
    obtain ⟨hf, hw, hp⟩ := hrs r (by simp)
    rw [List.foldlM_cons] at h
    cases hset : Values.set S.fields m.values r.1.num r.2 with
    | error e =>
      rw [hset] at h
      cases h
    | ok vs =>
      rw [hset, ok_bind] at h
      rw [List.flatMap_cons, parse_append (parse_record hf hw hp hset)]
      exact ih (fun r' hr' => hrs r' (by simp [hr'])) (m := { m with values := vs }) h

end Schema

namespace Values

variable {f : Field} {fs : List Field}

/-- What the fields emit is theirs. -/
theorem mem_records {vs : Values fs} {r : Field × Payload} (hr : r ∈ records fs vs) :
    r.1 ∈ fs ∧ r.2.wireType = r.1.kind.wireType := by
  induction fs with
  | nil => cases hr
  | cons f fs ih =>
    obtain ⟨v, vs⟩ := vs
    rw [records, List.mem_append, List.mem_map] at hr
    obtain ⟨c, hc, rfl⟩ | hr := hr
    · exact ⟨by simp, f.kind.emit_wireType v c hc⟩
    · obtain ⟨hmem, hw⟩ := ih hr
      exact ⟨by simp [hmem], hw⟩

theorem foldlM_head (cs : List Chunk) (v : f.kind.Value) (vs : Values fs) :
    (cs.map fun c => (f, c.payload)).foldlM (fun vs r => set (f :: fs) vs r.1.num r.2) (v, vs) =
      cs.foldlM (fun v c => f.kind.set v c.payload) v >>= fun v => .ok (v, vs) := by
  induction cs generalizing v with
  | nil => rfl
  | cons c cs ih =>
    rw [List.map_cons, List.foldlM_cons, List.foldlM_cons, set, if_pos rfl]
    cases f.kind.set v c.payload with
    | error e => rfl
    | ok v => exact ih v

theorem foldlM_tail {rs : List (Field × Payload)} (hrs : ∀ r ∈ rs, f.num ≠ r.1.num) (v : f.kind.Value)
    (vs : Values fs) :
    rs.foldlM (fun vs r => set (f :: fs) vs r.1.num r.2) (v, vs) =
      rs.foldlM (fun vs r => set fs vs r.1.num r.2) vs >>= fun vs => .ok (v, vs) := by
  induction rs generalizing vs with
  | nil => rfl
  | cons r rs ih =>
    rw [List.foldlM_cons, List.foldlM_cons, set, if_neg (hrs r (by simp))]
    cases set fs vs r.1.num r.2 with
    | error e => rfl
    | ok vs => exact ih (fun r' hr' => hrs r' (by simp [hr'])) vs

/-- **The records restore the values, field by field.** -/
theorem restores (hfs : (fs.map Field.num).Nodup) {vs : Values fs} (hvs : Valid fs vs)
    (hlen : ∀ r ∈ records fs vs, r.2.length < 2 ^ 63) :
    (records fs vs).foldlM (fun vs r => set fs vs r.1.num r.2) (zero fs) = .ok vs := by
  induction fs with
  | nil => rfl
  | cons f fs ih =>
    obtain ⟨v, vs⟩ := vs
    obtain ⟨hv, hvs⟩ := hvs
    rw [List.map_cons, List.nodup_cons] at hfs
    have hfirst : (f.kind.emit v).foldlM (fun v c => f.kind.set v c.payload) f.kind.zero = .ok v :=
      f.kind.restores hv fun c hc => hlen (f, c.payload) (by
        rw [records, List.mem_append, List.mem_map]
        exact Or.inl ⟨c, hc, rfl⟩)
    have hother : ∀ r ∈ records fs vs, f.num ≠ r.1.num := fun r hr he =>
      hfs.1 (he ▸ List.mem_map_of_mem (mem_records hr).1)
    rw [records, List.foldlM_append, zero, foldlM_head, hfirst, ok_bind, ok_bind, foldlM_tail hother,
      ih hfs.2 hvs fun r hr => hlen r (by rw [records, List.mem_append]; exact Or.inr hr)]
    rfl

theorem set_cons_cases {v : f.kind.Value} {vs : Values fs} {ws : Values (f :: fs)} {num : ℕ} {p : Payload}
    (h : set (f :: fs) (v, vs) num p = .ok ws) :
    (∃ w, f.kind.set v p = .ok w ∧ ws = (w, vs)) ∨ ∃ ws', set fs vs num p = .ok ws' ∧ ws = (v, ws') := by
  rw [set] at h
  split at h
  · obtain ⟨w, hw, he⟩ := bind_eq_ok h
    cases he
    exact Or.inl ⟨w, hw, rfl⟩
  · obtain ⟨ws', hws, he⟩ := bind_eq_ok h
    cases he
    exact Or.inr ⟨ws', hws, rfl⟩

theorem set_valid {vs vs' : Values fs} {num : ℕ} {p : Payload} (h : set fs vs num p = .ok vs')
    (hp : p.length < 2 ^ 63) (hvs : Valid fs vs) : Valid fs vs' := by
  induction fs with
  | nil => trivial
  | cons f fs ih =>
    obtain ⟨v, vs⟩ := vs
    obtain ⟨hv, hvs⟩ := hvs
    obtain ⟨w, hset, rfl⟩ | ⟨ws, hset, rfl⟩ := set_cons_cases h
    · exact ⟨f.kind.set_valid hv hset hp, hvs⟩
    · exact ⟨hv, ih hset hvs⟩

theorem set_size {vs vs' : Values fs} {num : ℕ} {p : Payload} (h : set fs vs num p = .ok vs')
    (hp : size fs vs + 1 + p.bytes.length < 2 ^ 63) : size fs vs' ≤ size fs vs + 1 + p.bytes.length := by
  induction fs with
  | nil => exact Nat.zero_le _
  | cons f fs ih =>
    obtain ⟨v, vs⟩ := vs
    rw [size] at hp
    obtain ⟨w, hset, rfl⟩ | ⟨ws, hset, rfl⟩ := set_cons_cases h
    · have hgrow := f.kind.set_size hset (by omega)
      change chunksSize (f.kind.emit w) + size fs vs ≤ chunksSize (f.kind.emit v) + size fs vs + 1 + p.bytes.length
      omega
    · have hgrow := ih hset (by omega)
      change chunksSize (f.kind.emit v) + size fs ws ≤ chunksSize (f.kind.emit v) + size fs vs + 1 + p.bytes.length
      omega

theorem size_zero (fs : List Field) : size fs (zero fs) = 0 := by
  induction fs with
  | nil => rfl
  | cons f fs ih => rw [zero, size, f.kind.emit_zero, ih]; rfl

theorem zero_valid (fs : List Field) : Valid fs (zero fs) := by
  induction fs with
  | nil => trivial
  | cons f fs ih => exact ⟨f.kind.zero_valid, ih⟩

end Values

/-- The shortest varint is no longer than the one that was read. -/
theorem length_takeVarint {s rest : Bytes} {x : UInt64} (h : takeVarint s = some (x, rest)) :
    (putVarint x.toNat).length + rest.length ≤ s.length := by
  obtain ⟨⟨n, t⟩, hr, he⟩ := Option.map_eq_some_iff.mp h
  obtain ⟨rfl, rfl⟩ := Prod.mk.inj he
  obtain ⟨⟨n', t⟩, hr', he'⟩ := Option.map_eq_some_iff.mp hr
  obtain ⟨rfl, rfl⟩ := Prod.mk.inj he'
  obtain ⟨u, hu, rfl, hlt, -⟩ := Varint.decode_local hr'
  obtain ⟨k, hk⟩ : ∃ k, u.length = k + 1 := ⟨u.length - 1, by have := List.length_pos_iff.mpr hu; omega⟩
  have hsmall : (UInt64.ofNat (n' % 2 ^ 64)).toNat < 128 ^ (k + 1) := by
    rw [UInt64.toNat_ofNat', Nat.mod_mod, ← hk]
    exact lt_of_le_of_lt (Nat.mod_le _ _) hlt
  have hten : (UInt64.ofNat (n' % 2 ^ 64)).toNat < 128 ^ (9 + 1) := lt_of_lt_of_le (UInt64.toNat_lt _) (by norm_num)
  have hshort := (Varint.length_encode_le_iff hten k).mpr hsmall
  rw [List.length_append, hk]
  exact Nat.add_le_add_right hshort _

theorem length_takePayload {w : WireType} {s rest : Bytes} {p : Payload} (h : takePayload w s = some (p, rest)) :
    p.bytes.length + rest.length ≤ s.length := by
  cases w with
  | varint =>
    obtain ⟨r, hr, he⟩ := Option.bind_eq_some_iff.mp h
    cases he
    exact length_takeVarint hr
  | delimited =>
    obtain ⟨r, hr, he⟩ := Option.bind_eq_some_iff.mp h
    cases he
    obtain ⟨⟨n, t⟩, hn, h⟩ := Option.bind_eq_some_iff.mp hr
    obtain ⟨rest', hrest, he⟩ := Option.bind_eq_some_iff.mp h
    cases he
    obtain ⟨u, hlen, hu, -⟩ := skipBytes_local hrest
    have hvarint := length_takeVarint hn
    dsimp only at hlen hu hvarint ⊢
    subst hu
    rw [List.take_left' hlen, Payload.bytes, List.length_append, hlen, UInt64.ofNat_toNat]
    rw [List.length_append] at hvarint
    omega

namespace Schema

variable {S : Schema}

/-- The records that no field takes, one after the other: parsing them keeps them. -/
def Foreign (S : Schema) (u : Bytes) : Prop :=
  ∀ m : S.Msg, S.parse u m = some { m with unknownFields := m.unknownFields ++ u }

/-- What the messages have that the program builds or reads. -/
def Valid (S : Schema) (m : S.Msg) : Prop := Values.Valid S.fields m.values ∧ S.Foreign m.unknownFields

theorem Foreign.nil : S.Foreign [] := by
  intro m
  rw [parse, run_nil, List.append_nil]

theorem Foreign.append {u v : Bytes} (hu : S.Foreign u) (hv : S.Foreign v) : S.Foreign (u ++ v) := by
  intro m
  rw [parse_append (hu m), hv, List.append_assoc]

theorem sizeVT_empty : S.sizeVT S.empty = 0 := Values.size_zero S.fields

theorem empty_valid : S.Valid S.empty := ⟨Values.zero_valid S.fields, Foreign.nil⟩

/-- A record that was kept is kept again. -/
theorem foreign_of_takeUnknown {s t u rest : Bytes} {wire : UInt64} (hwire : takeVarint s = some (wire, t))
    (hlegal : ¬ (wire.toNat % 8 = 4 ∨ fieldNum wire ≤ 0)) (hfind : S.find (fieldNum wire) = none)
    (hu : takeUnknown s = some (u, rest)) : S.Foreign u := by
  intro m
  obtain ⟨hne, rfl, hmore⟩ := takeUnknown_eq hu
  obtain ⟨t', htag⟩ := takeUnknown_tag hu hwire []
  have hstep := step_unknown htag hlegal hfind (hmore []) m
  rw [List.append_nil] at hstep
  obtain ⟨n, hn⟩ : ∃ n, u.length = n + 1 := ⟨u.length - 1, by have := List.length_pos_iff.mpr hne; omega⟩
  rw [parse, hn, run_step hstep hne, run_nil]

/-- **What is written is read again.** -/
theorem parse_bytes {m : S.Msg} (hm : S.Valid m) (hsize : S.sizeVT m < 2 ^ 63) :
    S.parse (S.bytes m) S.empty = some m := by
  have hlen : ∀ r ∈ Values.records S.fields m.values, r.2.length < 2 ^ 63 := by
    intro r hr
    have hle : (recordBytes r).length ≤ ((Values.records S.fields m.values).flatMap recordBytes).length :=
      (List.sublist_flatten_of_mem (List.mem_map_of_mem hr)).length_le
    have hpayload : r.2.length ≤ r.2.bytes.length := by
      cases r.2 with
      | varint x => exact Nat.zero_le _
      | delimited b => simp [Payload.length, Payload.bytes]
    rw [sizeVT, Values.size_eq] at hsize
    rw [recordBytes, List.length_cons] at hle
    omega
  have hfields := parse_records (m := S.empty)
    (fun r hr => ⟨(Values.mem_records hr).1, (Values.mem_records hr).2, hlen r hr⟩)
    (Values.restores S.nodup hm.1 hlen)
  rw [bytes, parse_append hfields, hm.2]
  rfl

theorem step_valid {m m' : S.Msg} {s rest : Bytes} (h : S.step m s = some (m', rest)) (hs : s.length < 2 ^ 63)
    (hm : S.Valid m) : S.Valid m' := by
  obtain ⟨wire, t, hwire, hlegal, ⟨f, p, values, hfind, hw, hp, hset, rfl⟩ | ⟨u, hfind, hu, rfl⟩⟩ := step_cases h
  · have htag := takeVarint_local.length_lt hwire
    have hpayload := (takePayload_wireType hp).2
    exact ⟨Values.set_valid hset (by omega) hm.1, hm.2⟩
  · exact ⟨hm.1, hm.2.append (foreign_of_takeUnknown hwire hlegal hfind hu)⟩

/-- A record gives a message no more than its bytes. -/
theorem step_size {m m' : S.Msg} {s rest : Bytes} (h : S.step m s = some (m', rest))
    (hs : S.sizeVT m + s.length < 2 ^ 63) : S.sizeVT m' + rest.length ≤ S.sizeVT m + s.length := by
  obtain ⟨wire, t, hwire, -, ⟨f, p, values, hfind, hw, hp, hset, rfl⟩ | ⟨u, hfind, hu, rfl⟩⟩ := step_cases h
  · have htag := takeVarint_local.length_lt hwire
    have hlen := length_takePayload hp
    rw [sizeVT] at hs
    have hgrow := Values.set_size hset (by omega)
    rw [sizeVT, sizeVT]
    dsimp only
    omega
  · obtain ⟨-, rfl, -⟩ := takeUnknown_eq hu
    rw [sizeVT, sizeVT, List.length_append, List.length_append]
    dsimp only
    omega

/-- **What was read into a valid message leaves a valid one.** -/
theorem parse_valid {d : Bytes} {m m' : S.Msg} (h : S.parse d m = some m') (hd : d.length < 2 ^ 63)
    (hm : S.Valid m) : S.Valid m' := by
  have hrun := run_invariant (P := fun x bs => bs.length ≤ d.length ∧ S.Valid x)
    (fun {x _ bs _} hstep hx => ⟨Nat.le_trans (Nat.le_of_lt ((step_local x).length_lt hstep)) hx.1,
      step_valid hstep (Nat.lt_of_le_of_lt hx.1 hd) hx.2⟩) h ⟨Nat.le_refl _, hm⟩
  exact hrun.2

/-- **A message grows by no more than what was read.** -/
theorem parse_size {d : Bytes} {m m' : S.Msg} (h : S.parse d m = some m') (hd : S.sizeVT m + d.length < 2 ^ 63) :
    S.sizeVT m' ≤ S.sizeVT m + d.length :=
  run_invariant (P := fun x bs => S.sizeVT x + bs.length ≤ S.sizeVT m + d.length)
    (fun hstep hx => Nat.le_trans (step_size hstep (Nat.lt_of_le_of_lt hx hd)) hx) h (Nat.le_refl _)

/-- What `UnmarshalVT` returns. -/
theorem unmarshalVT_eq_ok {d : Bytes} (hd : d.length < 2 ^ 63) {m m' : S.Msg} :
    S.unmarshalVT d m = .ok m' ↔ S.parse d m = some m' := by
  rw [← (unmarshalVT_eq hd m).1]
  cases S.unmarshalVT d m <;> simp [Except.toOption]

end Schema

end roundTrip

end Proto

end Medusa
