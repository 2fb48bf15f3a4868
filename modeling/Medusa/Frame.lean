import Medusa.Lib.BigEndian
import Medusa.Lib.ItemStream
import Medusa.Lib.Varint
import Medusa.Partition

/-! # Frames of the transport

`transport/frame.go`: a frame is a length in four bytes, a type in one byte, and a payload.

* `readFrame_eq_frame`: **what is read from the bytes of a frame is that frame, and only when all of them
  have been read.**
* `frame_stream_round_trip`: **a stream of frames reads back**, with any buffers, and a stream that is cut
  short gives the frames wholly in it and then an error. -/

namespace Medusa

namespace Transport

open BigEndian

/-- `headerSize`. -/
def headerSize : ℕ := 5

/-- `MaxFrameSize`. -/
def maxFrameSize : ℕ := 64 * 2 ^ 20

/-- The bytes that `writeFrame` writes.  The length is cut to 32 bits and the type to 8. -/
def frame (type : ℕ) (payload : Bytes) : Bytes :=
  beBytes 4 payload.length ++ UInt8.ofNat type :: payload

/-- Where a reader of a frame is. -/
inductive Scan where
  | more
  | tooLarge
  | frame (type : ℕ) (payload : Bytes)
deriving DecidableEq, Repr

/-- `readFrame`, after the bytes it has read so far. -/
def readFrame (got : Bytes) : Scan :=
  if got.length < headerSize then .more
  else if maxFrameSize < beNat (got.take 4) then .tooLarge
  else if got.length < headerSize + beNat (got.take 4) then .more
  else .frame (got.getD 4 0).toNat (got.drop headerSize)

@[simp] theorem frame_length (type : ℕ) (payload : Bytes) :
    (frame type payload).length = headerSize + payload.length := by
  simp only [frame, headerSize, List.length_append, List.length_cons, beBytes_length]
  omega

/-- **A reader of a frame that has it has read all of it.** -/
theorem readFrame_eq_frame {type type' : ℕ} {payload payload' got rest : Bytes} (htype : type < 256)
    (hpayload : payload.length < 2 ^ 32) (hgot : got ++ rest = frame type payload)
    (hread : readFrame got = .frame type' payload') :
    rest = [] ∧ type' = type ∧ payload' = payload := by
  unfold readFrame at hread
  split at hread
  · cases hread
  next hheader =>
  have hlength : beNat (got.take 4) = payload.length := by
    have htake : got.take 4 = (frame type payload).take 4 := by
      rw [← hgot, List.take_append_of_le_length (by unfold headerSize at hheader; omega)]
    rw [htake, frame, List.take_left' (beBytes_length 4 _), beNat_beBytes_of_lt hpayload]
  split at hread
  · cases hread
  split at hread
  · cases hread
  next hall =>
  have hrest : rest = [] := by
    have hlen := congrArg List.length hgot
    rw [List.length_append, frame_length, ← hlength] at hlen
    exact List.eq_nil_of_length_eq_zero (by omega)
  subst hrest
  rw [List.append_nil] at hgot
  subst hgot
  cases hread
  refine ⟨rfl, ?_, ?_⟩
  · have hbyte : (frame type payload).getD 4 0 = UInt8.ofNat type := by
      simp [frame, List.getD_eq_getElem?_getD]
    rw [hbyte, UInt8.toNat_ofNat']
    omega
  · have hdrop : (frame type payload).drop headerSize = payload := by
      simp [frame, headerSize, List.drop_append]
    exact hdrop

/-! ### Streams of frames -/

/-- `writeFrame`: what has been written after it, and the header buffer, whose first bytes it overwrites. -/
def writeFrame (w hdr : Bytes) (type : ℕ) (payload : Bytes) : Bytes × Bytes :=
  let hdr := (beBytes 4 payload.length ++ hdr.drop 4).set (headerSize - 1) (UInt8.ofNat type)
  let w := w ++ hdr.take headerSize
  (if payload.length = 0 then w else w ++ payload, hdr)

/-- The errors of `readFrame`. -/
inductive ReadError where
  | eof
  | unexpectedEOF
  | tooLarge
deriving DecidableEq, Repr

/-- `io.ReadFull`: the buffer, what is left of the stream, and the error. -/
def readFull (stream dst : Bytes) : Bytes × Bytes × Option ReadError :=
  if dst.length ≤ stream.length then (stream.take dst.length, stream.drop dst.length, none)
  else (stream ++ dst.drop stream.length, [], some (if stream = [] then .eof else .unexpectedEOF))

/-- What `readFrame` returns, and what is left of the stream. -/
structure Read where
  type : ℕ
  payload : Bytes
  err : Option ReadError
  rest : Bytes

/-- `readFrame` on a stream.  A buffer is its underlying array, so that its length is the capacity. -/
def readFrameFrom (stream hdr buf : Bytes) : Read :=
  let (h, rest, err) := readFull stream (hdr.take headerSize)
  match err with
  | some e => ⟨0, buf, some e, rest⟩
  | none =>
    let n := beNat (h.take 4)
    if maxFrameSize < n then ⟨0, buf, some .tooLarge, rest⟩
    else
      let type := (h.getD (headerSize - 1) 0).toNat
      let buf := if buf.length < n then List.replicate n 0 else buf.take n
      if 0 < n then
        let (buf, rest, err) := readFull rest buf
        ⟨type, buf, err, rest⟩
      else ⟨type, buf, none, rest⟩

/-- `readFrame` again and again until an error, with a header buffer and a receive buffer for each call: the
frames, and the error. -/
def readFrames : List (Bytes × Bytes) → Bytes → List (ℕ × Bytes) × Option ReadError
  | [], _ => ([], none)
  | (hdr, buf) :: calls, stream =>
    let r := readFrameFrom stream hdr buf
    match r.err with
    | some e => ([], some e)
    | none => ((r.type, r.payload) :: (readFrames calls r.rest).1, (readFrames calls r.rest).2)

/-- Frames written one behind the other with one header buffer. -/
def writeFrames (hdr : Bytes) (fs : List (ℕ × Bytes)) : Bytes :=
  (fs.foldl (fun w f => writeFrame w.1 w.2 f.1 f.2) ([], hdr)).1

theorem writeFrame_eq {hdr : Bytes} (hhdr : headerSize ≤ hdr.length) (w : Bytes) (type : ℕ) (payload : Bytes) :
    (writeFrame w hdr type payload).1 = w ++ frame type payload ∧
      headerSize ≤ (writeFrame w hdr type payload).2.length := by
  unfold headerSize at hhdr
  obtain ⟨b, more, hdrop⟩ : ∃ b more, hdr.drop 4 = b :: more :=
    List.exists_cons_of_length_pos (by rw [List.length_drop]; omega)
  have hset : (beBytes 4 payload.length ++ hdr.drop 4).set (headerSize - 1) (UInt8.ofNat type) =
      (beBytes 4 payload.length ++ [UInt8.ofNat type]) ++ more := by
    rw [hdrop, List.set_append_right _ _ (by simp [headerSize])]
    simp [headerSize]
  simp only [writeFrame, hset]
  refine ⟨?_, by simp only [List.length_append, beBytes_length, headerSize, List.length_singleton]; omega⟩
  rw [List.take_left' (by simp [headerSize])]
  split
  · next h0 => simp [frame, List.length_eq_zero_iff.mp h0]
  · simp [frame]

theorem writeFrames_eq {hdr : Bytes} (hhdr : headerSize ≤ hdr.length) (fs : List (ℕ × Bytes)) :
    writeFrames hdr fs = fs.flatMap fun f => frame f.1 f.2 := by
  have h : ∀ w, (fs.foldl (fun w f => writeFrame w.1 w.2 f.1 f.2) (w, hdr)).1 =
      w ++ fs.flatMap fun f => frame f.1 f.2 := by
    induction fs generalizing hdr with
    | nil => simp
    | cons f fs ih =>
      intro w
      obtain ⟨hw, hlen⟩ := writeFrame_eq hhdr w f.1 f.2
      rw [List.foldl_cons, List.flatMap_cons, ← List.append_assoc, ← hw]
      exact ih hlen _
  exact h []

/-- What there is at the front of a stream: a frame and what is behind it, or an error. -/
def nextFrame (stream : Bytes) : Except ReadError ((ℕ × Bytes) × Bytes) :=
  if stream.length < headerSize then .error (if stream = [] then .eof else .unexpectedEOF)
  else
    let n := beNat (stream.take 4)
    if maxFrameSize < n then .error .tooLarge
    else if stream.length < headerSize + n then
      .error (if stream.length = headerSize then .eof else .unexpectedEOF)
    else .ok (((stream.getD (headerSize - 1) 0).toNat, (stream.drop headerSize).take n),
      stream.drop (headerSize + n))

/-- The outcome of a read without its buffers. -/
def Read.outcome (r : Read) : Except ReadError ((ℕ × Bytes) × Bytes) :=
  match r.err with
  | some e => .error e
  | none => .ok ((r.type, r.payload), r.rest)

/-- **The buffers do not matter**: neither their capacity nor what is left in them. -/
theorem readFrameFrom_outcome {hdr : Bytes} (hhdr : headerSize ≤ hdr.length) (stream buf : Bytes) :
    (readFrameFrom stream hdr buf).outcome = nextFrame stream := by
  have hlen : (hdr.take headerSize).length = headerSize := List.length_take_of_le hhdr
  have hdst : ∀ n, (if buf.length < n then List.replicate n 0 else buf.take n).length = n := by
    intro n
    split
    · simp
    · rw [List.length_take]
      omega
  unfold readFrameFrom nextFrame readFull
  rw [hlen]
  by_cases hshort : stream.length < headerSize
  · rw [if_neg (by omega), if_pos hshort]
    rfl
  · have h4 : (stream.take headerSize).take 4 = stream.take 4 := by
      rw [List.take_take, Nat.min_eq_left (by simp [headerSize])]
    have htype : (stream.take headerSize).getD (headerSize - 1) 0 = stream.getD (headerSize - 1) 0 := by
      simp [headerSize]
    rw [if_pos (by omega), if_neg hshort]
    dsimp only
    rw [h4, htype]
    by_cases hlarge : maxFrameSize < beNat (stream.take 4)
    · rw [if_pos hlarge, if_pos hlarge]
      rfl
    · rw [if_neg hlarge, if_neg hlarge]
      by_cases hn : 0 < beNat (stream.take 4)
      · rw [if_pos hn, hdst]
        by_cases hbody : stream.length < headerSize + beNat (stream.take 4)
        · have hempty : stream.drop headerSize = [] ↔ stream.length = headerSize := by
            rw [List.drop_eq_nil_iff]
            omega
          rw [if_neg (by rw [List.length_drop]; omega), if_pos hbody]
          simp only [Read.outcome, hempty]
        · rw [if_pos (by rw [List.length_drop]; omega), if_neg hbody, List.drop_drop]
          rfl
      · have h0 : beNat (stream.take 4) = 0 := by omega
        rw [if_neg hn, if_neg (by omega : ¬ stream.length < headerSize + _), h0]
        rfl

theorem nextFrame_frame {type : ℕ} {payload : Bytes} (htype : type < 256)
    (hpayload : payload.length ≤ maxFrameSize) (more : Bytes) :
    nextFrame (frame type payload ++ more) = .ok ((type, payload), more) := by
  have h32 : payload.length < 256 ^ 4 := hpayload.trans_lt (by norm_num [maxFrameSize])
  have hn : beNat ((frame type payload ++ more).take 4) = payload.length := by
    rw [frame, List.append_assoc, List.take_left' (beBytes_length 4 _), beNat_beBytes_of_lt h32]
  have hlen : (frame type payload ++ more).length = headerSize + payload.length + more.length := by
    rw [List.length_append, frame_length]
  have hbyte : (frame type payload ++ more).getD (headerSize - 1) 0 = UInt8.ofNat type := by
    simp [frame, headerSize, List.getD_eq_getElem?_getD]
  have hdrop : (frame type payload ++ more).drop headerSize = payload ++ more := by
    simp [frame, headerSize, List.drop_append]
  unfold nextFrame
  simp only [hn]
  rw [if_neg (by omega), if_neg (by omega), if_neg (by omega), hbyte, UInt8.toNat_ofNat',
    Nat.mod_eq_of_lt htype, hdrop, List.take_left' rfl, ← List.drop_drop, hdrop, List.drop_left' rfl]

/-- A frame that is cut short is an error. -/
theorem nextFrame_cut {type : ℕ} {payload tail : Bytes} (hpayload : payload.length ≤ maxFrameSize)
    (htail : tail <+: frame type payload) (hne : tail ≠ frame type payload) :
    ∃ e, nextFrame tail = .error e := by
  have h32 : payload.length < 256 ^ 4 := hpayload.trans_lt (by norm_num [maxFrameSize])
  have hlt : tail.length < headerSize + payload.length := by
    rw [← frame_length type payload]
    exact lt_of_le_of_ne htail.length_le fun h => hne (htail.eq_of_length h)
  unfold nextFrame
  by_cases hheader : tail.length < headerSize
  · rw [if_pos hheader]
    exact ⟨_, rfl⟩
  · have hn : beNat (tail.take 4) = payload.length := by
      obtain ⟨more, hmore⟩ := htail
      have htake : tail.take 4 = (frame type payload).take 4 := by
        rw [← hmore, List.take_append_of_le_length (by unfold headerSize at hheader; omega)]
      rw [htake, frame, List.take_left' (beBytes_length 4 _), beNat_beBytes_of_lt h32]
    rw [if_neg hheader]
    dsimp only
    rw [hn, if_neg (by omega), if_pos hlt]
    exact ⟨_, rfl⟩

/-- The frame at the front of a stream, if there is a whole one. -/
def takeFrame (stream : Bytes) : Option ((ℕ × Bytes) × Bytes) := (nextFrame stream).toOption

/-- Reads with any buffers take the frames off the front of the stream. -/
theorem readFrames_eq {calls : List (Bytes × Bytes)} (hcalls : ∀ c ∈ calls, headerSize ≤ c.1.length)
    (stream : Bytes) :
    (readFrames calls stream).1 = (ItemStream.scan takeFrame calls.length stream).1 ∧
      ((readFrames calls stream).2 = none ↔
        (ItemStream.scan takeFrame calls.length stream).1.length = calls.length) := by
  induction calls generalizing stream with
  | nil => exact ⟨rfl, by simp [readFrames, ItemStream.scan]⟩
  | cons c calls ih =>
    have hout := readFrameFrom_outcome (hcalls c List.mem_cons_self) stream c.2
    unfold readFrames
    dsimp only
    unfold Read.outcome at hout
    cases herr : (readFrameFrom stream c.1 c.2).err with
    | some e =>
      rw [herr] at hout
      have hnone : takeFrame stream = none := by simp only [takeFrame, ← hout, Except.toOption]
      rw [ItemStream.scan_none hnone]
      exact ⟨rfl, by simp⟩
    | none =>
      rw [herr] at hout
      have hsome : takeFrame stream = some (((readFrameFrom stream c.1 c.2).type,
          (readFrameFrom stream c.1 c.2).payload), (readFrameFrom stream c.1 c.2).rest) := by
        simp only [takeFrame, ← hout, Except.toOption]
      obtain ⟨hframes, herror⟩ := ih (fun d hd => hcalls d (List.mem_cons_of_mem _ hd))
        (readFrameFrom stream c.1 c.2).rest
      rw [List.length_cons, ItemStream.scan_some hsome, hframes, herror]
      exact ⟨rfl, by simp⟩

/-- Whole frames and then something that is not one, read with any buffers. -/
theorem readFrames_flatMap {fs : List (ℕ × Bytes)} (hfs : ∀ f ∈ fs, f.1 < 256 ∧ f.2.length ≤ maxFrameSize)
    {tail : Bytes} {e : ReadError} (htail : nextFrame tail = .error e) {calls : List (Bytes × Bytes)}
    (hcalls : ∀ c ∈ calls, headerSize ≤ c.1.length) :
    let got := readFrames calls ((fs.flatMap fun f => frame f.1 f.2) ++ tail)
    got.1 = fs.take calls.length ∧ (got.2 = none ↔ calls.length ≤ fs.length) := by
  intro got
  obtain ⟨hframes, herr⟩ := readFrames_eq hcalls ((fs.flatMap fun f => frame f.1 f.2) ++ tail)
  have hnext : ∀ f ∈ fs, ∀ more, takeFrame (frame f.1 f.2 ++ more) = some (f, more) := by
    intro f hf more
    rw [takeFrame, nextFrame_frame (hfs f hf).1 (hfs f hf).2]
    rfl
  have hstop : takeFrame tail = none := by
    rw [takeFrame, htail]
    rfl
  have hscan := ItemStream.scan_flatMap hnext hstop calls.length
  rw [hscan] at hframes herr
  refine ⟨hframes, herr.trans ?_⟩
  rw [List.length_take]
  omega

/-- **A stream of frames reads back.**  Frames written one behind the other with one header buffer are read
back in order, with header and receive buffers of any capacity and any content.  From a stream that is cut
short come the frames that are wholly in it, and then an error. -/
theorem frame_stream_round_trip (fs : List (ℕ × Bytes))
    (hfs : ∀ f ∈ fs, f.1 < 256 ∧ f.2.length ≤ maxFrameSize) (hdr : Bytes) (hhdr : headerSize ≤ hdr.length)
    (calls : List (Bytes × Bytes)) (hcalls : ∀ c ∈ calls, headerSize ≤ c.1.length) :
    ((readFrames calls (writeFrames hdr fs)).1 = fs.take calls.length ∧
      ((readFrames calls (writeFrames hdr fs)).2 = none ↔ calls.length ≤ fs.length)) ∧
    ∀ cut, cut <+: writeFrames hdr fs → cut ≠ writeFrames hdr fs →
      ∃ k f tail, fs[k]? = some f ∧ cut = writeFrames hdr (fs.take k) ++ tail ∧
        tail <+: frame f.1 f.2 ∧ tail ≠ frame f.1 f.2 ∧
        (readFrames calls cut).1 = (fs.take k).take calls.length ∧
        ((readFrames calls cut).2 = none ↔ calls.length ≤ k) := by
  simp only [writeFrames_eq hhdr]
  refine ⟨?_, fun cut hcut hne => ?_⟩
  · have hend : nextFrame [] = .error .eof := rfl
    have h := readFrames_flatMap hfs hend hcalls
    rwa [List.append_nil] at h
  · obtain ⟨k, tail, hk, rfl, hend, hnext⟩ := ItemStream.cut_flatMap hcut
    have hlt : k < fs.length := by
      refine lt_of_le_of_ne hk fun h => hne ?_
      rw [hend h, h, List.take_length, List.append_nil]
    obtain ⟨htail, htail'⟩ := hnext _ (List.getElem?_eq_getElem hlt)
    obtain ⟨e, he⟩ := nextFrame_cut (hfs _ (List.getElem_mem hlt)).2 htail htail'
    have hwhole : ∀ f ∈ fs.take k, f.1 < 256 ∧ f.2.length ≤ maxFrameSize := fun f hf =>
      hfs f (List.mem_of_mem_take hf)
    have h := readFrames_flatMap hwhole he hcalls
    rw [List.length_take, Nat.min_eq_left hk] at h
    exact ⟨k, _, tail, List.getElem?_eq_getElem hlt, rfl, htail, htail', h⟩

/-- An empty payload between two others, into a buffer that is too small, one with something left in it, and
one that is just large enough; and the same stream without its last byte. -/
theorem frame_stream_round_trip_cut :
    let stream := writeFrames [9, 9, 9, 9, 9] [(3, [1, 2]), (4, []), (5, [6, 7, 8])]
    let hdr : Bytes := [1, 1, 1, 1, 1, 1]
    (readFrames [(hdr, []), (hdr, [9, 9, 9, 9]), (hdr, [9, 9, 9])] stream).1 =
      [(3, [1, 2]), (4, []), (5, [6, 7, 8])] ∧
    ∃ k, (readFrames [(hdr, []), (hdr, [9, 9, 9, 9]), (hdr, [9, 9, 9])] stream.dropLast).1 =
      ([(3, [1, 2]), (4, []), (5, [6, 7, 8])].take k).take 3 := by
  intro stream hdr
  have h := frame_stream_round_trip [(3, [1, 2]), (4, []), (5, [6, 7, 8])] (by decide) [9, 9, 9, 9, 9]
    (by decide) [(hdr, []), (hdr, [9, 9, 9, 9]), (hdr, [9, 9, 9])] (by decide)
  obtain ⟨k, -, -, -, -, -, -, hread, -⟩ :=
    h.2 stream.dropLast (List.dropLast_prefix _) (by decide)
  exact ⟨h.1.1, k, hread⟩

/-! ### Varints and records -/

/-- `protohelpers.EncodeVarint`. -/
def putVarint (n : ℕ) : Bytes := Varint.encode 10 n

/-- The loops that read a varint: at most ten bytes, into 64 bits. -/
def varint (bs : Bytes) : Option (ℕ × Bytes) := (Varint.decode 10 bs).map fun r => (r.1 % 2 ^ 64, r.2)

/-- What is left after `n` bytes, if there are so many. -/
def skipBytes (n : ℕ) (bs : Bytes) : Option Bytes := if bs.length < n then none else some (bs.drop n)

/-- One record, by its wire type: what follows it, and the depth of groups. -/
def skipRecord (wireType depth : ℕ) (bs : Bytes) : Option (Bytes × ℕ) :=
  match wireType with
  | 0 => (varint bs).map fun r => (r.2, depth)
  | 1 => (skipBytes 8 bs).map fun rest => (rest, depth)
  | 2 => do
      let r ← varint bs
      let rest ← skipBytes r.1 r.2
      return (rest, depth)
  | 3 => some (bs, depth + 1)
  | 4 => if depth = 0 then none else some (bs, depth - 1)
  | 5 => (skipBytes 4 bs).map fun rest => (rest, depth)
  | _ => none

/-- The loop of `protohelpers.Skip`; every record takes a byte of the fuel. -/
def skip : ℕ → ℕ → Bytes → Option Bytes
  | 0, _, _ => none
  | fuel + 1, depth, bs => do
      let wire ← varint bs
      let r ← skipRecord (wire.1 % 8) depth wire.2
      if r.2 = 0 then return r.1 else skip fuel r.2 r.1

theorem varint_putVarint {n : ℕ} (hn : n < 2 ^ 64) (rest : Bytes) :
    varint (putVarint n ++ rest) = some (n, rest) := by
  have hn' : n < 128 ^ (9 + 1) := lt_of_lt_of_le hn (by norm_num)
  rw [varint, putVarint, Varint.decode_encode hn']
  simp only [Option.map_some, Nat.mod_eq_of_lt hn]

end Transport

end Medusa
