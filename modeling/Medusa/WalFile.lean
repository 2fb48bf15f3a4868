import Medusa.Recovery

/-! # The log file over crashes

The file of `imap/wal.go` with its write offset: `openWAL` places the offset at the end, an append
writes at the offset, `truncateLocked` empties the file and rewinds.  A crash leaves the bytes
written before it and any prefix of the record being appended; the node that reopens the log replays
it, chops the tail that is not a whole record (`truncateTail`) and opens it again.

* `runWal_file`: **after any run of appends, truncations and crashes the file consists of the records
  kept**, and the offset is at its end.
* `reopen_delivers`: so the replay at any reopening delivers exactly these records, and the file holds
  nothing else afterwards.

An append that fails without a crash leaves its bytes in the file, and the next one writes after them.

* `acked_delivered`: **the records of the calls that returned nil are delivered, as long as none of
  them follows a call that failed in the middle of its record.**

Only the reader has a cap on the size of a record.

* `accepted_delivered`: **the records that the writer accepts are delivered, and kept by a reopening,
  exactly if all are under the cap**; one over it is lost with everything behind it. -/

namespace Medusa

open BigEndian

/-- An open log: the bytes of the file and the write offset. -/
structure WalFile where
  bytes : Bytes
  pos : ℕ
deriving DecidableEq, Repr

/-- `f.Write` at the offset; a gap reads as zeros. -/
def WalFile.write (w : WalFile) (b : Bytes) : WalFile :=
  ⟨w.bytes.take w.pos ++ List.replicate (w.pos - w.bytes.length) 0 ++ b ++
    w.bytes.drop (w.pos + b.length), w.pos + b.length⟩

/-- `truncateLocked`. -/
def WalFile.truncate (_ : WalFile) : WalFile := ⟨[], 0⟩

/-- `truncateTail`. -/
def truncateTail (file : Bytes) (validLen : ℕ) : Bytes :=
  if file.length ≤ validLen then file else file.take validLen

section codec
variable (C : Codec)

/-- `wal.appendLocked`: the header, then the payload. -/
def WalFile.append (w : WalFile) (r : WalRecord) : WalFile :=
  (w.write (beBytes 4 (C.marshal r.entry).length ++ [r.op.code])).write (C.marshal r.entry)

/-- The reopening of `Service.OpenWAL`: replay, chop the tail, open at the end. -/
def reopen (file : Bytes) : WalFile :=
  let kept := truncateTail file (replayWAL C file).2
  ⟨kept, kept.length⟩

/-- What happens to a log.  At a crash `k` bytes of a record being appended have reached the file. -/
inductive WalStep where
  | append (r : WalRecord)
  | truncate
  | crash (r : WalRecord) (k : ℕ)
deriving DecidableEq, Repr

/-- The file a crash leaves behind. -/
def WalFile.torn (w : WalFile) (r : WalRecord) (k : ℕ) : Bytes :=
  (w.write ((frame C r).take k)).bytes

/-- One step; after a crash the log is reopened. -/
def WalFile.step (w : WalFile) : WalStep → WalFile
  | .append r => w.append C r
  | .truncate => w.truncate
  | .crash r k => reopen C (w.torn C r k)

/-- A run from the first opening, when there is no file yet. -/
def runWal (steps : List WalStep) : WalFile := steps.foldl (WalFile.step C) (reopen C [])

/-- The record of a step is under the size cap. -/
def WalStep.UnderCap : WalStep → Prop
  | .append r => Medusa.UnderCap C r
  | .truncate => True
  | .crash r _ => Medusa.UnderCap C r

instance (r : WalRecord) : Decidable (Medusa.UnderCap C r) :=
  inferInstanceAs (Decidable (_ ≤ _))

instance (s : WalStep) : Decidable (s.UnderCap C) :=
  match s with
  | .append r => inferInstanceAs (Decidable (Medusa.UnderCap C r))
  | .truncate => inferInstanceAs (Decidable True)
  | .crash r _ => inferInstanceAs (Decidable (Medusa.UnderCap C r))

/-- The records acknowledged since the last truncation, and those whose bytes all reached the file
when a crash interrupted them. -/
def keptRecords (steps : List WalStep) : List WalRecord :=
  steps.foldl (fun kept s => match s with
    | .append r => kept ++ [r]
    | .truncate => []
    | .crash r k => if (frame C r).length ≤ k then kept ++ [r] else kept) []

end codec

section runs
variable {C : Codec}

/-- At the end of the file a write appends. -/
theorem WalFile.write_end (bytes b : Bytes) :
    (WalFile.mk bytes bytes.length).write b = ⟨bytes ++ b, (bytes ++ b).length⟩ := by
  simp [WalFile.write]

theorem WalFile.append_end (bytes : Bytes) (r : WalRecord) :
    (WalFile.mk bytes bytes.length).append C r =
      ⟨bytes ++ frame C r, (bytes ++ frame C r).length⟩ := by
  rw [WalFile.append, WalFile.write_end, WalFile.write_end]
  simp [frame]

theorem WalFile.torn_end (bytes : Bytes) (r : WalRecord) (k : ℕ) :
    (WalFile.mk bytes bytes.length).torn C r k = bytes ++ (frame C r).take k := by
  rw [WalFile.torn, WalFile.write_end]

/-- A file of whole records is reopened as it is. -/
theorem reopen_frames {rs : List WalRecord} (hrs : ∀ r ∈ rs, UnderCap C r) :
    (reopen C (rs.flatMap (frame C))).bytes = rs.flatMap (frame C) := by
  rw [reopen, replayWAL_frames hrs]
  exact if_pos le_rfl

/-- The replay of a file of whole records followed by part of one. -/
theorem replayWAL_interrupted {rs : List WalRecord} (hrs : ∀ r ∈ rs, UnderCap C r) {r : WalRecord}
    (hr : UnderCap C r) (k : ℕ) :
    let kept := if (frame C r).length ≤ k then rs ++ [r] else rs
    replayWAL C (rs.flatMap (frame C) ++ (frame C r).take k) =
      (records kept, (kept.flatMap (frame C)).length) := by
  intro kept
  by_cases hk : (frame C r).length ≤ k
  · have hkept : kept = rs ++ [r] := if_pos hk
    have hall : ∀ r' ∈ rs ++ [r], UnderCap C r' := by
      intro r' hr'
      rcases List.mem_append.mp hr' with h | h
      · exact hrs r' h
      · exact List.mem_singleton.mp h ▸ hr
    rw [hkept, ← replayWAL_frames hall, List.take_of_length_le hk]
    simp
  · have hkept : kept = rs := if_neg hk
    rw [hkept]
    refine replayWAL_torn hrs hr (List.take_prefix _ _) (fun h => ?_)
    have := congrArg List.length h
    rw [List.length_take] at this
    omega

/-- A reopening keeps the whole records. -/
theorem reopen_interrupted {rs : List WalRecord} (hrs : ∀ r ∈ rs, UnderCap C r) {r : WalRecord}
    (hr : UnderCap C r) (k : ℕ) :
    let kept := if (frame C r).length ≤ k then rs ++ [r] else rs
    reopen C (rs.flatMap (frame C) ++ (frame C r).take k) =
      ⟨kept.flatMap (frame C), (kept.flatMap (frame C)).length⟩ := by
  intro kept
  have hreplay := replayWAL_interrupted hrs hr k
  have hcut : truncateTail (rs.flatMap (frame C) ++ (frame C r).take k)
      (kept.flatMap (frame C)).length = kept.flatMap (frame C) := by
    unfold truncateTail
    by_cases hk : (frame C r).length ≤ k
    · have hkept : kept = rs ++ [r] := if_pos hk
      rw [hkept, List.take_of_length_le hk, if_pos (by simp)]
      simp
    · have hkept : kept = rs := if_neg hk
      rw [hkept]
      split
      · next hlen =>
        rw [List.length_append] at hlen
        have hnil : (frame C r).take k = [] := List.length_eq_zero_iff.mp (by omega)
        rw [hnil, List.append_nil]
      · rw [List.take_left' rfl]
  rw [reopen, hreplay]
  exact (WalFile.mk.injEq _ _ _ _).mpr ⟨hcut, congrArg List.length hcut⟩

theorem keptRecords_concat (steps : List WalStep) (s : WalStep) :
    keptRecords C (steps ++ [s]) = match s with
      | .append r => keptRecords C steps ++ [r]
      | .truncate => []
      | .crash r k => if (frame C r).length ≤ k then keptRecords C steps ++ [r]
          else keptRecords C steps := by
  rw [keptRecords, List.foldl_append]
  rfl

theorem underCap_keptRecords {steps : List WalStep} (hsteps : ∀ s ∈ steps, s.UnderCap C) :
    ∀ r ∈ keptRecords C steps, UnderCap C r := by
  induction steps using List.reverseRecOn with
  | nil => simp [keptRecords]
  | append_singleton steps s ih =>
    have hs : s.UnderCap C := hsteps s (by simp)
    have hrest := ih (fun s' hs' => hsteps s' (by simp [hs']))
    have hadd : ∀ {r₀ : WalRecord}, UnderCap C r₀ →
        ∀ r ∈ keptRecords C steps ++ [r₀], UnderCap C r := by
      intro r₀ h₀ r hr
      rcases List.mem_append.mp hr with h | h
      · exact hrest r h
      · exact List.mem_singleton.mp h ▸ h₀
    intro r hr
    rw [keptRecords_concat] at hr
    cases s with
    | append r₀ => exact hadd hs r hr
    | truncate => cases hr
    | crash r₀ k =>
      dsimp only at hr
      split at hr
      · exact hadd hs r hr
      · exact hrest r hr

/-- **The file consists of the records kept**, after any run. -/
theorem runWal_file {steps : List WalStep} (hsteps : ∀ s ∈ steps, s.UnderCap C) :
    runWal C steps = ⟨(keptRecords C steps).flatMap (frame C),
      ((keptRecords C steps).flatMap (frame C)).length⟩ := by
  induction steps using List.reverseRecOn with
  | nil => rfl
  | append_singleton steps s ih =>
    have hs : s.UnderCap C := hsteps s (by simp)
    have hrest : ∀ s' ∈ steps, s'.UnderCap C := fun s' hs' => hsteps s' (by simp [hs'])
    rw [runWal, List.foldl_append, ← runWal, ih hrest, keptRecords_concat]
    cases s with
    | append r =>
      change (WalFile.mk _ _).append C r = _
      rw [WalFile.append_end]
      simp
    | truncate => rfl
    | crash r k =>
      change reopen C ((WalFile.mk _ _).torn C r k) = _
      rw [WalFile.torn_end]
      exact reopen_interrupted (underCap_keptRecords hrest) hs k

/-- **Recovery over any number of crashes**: whatever appends, truncations and crashes went before,
when a crash interrupts the append of `r` after `k` bytes, the replay delivers exactly the records
kept, the length it returns is the end of the last one, and after the reopening the file contains them
and nothing else. -/
theorem reopen_delivers (steps : List WalStep) (hsteps : ∀ s ∈ steps, s.UnderCap C) {r : WalRecord}
    (hr : UnderCap C r) (k : ℕ) :
    let file := (runWal C steps).torn C r k
    let kept := keptRecords C (steps ++ [.crash r k])
    replayWAL C file = (records kept, (kept.flatMap (frame C)).length) ∧
    reopen C file = ⟨kept.flatMap (frame C), (kept.flatMap (frame C)).length⟩ := by
  intro file kept
  have hfile : file = (keptRecords C steps).flatMap (frame C) ++ (frame C r).take k := by
    rw [← WalFile.torn_end, ← runWal_file hsteps]
  have hkept : kept = if (frame C r).length ≤ k then keptRecords C steps ++ [r]
      else keptRecords C steps := keptRecords_concat steps _
  rw [hfile, hkept]
  exact ⟨replayWAL_interrupted (underCap_keptRecords hsteps) hr k,
    reopen_interrupted (underCap_keptRecords hsteps) hr k⟩

end runs

/-- A put; a crash within the header of a remove; a clear; and a crash after the last byte of another
put, which is kept. -/
theorem reopen_delivers_two_crashes :
    let e : Entry := ⟨[109], [107], [1], 0⟩
    let file := (runWal entryCodec [.append ⟨.put, e⟩, .crash ⟨.remove, e⟩ 3,
      .append ⟨.clear, e⟩]).torn entryCodec ⟨.put, e⟩ 14
    (replayWAL entryCodec file).1 = [(1, e), (3, e), (1, e)] ∧
    (reopen entryCodec file).bytes = file := by
  intro e file
  have h := reopen_delivers (C := entryCodec) [.append ⟨.put, e⟩,
    .crash ⟨.remove, e⟩ 3, .append ⟨.clear, e⟩] (by decide +kernel) (r := ⟨.put, e⟩)
    (by decide +kernel) 14
  exact ⟨(congrArg Prod.fst h.1).trans (by decide +kernel),
    (congrArg WalFile.bytes h.2).trans (by decide +kernel)⟩

/-! ### Failed appends -/

section failures
variable (C : Codec)

/-- A call of `appendLocked`: it returns nil, or fails when `k` bytes of its header and payload have
been written. -/
inductive AppendCall where
  | ok (r : WalRecord)
  | failed (r : WalRecord) (k : ℕ)
deriving DecidableEq, Repr

namespace AppendCall

/-- The record of the call. -/
def record : AppendCall → WalRecord
  | ok r => r
  | failed r _ => r

/-- The call returned nil. -/
def acked : AppendCall → Bool
  | ok _ => true
  | failed _ _ => false

/-- The call failed with part of its record in the file. -/
def torn : AppendCall → Bool
  | ok _ => false
  | failed r k => decide (0 < k ∧ k < (frame C r).length)

end AppendCall

/-- One call on an open log. -/
def WalFile.call (w : WalFile) : AppendCall → WalFile
  | .ok r => w.append C r
  | .failed r k => w.write ((frame C r).take k)

/-- Calls one after another. -/
def appendCalls (calls : List AppendCall) (w : WalFile) : WalFile := calls.foldl (WalFile.call C) w

/-- The records of the calls that returned nil. -/
def ackedRecords (calls : List AppendCall) : List WalRecord :=
  (calls.filter AppendCall.acked).map AppendCall.record

/-- No call returns nil after one that left part of its record. -/
def Intact : List AppendCall → Prop
  | [] => True
  | c :: rest => (c.torn C = true → ∀ c' ∈ rest, c'.acked = false) ∧ Intact rest

variable {C}

theorem length_le_chunks (chs : List (Chunk C)) : chs.length ≤ (chs.flatMap Chunk.bytes).length := by
  induction chs with
  | nil => simp
  | cons ch chs ih =>
    simp only [List.flatMap_cons, List.length_append, List.length_cons, ch.length_bytes]
    omega

/-- The chunks at the start of a file are read, whatever follows them. -/
theorem replayWAL_chunks (chs : List (Chunk C)) (tail : Bytes) :
    chs.map Chunk.read <+: (replayWAL C (chs.flatMap Chunk.bytes ++ tail)).1 := by
  have hlen : chs.length ≤ (chs.flatMap Chunk.bytes ++ tail).length := by
    have := length_le_chunks chs
    rw [List.length_append]
    omega
  obtain ⟨fuel, hfuel⟩ := Nat.exists_eq_add_of_le hlen
  rw [replayWAL, hfuel, replayLoop_chunks]
  exact List.prefix_append _ _

/-- A reopened file consists of the chunks that were read. -/
theorem reopen_chunks (file : Bytes) :
    ∃ chs : List (Chunk C), chs.map Chunk.read = (replayWAL C file).1 ∧
      reopen C file = ⟨chs.flatMap Chunk.bytes, (chs.flatMap Chunk.bytes).length⟩ := by
  obtain ⟨chs, hpre, hread⟩ := replayLoop_split (C := C) file.length file 0
  rw [Nat.zero_add] at hread
  have hkept : truncateTail file (chs.flatMap Chunk.bytes).length = chs.flatMap Chunk.bytes := by
    unfold truncateTail
    split
    · next hlen => exact (hpre.eq_of_length_le hlen).symm
    · exact (List.prefix_iff_eq_take.mp hpre).symm
  refine ⟨chs, by rw [replayWAL, hread], ?_⟩
  rw [reopen, replayWAL, hread, hkept]

/-- A call writes after the bytes that are there. -/
theorem WalFile.call_end (bytes : Bytes) (c : AppendCall) :
    ∃ b, (WalFile.mk bytes bytes.length).call C c = ⟨bytes ++ b, (bytes ++ b).length⟩ := by
  cases c with
  | ok r => exact ⟨_, WalFile.append_end bytes r⟩
  | failed r k => exact ⟨_, WalFile.write_end bytes _⟩

theorem appendCalls_end (calls : List AppendCall) (bytes : Bytes) :
    bytes <+: (appendCalls C calls ⟨bytes, bytes.length⟩).bytes := by
  induction calls generalizing bytes with
  | nil => exact List.prefix_rfl
  | cons c calls ih =>
    obtain ⟨b, hb⟩ := WalFile.call_end (C := C) bytes c
    rw [appendCalls, List.foldl_cons, hb]
    exact (List.prefix_append _ _).trans (ih _)

/-- What a later replay delivers, given the chunks in the file before the calls. -/
theorem appendCalls_delivers {calls : List AppendCall} (hin : Intact C calls)
    (hcap : ∀ c ∈ calls, UnderCap C c.record) (chs : List (Chunk C)) :
    let file := (appendCalls C calls
      ⟨chs.flatMap Chunk.bytes, (chs.flatMap Chunk.bytes).length⟩).bytes
    chs.map Chunk.read <+: (replayWAL C file).1 ∧
      (records (ackedRecords calls)).Sublist ((replayWAL C file).1.drop chs.length) := by
  induction calls generalizing chs with
  | nil => exact ⟨by simpa [appendCalls] using replayWAL_chunks chs [], List.nil_sublist _⟩
  | cons c calls ih =>
    intro file
    refine ⟨?_, ?_⟩
    · obtain ⟨t, ht⟩ := appendCalls_end (C := C) (c :: calls) (chs.flatMap Chunk.bytes)
      have := replayWAL_chunks chs t
      rwa [ht] at this
    · -- a record that reached the file whole is one more chunk
      have hmore : ∀ hr : UnderCap C c.record,
          file = (appendCalls C calls ⟨chs.flatMap Chunk.bytes ++ frame C c.record,
            (chs.flatMap Chunk.bytes ++ frame C c.record).length⟩).bytes →
          (records (ackedRecords calls)).Sublist
            ((replayWAL C file).1.drop (chs.length + 1)) ∧
          (c.record.op.code, c.record.entry) :: (replayWAL C file).1.drop (chs.length + 1) =
            (replayWAL C file).1.drop chs.length := by
        intro hr hfile
        obtain ⟨⟨t, ht⟩, hsub⟩ :=
          ih hin.2 (fun c' hc' => hcap c' (List.mem_cons_of_mem _ hc')) (chs ++ [c.record.chunk hr])
        have hbytes : (chs ++ [c.record.chunk hr]).flatMap Chunk.bytes =
            chs.flatMap Chunk.bytes ++ frame C c.record := by
          rw [List.flatMap_append, List.flatMap_singleton]
          rfl
        rw [hbytes, ← hfile] at ht hsub
        rw [List.length_append, List.length_singleton] at hsub
        have hdrop : (replayWAL C file).1.drop chs.length = (c.record.chunk hr).read :: t := by
          rw [← ht, List.map_append, List.append_assoc]
          exact List.drop_left' (by simp)
        rw [← List.drop_drop] at hsub ⊢
        rw [hdrop] at hsub ⊢
        exact ⟨hsub, rfl⟩
      cases c with
      | ok r =>
        obtain ⟨hsub, hdrop⟩ := hmore (hcap _ (List.mem_cons_self ..)) (by
          rw [← WalFile.append_end]
          rfl)
        rw [← hdrop]
        exact hsub.cons_cons _
      | failed r k =>
        by_cases htorn : (AppendCall.failed r k).torn C = true
        · have hnone : ackedRecords (.failed r k :: calls) = [] := by
            have : calls.filter AppendCall.acked = [] :=
              List.filter_eq_nil_iff.mpr fun c' hc' => by simp [hin.1 htorn c' hc']
            simp [ackedRecords, AppendCall.acked, this]
          rw [hnone]
          exact List.nil_sublist _
        · have hcall : file = (appendCalls C calls ((WalFile.mk _ _).write _)).bytes := rfl
          rw [WalFile.write_end] at hcall
          simp only [AppendCall.torn, decide_eq_true_eq, not_and, not_lt] at htorn
          rcases Nat.eq_zero_or_pos k with rfl | hk
          · rw [List.take_zero, List.append_nil] at hcall
            rw [hcall]
            exact (ih hin.2 (fun c' hc' => hcap c' (List.mem_cons_of_mem _ hc')) chs).2
          · rw [List.take_of_length_le (htorn hk)] at hcall
            obtain ⟨hsub, hdrop⟩ := hmore (hcap _ (List.mem_cons_self ..)) hcall
            rw [← hdrop]
            exact hsub.cons _

/-- **A failed append costs no later acknowledged write** as long as what it left behind is nothing or
the whole record: on a log reopened over any file, a later replay delivers what was in the file and
then, in order, the record of each call that returned nil, unless such a call follows one that failed
in the middle of its record. -/
theorem acked_delivered (file : Bytes) (calls : List AppendCall) (hin : Intact C calls)
    (hcap : ∀ c ∈ calls, UnderCap C c.record) :
    let later := (replayWAL C (appendCalls C calls (reopen C file)).bytes).1
    ∃ rest, later = (replayWAL C file).1 ++ rest ∧
      (records (ackedRecords calls)).Sublist rest := by
  intro later
  obtain ⟨chs, hread, hopen⟩ := reopen_chunks (C := C) file
  obtain ⟨⟨t, ht⟩, hsub⟩ := appendCalls_delivers hin hcap chs
  rw [← hopen] at ht hsub
  refine ⟨t, by rw [← hread, ht], ?_⟩
  rwa [← ht, List.drop_left' (by simp)] at hsub

end failures

/-- A full disk cuts the header of one record after two bytes; the next append succeeds, and its
record is not read back, only an empty one that nobody wrote, without an operation. -/
theorem acked_lost_after_torn :
    let e : Entry := ⟨[109], [107], [1], 0⟩
    let calls : List AppendCall := [.failed ⟨.put, e⟩ 2, .ok ⟨.put, e⟩]
    records (ackedRecords calls) = [(1, e)] ∧
    (replayWAL entryCodec (appendCalls entryCodec calls (reopen entryCodec [])).bytes).1 =
      [(0, ⟨[], [], [], 0⟩)] := by
  decide +kernel

/-- A call that fails before its first byte, one that returns nil, one whose sync fails, and one torn
at the end. -/
theorem acked_delivered_around_failures :
    let e : Entry := ⟨[109], [107], [1], 0⟩
    let calls : List AppendCall := [.failed ⟨.put, e⟩ 0, .ok ⟨.remove, e⟩, .failed ⟨.clear, e⟩ 14,
      .ok ⟨.put, e⟩, .failed ⟨.put, e⟩ 3]
    ∃ rest, (replayWAL entryCodec (appendCalls entryCodec calls (reopen entryCodec [7])).bytes).1 =
      [] ++ rest ∧ [(2, e), (1, e)].Sublist rest := by
  intro e calls
  have hin : Intact entryCodec calls :=
    ⟨by decide +kernel, by decide +kernel, by decide +kernel, by decide +kernel, by decide +kernel,
      trivial⟩
  exact acked_delivered [7] calls hin (by decide +kernel)

/-! ### Records of any size -/

section accepted
variable {C : Codec}

/-- `appendLocked` for records one after another, all of which it accepts. -/
def acceptAll (C : Codec) (w : WalFile) (rs : List WalRecord) : WalFile := rs.foldl (WalFile.append C) w

theorem acceptAll_end (bytes : Bytes) (rs : List WalRecord) :
    acceptAll C ⟨bytes, bytes.length⟩ rs =
      ⟨bytes ++ rs.flatMap (frame C), (bytes ++ rs.flatMap (frame C)).length⟩ := by
  induction rs generalizing bytes with
  | nil => simp [acceptAll]
  | cons r rs ih =>
    rw [acceptAll, List.foldl_cons, WalFile.append_end]
    refine (ih _).trans ?_
    rw [List.flatMap_cons, List.append_assoc]

/-- Chunks, whole records under the cap behind them, and bytes that stop the replay. -/
theorem replayWAL_chunks_frames (chs : List (Chunk C)) {rs : List WalRecord} (hrs : ∀ r ∈ rs, UnderCap C r)
    {tail : Bytes} (htail : ∀ fuel valid, replayLoop C fuel tail valid = ([], valid)) :
    replayWAL C (chs.flatMap Chunk.bytes ++ (rs.flatMap (frame C) ++ tail)) =
      (chs.map Chunk.read ++ records rs, (chs.flatMap Chunk.bytes ++ rs.flatMap (frame C)).length) := by
  have hchs := length_le_chunks chs
  have hframes := length_le_frames (C := C) rs
  obtain ⟨fuel, hfuel⟩ : ∃ fuel, (chs.flatMap Chunk.bytes ++ (rs.flatMap (frame C) ++ tail)).length =
      chs.length + fuel := Nat.exists_eq_add_of_le (by simp only [List.length_append]; omega)
  have hmore : rs.length ≤ fuel := by
    simp only [List.length_append] at hfuel
    omega
  rw [replayWAL, hfuel, replayLoop_chunks, replayLoop_frames hrs tail htail fuel hmore, List.length_append,
    Nat.zero_add]

theorem acceptAll_append (file : Bytes) (rs rs' : List WalRecord) :
    (acceptAll C (reopen C file) (rs ++ rs')).bytes =
      (acceptAll C (reopen C file) rs).bytes ++ rs'.flatMap (frame C) := by
  obtain ⟨chs, -, hopen⟩ := reopen_chunks (C := C) file
  rw [hopen, acceptAll_end, acceptAll_end, List.flatMap_append, List.append_assoc]

/-- The reader delivers the records up to where it stops, and a reopening keeps what it delivered. -/
theorem accepted_until (file : Bytes) {rs : List WalRecord} (hrs : ∀ r ∈ rs, UnderCap C r) {tail : Bytes}
    (htail : ∀ fuel valid, replayLoop C fuel tail valid = ([], valid)) :
    let kept := (acceptAll C (reopen C file) rs).bytes
    (replayWAL C (kept ++ tail)).1 = (replayWAL C file).1 ++ records rs ∧ (reopen C (kept ++ tail)).bytes = kept := by
  intro kept
  obtain ⟨chs, hread, hopen⟩ := reopen_chunks (C := C) file
  have hkept : kept = chs.flatMap Chunk.bytes ++ rs.flatMap (frame C) := by
    change (acceptAll C (reopen C file) rs).bytes = _
    rw [hopen, acceptAll_end]
  have hreplay := replayWAL_chunks_frames chs hrs htail
  rw [← List.append_assoc, ← hkept] at hreplay
  refine ⟨by rw [hreplay, hread], ?_⟩
  rw [reopen, hreplay]
  change truncateTail (kept ++ tail) kept.length = kept
  rw [truncateTail, List.length_append, List.take_left]
  split
  · rw [List.length_eq_zero_iff.mp (by omega : tail.length = 0), List.append_nil]
  · rfl

/-- Of the records before the first over the cap nothing is lost; it is, with everything behind it. -/
theorem over_cap_lost_tail (file : Bytes) {rs : List WalRecord} (hrs : ∀ r ∈ rs, UnderCap C r) {r : WalRecord}
    (hover : ¬ UnderCap C r) (hlt : (C.marshal r.entry).length < 2 ^ 32) (behind : List WalRecord) :
    let log := (acceptAll C (reopen C file) (rs ++ r :: behind)).bytes
    (replayWAL C log).1 = (replayWAL C file).1 ++ records rs ∧
      (reopen C log).bytes = (acceptAll C (reopen C file) rs).bytes := by
  intro log
  rw [show log = _ from acceptAll_append file rs (r :: behind), List.flatMap_cons]
  exact accepted_until file hrs fun fuel valid => replayLoop_over_cap hover hlt fuel _ valid

/-- **What the writer accepts the reader delivers, exactly up to the reader's cap.**  On a log opened over
any file, a later replay delivers what was in the file and then the records that were appended, in order,
and the reopening cuts nothing off, if and only if all of them are under the cap. -/
theorem accepted_delivered (file : Bytes) (rs : List WalRecord)
    (hlt : ∀ r ∈ rs, (C.marshal r.entry).length < 2 ^ 32) :
    let log := (acceptAll C (reopen C file) rs).bytes
    (replayWAL C log).1 = (replayWAL C file).1 ++ records rs ∧ (reopen C log).bytes = log ↔
      ∀ r ∈ rs, UnderCap C r := by
  dsimp only
  constructor
  · intro h
    by_contra hno
    obtain ⟨r, hfind⟩ : ∃ r, rs.find? (fun r => decide (¬ UnderCap C r)) = some r := by
      rw [← Option.isSome_iff_exists, List.find?_isSome]
      simpa using hno
    -- the file is cut before the first record over the cap
    obtain ⟨hover, before, behind, rfl, hbefore⟩ := List.find?_eq_some_iff_append.mp hfind
    have hcut := (over_cap_lost_tail file (by simpa using hbefore) (of_decide_eq_true hover)
      (hlt r (by simp)) behind).2
    have hlength := congrArg List.length (h.2.symm.trans hcut)
    rw [acceptAll_append, List.length_append] at hlength
    simp [frame] at hlength
  · intro hcap
    have huntil := accepted_until file hcap (replayLoop_nil (C := C))
    dsimp only at huntil
    rwa [List.append_nil] at huntil

end accepted

theorem huge_value_lost {v : Bytes} (hv : v.length = 2 ^ 27) (small : WalRecord) :
    let big : WalRecord := ⟨.put, ⟨[109], [107], v, 0⟩⟩
    let log := (acceptAll entryCodec (reopen entryCodec []) [big, small]).bytes
    (entryCodec.marshal big.entry).length < 2 ^ 32 ∧
    (replayWAL entryCodec log).1 = [] ∧ (reopen entryCodec log).bytes = [] := by
  intro big log
  have hlt : (entryCodec.marshal big.entry).length < 2 ^ 32 := by
    refine (length_marshalEntry_le big.entry).trans_lt ?_
    change 1 + 1 + v.length + 44 < 2 ^ 32
    omega
  have hover : ¬ UnderCap entryCodec big := not_underCap_of_value (hv ▸ by decide)
  exact ⟨hlt, over_cap_lost_tail [] (List.forall_mem_nil _) hover hlt [small]⟩

/-- A put of a value of 128 MiB, and a small put behind it. -/
theorem accepted_over_cap_lost :
    let big : WalRecord := ⟨.put, ⟨[109], [107], List.replicate (2 ^ 27) 7, 0⟩⟩
    let small : WalRecord := ⟨.put, ⟨[109], [108], [1], 0⟩⟩
    let log := (acceptAll entryCodec (reopen entryCodec []) [big, small]).bytes
    (entryCodec.marshal big.entry).length < 2 ^ 32 ∧
    (replayWAL entryCodec log).1 = [] ∧ (reopen entryCodec log).bytes = [] :=
  huge_value_lost List.length_replicate _

/-- Two records behind one that was in the file already and a torn one. -/
theorem accepted_delivered_two :
    let e : Entry := ⟨[109], [107], [1], 0⟩
    let file := frame entryCodec ⟨.put, e⟩ ++ [0, 0, 0]
    let log := (acceptAll entryCodec (reopen entryCodec file) [⟨.remove, e⟩, ⟨.put, e⟩]).bytes
    (replayWAL entryCodec log).1 = [(1, e), (2, e), (1, e)] ∧ (reopen entryCodec log).bytes = log := by
  intro e file log
  have h := (accepted_delivered (C := entryCodec) file [⟨.remove, e⟩, ⟨.put, e⟩] (by decide +kernel)).mpr
    (by decide +kernel)
  exact ⟨h.1.trans (by decide +kernel), h.2⟩

end Medusa
