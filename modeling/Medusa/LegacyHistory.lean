import Mathlib.Data.List.Induction
import Medusa.Legacy
import Medusa.QueueCrash
import Medusa.Recovery

/-! # Logs of old-format queues

A log written before queues were cut into segments has the whole queue in every record.  Replaying it
converts one record after another, and each conversion writes segments from id 0 on: the segments of an
earlier, longer queue stay behind those of the last record, where a later offer finds them.

* `segmentsOf`: the cut of the items into segments, and `convertLegacyQueue_eq`: the conversion writes the
  segments of the cut and the metadata.
* `legacy_history`: **after a log whose last record has as many segments as any before, the queue is that of
  the last record.**
* `legacy_shrunk`: after a record with fewer segments an offer lands behind a stale item, which is delivered
  in its place. -/

namespace Medusa

open BigEndian Medusa.Partition Store Mealy

variable {q seg : Bytes} {segs : List (List Bytes)} {out : List Entry} {tail : UInt64}

/-! ### The cut into segments -/

/-- One more item: into the last segment, or into a new one when it does not fit. -/
def cutItem (segs : List (List Bytes)) (x : Bytes) : List (List Bytes) :=
  match segs.getLast? with
  | none => [[x]]
  | some l =>
    if maxSegBytes < (packItems l).length + 4 + x.length then segs ++ [[x]]
    else segs.dropLast ++ [l ++ [x]]

/-- The items, cut into segments in order. -/
def segmentsOf (items : List Bytes) : List (List Bytes) := items.foldl cutItem []

theorem cutItem_concat (init : List (List Bytes)) (l : List Bytes) (x : Bytes) :
    cutItem (init ++ [l]) x =
      if maxSegBytes < (packItems l).length + 4 + x.length then init ++ [l] ++ [[x]]
      else init ++ [l ++ [x]] := by
  simp [cutItem]

/-- The segments are a cut of the items, none of them empty. -/
structure CutOf (items : List Bytes) (segs : List (List Bytes)) : Prop where
  flatten : segs.flatten = items
  full : ∀ l ∈ segs, l ≠ []

theorem CutOf.item {items : List Bytes} (h : CutOf items segs) (x : Bytes) :
    CutOf (items ++ [x]) (cutItem segs x) := by
  obtain ⟨rfl, hfull⟩ := h
  rcases List.eq_nil_or_concat segs with rfl | ⟨init, l, rfl⟩
  · exact ⟨rfl, by simp [cutItem]⟩
  · rw [List.concat_eq_append] at hfull ⊢
    rw [cutItem_concat]
    split
    · refine ⟨by simp, fun l' hl' => ?_⟩
      rcases List.mem_append.mp hl' with hl' | hl'
      · exact hfull l' hl'
      · rw [List.mem_singleton.mp hl']
        exact List.cons_ne_nil _ _
    · refine ⟨by simp, fun l' hl' => ?_⟩
      rcases List.mem_append.mp hl' with hl' | hl'
      · exact hfull l' (List.mem_append_left _ hl')
      · rw [List.mem_singleton.mp hl']
        exact List.append_ne_nil_of_right_ne_nil _ (List.cons_ne_nil _ _)

theorem CutOf.items {done : List Bytes} (h : CutOf done segs)
    (items : List Bytes) : CutOf (done ++ items) (items.foldl cutItem segs) := by
  induction items generalizing done segs with
  | nil => rwa [List.append_nil]
  | cons x items ih =>
    have hrest := ih (h.item x)
    rwa [List.append_assoc] at hrest

theorem cutOf_segmentsOf (items : List Bytes) : CutOf items (segmentsOf items) :=
  (⟨rfl, by simp⟩ : CutOf [] []).items items

/-- No more segments than items. -/
theorem length_segmentsOf_le (items : List Bytes) : (segmentsOf items).length ≤ items.length := by
  have hcut := cutOf_segmentsOf items
  have hsum : ∀ segs : List (List Bytes), (∀ l ∈ segs, l ≠ []) → segs.length ≤ segs.flatten.length := by
    intro segs hfull
    induction segs with
    | nil => exact Nat.zero_le _
    | cons l segs ih =>
      have hl := List.length_pos_iff.mpr (hfull l List.mem_cons_self)
      have hsegs := ih fun l' hl' => hfull l' (List.mem_cons_of_mem _ hl')
      rw [List.flatten_cons, List.length_append, List.length_cons]
      omega
  exact (hsum _ hcut.full).trans (congrArg List.length hcut.flatten).le

theorem segmentsOf_ne_nil {items : List Bytes} (h : items ≠ []) : segmentsOf items ≠ [] := by
  intro h0
  have hflat := (cutOf_segmentsOf items).flatten
  rw [h0] at hflat
  exact h hflat.symm

/-! ### The conversion -/

/-- The entries of the segments, from id 0 on. -/
def segmentEntries (q : Bytes) (segs : List (List Bytes)) : List Entry :=
  segs.mapIdx fun i l => ⟨queueSegMap, queueSegKey (UInt64.ofNat i) q, packItems l, 0⟩

theorem segmentEntries_concat (q : Bytes) (init : List (List Bytes)) (l : List Bytes) :
    segmentEntries q (init ++ [l]) = segmentEntries q init ++
      [⟨queueSegMap, queueSegKey (UInt64.ofNat init.length) q, packItems l, 0⟩] := by
  simp [segmentEntries, List.mapIdx_append]

/-- Where the loop is: the last segment is not written yet. -/
inductive Cutting (q : Bytes) : List (List Bytes) → List Entry → UInt64 → Bytes → Prop
  | start : Cutting q [] [] 0 []
  | later (init : List (List Bytes)) {l : List Bytes} (hl : l ≠ []) :
      Cutting q (init ++ [l]) (segmentEntries q init) (UInt64.ofNat init.length) (packItems l)

theorem flushSegment_packItems (q : Bytes) (tail : UInt64) {l : List Bytes} (hl : l ≠ []) :
    flushSegment q tail (packItems l) = [⟨queueSegMap, queueSegKey tail q, packItems l, 0⟩] :=
  if_pos (List.length_pos_iff.mpr fun h => hl (packItems_eq_nil.mp h))

/-- One round of the loop cuts off one item. -/
theorem Cutting.round (h : Cutting q segs out tail seg) (x : Bytes) :
    Cutting q (cutItem segs x) (convertRound q x out tail seg).1 (convertRound q x out tail seg).2.1
      (convertRound q x out tail seg).2.2 := by
  cases h with
  | start => exact Cutting.later [] (l := [x]) (List.cons_ne_nil _ _)
  | later init hl =>
    next l =>
    have hlen : (packItems l).length ≠ 0 := fun h0 =>
      hl (packItems_eq_nil.mp (List.length_eq_zero_iff.mp h0))
    rw [cutItem_concat, convertRound]
    by_cases hfull : maxSegBytes < (packItems l).length + 4 + x.length
    · rw [if_pos hfull, if_pos ⟨hlen, hfull⟩, flushSegment_packItems q _ hl, ← segmentEntries_concat,
        ofNat_succ]
      have hnext := Cutting.later (q := q) (init ++ [l]) (l := [x]) (List.cons_ne_nil _ _)
      rw [List.length_append] at hnext
      exact hnext
    · rw [if_neg hfull, if_neg fun h => hfull h.2, appendPacked_packItems]
      exact Cutting.later init (List.append_ne_nil_of_right_ne_nil _ (List.cons_ne_nil _ _))

/-- What the conversion returns for a cut. -/
theorem Cutting.converted (h : Cutting q segs out tail seg) (hsegs : segs ≠ []) {count : UInt64}
    (hcount : count ≠ 0) :
    converted q out tail count seg = segmentEntries q segs ++
      [⟨queueMap, q, encodeQueueMeta 0 (UInt64.ofNat (segs.length - 1)) count, 0⟩] := by
  cases h with
  | start => exact absurd rfl hsegs
  | later init hl =>
    rw [Medusa.converted, if_neg hcount, flushSegment_packItems q _ hl, ← segmentEntries_concat,
      List.length_append, List.length_singleton, Nat.add_sub_cancel]

/-- The loop cuts off all items. -/
theorem Cutting.loop (h : Cutting q segs out tail seg) {items : List Bytes}
    (hitems : ∀ x ∈ items, x.length < 2 ^ 31) {fuel : ℕ} (hfuel : items.length ≤ fuel) (n : ℕ) :
    ∃ out' tail' seg', Cutting q (items.foldl cutItem segs) out' tail' seg' ∧
      convertLoop q fuel (packItems items) out tail (UInt64.ofNat n) seg =
        Medusa.converted q out' tail' (UInt64.ofNat (n + items.length)) seg' := by
  induction items generalizing segs out tail seg fuel n with
  | nil => exact ⟨out, tail, seg, h, convertLoop_stop queueHead_nil q fuel out tail _ seg⟩
  | cons x items ih =>
    obtain ⟨fuel, rfl⟩ : ∃ k, fuel = k + 1 := ⟨fuel - 1, by simp at hfuel; omega⟩
    obtain ⟨out', tail', seg', hcut, hloop⟩ := ih (h.round x)
      (fun y hy => hitems y (List.mem_cons_of_mem _ hy)) (by simpa using hfuel) (n + 1)
    refine ⟨out', tail', seg', hcut, ?_⟩
    rw [← List.append_nil (packItems (x :: items)), convertLoop_packItems (hitems x List.mem_cons_self),
      List.append_nil, ofNat_succ, hloop, List.length_cons, Nat.add_assoc, Nat.add_comm 1]

/-- **The conversion writes the segments of the cut and the metadata.** -/
theorem convertLegacyQueue_eq (q : Bytes) {items : List Bytes} (hne : items ≠ [])
    (hitems : ∀ x ∈ items, x.length < 2 ^ 31) (hlen : items.length < 2 ^ 64) :
    convertLegacyQueue q (packItems items) = segmentEntries q (segmentsOf items) ++
      [⟨queueMap, q, encodeQueueMeta 0 (UInt64.ofNat ((segmentsOf items).length - 1))
        (UInt64.ofNat items.length), 0⟩] := by
  obtain ⟨out, tail, seg, hcut, hloop⟩ :=
    (Cutting.start (q := q)).loop hitems (length_le_packItems items) 0
  rw [Nat.zero_add] at hloop
  refine hloop.trans (hcut.converted (segmentsOf_ne_nil hne) fun h0 => ?_)
  have hcount := congrArg UInt64.toNat h0
  rw [UInt64.toNat_ofNat_of_lt' hlen] at hcount
  exact hne (List.length_eq_zero_iff.mp hcount)

/-! ### Replay -/

/-- The segments of the cut over those that were there. -/
def overlay (segs : List (List Bytes)) (f : UInt64 → Option Value) (i : UInt64) : Option Value :=
  ((segs[i.toNat]?).map fun l => ⟨packItems l, 0⟩).or (f i)

/-- A store with a segment written. -/
theorem queueView_loadSegment (s : Store) (q : Bytes) (i : UInt64) (seg : Bytes) :
    (s.loadEntry ⟨queueSegMap, queueSegKey i q, seg, 0⟩).queueView q =
      { s.queueView q with seg := Function.update (s.queueView q).seg i (some ⟨seg, 0⟩) } := by
  rw [loadEntry, routedPartition_seg]
  simp only [Store.queueView, Store.set, setShard, Function.update_self]
  exact view_insert_seg _ _ _ _

theorem queueView_loadMeta (s : Store) (q d : Bytes) :
    (s.loadEntry ⟨queueMap, q, d, 0⟩).queueView q = { s.queueView q with info := some ⟨d, 0⟩ } := by
  rw [loadEntry, routedPartition_meta]
  simp only [Store.queueView, Store.set, setShard, Function.update_self]
  exact view_insert_meta _ _ _

theorem overlay_concat (init : List (List Bytes)) (l : List Bytes) (f : UInt64 → Option Value)
    (hlen : init.length < 2 ^ 64) :
    overlay (init ++ [l]) f =
      Function.update (overlay init f) (UInt64.ofNat init.length) (some ⟨packItems l, 0⟩) := by
  funext i
  by_cases hi : i = UInt64.ofNat init.length
  · subst hi
    simp [overlay, UInt64.toNat_ofNat_of_lt' hlen]
  · have hne : i.toNat ≠ init.length := fun h => hi (by rw [← h]; simp)
    rw [Function.update_of_ne hi, overlay, overlay]
    by_cases hlt : i.toNat < init.length
    · rw [List.getElem?_append_left hlt]
    · rw [List.getElem?_eq_none (by simp; omega), List.getElem?_eq_none (by omega)]

theorem queueView_segmentEntries (q : Bytes) (segs : List (List Bytes)) (hlen : segs.length ≤ 2 ^ 64)
    (s : Store) : ((segmentEntries q segs).foldl loadEntry s).queueView q =
      { s.queueView q with seg := overlay segs (s.queueView q).seg } := by
  induction segs using List.reverseRecOn with
  | nil => rfl
  | append_singleton init l ih =>
    rw [List.length_append, List.length_singleton] at hlen
    rw [segmentEntries_concat, List.foldl_append, List.foldl_cons, List.foldl_nil, queueView_loadSegment,
      ih (by omega), overlay_concat init l _ (by omega)]

/-- Loading a value of the old format writes its segments over those that are there. -/
theorem queueView_loadLegacy (q : Bytes) {items : List Bytes} (hne : items ≠ [])
    (hitems : ∀ x ∈ items, x.length < 2 ^ 31) (hlen : items.length < 2 ^ 64)
    (hmeta : (packItems items).length ≠ 24) (expireAt : Int64) (s : Store) :
    (s.loadAll [⟨queueMap, q, packItems items, expireAt⟩]).queueView q =
      ⟨some ⟨encodeQueueMeta 0 (UInt64.ofNat ((segmentsOf items).length - 1)) (UInt64.ofNat items.length), 0⟩,
        overlay (segmentsOf items) (s.queueView q).seg⟩ := by
  have hpos : 0 < (packItems items).length :=
    List.length_pos_iff.mpr fun h => hne (packItems_eq_nil.mp h)
  have hlegacy : isLegacyQueue queueMap (packItems items) = true := by
    simp only [isLegacyQueue, beq_self_eq_true, decide_eq_true hmeta, decide_eq_true hpos, Bool.and_self]
  have hsegs := (length_segmentsOf_le items).trans hlen.le
  rw [loadAll, List.foldl_cons, List.foldl_nil, upgraded, if_pos hlegacy, convertLegacyQueue_eq q hne hitems hlen,
    List.foldl_append, List.foldl_cons, List.foldl_nil, queueView_loadMeta, queueView_segmentEntries q _ hsegs]

/-- A put of a whole queue in the old format. -/
structure LegacyPut where
  items : List Bytes
  expireAt : Int64

/-- Its log record. -/
def LegacyPut.record (q : Bytes) (r : LegacyPut) : WalRecord :=
  ⟨.put, ⟨queueMap, q, packItems r.items, r.expireAt⟩⟩

/-- What a record of the old format is replayed as: the value is not empty and has not the length of a
metadata record, its items are within the widths, and it has not expired. -/
structure LegacyPut.Ok (q : Bytes) (now : ℕ) (r : LegacyPut) : Prop where
  some : r.items ≠ []
  other : (packItems r.items).length ≠ 24
  small : ∀ x ∈ r.items, x.length < 2 ^ 31
  count : r.items.length < 2 ^ 63
  alive : (r.record q).entry.dead now = false

theorem replayRecord_legacy {now : ℕ} {r : LegacyPut} (hr : r.Ok q now) (s : Store) :
    (replayRecord now s ((r.record q).op.code, (r.record q).entry)).queueView q =
      ⟨some ⟨encodeQueueMeta 0 (UInt64.ofNat ((segmentsOf r.items).length - 1)) (UInt64.ofNat r.items.length), 0⟩,
        overlay (segmentsOf r.items) (s.queueView q).seg⟩ := by
  have hload : replayRecord now s ((r.record q).op.code, (r.record q).entry) =
      s.loadAll [(r.record q).entry] := by
    refine (if_pos rfl).trans (if_neg ?_)
    rw [hr.alive]
    exact Bool.false_ne_true
  rw [hload]
  exact queueView_loadLegacy q hr.some hr.small (by have := hr.count; omega) hr.other r.expireAt s

/-- The log that consists of puts of the queue `q` in the old format. -/
def legacyLog (C : Codec) (q : Bytes) (puts : List LegacyPut) : Bytes :=
  (puts.map (LegacyPut.record q)).flatMap (frame C)

theorem openWAL_legacyLog {C : Codec} {puts : List LegacyPut} (hcap : ∀ r ∈ puts, UnderCap C (r.record q))
    (now : ℕ) (s : Store) :
    openWAL C now (legacyLog C q puts) s =
      puts.foldl (fun s r => replayRecord now s ((r.record q).op.code, (r.record q).entry)) s := by
  have hall : ∀ r ∈ puts.map (LegacyPut.record q), UnderCap C r := by
    intro r hr
    obtain ⟨put, hput, rfl⟩ := List.mem_map.mp hr
    exact hcap put hput
  rw [openWAL, legacyLog, replayWAL_frames hall, records, List.foldl_map, List.foldl_map]

/-- Records with at most `n` segments leave none behind them. -/
theorem seg_eq_none_of_puts {now n : ℕ} {puts : List LegacyPut}
    (hputs : ∀ r ∈ puts, r.Ok q now ∧ (segmentsOf r.items).length ≤ n) {s : Store}
    (hs : ∀ i : UInt64, n ≤ i.toNat → (s.queueView q).seg i = none) (i : UInt64) (hi : n ≤ i.toNat) :
    ((puts.foldl (fun s r => replayRecord now s ((r.record q).op.code, (r.record q).entry)) s).queueView
      q).seg i = none := by
  induction puts generalizing s with
  | nil => exact hs i hi
  | cons r puts ih =>
    refine ih (fun r' hr' => hputs r' (List.mem_cons_of_mem _ hr')) fun j hj => ?_
    obtain ⟨hok, hle⟩ := hputs r List.mem_cons_self
    rw [replayRecord_legacy hok]
    change overlay (segmentsOf r.items) (s.queueView q).seg j = none
    rw [overlay, List.getElem?_eq_none (by omega), hs j hj]
    rfl

/-- The queue as the last record leaves it. -/
theorem stores_legacy {now : ℕ} {last : LegacyPut} (hlast : last.Ok q now) {s : Store}
    (hs : ∀ i : UInt64, (segmentsOf last.items).length ≤ i.toNat → (s.queueView q).seg i = none) :
    Stores ((replayRecord now s ((last.record q).op.code, (last.record q).entry)).queueView q) last.items
      last.items.length := by
  have hcut := cutOf_segmentsOf last.items
  have hne := segmentsOf_ne_nil hlast.some
  have hpos := List.length_pos_iff.mpr hne
  have hle := length_segmentsOf_le last.items
  have hcount := hlast.count
  refine ⟨0, (segmentsOf last.items).length - 1, segmentsOf last.items, ?_, hcut.flatten, by omega, hcount⟩
  rw [replayRecord_legacy hlast]
  refine ⟨by omega, fun h0 => absurd h0 hne, fun _ => by omega, hcut.full, fun l hl x hx => ?_, fun i => ?_,
    Or.inl rfl⟩
  · refine hlast.small x ?_
    rw [← hcut.flatten]
    exact List.mem_flatten_of_mem hl hx
  · rw [if_pos (Nat.zero_le _), Nat.sub_zero]
    by_cases hi : i.toNat < (segmentsOf last.items).length
    · simp [overlay, List.getElem?_eq_getElem hi]
    · simp [overlay, List.getElem?_eq_none (not_lt.mp hi), hs i (not_lt.mp hi)]

/-- The queue `q` holds the items, which were offered to it. -/
def Fifo.holding (q : Bytes) (items : List Bytes) : Fifo :=
  ⟨Function.update Fifo.empty.items q items, Function.update Fifo.empty.offered q items.length⟩

/-- **A log of the old format replays to its last record**, unless an earlier record has more segments:
after `OpenWAL`, every sequence of calls on the queue within the widths of the counters replies as on the list
of the last record's items. -/
theorem legacy_history {C : Codec} {q : Bytes} {now : ℕ} {hist : List LegacyPut} {last : LegacyPut}
    (hok : ∀ r ∈ hist ++ [last], r.Ok q now) (hcap : ∀ r ∈ hist ++ [last], UnderCap C (r.record q))
    (hsegs : ∀ r ∈ hist, (segmentsOf r.items).length ≤ (segmentsOf last.items).length) {s : Store}
    (hs : s.queueView q = ⟨none, fun _ => none⟩) {calls : List Call}
    (hcalls : Allowed fifoStep (fun f c => c.queue = q ∧ f.Fits c) calls (Fifo.holding q last.items)) :
    (run queueStep calls (openWAL C now (legacyLog C q (hist ++ [last])) s)).1 =
      (run fifoStep calls (Fifo.holding q last.items)).1 := by
  rw [openWAL_legacyLog hcap, List.foldl_append, List.foldl_cons, List.foldl_nil]
  have hlast := hok last (by simp)
  have habove := seg_eq_none_of_puts (s := s) (n := (segmentsOf last.items).length)
    (fun r hr => ⟨hok r (List.mem_append_left _ hr), hsegs r hr⟩) (fun i _ => by rw [hs])
  have hstores := stores_legacy hlast habove
  refine (run_sim (R := fun s f => Stores (s.queueView q) (f.items q) (f.offered q)) ?_ ?_ hcalls).1
  · rintro s f c hR ⟨rfl, hfits⟩
    obtain ⟨hreply, hnext⟩ := queueStep_stores hR hfits
    refine ⟨hreply, ?_⟩
    simpa [fifoStep] using hnext
  · simpa [Fifo.holding] using hstores

/-- Two items, then one. -/
theorem legacy_history_shrinking :
    (run queueStep [⟨[113], .size, 5⟩, ⟨[113], .poll, 6⟩, ⟨[113], .poll, 7⟩] (openWAL entryCodec 0
      (legacyLog entryCodec [113] ([⟨[[1], [2, 2]], 0⟩] ++ [⟨[[3]], 0⟩])) Store.empty)).1 =
    [.length 1, .item (some [3]), .item none] := by
  have hok : ∀ r ∈ [LegacyPut.mk [[1], [2, 2]] 0] ++ [⟨[[3]], 0⟩],
      r.Ok [113] 0 ∧ UnderCap entryCodec (r.record [113]) := by
    intro r hr
    rw [List.singleton_append, List.mem_cons, List.mem_singleton] at hr
    unfold UnderCap
    rcases hr with rfl | rfl <;> exact ⟨⟨by decide, by decide, by decide, by decide, by decide⟩, by decide⟩
  refine (legacy_history (fun r hr => (hok r hr).1) (fun r hr => (hok r hr).2) (by decide) rfl ?_).trans
    (by decide)
  exact ⟨⟨rfl, trivial⟩, ⟨rfl, trivial⟩, ⟨rfl, trivial⟩, trivial⟩

/-- **A stale segment is delivered**: a queue of two items in two segments shrank to one item.  The offer of
an item that does not fit into the first segment lands behind the second, stale item, and polls deliver that
instead of it. -/
theorem legacy_shrunk {C : Codec} {q a b a' y : Bytes} (now : ℕ)
    (hok : ∀ r ∈ [LegacyPut.mk [a, b] 0, ⟨[a'], 0⟩], r.Ok q now ∧ UnderCap C (r.record q))
    (hab : maxSegBytes < (packItems [a]).length + 4 + b.length)
    (hy : maxSegBytes < (packItems [a']).length + 4 + y.length) (hsmall : y.length < 2 ^ 31) :
    (run queueStep [⟨q, .offer y, 0⟩, ⟨q, .poll, 0⟩, ⟨q, .poll, 0⟩]
        (openWAL C now (legacyLog C q [⟨[a, b], 0⟩, ⟨[a'], 0⟩]) Store.empty)).1 =
      [.length 2, .item (some a'), .item (some b)] := by
  have hcut : segmentsOf [a, b] = [[a], [b]] := by
    have h := cutItem_concat [] [a] b
    rwa [if_pos hab] at h
  rw [openWAL_legacyLog fun r hr => (hok r hr).2, List.foldl_cons, List.foldl_cons, List.foldl_nil]
  generalize hs₁ : replayRecord now Store.empty _ = s₁
  generalize hs₂ : replayRecord now s₁ _ = s₂
  have hview₁ := replayRecord_legacy (hok ⟨[a, b], 0⟩ (by simp)).1 Store.empty
  have hview₂ := replayRecord_legacy (hok ⟨[a'], 0⟩ (by simp)).1 s₁
  rw [hs₁, hcut] at hview₁
  rw [hs₂, hview₁] at hview₂
  have hseg : SegsAt (s₂.queueView q).seg 0 ([] ++ [[a']] ++ [[b]]) := by
    intro i
    rw [hview₂]
    rcases hi : i.toNat with _ | _ | k <;>
      simp [overlay, segmentsOf, cutItem, hi, Store.queueView, view, Store.empty]
  have hinfo : (s₂.queueView q).info =
      some ⟨encodeQueueMeta (UInt64.ofNat 0) (UInt64.ofNat 0) (UInt64.ofNat 1), 0⟩ := by
    rw [hview₂]
    rfl
  -- the offer rolls onto the stale segment
  obtain ⟨hreply, hview₃⟩ := step_offer_stray (y := y) hseg hinfo rfl (List.cons_ne_nil _ _) Nat.one_pos
    (by decide) (by decide) hy
  have hseg₃ := SegsAt.set_last [[a']] hseg (by simp) (by simp) [b, y]
  have L : Layout ((queueStep s₂ ⟨q, .offer y, 0⟩).2.queueView q) 0 1 [[a'], [b, y]] 2 := by
    rw [hview₃]
    refine ⟨by decide, by simp, by simp, by simp, fun l hl x hx => ?_, hseg₃, Or.inl rfl⟩
    have hmem : x ∈ [a', b, y] := List.mem_flatten_of_mem hl hx
    rw [List.mem_cons, List.mem_cons, List.mem_singleton] at hmem
    rcases hmem with rfl | rfl | rfl
    · exact (hok ⟨[x], 0⟩ (by simp)).1.small x (by simp)
    · exact (hok ⟨[a, x], 0⟩ (by simp)).1.small x (by simp)
    · exact hsmall
  have hpolls := (L.polls 2 le_rfl (by simp) (by decide)).1
  rw [run_cons, hreply]
  change _ :: (run queueStep (List.replicate 2 ⟨q, .poll, 0⟩) _).1 = _
  rw [hpolls]
  rfl

/-- An item that takes more than half of a segment. -/
def bulky (d : UInt8) : Bytes := List.replicate 40000 d

theorem length_bulky (d : UInt8) : (bulky d).length = 40000 := List.length_replicate

theorem length_packItems_bulky (ds : List UInt8) : (packItems (ds.map bulky)).length = 40004 * ds.length := by
  induction ds with
  | nil => rfl
  | cons d ds ih =>
    rw [List.map_cons, length_packItems_cons, ih, length_bulky, List.length_cons]
    omega

theorem bulky_ok {ds : List UInt8} (hpos : 0 < ds.length) (hle : ds.length ≤ 2) :
    LegacyPut.Ok [113] 0 ⟨ds.map bulky, 0⟩ ∧ UnderCap entryCodec (LegacyPut.record [113] ⟨ds.map bulky, 0⟩) := by
  refine ⟨⟨?_, ?_, ?_, ?_, rfl⟩, ?_⟩
  · exact fun h => List.length_pos_iff.mp hpos (List.map_eq_nil_iff.mp h)
  · rw [length_packItems_bulky]
    omega
  · intro x hx
    obtain ⟨d, -, rfl⟩ := List.mem_map.mp hx
    rw [length_bulky]
    decide
  · rw [List.length_map]
    omega
  · have hvalue := length_packItems_bulky ds
    refine (length_marshalEntry_le _).trans ?_
    rw [maxWALRecord]
    change queueMap.length + 1 + (packItems (ds.map bulky)).length + 44 ≤ _
    have hname : queueMap.length = 7 := rfl
    omega

/-- The second poll delivers an item of the earlier record in place of the one just offered. -/
theorem shrunk_log_delivers_stale :
    let s := openWAL entryCodec 0
      (legacyLog entryCodec [113] [⟨[bulky 1, bulky 2], 0⟩, ⟨[bulky 3], 0⟩]) Store.empty
    let calls : List Call := [⟨[113], .offer (bulky 4), 0⟩, ⟨[113], .poll, 0⟩, ⟨[113], .poll, 0⟩]
    (run queueStep calls s).1 = [.length 2, .item (some (bulky 3)), .item (some (bulky 2))] ∧
    (run fifoStep calls (Fifo.holding [113] [bulky 3])).1 =
      [.length 2, .item (some (bulky 3)), .item (some (bulky 4))] ∧ bulky 2 ≠ bulky 4 := by
  have hok : ∀ r ∈ [LegacyPut.mk [bulky 1, bulky 2] 0, ⟨[bulky 3], 0⟩],
      r.Ok [113] 0 ∧ UnderCap entryCodec (r.record [113]) := by
    intro r hr
    rw [List.mem_cons, List.mem_singleton] at hr
    rcases hr with rfl | rfl
    · exact @bulky_ok [1, 2] (by decide) (by decide)
    · exact @bulky_ok [3] (by decide) (by decide)
  have hfull : ∀ d d', maxSegBytes < (packItems [bulky d]).length + 4 + (bulky d').length := by
    intro d d'
    rw [length_packItems_cons, length_bulky, length_bulky]
    decide
  refine ⟨legacy_shrunk 0 hok (hfull _ _) (hfull _ _) (by rw [length_bulky]; decide), ?_, ?_⟩
  · simp [run, fifoStep, fifoOp, Fifo.holding, Fifo.empty]
  · intro h
    have hd := congrArg List.head? h
    simp [bulky] at hd

end Medusa
