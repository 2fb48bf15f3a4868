import Medusa.QueueRefine

/-! # Queue operations cut by a crash

A queue operation emits two mutations, the segment and then the metadata, which are logged and
replicated one by one.  `cutAt s c k` is the store that holds the first `k` mutations of the call
`c`: what replay of a log cut between the records leaves behind, and what a backup that received
only those mutations holds.

`cut_atomic_iff` says exactly when the cut store still behaves as a FIFO queue that holds the
items before or after the call: when the cut is at either end, or when the call is an offer to an
empty queue, whose stray segment the next offer overwrites.  In all other cases a continuation
shows the damage: `offer_cut` delivers the stray item in the place of a later one, `poll_cut` loses
the place of the item that was polled. -/

namespace Medusa

open BigEndian Medusa.Partition Store Mealy

variable {s : Store} {q : Bytes} {f : Fifo} {c : Call}

/-- The mutations `updateMulti` returns for a call. -/
def mutations (s : Store) (c : Call) : List Mutation :=
  (queueTxn s c.now c.queue c.op.name c.op.arg).2.1

/-- The store with the first `k` mutations of a call applied. -/
def cutAt (s : Store) (c : Call) (k : ℕ) : Store :=
  s.setShard (forKey c.queue) (((mutations s c).take k).foldl applyMutation (s.shards (forKey c.queue)))

/-- Whatever comes later behaves as on a FIFO queue with the items before or after the call. -/
def AtomicCut (s : Store) (f : Fifo) (c : Call) (k : ℕ) : Prop :=
  ∀ later : List Call, (∀ d ∈ later, d.queue = c.queue ∧ d.op ≠ .peek) →
    Allowed fifoStep Fifo.Fits later f → Allowed fifoStep Fifo.Fits later (fifoStep f c).2 →
    (run queueStep later (cutAt s c k)).1 = (run fifoStep later f).1 ∨
    (run queueStep later (cutAt s c k)).1 = (run fifoStep later (fifoStep f c).2).1

/-! ### Cuts at either end -/

theorem cutAt_zero (s : Store) (c : Call) : cutAt s c 0 = s := by
  simp [cutAt, setShard]

theorem cutAt_of_length_le {k : ℕ} (hk : (mutations s c).length ≤ k) :
    cutAt s c k = (queueStep s c).2 := by
  rw [cutAt, List.take_of_length_le hk]
  exact (queueTxn_store s c.now c.queue c.op.name c.op.arg).symm

/-- A call makes no mutation, or one of a segment and one of the metadata. -/
theorem mutations_cases (s : Store) (c : Call) :
    mutations s c = [] ∨
    ∃ i info, info.length = 24 ∧ ((∃ data, mutations s c =
        [⟨queueSegMap, queueSegKey i c.queue, data, false⟩, ⟨queueMap, c.queue, info, false⟩]) ∨
      mutations s c =
        [⟨queueSegMap, queueSegKey i c.queue, [], true⟩, ⟨queueMap, c.queue, info, false⟩]) :=
  queueTxn_muts s c.now c.queue c.op.name c.op.arg

/-- Whatever the cut, other queues are as before. -/
theorem cutAt_view_ne {k : ℕ} (hq : q ≠ c.queue) :
    (cutAt s c k).queueView q = s.queueView q := by
  have hfold : ∀ (l : List Mutation) (m : Shard), l <+: mutations s c →
      view (l.foldl applyMutation m) q = view m q := by
    intro l m hl
    have hmem : ∀ mu ∈ l, ∀ m, view (applyMutation m mu) q = view m q := by
      intro mu hmu m
      have := hl.subset hmu
      rcases mutations_cases s c with e | ⟨i, info, -, ⟨data, e⟩ | e⟩
      · simp [e] at this
      · rw [e] at this
        rcases List.mem_pair.mp this with rfl | rfl
        · exact view_insert_seg_ne hq m i _
        · exact view_insert_meta_ne hq m _
      · rw [e] at this
        rcases List.mem_pair.mp this with rfl | rfl
        · exact view_erase_seg_ne hq m i
        · exact view_insert_meta_ne hq m _
    clear hl
    induction l generalizing m with
    | nil => rfl
    | cons mu l ih =>
      rw [List.foldl_cons, ih _ (fun a ha => hmem a (by simp [ha])), hmem mu (by simp)]
  unfold cutAt Store.queueView setShard
  by_cases hp : forKey q = forKey c.queue
  · simp only [hp, Function.update_self]
    exact hfold _ _ (List.take_prefix _ _)
  · simp only [Function.update_of_ne hp]

/-! ### The offer to an empty queue -/

/-- A queue of no items with a stray segment at its tail. -/
def Stale (v : QueueView) (n : ℕ) : Prop :=
  ∃ (w : QueueView) (h : ℕ) (x : Value), Layout w h h [] 0 ∧ h ≤ n ∧
    v = { w with seg := Function.update w.seg (UInt64.ofNat h) (some x) }

/-- A call on a queue with a stray segment: an offer overwrites the segment, everything else sees
the empty queue and changes nothing. -/
theorem stale_step (hs : Stale (s.queueView c.queue) (f.offered c.queue)) (h0 : f.items c.queue = [])
    (hc : f.Fits c) :
    (queueStep s c).1 = (fifoOp c.op []).1 ∧
      (Stores ((queueStep s c).2.queueView c.queue) (fifoOp c.op []).2
        (f.offered c.queue + c.op.offers) ∨
      (fifoOp c.op []).2 = [] ∧
        Stale ((queueStep s c).2.queueView c.queue) (f.offered c.queue + c.op.offers)) := by
  obtain ⟨q, op, now⟩ := c
  have hsame := hs
  obtain ⟨w, h, v, L, hn, hv⟩ := hs
  simp only [Fifo.Fits] at h0 hn hv hc hsame ⊢
  change view (s.txn q).shard q = _ at hv
  have hi : decodeQueueMeta (((s.txn q).get now queueMap q).getD []) =
      (UInt64.ofNat h, UInt64.ofNat h, 0) := by
    apply get_info _ now
    rw [hv]
    rcases L.info with hi | ⟨hi, -, rfl, -⟩
    · exact Or.inl hi
    · exact Or.inr ⟨hi, rfl, rfl, rfl⟩
  cases op with
  | offer x =>
    have hop : queueOp now q .queueoffer x (s.txn q) =
        (.ok (putI64 1), (Txn.set (s.txn q) queueSegMap
          (queueSegKey (UInt64.ofNat h) q) (packItems ([] ++ [x]))).set queueMap q
          (encodeQueueMeta (UInt64.ofNat h) (UInt64.ofNat h) (UInt64.ofNat 1))) := by
      simp only [queueOp, hi, offerTarget, ← appendPacked_packItems, packItems_nil]
      rfl
    obtain ⟨h1, h2⟩ := queueStep_of_queueOp (.offer x) hop
    refine ⟨h1, Or.inl ⟨h, h, [[x]], ?_, rfl, by simp only [FifoOp.offers]; omega,
      by simp [fifoOp]⟩⟩
    simp only [h2, Txn.set, view_insert_meta, view_insert_seg]
    rw [hv]
    have hseg : SegsAt w.seg h ([] ++ []) := L.seg
    refine ⟨L.lt, by simp, fun _ => rfl, by simp, ?_, ?_, Or.inl rfl⟩
    · intro l hl y hy
      rw [List.mem_singleton.mp hl, List.mem_singleton] at hy
      rw [hy]
      exact hc.1
    · simpa using hseg.set_last [] (by simp) (by simpa using L.lt) [x]
  | poll =>
    obtain ⟨h1, h2⟩ := queueStep_of_queueOp .poll
      (queueOp_missing hi (Or.inl rfl) (Or.inl rfl))
    exact ⟨h1, Or.inr ⟨rfl, h2 ▸ hsame⟩⟩
  | peek =>
    obtain ⟨h1, h2⟩ := queueStep_of_queueOp .peek
      (queueOp_missing hi (Or.inl rfl) (Or.inr rfl))
    exact ⟨h1, Or.inr ⟨rfl, h2 ▸ hsame⟩⟩
  | size =>
    obtain ⟨h1, h2⟩ := queueStep_of_queueOp .size (queueOp_size hi)
    exact ⟨h1, Or.inr ⟨rfl, h2 ▸ hsame⟩⟩

/-- The simulation, with at most a stray segment in queue `q`. -/
def Lags (q : Bytes) (s : Store) (f : Fifo) : Prop :=
  (∀ q' ≠ q, Stores (s.queueView q') (f.items q') (f.offered q')) ∧
  (Stores (s.queueView q) (f.items q) (f.offered q) ∨
    f.items q = [] ∧ Stale (s.queueView q) (f.offered q))

theorem lags_step (s : Store) (f : Fifo) (c : Call) (hs : Lags q s f) (hc : f.Fits c) :
    (queueStep s c).1 = (fifoStep f c).1 ∧ Lags q (queueStep s c).2 (fifoStep f c).2 := by
  have hother : ∀ q' ≠ c.queue, (queueStep s c).2.queueView q' = s.queueView q' :=
    fun q' hq' => queueTxn_view_ne hq' s _ _ _
  by_cases hq : c.queue = q
  · subst hq
    have hrest : ∀ q' ≠ c.queue, Stores ((queueStep s c).2.queueView q')
        ((fifoStep f c).2.items q') ((fifoStep f c).2.offered q') := by
      intro q' hq'
      rw [hother q' hq']
      simpa [fifoStep, Function.update_of_ne hq'] using hs.1 q' hq'
    rcases hs.2 with hst | ⟨h0, hst⟩
    · obtain ⟨h1, h2⟩ := queueStep_stores hst hc
      exact ⟨h1, hrest, Or.inl (by simpa [fifoStep] using h2)⟩
    · obtain ⟨h1, h2⟩ := stale_step hst h0 hc
      refine ⟨h1.trans (by simp [fifoStep, h0]), hrest, ?_⟩
      simpa [fifoStep, h0] using h2
  · obtain ⟨h1, h2⟩ := queueStep_stores (hs.1 c.queue hq) hc
    refine ⟨h1, fun q' hq' => ?_, ?_⟩
    · by_cases hqc : q' = c.queue
      · subst hqc
        simpa [fifoStep] using h2
      · rw [hother q' hqc]
        simpa [fifoStep, Function.update_of_ne hqc] using hs.1 q' hq'
    · rw [hother q (Ne.symm hq)]
      simpa [fifoStep, Function.update_of_ne (Ne.symm hq)] using hs.2

/-! ### Sequences of polls -/

/-- Polls deliver the packed items as long as the count allows, in step with the count or not. -/
theorem Layout.polls {h t c : ℕ} {segs : List (List Bytes)} (n : ℕ)
    (L : Layout (s.queueView q) h t segs c) (hn : n ≤ c) (hn' : n ≤ segs.flatten.length) (hc : c < 2 ^ 64) :
    (run queueStep (List.replicate n ⟨q, .poll, 0⟩) s).1 =
      (segs.flatten.take n).map (fun x => .item (some x)) ∧
    ∃ h' segs', segs'.flatten = segs.flatten.drop n ∧
      Layout ((run queueStep (List.replicate n ⟨q, .poll, 0⟩) s).2.queueView q) h' t segs' (c - n) := by
  induction n generalizing s h segs c with
  | zero => exact ⟨by simp, h, segs, by simp, L⟩
  | succ n ih =>
    cases segs with
    | nil => simp at hn'
    | cons l segs =>
      cases l with
      | nil => exact absurd rfl (L.full [] (by simp))
      | cons x l =>
        obtain ⟨c, rfl⟩ : ∃ c', c = c' + 1 := ⟨c - 1, by omega⟩
        obtain ⟨h1, segs', h', hflat, L'⟩ := L.step_poll 0 hc
        have hlen : ((x :: l) :: segs).flatten = x :: segs'.flatten := by
          rw [hflat]
          rfl
        rw [hlen, List.length_cons] at hn'
        obtain ⟨h2, h'', segs'', hflat', L''⟩ := ih L' (by omega) (by omega) (by omega)
        simp only [List.replicate_succ, run_cons, h1, h2, hlen, List.take_succ_cons,
          List.map_cons, List.drop_succ_cons, Nat.add_sub_add_right, true_and]
        exact ⟨h'', segs'', hflat', L''⟩

theorem fifo_polls {n : ℕ} (hn : n ≤ (f.items q).length) :
    (run fifoStep (List.replicate n ⟨q, .poll, 0⟩) f).1 =
      ((f.items q).take n).map (fun x => .item (some x)) := by
  induction n generalizing f with
  | zero => simp
  | succ n ih =>
    cases hf : f.items q with
    | nil => simp [hf] at hn
    | cons x items =>
      have hstep : ((fifoStep f ⟨q, .poll, 0⟩).2.items q) = items := by
        simp [fifoStep, fifoOp, hf]
      rw [hf, List.length_cons] at hn
      rw [List.replicate_succ, run_cons, ih (by rw [hstep]; omega), hstep]
      simp [fifoStep, fifoOp, hf]

theorem polls_allowed (f : Fifo) (q : Bytes) (n : ℕ) :
    Allowed fifoStep Fifo.Fits (List.replicate n ⟨q, .poll, 0⟩) f := by
  induction n generalizing f with
  | zero => trivial
  | succ n ih => exact ⟨trivial, ih _⟩

/-! ### The cut after the segment of an offer -/

theorem cutAt_one {mu mu' : Mutation} (hm : mutations s c = [mu, mu']) :
    (cutAt s c 1).queueView c.queue =
      view (applyMutation (s.shards (forKey c.queue)) mu) c.queue := by
  simp [cutAt, hm, Store.queueView, setShard]

/-- The mutations of a call through the operation it runs. -/
theorem mutations_of_queueOp (op : FifoOp) {now : ℕ} {t : Txn} {out : Except ServiceError Bytes}
    (h : queueOp now q op.name op.arg (s.txn q) = (out, t)) :
    mutations s ⟨q, op, now⟩ = t.muts := by
  rw [Store.txn] at h
  simp [mutations, queueTxn, updateMulti, h]

/-- An offer that rolls onto a stray segment appends to it. -/
theorem step_offer_stray {q y : Bytes} {h t c : ℕ} {init : List (List Bytes)} {l o : List Bytes}
    (hseg : SegsAt (s.queueView q).seg h (init ++ [l] ++ [o]))
    (hinfo : (s.queueView q).info = some ⟨encodeQueueMeta (UInt64.ofNat h) (UInt64.ofNat t)
      (UInt64.ofNat c), 0⟩) (ht : h + init.length = t) (hl : l ≠ []) (hpos : 0 < c) (hc : c < 2 ^ 64)
    (hlt : t + 1 < 2 ^ 64) (hfull : maxSegBytes < (packItems l).length + 4 + y.length) :
    (queueStep s ⟨q, .offer y, 0⟩).1 = .length (UInt64.ofNat (c + 1)).toInt64.toInt ∧
    (queueStep s ⟨q, .offer y, 0⟩).2.queueView q =
      ⟨some ⟨encodeQueueMeta (UInt64.ofNat h) (UInt64.ofNat (t + 1)) (UInt64.ofNat (c + 1)), 0⟩,
        Function.update (s.queueView q).seg (UInt64.ofNat (t + 1))
          (some ⟨packItems (o ++ [y]), 0⟩)⟩ := by
  have hi := get_info (s.txn q) (q := q) 0 (Or.inl hinfo)
  have htail := SegsAt.get (s.txn q) hseg 0 (k := init.length) (by omega)
  have hnext := SegsAt.get (s.txn q) hseg 0 (k := init.length + 1) (by omega)
  rw [ht] at htail
  rw [← Nat.add_assoc, ht, ← ofNat_succ] at hnext
  have hcpos : (0 : UInt64) < UInt64.ofNat c := by
    rw [UInt64.lt_iff_toNat_lt, UInt64.toNat_ofNat_of_lt' hc]
    exact hpos
  have hne : (packItems l).length ≠ 0 := fun h0 =>
    hl (packItems_eq_nil.mp (List.length_eq_zero_iff.mp h0))
  have hop : queueOp 0 q .queueoffer y (s.txn q) =
      (.ok (putI64 (UInt64.ofNat (c + 1)).toInt64),
        (Txn.set (s.txn q) queueSegMap (queueSegKey (UInt64.ofNat (t + 1)) q)
          (packItems (o ++ [y]))).set queueMap q (encodeQueueMeta (UInt64.ofNat h)
            (UInt64.ofNat (t + 1)) (UInt64.ofNat (c + 1)))) := by
    simp [queueOp, hi, offerTarget, hcpos, htail, hnext, hne, hfull, ← appendPacked_packItems]
  obtain ⟨h1, h2⟩ := queueStep_of_queueOp (.offer y) hop
  refine ⟨h1.trans (by simp only [FifoOp.decode, decodeI64_putI64]), h2.trans ?_⟩
  simp only [Txn.set, view_insert_meta, view_insert_seg]
  rfl

/-- After the cut of an offer of `x`, the next offer lands behind the stray `x`, while the count
goes up by one only. -/
theorem offer_after_cut {q x y : Bytes} {h t : ℕ} (now : ℕ) {segs : List (List Bytes)}
    (L : Layout (s.queueView q) h t segs segs.flatten.length) (hne : segs ≠ []) (hx : x.length < 2 ^ 31)
    (hy : y.length < 2 ^ 31) (hxy : x.length ≤ y.length) (hlen : segs.flatten.length + 2 < 2 ^ 63)
    (ht : t + 2 < 2 ^ 64) :
    (queueStep (cutAt s ⟨q, .offer x, now⟩ 1) ⟨q, .offer y, 0⟩).1 =
      .length (segs.flatten.length + 1 : ℕ) ∧
    ∃ t' segs', segs'.flatten = segs.flatten ++ [x, y] ∧
      Layout ((queueStep (cutAt s ⟨q, .offer x, now⟩ 1) ⟨q, .offer y, 0⟩).2.queueView q) h t' segs'
        (segs.flatten.length + 1) := by
  have hreply : (UInt64.ofNat (segs.flatten.length + 1)).toInt64.toInt =
      (segs.flatten.length + 1 : ℕ) := toInt_ofNat (by omega)
  obtain ⟨init, l, hs, -, -, hop, L'⟩ := L.txn.offer now hx
    L.length_pos (by omega) (by omega)
  have hm := mutations_of_queueOp (.offer x) hop
  have hview : (cutAt s ⟨q, .offer x, now⟩ 1).queueView q = { s.queueView q with
      seg := Function.update (s.queueView q).seg (UInt64.ofNat (h + init.length))
        (some ⟨packItems (l ++ [x]), 0⟩) } := by
    rw [cutAt_one (c := ⟨q, .offer x, now⟩) hm]
    exact view_insert_seg _ _ _ _
  -- the view after the whole offer differs from the cut one in the metadata only
  rw [hop] at L'
  simp only [Txn.set, view_insert_meta, view_insert_seg] at L'
  have hinfo : (s.queueView q).info = some ⟨encodeQueueMeta (UInt64.ofNat h) (UInt64.ofNat t)
      (UInt64.ofNat segs.flatten.length), 0⟩ := by
    rcases L.info with hi | ⟨-, hi, -⟩
    · exact hi
    · exact absurd hi hne
  generalize hcut : cutAt s ⟨q, .offer x, now⟩ 1 = s' at hview ⊢
  have hseg : SegsAt (s'.queueView q).seg h (init ++ [l ++ [x]]) := by
    rw [hview]
    exact L'.seg
  have hinfo' : (s'.queueView q).info = _ := (congrArg QueueView.info hview).trans hinfo
  cases hs with
  | start => exact absurd rfl hne
  | append =>
    have htail := L.chain hne
    have Lcut : Layout (s'.queueView q) h t (init ++ [l ++ [x]]) (init ++ [l]).flatten.length :=
      ⟨L.lt, by simp, fun _ => by simpa using htail, L'.full, L'.small, hseg, Or.inl hinfo'⟩
    obtain ⟨h1, segs', t', -, -, hflat, L''⟩ := Lcut.step_offer 0 hy
      (fun _ => L.length_pos hne) (by omega) (by omega)
    refine ⟨by rw [h1, hreply], t', segs', ?_, L''⟩
    rw [hflat]
    simp
  | roll i l hfull =>
    have htail := L.chain hne
    simp only [List.length_append, List.length_singleton] at htail
    obtain ⟨h1, h2⟩ := step_offer_stray (y := y) hseg hinfo' (by omega)
      (L.full l (by simp)) (L.length_pos hne) (by omega) (by omega) (by omega)
    refine ⟨by rw [h1, hreply], t + 1, i ++ [l] ++ [[x, y]], by simp, ?_⟩
    rw [h2]
    refine ⟨by omega, by simp, fun _ => by simp; omega, ?_, ?_, ?_, Or.inl rfl⟩
    · intro l' hl'
      rcases List.mem_append.mp hl' with hm | hm
      · exact L.full l' hm
      · simp [List.mem_singleton.mp hm]
    · intro l' hl' z hz
      rcases List.mem_append.mp hl' with hm | hm
      · exact L.small l' hm z hz
      · rw [List.mem_singleton.mp hm] at hz
        rcases List.mem_pair.mp hz with rfl | rfl
        · exact hx
        · exact hy
    · have := SegsAt.set_last (i ++ [l]) hseg (by simp) (by simp; omega) [x, y]
      simpa [← htail, Nat.add_assoc] using this

/-! ### The cut after the segment of a poll -/

section poll
variable {s : Store} {q x : Bytes} {h t c : ℕ} (now : ℕ) {l : List Bytes} {segs : List (List Bytes)}
  (L : Layout (s.queueView q) h t ((x :: l) :: segs) (c + 1)) (hc : c + 1 < 2 ^ 63)
include L hc

/-- The cut poll has taken the item from its segment, and left the metadata alone. -/
theorem poll_cut_view :
    (cutAt s ⟨q, .poll, now⟩ 1).queueView q = { s.queueView q with
      seg := Function.update (s.queueView q).seg (UInt64.ofNat h)
        (if l = [] then none else some ⟨packItems l, 0⟩) } := by
  have hop := L.txn.poll now (by omega)
  have hm := mutations_of_queueOp .poll hop
  by_cases hl : l = []
  · simp only [hl, if_true, Txn.set, Txn.del] at hm ⊢
    rw [cutAt_one (c := ⟨q, .poll, now⟩) hm]
    exact view_erase_seg _ _ _
  · simp only [hl, if_false, Txn.set] at hm ⊢
    rw [cutAt_one (c := ⟨q, .poll, now⟩) hm]
    exact view_insert_seg _ _ _ _

/-- The size after the cut still counts the item. -/
theorem size_after_cut :
    (queueStep (cutAt s ⟨q, .poll, now⟩ 1) ⟨q, .size, 0⟩).1 = .length (c + 1 : ℕ) ∧
    (queueStep (cutAt s ⟨q, .poll, now⟩ 1) ⟨q, .size, 0⟩).2.queueView q =
      (cutAt s ⟨q, .poll, now⟩ 1).queueView q := by
  have hinfo : ((cutAt s ⟨q, .poll, now⟩ 1).queueView q).info = some ⟨encodeQueueMeta
      (UInt64.ofNat h) (UInt64.ofNat t) (UInt64.ofNat (c + 1)), 0⟩ := by
    rw [poll_cut_view now L hc]
    rcases L.info with hi | ⟨-, hi, -⟩
    · exact hi
    · simp at hi
  have hi := get_info ((cutAt s ⟨q, .poll, now⟩ 1).txn q) 0 (Or.inl hinfo)
  obtain ⟨h1, h2⟩ := queueStep_of_queueOp .size (queueOp_size hi)
  exact ⟨h1.trans (by simp only [FifoOp.decode, decodeI64_putI64, toInt_ofNat hc]), h2⟩

/-- One of the polls that should deliver all items finds nothing. -/
theorem polls_after_cut {s' : Store} (hcount : (l ++ segs.flatten).length = c)
    (hs' : s'.queueView q = (cutAt s ⟨q, .poll, now⟩ 1).queueView q) :
    Reply.item none ∈ (run queueStep (List.replicate (c + 1) ⟨q, .poll, 0⟩) s').1 := by
  rw [poll_cut_view now L hc] at hs'
  have hinfo : (s'.queueView q).info = some ⟨encodeQueueMeta (UInt64.ofNat h) (UInt64.ofNat t)
      (UInt64.ofNat (c + 1)), 0⟩ := by
    rw [hs']
    rcases L.info with hi | ⟨-, hi, -⟩
    · exact hi
    · simp at hi
  by_cases hl : l = []
  · -- the head segment is gone: the first poll finds it missing
    have hi := get_info (s'.txn q) 0 (Or.inl hinfo)
    have hget : (s'.txn q).get 0 queueSegMap
        (queueSegKey (UInt64.ofNat h) q) = none := by
      have e : (s'.queueView q).seg (UInt64.ofNat h) = none := by simp [hs', hl]
      exact congrArg (fun o => (o.filter (fun v => !v.expired 0)).map Value.data) e
    obtain ⟨h1, -⟩ := queueStep_of_queueOp .poll
      (queueOp_missing hi (Or.inr hget) (Or.inl rfl))
    rw [List.replicate_succ, run_cons, h1]
    exact List.mem_cons_self
  · -- the items run out before the count does
    have hh : h < 2 ^ 64 := by have := L.le; have := L.lt; omega
    have Lcut : Layout (s'.queueView q) h t (l :: segs) (c + 1) := by
      refine ⟨L.lt, by simp, fun _ => L.chain (by simp), ?_, ?_, ?_, Or.inl hinfo⟩
      · intro l' hl'
        rcases List.mem_cons.mp hl' with rfl | hm
        · exact hl
        · exact L.full l' (by simp [hm])
      · intro l' hl' y hy
        rcases List.mem_cons.mp hl' with rfl | hm
        · exact L.small (x :: l') (by simp) y (by simp [hy])
        · exact L.small l' (by simp [hm]) y hy
      · rw [hs']
        simpa [hl] using L.seg.set_first hh
    obtain ⟨-, h', segs', hflat, L'⟩ := Lcut.polls c (by omega) (by simpa using hcount.ge)
      (by omega)
    have hnil : segs' = [] := by
      rw [L'.segs_eq_nil, hflat, List.drop_eq_nil_iff]
      exact hcount.le
    rw [List.replicate_succ', run_append, run_cons, (L'.step_nil 0 (Or.inr hnil) (Or.inl rfl)).1]
    simp

end poll

/-! ### Which cuts are atomic -/

/-- A different item, at least as long. -/
def otherItem : Bytes → Bytes
  | [] => [0]
  | b :: x => (b + 1) :: x

theorem otherItem_ne (x : Bytes) : otherItem x ≠ x := by
  cases x with
  | nil => simp [otherItem]
  | cons b x => simp [otherItem]

theorem length_otherItem (x : Bytes) : (otherItem x).length = max x.length 1 := by
  cases x with
  | nil => rfl
  | cons b x => simp [otherItem]

section cuts
variable {now : ℕ}
  (hs : Stores (s.queueView q) (f.items q) (f.offered q))
  (hlen : (f.items q).length + 2 < 2 ^ 63)
include hs hlen

/-- A cut offer to a queue that holds items is not atomic: the stray item is delivered in the
place of the next one offered. -/
theorem offer_cut {x : Bytes} (hne : f.items q ≠ []) (hx : x.length < 2 ^ 31)
    (hoff : f.offered q + 2 < 2 ^ 64) : ¬ AtomicCut s f ⟨q, .offer x, now⟩ 1 := by
  obtain ⟨h, t, segs, L, hitems, ht, -⟩ := hs
  have hy := length_otherItem x
  rw [← hitems] at L
  have hsegs : segs ≠ [] := fun h0 => hne (hitems ▸ L.segs_eq_nil.mp h0)
  obtain ⟨h1, t', segs', hflat, L'⟩ := offer_after_cut (y := otherItem x) now L hsegs hx
    (by omega) (by omega) (by rw [hitems]; omega) (by omega)
  rw [hitems] at h1 hflat L'
  obtain ⟨h2, -⟩ := L'.polls ((f.items q).length + 1) le_rfl (by rw [hflat]; simp) (by omega)
  have htake : (f.items q ++ [x, otherItem x]).take ((f.items q).length + 1) = f.items q ++ [x] := by
    rw [List.take_append, List.take_of_length_le (by omega)]
    simp
  have hfifo : (fifoStep f ⟨q, .offer (otherItem x), 0⟩).2.items q = f.items q ++ [otherItem x] := by
    simp [fifoStep, fifoOp]
  intro hA
  rcases hA (⟨q, .offer (otherItem x), 0⟩ :: List.replicate ((f.items q).length + 1) ⟨q, .poll, 0⟩)
    (by simp) ⟨⟨by omega, by simp only; omega, by simp only; omega⟩, polls_allowed _ _ _⟩
    ⟨⟨by omega, by simp [fifoStep, fifoOp]; omega, by simp [fifoStep, FifoOp.offers]; omega⟩,
      polls_allowed _ _ _⟩ with hA | hA
  · rw [run_cons, run_cons, fifo_polls (by simp [hfifo]), h2, hflat, htake, hfifo,
      List.take_of_length_le (by simp), List.cons.injEq] at hA
    have heq := hA.2
    simp only [List.map_append, List.append_cancel_left_eq, List.map_cons, List.map_nil,
      List.cons.injEq, Reply.item.injEq, Option.some.injEq, and_true] at heq
    exact otherItem_ne x heq.symm
  · rw [run_cons, run_cons, List.cons.injEq] at hA
    have heq := hA.1
    rw [h1] at heq
    simp [fifoStep, fifoOp] at heq

/-- A cut poll is not atomic: the count still includes the item that is gone. -/
theorem poll_cut (hne : f.items q ≠ []) : ¬ AtomicCut s f ⟨q, .poll, now⟩ 1 := by
  obtain ⟨h, t, segs, L, hitems, -, -⟩ := hs
  obtain ⟨x, l, rest, rfl⟩ : ∃ x l rest, segs = (x :: l) :: rest := by
    match segs, L with
    | [], _ => exact absurd hitems.symm hne
    | [] :: _, L => exact absurd rfl (L.full [] (by simp))
    | (x :: l) :: rest, _ => exact ⟨x, l, rest, rfl⟩
  have hitems' : f.items q = x :: (l ++ rest.flatten) := hitems.symm
  rw [hitems', List.length_cons] at L hlen
  obtain ⟨h1, h2⟩ := size_after_cut now L (by omega)
  intro hA
  rcases hA (⟨q, .size, 0⟩ :: List.replicate ((l ++ rest.flatten).length + 1) ⟨q, .poll, 0⟩)
    (by simp) ⟨trivial, polls_allowed _ _ _⟩ ⟨trivial, polls_allowed _ _ _⟩ with hA | hA
  · have hmiss := polls_after_cut now L (by omega) rfl h2
    have hsize : (fifoStep f ⟨q, .size, 0⟩).2.items q = f.items q := by simp [fifoStep, fifoOp]
    rw [run_cons, run_cons, List.cons.injEq] at hA
    rw [hA.2, fifo_polls (by rw [hsize, hitems']; rfl)] at hmiss
    obtain ⟨y, -, hy⟩ := List.mem_map.mp hmiss
    simp at hy
  · rw [run_cons, run_cons, List.cons.injEq, h1] at hA
    have heq := hA.1
    simp only [fifoStep, fifoOp, Function.update_self, hitems', List.tail_cons, Reply.length.injEq]
      at heq
    omega

end cuts

/-- The cut of an offer to an empty queue leaves a stray segment, and nothing else. -/
theorem cut_lags {q x : Bytes} {now : ℕ} (hs : Sim s f) (h0 : f.items q = []) (hx : x.length < 2 ^ 31)
    (hoff : f.offered q + 2 < 2 ^ 64) :
    Lags q (cutAt s ⟨q, .offer x, now⟩ 1) f := by
  refine ⟨fun q' hq' => ?_, Or.inr ⟨h0, ?_⟩⟩
  · rw [cutAt_view_ne hq']
    exact hs q'
  · obtain ⟨h, t, segs, L, hitems, ht, -⟩ := hs q
    have hnil : segs = [] := L.segs_eq_nil.mpr (hitems.trans h0)
    have heq := L.empty hnil
    subst hnil heq
    rw [h0] at L
    obtain ⟨init, l, hT, -, -, hop, -⟩ := L.txn.offer now hx
      (fun hne => absurd rfl hne) (by simp) (by omega)
    obtain ⟨rfl, rfl⟩ : init = [] ∧ l = [] := by
      generalize hgen : ([] : List (List Bytes)) = segs at hT
      cases hT with
      | start => exact ⟨rfl, rfl⟩
      | append => simp at hgen
      | roll => simp at hgen
    refine ⟨s.queueView q, h, ⟨packItems [x], 0⟩, L, ht, ?_⟩
    rw [cutAt_one (c := ⟨q, .offer x, now⟩) (mutations_of_queueOp (.offer x) hop)]
    exact view_insert_seg _ _ _ _

/-- Peeking and asking for the size mutate nothing, nor does polling an empty queue. -/
theorem mutations_eq_nil (hs : Sim s f) (hop : ∀ x, c.op ≠ .offer x)
    (hpoll : c.op = .poll → f.items c.queue = []) :
    mutations s c = [] := by
  obtain ⟨q, op, now⟩ := c
  cases op with
  | offer x => exact absurd rfl (hop x)
  | poll =>
    obtain ⟨h, t, segs, L, hitems, -, -⟩ := hs q
    have hnil := L.segs_eq_nil.mpr (hitems.trans (hpoll rfl))
    exact mutations_of_queueOp .poll
      (L.txn.queueOp_nil now (Or.inr hnil) (Or.inl rfl))
  | peek =>
    simp only [mutations, queueTxn, updateMulti, FifoOp.name, queueOp]
    split
    · rfl
    · split
      · rfl
      · split <;> rfl
  | size => rfl

/-- Where the cut is harmless, it is so for all that follows, on all queues. -/
theorem cut_harmless {k : ℕ} (hs : Sim s f) (hitem : ∀ x, c.op = .offer x → x.length < 2 ^ 31)
    (hlen : (f.items c.queue).length + 2 < 2 ^ 63) (hoff : f.offered c.queue + 2 < 2 ^ 64)
    (hk : k = 0 ∨ (mutations s c).length ≤ k ∨
      ((∃ x, c.op = .offer x) ∧ f.items c.queue = [])) :
    (∀ later, Allowed fifoStep Fifo.Fits later f →
      (run queueStep later (cutAt s c k)).1 = (run fifoStep later f).1) ∨
    (∀ later, Allowed fifoStep Fifo.Fits later (fifoStep f c).2 →
      (run queueStep later (cutAt s c k)).1 = (run fifoStep later (fifoStep f c).2).1) := by
  have hpre : k = 0 → ∀ later, Allowed fifoStep Fifo.Fits later f →
      (run queueStep later (cutAt s c k)).1 = (run fifoStep later f).1 := by
    rintro rfl later ha
    rw [cutAt_zero]
    exact (run_sim queueStep_sim hs ha).1
  have hpost : (mutations s c).length ≤ k → ∀ later,
      Allowed fifoStep Fifo.Fits later (fifoStep f c).2 →
      (run queueStep later (cutAt s c k)).1 = (run fifoStep later (fifoStep f c).2).1 := by
    intro hk later ha
    have hc : f.Fits c := by
      unfold Fifo.Fits
      split
      · next x hx => exact ⟨hitem x hx, by omega, by omega⟩
      · trivial
    rw [cutAt_of_length_le hk]
    exact (run_sim queueStep_sim (queueStep_sim s f c hs hc).2 ha).1
  rcases hk with hk | hk | ⟨⟨x, hx⟩, h0⟩
  · exact Or.inl (hpre hk)
  · exact Or.inr (hpost hk)
  · by_cases hk0 : k = 0
    · exact Or.inl (hpre hk0)
    · by_cases hk2 : (mutations s c).length ≤ k
      · exact Or.inr (hpost hk2)
      · have hk1 : k = 1 := by
          rcases mutations_cases s c with e | ⟨i, info, -, ⟨data, e⟩ | e⟩ <;>
            simp [e] at hk2 <;> omega
        subst hk1
        obtain ⟨q, op, now⟩ := c
        simp only at hx h0 hoff
        subst hx
        exact Or.inl fun later ha =>
          (run_sim lags_step (cut_lags hs h0 (hitem x rfl) hoff) ha).1

/-- **Which cuts are atomic**: after any history, the cut of a call at its `k`-th mutation behaves
as before or after the call exactly when it is at either end, or the call is an offer to an empty
queue. -/
theorem cut_atomic_iff (hist : List Call) (c : Call) (k : ℕ)
    (hfit : Allowed fifoStep Fifo.Fits hist Fifo.empty)
    (hitem : ∀ x, c.op = .offer x → x.length < 2 ^ 31)
    (hlen : ((run fifoStep hist Fifo.empty).2.items c.queue).length + 2 < 2 ^ 63)
    (hoff : (run fifoStep hist Fifo.empty).2.offered c.queue + 2 < 2 ^ 64) :
    AtomicCut (run queueStep hist Store.empty).2 (run fifoStep hist Fifo.empty).2 c k ↔
      k = 0 ∨ (mutations (run queueStep hist Store.empty).2 c).length ≤ k ∨
        ((∃ x, c.op = .offer x) ∧ (run fifoStep hist Fifo.empty).2.items c.queue = []) := by
  have hsim := (run_sim queueStep_sim sim_empty hfit).2
  generalize (run queueStep hist Store.empty).2 = s at hsim ⊢
  generalize (run fifoStep hist Fifo.empty).2 = f at hsim hlen hoff ⊢
  constructor
  · intro hA
    by_contra hcon
    simp only [not_or, not_and, not_le] at hcon
    obtain ⟨hk0, hk2, hempty⟩ := hcon
    have hk1 : k = 1 := by
      rcases mutations_cases s c with e | ⟨i, info, -, ⟨data, e⟩ | e⟩ <;> simp [e] at hk2 <;> omega
    subst hk1
    obtain ⟨q, op, now⟩ := c
    cases op with
    | offer x => exact offer_cut (hsim q) hlen (hempty ⟨x, rfl⟩) (hitem x rfl) hoff hA
    | poll =>
      by_cases h0 : f.items q = []
      · rw [mutations_eq_nil (c := ⟨q, .poll, now⟩) hsim (by simp) (fun _ => h0)] at hk2
        simp at hk2
      · exact poll_cut (hsim q) hlen h0 hA
    | peek =>
      rw [mutations_eq_nil (c := ⟨q, .peek, now⟩) hsim (by simp) (by simp)] at hk2
      simp at hk2
    | size =>
      rw [mutations_eq_nil (c := ⟨q, .size, now⟩) hsim (by simp) (by simp)] at hk2
      simp at hk2
  · intro hk later _ hpre hpost
    rcases cut_harmless hsim hitem hlen hoff hk with h | h
    · exact Or.inl (h later hpre)
    · exact Or.inr (h later hpost)

/-- An offer to an empty queue, cut after its segment. -/
theorem cut_atomic_iff_first_offer : AtomicCut Store.empty Fifo.empty ⟨[113], .offer [1], 0⟩ 1 :=
  (cut_atomic_iff [] ⟨[113], .offer [1], 0⟩ 1 trivial (by rintro x ⟨⟩; decide) (by decide)
    (by decide)).mpr (Or.inr (Or.inr ⟨⟨[1], rfl⟩, rfl⟩))

/-- A queue that holds the item `1` and the offer of `2`, cut after its segment: the next offer, of
`3`, makes two items, and polls deliver `1` and `2`. -/
theorem cut_offer_delivers_stray :
    let s := (run queueStep [⟨[113], .offer [1], 0⟩] Store.empty).2
    let f := (run fifoStep [⟨[113], .offer [1], 0⟩] Fifo.empty).2
    let later : List Call := [⟨[113], .offer [3], 0⟩, ⟨[113], .poll, 0⟩, ⟨[113], .poll, 0⟩]
    (run queueStep later (cutAt s ⟨[113], .offer [2], 0⟩ 1)).1 =
      [.length 2, .item (some [1]), .item (some [2])] ∧
    (run fifoStep later f).1 = [.length 2, .item (some [1]), .item (some [3])] ∧
    (run fifoStep later (fifoStep f ⟨[113], .offer [2], 0⟩).2).1 =
      [.length 3, .item (some [1]), .item (some [2])] := by
  decide +kernel

end Medusa
