import Medusa.Queue
import Medusa.Lib.Mealy
import Mathlib.Tactic.Ring

/-! # The segmented queue refines a FIFO list

The abstract machine (`fifoStep`) keeps a list of items for every queue name; the concrete one
(`queueStep`) runs `queueOp` in a transaction on a store and decodes the result as the `Queue`
handle does.

`Layout v h t segs` says how a view stores a queue: segments `h, h+1, …, t` hold the item lists
`segs`, packed and none of them empty, the metadata holds `h`, `t` and the number of items, and
there is no other segment; the queue without items has no segment, and `h = t`.  Each operation
takes a layout to a layout (`offer_layout`, `poll_layout`), which gives the simulation
`queueStep_sim` and, by `Mealy.run_sim`, the refinement.

The counters are `uint64` and replies are `int64`, so the refinement holds as long as no queue
ever holds `2^63` items and no queue is offered `2^64` (`Fifo.Fits`); `offers_overflow` is the run
at which it stops. -/

namespace Medusa

open BigEndian Medusa.Partition Store

variable {f : UInt64 → Option Value} {segs : List (List Bytes)} {l : List Bytes} {x q : Bytes} {s : Store}

/-! ### The two machines -/

/-- The operations of the `Queue` handle. -/
inductive FifoOp where
  | offer (item : Bytes)
  | poll
  | peek
  | size
deriving DecidableEq, Repr

/-- What a call returns: a length, or an item if there is one. -/
inductive Reply where
  | length (n : ℤ)
  | item (x : Option Bytes)
  | failed (e : ServiceError)
deriving DecidableEq, Repr

/-- The operation name passed to `Execute`. -/
def FifoOp.name : FifoOp → QueueOp
  | offer _ => .queueoffer
  | poll => .queuepoll
  | peek => .queuepeek
  | size => .queuesize

/-- The argument passed to `Execute`. -/
def FifoOp.arg : FifoOp → Bytes
  | offer item => item
  | _ => []

/-- How `Offer`, `Poll`, `Peek` and `Size` decode the result. -/
def FifoOp.decode (op : FifoOp) (out : Bytes) : Reply :=
  match op with
  | offer _ | size => .length (decodeI64 out).toInt
  | poll | peek => .item (decodeQueueItem out)

/-- A call of an operation on a queue, at a clock reading. -/
structure Call where
  queue : Bytes
  op : FifoOp
  now : ℕ

/-- The call run by `queueOp` in a transaction on the store. -/
def queueStep (s : Store) (c : Call) : Reply × Store :=
  let r := queueTxn s c.now c.queue c.op.name c.op.arg
  (match r.1 with
    | .ok out => c.op.decode out
    | .error e => .failed e, r.2.2)

/-- The operations on a list of items. -/
def fifoOp : FifoOp → List Bytes → Reply × List Bytes
  | .offer x, items => (.length (items.length + 1), items ++ [x])
  | .poll, items => (.item items.head?, items.tail)
  | .peek, items => (.item items.head?, items)
  | .size, items => (.length items.length, items)

/-- The items of every queue, and how many were ever offered to it. -/
structure Fifo where
  items : Bytes → List Bytes
  offered : Bytes → ℕ

/-- All queues empty. -/
def Fifo.empty : Fifo := ⟨fun _ => [], fun _ => 0⟩

/-- How many items an operation offers. -/
def FifoOp.offers : FifoOp → ℕ
  | offer _ => 1
  | _ => 0

/-- The call on the abstract queues. -/
def fifoStep (f : Fifo) (c : Call) : Reply × Fifo :=
  ((fifoOp c.op (f.items c.queue)).1,
    ⟨Function.update f.items c.queue (fifoOp c.op (f.items c.queue)).2,
      Function.update f.offered c.queue (f.offered c.queue + c.op.offers)⟩)

/-- The widths of the implementation suffice for the call: an item is shorter than `2^31` bytes,
the queue stays below `2^63` items, and below `2^64` ever offered. -/
def Fifo.Fits (f : Fifo) (c : Call) : Prop :=
  match c.op with
  | .offer x => x.length < 2 ^ 31 ∧ (f.items c.queue).length + 1 < 2 ^ 63 ∧
      f.offered c.queue + 1 < 2 ^ 64
  | _ => True

/-! ### How a view stores a queue -/

/-- Segments `h, h+1, …` hold `segs`, and there is no other segment. -/
def SegsAt (f : UInt64 → Option Value) (h : ℕ) (segs : List (List Bytes)) : Prop :=
  ∀ i : UInt64, f i =
    if h ≤ i.toNat then (segs[i.toNat - h]?).map (fun l => ⟨packItems l, 0⟩) else none

theorem SegsAt.at {h k : ℕ} (hs : SegsAt f h segs) (hk : h + k < 2 ^ 64) :
    f (UInt64.ofNat (h + k)) = (segs[k]?).map (fun l => ⟨packItems l, 0⟩) := by
  rw [hs, UInt64.toNat_ofNat_of_lt' hk, if_pos (by omega)]
  simp

/-- What an operation reads from a segment. -/
theorem SegsAt.get (tx : Txn) {h k : ℕ} (hs : SegsAt (view tx.shard q).seg h segs) (now : ℕ)
    (hk : h + k < 2 ^ 64) :
    tx.get now queueSegMap (queueSegKey (UInt64.ofNat (h + k)) q) = (segs[k]?).map packItems := by
  have e : tx.get now queueSegMap (queueSegKey (UInt64.ofNat (h + k)) q) =
      (((view tx.shard q).seg (UInt64.ofNat (h + k))).filter
        (fun v => !v.expired now)).map Value.data := rfl
  rw [e, hs.at hk]
  cases segs[k]? <;> simp [Option.filter_some, Value.expired]

/-- Writing the segment after `init` replaces what was there. -/
theorem SegsAt.set_last {h : ℕ} (init : List (List Bytes)) {rest : List (List Bytes)}
    (hs : SegsAt f h (init ++ rest)) (hrest : rest.length ≤ 1) (hk : h + init.length < 2 ^ 64)
    (l : List Bytes) :
    SegsAt (Function.update f (UInt64.ofNat (h + init.length)) (some ⟨packItems l, 0⟩)) h
      (init ++ [l]) := by
  intro i
  by_cases hi : i = UInt64.ofNat (h + init.length)
  · rw [hi, Function.update_self, UInt64.toNat_ofNat_of_lt' hk, if_pos (by omega)]
    simp
  · rw [Function.update_of_ne hi, hs]
    have hne : i.toNat ≠ h + init.length := by
      intro e
      apply hi
      rw [← e]
      simp
    by_cases hle : h ≤ i.toNat
    · rw [if_pos hle, if_pos hle]
      by_cases hlt : i.toNat - h < init.length
      · rw [List.getElem?_append_left hlt, List.getElem?_append_left hlt]
      · rw [List.getElem?_eq_none (by simp; omega), List.getElem?_eq_none (by simp; omega)]
    · rw [if_neg hle, if_neg hle]

/-- Rewriting the first segment. -/
theorem SegsAt.set_first {h : ℕ} {l l' : List Bytes} (hs : SegsAt f h (l :: segs)) (hk : h < 2 ^ 64) :
    SegsAt (Function.update f (UInt64.ofNat h) (some ⟨packItems l', 0⟩)) h (l' :: segs) := by
  intro i
  by_cases hi : i = UInt64.ofNat h
  · subst hi
    simp [UInt64.toNat_ofNat_of_lt' hk]
  · have hne : i.toNat ≠ h := by
      intro e
      apply hi
      rw [← e]
      simp
    rw [Function.update_of_ne hi, hs]
    by_cases hle : h ≤ i.toNat
    · obtain ⟨k, hk'⟩ : ∃ k, i.toNat - h = k + 1 := ⟨i.toNat - h - 1, by omega⟩
      simp [hle, hk']
    · simp [hle]

/-- Deleting the first segment. -/
theorem SegsAt.del_first {h : ℕ} (hs : SegsAt f h (l :: segs)) (hk : h < 2 ^ 64) :
    SegsAt (Function.update f (UInt64.ofNat h) none) (h + 1) segs := by
  intro i
  by_cases hi : i = UInt64.ofNat h
  · subst hi
    simp [UInt64.toNat_ofNat_of_lt' hk]
  · have hne : i.toNat ≠ h := by
      intro e
      apply hi
      rw [← e]
      simp
    rw [Function.update_of_ne hi, hs]
    by_cases hle : h ≤ i.toNat
    · obtain ⟨k, hk'⟩ : ∃ k, i.toNat - h = k + 1 := ⟨i.toNat - h - 1, by omega⟩
      have hk1 : i.toNat - (h + 1) = k := by omega
      simp [hle, hk', hk1, show h + 1 ≤ i.toNat by omega]
    · simp [hle, show ¬ h + 1 ≤ i.toNat by omega]

theorem segsAt_nil {h h' : ℕ} (hs : SegsAt f h []) : SegsAt f h' [] := by
  intro i
  simp [hs i]

/-- The view `v` stores the item lists `segs` in the segments `h … t`, and the count `c`. -/
structure Layout (v : QueueView) (h t : ℕ) (segs : List (List Bytes)) (c : ℕ) : Prop where
  lt : t < 2 ^ 64
  empty : segs = [] → h = t
  chain : segs ≠ [] → h + segs.length = t + 1
  full : ∀ l ∈ segs, l ≠ []
  small : ∀ l ∈ segs, ∀ x ∈ l, x.length < 2 ^ 31
  seg : SegsAt v.seg h segs
  info : v.info = some ⟨encodeQueueMeta (UInt64.ofNat h) (UInt64.ofNat t) (UInt64.ofNat c), 0⟩ ∨
    (v.info = none ∧ segs = [] ∧ t = 0 ∧ c = 0)

/-- Where an offer of `x` goes in the chain `segs`: after the segments `init`, onto the items `l`. -/
inductive Target (x : Bytes) : List (List Bytes) → List (List Bytes) → List Bytes → Prop
  | start : Target x [] [] []
  | append (init : List (List Bytes)) (l : List Bytes) : Target x (init ++ [l]) init l
  | roll (init : List (List Bytes)) (l : List Bytes)
      (hfull : maxSegBytes < (packItems l).length + 4 + x.length) :
      Target x (init ++ [l]) (init ++ [l]) []

/-- Either way `x` comes after all items. -/
theorem Target.flatten {segs init : List (List Bytes)}
    (ht : Target x segs init l) : (init ++ [l ++ [x]]).flatten = segs.flatten ++ [x] := by
  cases ht <;> simp

theorem ofNat_succ (n : ℕ) : UInt64.ofNat n + 1 = UInt64.ofNat (n + 1) :=
  (UInt64.ofNat_add n 1).symm

/-- The metadata as an operation decodes it. -/
theorem get_info (tx : Txn) (now : ℕ) {a b c : UInt64}
    (hi : (view tx.shard q).info = some ⟨encodeQueueMeta a b c, 0⟩ ∨
      ((view tx.shard q).info = none ∧ a = 0 ∧ b = 0 ∧ c = 0)) :
    decodeQueueMeta ((tx.get now queueMap q).getD []) = (a, b, c) := by
  have e : tx.get now queueMap q =
      ((view tx.shard q).info.filter (fun v => !v.expired now)).map Value.data := rfl
  rcases hi with hi | ⟨hi, rfl, rfl, rfl⟩
  · rw [e, hi]
    simp [Option.filter_some, Value.expired]
  · rw [e, hi]
    simp

/-- Polling and peeking when the count is zero or the head segment is missing. -/
theorem queueOp_missing {tx : Txn} {now : ℕ} {a b c : UInt64}
    (hi : decodeQueueMeta ((tx.get now queueMap q).getD []) = (a, b, c))
    (h0 : c = 0 ∨ tx.get now queueSegMap (queueSegKey a q) = none) {op : QueueOp}
    (hop : op = .queuepoll ∨ op = .queuepeek) : queueOp now q op [] tx = (.ok [0], tx) := by
  rcases h0 with h0 | h0 <;> rcases hop with rfl | rfl <;> simp [queueOp, hi, h0]

theorem queueOp_size {tx : Txn} {now : ℕ} {a b c : UInt64}
    (hi : decodeQueueMeta ((tx.get now queueMap q).getD []) = (a, b, c)) :
    queueOp now q .queuesize [] tx = (.ok (putI64 c.toInt64), tx) := by
  simp [queueOp, hi]

namespace Layout

variable {v : QueueView} {h t c : ℕ} {segs : List (List Bytes)}

theorem le (L : Layout v h t segs c) : h ≤ t := by
  by_cases hs : segs = []
  · exact (L.empty hs).le
  · have := L.chain hs
    have := List.length_pos_iff.mpr hs
    omega

/-- A queue that was never offered anything. -/
theorem fresh : Layout ⟨none, fun _ => none⟩ 0 0 [] 0 where
  lt := by decide
  empty := fun _ => rfl
  chain := fun h => absurd rfl h
  full := by simp
  small := by simp
  seg := fun i => by simp
  info := Or.inr ⟨rfl, rfl, rfl, rfl⟩

/-- Only a queue of no items has no segments. -/
theorem segs_eq_nil (L : Layout v h t segs c) : segs = [] ↔ segs.flatten = [] := by
  constructor
  · rintro rfl
    rfl
  · intro hf
    rw [List.flatten_eq_nil_iff] at hf
    by_contra hne
    obtain ⟨l, hl⟩ := List.exists_mem_of_ne_nil segs hne
    exact L.full l hl (hf l hl)

theorem length_pos (L : Layout v h t segs c) (hs : segs ≠ []) : 0 < segs.flatten.length :=
  List.length_pos_iff.mpr (fun h0 => hs (L.segs_eq_nil.mpr h0))

section txn
variable {q : Bytes} {tx : Txn} (now : ℕ)

/-- What an operation reads from the metadata. -/
theorem decode_info (L : Layout (view tx.shard q) h t segs c) :
    decodeQueueMeta ((tx.get now queueMap q).getD []) =
      (UInt64.ofNat h, UInt64.ofNat t, UInt64.ofNat c) := by
  rcases L.info with hi | ⟨hi, rfl, rfl, rfl⟩
  · exact get_info _ now (Or.inl hi)
  · rw [L.empty rfl]
    exact get_info _ now (Or.inr ⟨hi, rfl, rfl, rfl⟩)

theorem get_seg (L : Layout (view tx.shard q) h t segs c) {k : ℕ} (hk : h + k < 2 ^ 64) :
    tx.get now queueSegMap (queueSegKey (UInt64.ofNat (h + k)) q) = (segs[k]?).map packItems :=
  SegsAt.get tx L.seg now hk

/-- The segment an offer appends to: the last one, or a new one after it. -/
theorem offerTarget_eq (L : Layout (view tx.shard q) h t segs c) (x : Bytes)
    (hpos : segs ≠ [] → 0 < c) (hc : c < 2 ^ 64) (ht : t + 1 < 2 ^ 64) :
    ∃ init l, Target x segs init l ∧ t ≤ h + init.length ∧ h + init.length ≤ t + 1 ∧
      offerTarget now q (UInt64.ofNat t) (UInt64.ofNat c) x tx =
        (UInt64.ofNat (h + init.length), packItems l) := by
  rcases List.eq_nil_or_concat segs with hs | ⟨init, l, hs⟩
  · -- an empty queue starts over at the tail segment
    have hh := L.empty hs
    subst hs hh
    have hseg : tx.get now queueSegMap (queueSegKey (UInt64.ofNat h) q) = none := by
      simpa using L.get_seg now (k := 0) (by omega)
    exact ⟨[], [], .start, by simp, by simp, by simp [offerTarget, hseg]⟩
  · rw [List.concat_eq_append] at hs
    subst hs
    have htail : h + init.length = t := by
      have := L.chain (by simp)
      simp at this
      omega
    have hl : l ≠ [] := L.full l (by simp)
    have hpos : (0 : UInt64) < UInt64.ofNat c := by
      rw [UInt64.lt_iff_toNat_lt, UInt64.toNat_ofNat_of_lt' hc]
      exact hpos (by simp)
    have hseg : tx.get now queueSegMap (queueSegKey (UInt64.ofNat t) q) = some (packItems l) := by
      rw [← htail, L.get_seg now (by omega)]
      simp
    have hnext : tx.get now queueSegMap (queueSegKey (UInt64.ofNat t + 1) q) = none := by
      have : UInt64.ofNat t + 1 = UInt64.ofNat (h + (init.length + 1)) := by
        rw [ofNat_succ, ← Nat.add_assoc, htail]
      rw [this, L.get_seg now (by omega)]
      simp
    have hne : (packItems l).length ≠ 0 := fun h0 =>
      hl (packItems_eq_nil.mp (List.length_eq_zero_iff.mp h0))
    by_cases hroll : maxSegBytes < (packItems l).length + 4 + x.length
    · refine ⟨init ++ [l], [], .roll init l hroll, by simp; omega, by simp; omega, ?_⟩
      simp only [offerTarget, hpos, if_true, hseg, Option.getD_some, hne, ne_eq, not_false_eq_true,
        hroll, and_self, hnext, Option.getD_none, packItems_nil, Prod.mk.injEq, and_true]
      rw [ofNat_succ, List.length_append, List.length_singleton, ← Nat.add_assoc, htail]
    · refine ⟨init, l, .append init l, by omega, by omega, ?_⟩
      simp only [offerTarget, hpos, if_true, hseg, Option.getD_some, hroll, and_false, if_false,
        htail]

/-- What an offer does, and the layout after it. -/
theorem offer (L : Layout (view tx.shard q) h t segs c) (hx : x.length < 2 ^ 31)
    (hpos : segs ≠ [] → 0 < c) (hc : c + 1 < 2 ^ 64) (ht : t + 1 < 2 ^ 64) :
    ∃ init l, Target x segs init l ∧ t ≤ h + init.length ∧ h + init.length ≤ t + 1 ∧
      queueOp now q .queueoffer x tx =
        (.ok (putI64 (UInt64.ofNat (c + 1)).toInt64),
          (tx.set queueSegMap (queueSegKey (UInt64.ofNat (h + init.length)) q)
            (packItems (l ++ [x]))).set queueMap q (encodeQueueMeta (UInt64.ofNat h)
              (UInt64.ofNat (h + init.length)) (UInt64.ofNat (c + 1)))) ∧
      Layout (view (queueOp now q .queueoffer x tx).2.shard q) h (h + init.length)
        (init ++ [l ++ [x]]) (c + 1) := by
  obtain ⟨init, l, hs, hge, hle, htarget⟩ := L.offerTarget_eq now x hpos (by omega) ht
  have hop : queueOp now q .queueoffer x tx =
      (.ok (putI64 (UInt64.ofNat (c + 1)).toInt64),
        (tx.set queueSegMap (queueSegKey (UInt64.ofNat (h + init.length)) q)
          (packItems (l ++ [x]))).set queueMap q (encodeQueueMeta (UInt64.ofNat h)
            (UInt64.ofNat (h + init.length)) (UInt64.ofNat (c + 1)))) := by
    simp only [queueOp, L.decode_info now, htarget, appendPacked_packItems, ofNat_succ]
  refine ⟨init, l, hs, hge, hle, hop, ?_⟩
  rw [hop]
  simp only [Txn.set, view_insert_meta, view_insert_seg]
  have hseg : SegsAt (view tx.shard q).seg h (init ++ if l = [] then [] else [l]) := by
    cases hs with
    | start => simpa using L.seg
    | append => simpa [L.full l (by simp)] using L.seg
    | roll => simpa using L.seg
  refine ⟨by omega, by simp, fun _ => by simp; omega, ?_, ?_, ?_, Or.inl rfl⟩
  · intro l' hl'
    rcases List.mem_append.mp hl' with hm | hm
    · cases hs with
      | start => simp at hm
      | append => exact L.full l' (by simp [hm])
      | roll => exact L.full l' hm
    · simp [List.mem_singleton.mp hm]
  · intro l' hl' y hy
    have hy' : y ∈ segs.flatten ++ [x] := hs.flatten ▸ List.mem_flatten.mpr ⟨l', hl', hy⟩
    rcases List.mem_append.mp hy' with hy' | hy'
    · obtain ⟨l'', hl'', hy''⟩ := List.mem_flatten.mp hy'
      exact L.small l'' hl'' y hy''
    · rw [List.mem_singleton.mp hy']
      exact hx
  · exact hseg.set_last _ (by split <;> simp) (by omega) _

/-- Polling and peeking when the count is zero, or when the head segment is missing. -/
theorem queueOp_nil (L : Layout (view tx.shard q) h t segs c) (h0 : c = 0 ∨ segs = [])
    {op : QueueOp} (hop : op = .queuepoll ∨ op = .queuepeek) :
    queueOp now q op [] tx = (.ok [0], tx) := by
  refine queueOp_missing (L.decode_info now) ?_ hop
  rcases h0 with rfl | rfl
  · exact Or.inl rfl
  · exact Or.inr (by simpa using L.get_seg now (k := 0) (by have := L.le; have := L.lt; omega))

section cons
variable {x : Bytes} {l : List Bytes}

theorem ofNat_ne_zero (hpos : 0 < c) (hc : c < 2 ^ 64) : UInt64.ofNat c ≠ 0 := by
  intro h0
  have := congrArg UInt64.toNat h0
  rw [UInt64.toNat_ofNat_of_lt' hc] at this
  simp at this
  omega

/-- What polling and peeking read from a queue that holds items. -/
theorem get_first (L : Layout (view tx.shard q) h t ((x :: l) :: segs) c) :
    tx.get now queueMap q ≠ none ∧
    tx.get now queueSegMap (queueSegKey (UInt64.ofNat h) q) = some (packItems (x :: l)) ∧
    queueHead (packItems (x :: l)) = some (x, packItems l) := by
  refine ⟨fun hn => ?_, ?_, queueHead_packItems (L.small (x :: l) (by simp) x (by simp)) l⟩
  · rcases L.info with hi | ⟨-, hi, -⟩
    · have e : tx.get now queueMap q =
          ((view tx.shard q).info.filter (fun v => !v.expired now)).map Value.data := rfl
      rw [e, hi] at hn
      simp [Option.filter_some, Value.expired] at hn
    · simp at hi
  · have := L.get_seg now (k := 0) (by have := L.le; have := L.lt; omega)
    simpa using this

theorem peek (L : Layout (view tx.shard q) h t ((x :: l) :: segs) c) (hpos : 0 < c)
    (hc : c < 2 ^ 64) :
    queueOp now q .queuepeek [] tx = (.ok (1 :: x), tx) := by
  obtain ⟨h1, h2, h3⟩ := L.get_first now
  simp only [queueOp, L.decode_info now, h1, h2, h3, ofNat_ne_zero hpos hc, or_self, if_false]

/-- What a poll does to a queue that holds items: the first segment is rewritten, or deleted when
it is drained. -/
theorem poll (L : Layout (view tx.shard q) h t ((x :: l) :: segs) (c + 1))
    (hc : c + 1 < 2 ^ 64) :
    queueOp now q .queuepoll [] tx = (.ok (1 :: x),
      (if l = [] then tx.del queueSegMap (queueSegKey (UInt64.ofNat h) q)
        else tx.set queueSegMap (queueSegKey (UInt64.ofNat h) q) (packItems l)).set queueMap q
        (encodeQueueMeta (UInt64.ofNat (if l = [] ∧ segs ≠ [] then h + 1 else h)) (UInt64.ofNat t)
          (UInt64.ofNat c))) := by
  obtain ⟨h1, h2, h3⟩ := L.get_first now
  have hcount : UInt64.ofNat (c + 1) - 1 = UInt64.ofNat c := by
    rw [← ofNat_succ]
    simp
  have hchain := L.chain (by simp)
  have hlt := L.lt
  have hhead : UInt64.ofNat h < UInt64.ofNat t ↔ segs ≠ [] := by
    have hh : h < 2 ^ 64 := by have := L.le; omega
    rw [UInt64.lt_iff_toNat_lt, UInt64.toNat_ofNat_of_lt' hh, UInt64.toNat_ofNat_of_lt' hlt,
      ← List.length_pos_iff]
    simp at hchain
    omega
  have hl : (packItems l).length = 0 ↔ l = [] := by
    rw [List.length_eq_zero_iff, packItems_eq_nil]
  simp only [queueOp, L.decode_info now, h1, h2, h3, ofNat_ne_zero (Nat.succ_pos c) hc,
    or_self, if_false, hcount, hhead, hl]
  by_cases hl' : l = []
  · by_cases hs : segs = [] <;> simp [hl', hs]
  · simp [hl']

/-- The layout after a poll. -/
theorem poll_layout (L : Layout (view tx.shard q) h t ((x :: l) :: segs) (c + 1))
    (hc : c + 1 < 2 ^ 64) :
    Layout (view (queueOp now q .queuepoll [] tx).2.shard q)
      (if l = [] ∧ segs ≠ [] then h + 1 else h) t (if l = [] then segs else l :: segs) c := by
  have hchain := L.chain (by simp)
  have hlt := L.lt
  have hh : h < 2 ^ 64 := by have := L.le; omega
  simp only [List.length_cons] at hchain
  rw [L.poll now hc]
  by_cases hl : l = []
  · subst hl
    simp only [if_true, Txn.del, Txn.set, view_insert_meta, view_erase_seg, true_and]
    by_cases hs : segs = []
    · subst hs
      simp only [ne_eq, not_true_eq_false, if_false]
      exact ⟨hlt, fun _ => by simp at hchain; omega, by simp, by simp, by simp,
        segsAt_nil (L.seg.del_first hh), Or.inl rfl⟩
    · simp only [ne_eq, hs, not_false_eq_true, if_true]
      exact ⟨hlt, fun h0 => absurd h0 hs, fun _ => by omega,
        fun l' hl' => L.full l' (by simp [hl']), fun l' hl' => L.small l' (by simp [hl']),
        L.seg.del_first hh, Or.inl rfl⟩
  · simp only [hl, if_false, Txn.set, view_insert_meta, view_insert_seg, false_and]
    refine ⟨hlt, by simp, fun _ => by simp; omega, ?_, ?_, L.seg.set_first hh, Or.inl rfl⟩
    · intro l' hl'
      rcases List.mem_cons.mp hl' with rfl | hl'
      · exact hl
      · exact L.full l' (by simp [hl'])
    · intro l' hl' y hy
      rcases List.mem_cons.mp hl' with rfl | hl'
      · exact L.small (x :: l') (by simp) y (by simp [hy])
      · exact L.small l' (by simp [hl']) y hy

end cons

end txn

end Layout

/-! ### The simulation -/

/-- A count below `2^63` survives the `int64` reply. -/
theorem toInt_ofNat {n : ℕ} (hn : n < 2 ^ 63) : (UInt64.ofNat n).toInt64.toInt = n := by
  have h : (UInt64.ofNat n).toInt64 = Int64.ofNat n := rfl
  rw [h, Int64.toInt_ofNat_of_lt (by omega)]

/-- A view stores `items`; `n` items were offered so far. -/
def Stores (v : QueueView) (items : List Bytes) (n : ℕ) : Prop :=
  ∃ h t segs, Layout v h t segs items.length ∧ segs.flatten = items ∧ t ≤ n ∧ items.length < 2 ^ 63

/-- Every queue of the store holds its abstract items. -/
def Sim (s : Store) (f : Fifo) : Prop := ∀ q, Stores (s.queueView q) (f.items q) (f.offered q)

theorem sim_empty : Sim Store.empty Fifo.empty :=
  fun _ => ⟨0, 0, [], Layout.fresh, rfl, le_rfl, by simp [Fifo.empty]⟩

/-- The transaction a call on the queue `q` starts with. -/
def Store.txn (s : Store) (q : Bytes) : Txn := ⟨s.shards (forKey q), []⟩

theorem Layout.txn {h t c : ℕ}
    (L : Layout (s.queueView q) h t segs c) : Layout (view (s.txn q).shard q) h t segs c := L

/-- A call through the operation it runs. -/
theorem queueStep_of_queueOp (op : FifoOp) {now : ℕ} {out : Bytes} {t : Txn}
    (h : queueOp now q op.name op.arg (s.txn q) = (.ok out, t)) :
    (queueStep s ⟨q, op, now⟩).1 = op.decode out ∧
      (queueStep s ⟨q, op, now⟩).2.queueView q = view t.shard q := by
  rw [Store.txn] at h
  simp [queueStep, Store.queueView, queueTxn, updateMulti, setShard, h]

namespace Layout

variable {s : Store} {q : Bytes} {h t c : ℕ} {segs : List (List Bytes)} (now : ℕ)

/-- An offer as a call. -/
theorem step_offer (L : Layout (s.queueView q) h t segs c) (hx : x.length < 2 ^ 31)
    (hpos : segs ≠ [] → 0 < c) (hc : c + 1 < 2 ^ 64) (ht : t + 1 < 2 ^ 64) :
    (queueStep s ⟨q, .offer x, now⟩).1 = .length (UInt64.ofNat (c + 1)).toInt64.toInt ∧
    ∃ segs' t', t ≤ t' ∧ t' ≤ t + 1 ∧ segs'.flatten = segs.flatten ++ [x] ∧
      Layout ((queueStep s ⟨q, .offer x, now⟩).2.queueView q) h t' segs' (c + 1) := by
  obtain ⟨init, l, hs, hge, hle, hop, L'⟩ :=
    L.txn.offer now hx hpos hc ht
  obtain ⟨h1, h2⟩ := queueStep_of_queueOp (.offer x) hop
  rw [hop] at L'
  exact ⟨h1.trans (by simp only [FifoOp.decode, decodeI64_putI64]), _, _, hge, hle, hs.flatten,
    h2 ▸ L'⟩

/-- A poll or peek when the count is zero or the head segment is missing: nothing is found and
nothing changes. -/
theorem step_nil (L : Layout (s.queueView q) h t segs c) (h0 : c = 0 ∨ segs = []) {op : FifoOp}
    (hop : op = .poll ∨ op = .peek) :
    (queueStep s ⟨q, op, now⟩).1 = .item none ∧
      (queueStep s ⟨q, op, now⟩).2.queueView q = s.queueView q := by
  rcases hop with rfl | rfl
  · exact queueStep_of_queueOp .poll
      (L.txn.queueOp_nil now h0 (Or.inl rfl))
  · exact queueStep_of_queueOp .peek
      (L.txn.queueOp_nil now h0 (Or.inr rfl))

/-- A poll of a queue that holds items. -/
theorem step_poll (L : Layout (s.queueView q) h t ((x :: l) :: segs) (c + 1)) (hc : c + 1 < 2 ^ 64) :
    (queueStep s ⟨q, .poll, now⟩).1 = .item (some x) ∧
    ∃ segs' h', segs'.flatten = l ++ segs.flatten ∧
      Layout ((queueStep s ⟨q, .poll, now⟩).2.queueView q) h' t segs' c := by
  have hop := L.txn.poll now hc
  have L' := L.txn.poll_layout now hc
  obtain ⟨h1, h2⟩ := queueStep_of_queueOp .poll hop
  rw [hop] at L'
  refine ⟨h1, if l = [] then segs else l :: segs, _, ?_, h2 ▸ L'⟩
  by_cases hl : l = [] <;> simp [hl]

/-- A peek at a queue that holds items. -/
theorem step_peek (L : Layout (s.queueView q) h t ((x :: l) :: segs) c) (hpos : 0 < c) (hc : c < 2 ^ 64) :
    (queueStep s ⟨q, .peek, now⟩).1 = .item (some x) ∧
      (queueStep s ⟨q, .peek, now⟩).2.queueView q = s.queueView q :=
  queueStep_of_queueOp .peek
    (L.txn.peek now hpos hc)

/-- The size is the count. -/
theorem step_size (L : Layout (s.queueView q) h t segs c) (hc : c < 2 ^ 63) :
    (queueStep s ⟨q, .size, now⟩).1 = .length c ∧
      (queueStep s ⟨q, .size, now⟩).2.queueView q = s.queueView q := by
  have hi := L.txn.decode_info now
  obtain ⟨h1, h2⟩ := queueStep_of_queueOp .size (queueOp_size hi)
  exact ⟨h1.trans (by simp only [FifoOp.decode, decodeI64_putI64, toInt_ofNat hc]), h2⟩

end Layout

/-- One call on a queue that stores its abstract items: the reply of the abstract queue, and its
items. -/
theorem queueStep_stores {c : Call} {f : Fifo}
    (hs : Stores (s.queueView c.queue) (f.items c.queue) (f.offered c.queue)) (hc : f.Fits c) :
    (queueStep s c).1 = (fifoOp c.op (f.items c.queue)).1 ∧
      Stores ((queueStep s c).2.queueView c.queue) (fifoOp c.op (f.items c.queue)).2
        (f.offered c.queue + c.op.offers) := by
  obtain ⟨q, op, now⟩ := c
  have hsame := hs
  obtain ⟨h, t, segs, L, hitems, ht, hlen⟩ := hs
  simp only [Fifo.Fits] at L hitems ht hlen hc hsame ⊢
  generalize f.items q = items at L hitems hlen hc hsame ⊢
  generalize f.offered q = n at ht hc hsame ⊢
  subst hitems
  cases op with
  | offer x =>
    obtain ⟨hx, hlen', hn⟩ := hc
    obtain ⟨hr, segs', t', -, hle, hflat, L'⟩ :=
      L.step_offer now hx L.length_pos (by omega) (by omega)
    have hl : (fifoOp (.offer x) segs.flatten).2.length = segs.flatten.length + 1 := by
      simp [fifoOp]
    refine ⟨?_, h, t', segs', by rw [hl]; exact L', hflat, ?_, by omega⟩
    · rw [hr, toInt_ofNat hlen']
      rfl
    · exact hle.trans (Nat.add_le_add_right ht 1)
  | poll =>
    cases segs with
    | nil =>
      obtain ⟨h1, h2⟩ := L.step_nil now (Or.inr rfl) (Or.inl rfl)
      exact ⟨h1, h2 ▸ hsame⟩
    | cons l segs =>
      cases l with
      | nil => exact absurd rfl (L.full [] (by simp))
      | cons x l =>
        have hl : ((x :: l) :: segs).flatten.length = (l ++ segs.flatten).length + 1 := rfl
        rw [hl] at L hlen
        obtain ⟨h1, segs', h', hflat, L'⟩ := L.step_poll now (by omega)
        exact ⟨h1, h', t, segs', L', hflat, ht, by simp [fifoOp] at hlen ⊢; omega⟩
  | peek =>
    cases segs with
    | nil =>
      obtain ⟨h1, h2⟩ := L.step_nil now (Or.inr rfl) (Or.inr rfl)
      exact ⟨h1, h2 ▸ hsame⟩
    | cons l segs =>
      cases l with
      | nil => exact absurd rfl (L.full [] (by simp))
      | cons x l =>
        obtain ⟨h1, h2⟩ := L.step_peek now (by simp) (by omega)
        exact ⟨h1, h2 ▸ hsame⟩
  | size =>
    obtain ⟨h1, h2⟩ := L.step_size now hlen
    exact ⟨h1, h2 ▸ hsame⟩

/-- One call, on all queues. -/
theorem queueStep_sim (s : Store) (f : Fifo) (c : Call) (hs : Sim s f) (hc : f.Fits c) :
    (queueStep s c).1 = (fifoStep f c).1 ∧ Sim (queueStep s c).2 (fifoStep f c).2 := by
  obtain ⟨h1, h2⟩ := queueStep_stores (hs c.queue) hc
  refine ⟨h1, fun q => ?_⟩
  by_cases hq : q = c.queue
  · subst hq
    simpa [fifoStep] using h2
  · have hv : (queueStep s c).2.queueView q = s.queueView q := queueTxn_view_ne hq s _ _ _
    rw [hv]
    simpa [fifoStep, Function.update_of_ne hq] using hs q

/-! ### The shape of a stored queue -/

/-- Head, tail and count of a queue; all zero when there is no metadata. -/
def Store.queueMeta (s : Store) (q : Bytes) : UInt64 × UInt64 × UInt64 :=
  decodeQueueMeta (((s.queueView q).info.map Value.data).getD [])

/-- The packed items of a segment. -/
def Store.segment (s : Store) (q : Bytes) (i : UInt64) : Option Bytes :=
  ((s.queueView q).seg i).map Value.data

/-- The shape of a queue of the given items: its segments are exactly `head … tail`, none of them
empty, and the metadata counts the packed items; a queue of no items has no segments. -/
structure QueueShape (s : Store) (q : Bytes) (items : List Bytes) : Prop where
  head_le_tail : (s.queueMeta q).1 ≤ (s.queueMeta q).2.1
  segments : items ≠ [] → ∀ i, (s.segment q i).isSome ↔
    (s.queueMeta q).1 ≤ i ∧ i ≤ (s.queueMeta q).2.1
  segment_ne_nil : ∀ i b, s.segment q i = some b → b ≠ []
  empty : items = [] → (s.queueMeta q).1 = (s.queueMeta q).2.1 ∧ ∀ i, s.segment q i = none
  count : (s.queueMeta q).2.2.toNat = items.length
  packed : ((List.range (((s.queueMeta q).2.1 - (s.queueMeta q).1).toNat + 1)).map (fun k =>
    queueCount ((s.segment q ((s.queueMeta q).1 + UInt64.ofNat k)).getD []))).sum = items.length

/-- The items of a chain of segments, counted segment by segment. -/
theorem sum_length_getElem? (segs : List (List Bytes)) (n : ℕ) (hn : segs.length ≤ n) :
    ((List.range n).map (fun k => (segs[k]?.getD []).length)).sum = segs.flatten.length := by
  induction n generalizing segs with
  | zero => simp [List.length_eq_zero_iff.mp (Nat.le_zero.mp hn)]
  | succ n ih =>
    rw [List.range_succ_eq_map]
    cases segs with
    | nil => simp [Function.comp_def]
    | cons l segs =>
      have := ih segs (by simpa using hn)
      simp only [List.map_cons, List.map_map, List.sum_cons, Function.comp_def,
        List.getElem?_cons_succ, this]
      simp

theorem Stores.shape {items : List Bytes} {n : ℕ}
    (hs : Stores (s.queueView q) items n) : QueueShape s q items := by
  obtain ⟨h, t, segs, L, rfl, -, hlen⟩ := hs
  have hlt := L.lt
  have hle := L.le
  have hh : h < 2 ^ 64 := by omega
  have hmeta : s.queueMeta q =
      (UInt64.ofNat h, UInt64.ofNat t, UInt64.ofNat segs.flatten.length) := by
    rcases L.info with hi | ⟨hi, rfl, rfl, -⟩
    · simp [Store.queueMeta, hi]
    · simp [Store.queueMeta, hi, L.empty rfl]
  have hseg : ∀ i : UInt64, s.segment q i =
      if h ≤ i.toNat then (segs[i.toNat - h]?).map packItems else none := by
    intro i
    rw [Store.segment, L.seg i]
    split
    · cases segs[i.toNat - h]? <;> rfl
    · rfl
  have hsize : segs.length ≤ t - h + 1 := by
    by_cases hs : segs = []
    · simp [hs]
    · have := L.chain hs
      omega
  constructor
  · rw [hmeta, UInt64.le_iff_toNat_le, UInt64.toNat_ofNat_of_lt' hh, UInt64.toNat_ofNat_of_lt' hlt]
    exact hle
  · intro hne i
    have hchain := L.chain (fun h0 => hne (L.segs_eq_nil.mp h0))
    rw [hmeta, hseg, UInt64.le_iff_toNat_le, UInt64.le_iff_toNat_le, UInt64.toNat_ofNat_of_lt' hh,
      UInt64.toNat_ofNat_of_lt' hlt]
    by_cases hi : h ≤ i.toNat
    · rw [if_pos hi, Option.isSome_map, isSome_getElem?]
      omega
    · simp [hi]
  · intro i b hb
    rw [hseg] at hb
    split at hb
    · obtain ⟨l, hl, rfl⟩ := Option.map_eq_some_iff.mp hb
      exact fun h0 => L.full l (List.mem_of_getElem? hl) (packItems_eq_nil.mp h0)
    · simp at hb
  · intro h0
    have hnil := L.segs_eq_nil.mpr h0
    refine ⟨by rw [hmeta, L.empty hnil], fun i => ?_⟩
    rw [hseg, hnil]
    simp
  · rw [hmeta, UInt64.toNat_ofNat_of_lt' (show _ < 2 ^ 64 by omega)]
  · have hsub : (UInt64.ofNat t - UInt64.ofNat h).toNat = t - h := by
      rw [UInt64.toNat_sub_of_le, UInt64.toNat_ofNat_of_lt' hh, UInt64.toNat_ofNat_of_lt' hlt]
      rw [UInt64.le_iff_toNat_le, UInt64.toNat_ofNat_of_lt' hh, UInt64.toNat_ofNat_of_lt' hlt]
      exact hle
    rw [hmeta, hsub, ← sum_length_getElem? segs _ hsize]
    congr 1
    refine List.map_congr_left fun k hk => ?_
    have hk' := List.mem_range.mp hk
    rw [hseg, ← UInt64.ofNat_add, UInt64.toNat_ofNat_of_lt' (show _ < 2 ^ 64 by omega),
      if_pos (by omega), Nat.add_sub_cancel_left]
    cases hl : segs[k]? with
    | none => rfl
    | some l => exact queueCount_packItems (L.small l (List.mem_of_getElem? hl))

/-! ### The refinement -/

open Mealy

/-- **The segmented queue refines the FIFO lists**: on every sequence of calls within the widths of
the counters the replies are those of the abstract queues, every queue has the shape of its items
all along, and a call never changes another queue. -/
theorem queue_refines_fifo (calls : List Call) (hfit : Allowed fifoStep Fifo.Fits calls Fifo.empty) :
    (run queueStep calls Store.empty).1 = (run fifoStep calls Fifo.empty).1 ∧
    (∀ pre, pre <+: calls → ∀ q, QueueShape (run queueStep pre Store.empty).2 q
      ((run fifoStep pre Fifo.empty).2.items q)) ∧
    ∀ (s : Store) (c : Call) (q : Bytes), q ≠ c.queue →
      (queueStep s c).2.queueView q = s.queueView q := by
  refine ⟨(run_sim queueStep_sim sim_empty hfit).1, ?_, fun s c q hq => queueTxn_view_ne hq s _ _ _⟩
  rintro pre ⟨post, rfl⟩ q
  exact ((run_sim queueStep_sim sim_empty (Allowed.append.mp hfit).1).2 q).shape

/-- Two queues, an offer to each, and everything read back. -/
theorem queue_refines_fifo_two_queues :
    (run queueStep [⟨[1], .offer [7], 0⟩, ⟨[2], .offer [], 0⟩, ⟨[1], .peek, 0⟩, ⟨[1], .poll, 0⟩,
      ⟨[1], .poll, 0⟩, ⟨[2], .size, 0⟩] Store.empty).1 =
    [.length 1, .length 1, .item (some [7]), .item (some [7]), .item none, .length 1] :=
  (queue_refines_fifo _ (by simp [Allowed, Fifo.Fits, fifoStep, Fifo.empty, FifoOp.offers])).1.trans (by decide)

/-- Offers of empty items fit as long as the queue stays below `2^63` items. -/
theorem offers_fit (n : ℕ) (f : Fifo) (hl : (f.items []).length + n < 2 ^ 63)
    (ho : f.offered [] + n < 2 ^ 64) :
    Allowed fifoStep Fifo.Fits (List.replicate n ⟨[], .offer [], 0⟩) f ∧
    ((run fifoStep (List.replicate n ⟨[], .offer [], 0⟩) f).2.items []).length =
      (f.items []).length + n ∧
    (run fifoStep (List.replicate n ⟨[], .offer [], 0⟩) f).2.offered [] = f.offered [] + n := by
  induction n generalizing f with
  | zero => exact ⟨trivial, rfl, rfl⟩
  | succ n ih =>
    have := ih (fifoStep f ⟨[], .offer [], 0⟩).2 (by simp [fifoStep, fifoOp]; omega)
      (by simp [fifoStep, FifoOp.offers]; omega)
    refine ⟨⟨⟨by simp, by simp; omega, by simp; omega⟩, this.1⟩, ?_, ?_⟩
    · rw [List.replicate_succ, run_cons, this.2.1]
      simp [fifoStep, fifoOp]
      omega
    · rw [List.replicate_succ, run_cons, this.2.2]
      simp [fifoStep, FifoOp.offers]
      omega

/-- The reply to the `2^63`-th offer is negative. -/
theorem offers_overflow {n : ℕ} (hn : n + 1 = 2 ^ 63) :
    (run queueStep (List.replicate (n + 1) ⟨[], .offer [], 0⟩) Store.empty).1 ≠
      (run fifoStep (List.replicate (n + 1) ⟨[], .offer [], 0⟩) Fifo.empty).1 := by
  obtain ⟨hfit, hlen, hoff⟩ := offers_fit n Fifo.empty (by simp [Fifo.empty]; omega)
    (by simp [Fifo.empty]; omega)
  simp only [Fifo.empty, List.length_nil, Nat.zero_add] at hlen hoff
  obtain ⟨h1, h2⟩ := run_sim queueStep_sim sim_empty hfit
  obtain ⟨h, t, segs, L, hitems, ht, -⟩ := h2 []
  rw [show ((run fifoStep _ Fifo.empty).2.items []).length = n from hlen] at L
  have ht' : t ≤ n := ht.trans_eq hoff
  have hpos : segs ≠ [] → 0 < n := fun hne => by
    rw [← hlen]
    exact (L.length_pos hne).trans_eq (congrArg List.length hitems)
  rw [List.replicate_succ', run_append, run_append, h1]
  intro heq
  have hreply := List.append_cancel_left heq
  simp only [run_cons, run_nil, List.cons.injEq, and_true, fifoStep, fifoOp] at hreply
  rw [(L.step_offer 0 (by simp) hpos (by omega) (by omega)).1, Reply.length.injEq,
    show ((run fifoStep _ Fifo.empty).2.items []).length = n from hlen, hn] at hreply
  have hneg : (UInt64.ofNat (2 ^ 63)).toInt64.toInt < 0 := by decide
  omega

/-- A sequence of offers, each of an item below `2^31` bytes, on which the queue differs from the
FIFO list. -/
theorem queue_reply_overflows :
    ∃ calls : List Call, (∀ c ∈ calls, ∀ x, c.op = .offer x → x.length < 2 ^ 31) ∧
      (run queueStep calls Store.empty).1 ≠ (run fifoStep calls Fifo.empty).1 := by
  refine ⟨_, ?_, offers_overflow (n := 2 ^ 63 - 1) (by norm_num)⟩
  intro c hc x hx
  rw [List.eq_of_mem_replicate hc] at hx
  simp only [FifoOp.offer.injEq] at hx
  simp [← hx]

end Medusa
