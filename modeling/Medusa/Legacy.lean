import Medusa.Queue

/-! # Queues of the old format

Before queues were cut into segments a whole queue was one packed value under `__queue`.  Loading such a
value converts it (`convertLegacyQueue`): a loop over the packed items that fills segments and writes the
metadata at the end.  `queueoffer` fills segments too, one item at a time, from what is stored.

* `Building`: where the loop is after some items, and `Building.offer`: storing what it has so far and
  offering one more item is storing what it has one round later.
* `loadAllRec`: `loadAll` with its recursion; converted entries are not converted again, so two levels are
  enough (`loadAllRec_eq`).
* `legacy_eq_offers`: **loading the packed value stores what offering its items stores.** -/

namespace Medusa

open BigEndian Medusa.Partition Store

/-! ### Offering items -/

/-- `queueoffer` of items in order, each at its instant. -/
def offerAll (q : Bytes) (calls : List (ℕ × Bytes)) (s : Store) : Store :=
  calls.foldl (fun s c => (queueTxn s c.1 q .queueoffer c.2).2.2) s

/-- What an offer stores, by the metadata it finds. -/
theorem queueTxn_offer {s : Store} {now : ℕ} {q x : Bytes} {head tail count : UInt64}
    {target : UInt64 × Bytes}
    (hinfo : decodeQueueMeta ((s.get (forKey q) queueMap q now).getD []) = (head, tail, count))
    (htarget : offerTarget now q tail count x ⟨s.shards (forKey q), []⟩ = target) :
    (queueTxn s now q .queueoffer x).2.2 =
      (s.set (forKey q) (queueSegMap, queueSegKey target.1 q) ⟨appendPacked target.2 x, 0⟩).set
        (forKey q) (queueMap, q) ⟨encodeQueueMeta head target.1 (count + 1), 0⟩ := by
  have hget : (⟨s.shards (forKey q), []⟩ : Txn).get now queueMap q = s.get (forKey q) queueMap q now := rfl
  simp only [queueTxn, updateMulti, queueOp, hget, hinfo, htarget, Txn.set, Store.set, setShard,
    Function.update_self, Function.update_idem]

/-- The same entries everywhere. -/
def SameFind (s s' : Store) : Prop := ∀ p r, s'.find p r = s.find p r

theorem SameFind.set {s s' : Store} (h : SameFind s s') (p : PartitionId) (r : Ref) (v : Value) :
    SameFind (s.set p r v) (s'.set p r v) := fun q r' => by rw [find_set, find_set, h q r']

theorem SameFind.erase {s s' : Store} (h : SameFind s s') (p : PartitionId) (r : Ref) :
    SameFind (s.erase p r) (s'.erase p r) := fun q r' => by rw [find_erase, find_erase, h q r']

/-- A queue operation depends on the entries alone, not on the order they are stored in. -/
theorem SameFind.queueTxn {s s' : Store} (h : SameFind s s') (now : ℕ) (q : Bytes) (op : QueueOp)
    (arg : Bytes) : SameFind (queueTxn s now q op arg).2.2 (queueTxn s' now q op arg).2.2 := by
  have hget : ∀ name key, isReservedMap name = true →
      (⟨s'.shards (forKey q), []⟩ : Txn).get now name key =
        (⟨s.shards (forKey q), []⟩ : Txn).get now name key := fun name key _ => by
    have hfind : (s'.shards (forKey q)).lookup (name, key) = (s.shards (forKey q)).lookup (name, key) :=
      h (forKey q) (name, key)
    rw [Txn.get, Txn.get, hfind]
  have hnone : (⟨s'.shards (forKey q), []⟩ : Txn).muts = (⟨s.shards (forKey q), []⟩ : Txn).muts := rfl
  have hmuts : (Medusa.queueTxn s' now q op arg).2.1 = (Medusa.queueTxn s now q op arg).2.1 :=
    (queueOp_congr hnone hget q op arg).2
  rw [queueTxn_store, queueTxn_store, hmuts]
  exact applyMutations_rel (fun _ _ r d hs => hs.set _ r ⟨d, 0⟩) (fun _ _ r hs => hs.erase _ r) h _

theorem SameFind.offerAll {s s' : Store} (h : SameFind s s') (q : Bytes) (calls : List (ℕ × Bytes)) :
    SameFind (offerAll q calls s) (offerAll q calls s') := by
  induction calls generalizing s s' with
  | nil => exact h
  | cons c calls ih => exact ih (h.queueTxn c.1 q .queueoffer c.2)

/-! ### Rounds of the conversion -/

/-- One round: the entries written so far, the tail segment's id, and its content. -/
def convertRound (q : Bytes) (x : Bytes) (out : List Entry) (tail : UInt64) (seg : Bytes) :
    List Entry × UInt64 × Bytes :=
  if seg.length ≠ 0 ∧ maxSegBytes < seg.length + 4 + x.length then
    (out ++ flushSegment q tail seg, tail + 1, appendPacked [] x)
  else (out, tail, appendPacked seg x)

/-- The loop takes the items of a packed stream one round each. -/
theorem convertLoop_packItems {x : Bytes} (hx : x.length < 2 ^ 31) {q : Bytes} {items : List Bytes}
    {rest : Bytes} {fuel : ℕ} {out : List Entry} {tail count : UInt64} {seg : Bytes} :
    convertLoop q (fuel + 1) (packItems (x :: items) ++ rest) out tail count seg =
      convertLoop q fuel (packItems items ++ rest) (convertRound q x out tail seg).1
        (convertRound q x out tail seg).2.1 (count + 1) (convertRound q x out tail seg).2.2 := by
  rw [convertLoop, packItems_cons_eq, List.append_assoc, queueHead_append (by omega)]
  simp only [convertRound]
  split <;> rfl

/-- The entries the conversion would return now. -/
def converted (q : Bytes) (out : List Entry) (tail count : UInt64) (seg : Bytes) : List Entry :=
  if count = 0 then []
  else out ++ flushSegment q tail seg ++ [⟨queueMap, q, encodeQueueMeta 0 tail count, 0⟩]

/-- The loop ends at the first bytes that are not an item. -/
theorem convertLoop_stop {rest : Bytes} (hrest : queueHead rest = none) (q : Bytes) (fuel : ℕ)
    (out : List Entry) (tail count : UInt64) (seg : Bytes) :
    convertLoop q fuel rest out tail count seg = converted q out tail count seg := by
  cases fuel with
  | zero => rw [convertLoop, converted]
  | succ fuel =>
    rw [convertLoop.eq_2, hrest]
    rw [convertLoop, converted]

/-! ### The conversion as offers -/

/-- Where the loop is after `n` items, on a store without the queue. -/
structure Building (s : Store) (q : Bytes) (n : ℕ) (out : List Entry) (tail count : UInt64) (seg : Bytes) :
    Prop where
  counted : count.toNat = n
  bound : tail.toNat ≤ n
  first : n = 0 → out = [] ∧ tail = 0 ∧ seg = []
  later : n ≠ 0 → seg ≠ []
  missing : n = 0 → s.find (forKey q) (queueMap, q) = none
  above : ∀ i, tail < i →
    (out.foldl loadEntry s).find (forKey q) (queueSegMap, queueSegKey i q) = none

/-- What a round leaves, stored. -/
theorem foldl_converted (s : Store) (q : Bytes) (out : List Entry) (tail : UInt64) {count : UInt64}
    {seg : Bytes} (hcount : count ≠ 0) (hseg : seg ≠ []) :
    (converted q out tail count seg).foldl loadEntry s =
      ((out.foldl loadEntry s).set (forKey q) (queueSegMap, queueSegKey tail q) ⟨seg, 0⟩).set
        (forKey q) (queueMap, q) ⟨encodeQueueMeta 0 tail count, 0⟩ := by
  have hlen : 0 < seg.length := List.length_pos_iff.mpr hseg
  simp only [converted, if_neg hcount, flushSegment, if_pos hlen, List.foldl_append, List.foldl_cons,
    List.foldl_nil, loadEntry, routedPartition_seg, routedPartition_meta]
  rfl

theorem get_of_find {s : Store} {p : PartitionId} {name key d : Bytes}
    (h : s.find p (name, key) = some ⟨d, 0⟩) (now : ℕ) : s.get p name key now = some d := by
  rw [Store.get, lookup_eq_some.mpr ⟨h, by simp [Value.expired]⟩]
  rfl

theorem get_of_find_none {s : Store} {p : PartitionId} {name key : Bytes}
    (h : s.find p (name, key) = none) (now : ℕ) : s.get p name key now = none := by
  rw [Store.get, Store.lookup, h]
  rfl

theorem appendPacked_ne_nil (seg x : Bytes) : appendPacked seg x ≠ [] := by
  intro h
  have := congrArg List.length h
  simp [appendPacked] at this

theorem toNat_succ {x : UInt64} (h : x.toNat + 1 < 2 ^ 64) : (x + 1).toNat = x.toNat + 1 := by
  rw [UInt64.toNat_add]
  exact Nat.mod_eq_of_lt h

section building
variable {s : Store} {q : Bytes} {n : ℕ} {out : List Entry} {tail count : UInt64} {seg : Bytes}

theorem Building.start (hinfo : s.find (forKey q) (queueMap, q) = none)
    (hsegs : ∀ i, s.find (forKey q) (queueSegMap, queueSegKey i q) = none) :
    Building s q 0 [] 0 0 [] where
  counted := rfl
  bound := le_rfl
  first _ := ⟨rfl, rfl, rfl⟩
  later h := absurd rfl h
  missing _ := hinfo
  above i _ := hsegs i

theorem Building.count_ne_zero (b : Building s q n out tail count seg) (hn : n ≠ 0) : count ≠ 0 := by
  rintro rfl
  exact hn b.counted.symm

/-- The tail segment an offer finds on what a round left. -/
theorem Building.offerTarget (b : Building s q n out tail count seg) (hn : n ≠ 0) (hlt : n + 1 < 2 ^ 64)
    (now : ℕ) (x : Bytes) :
    offerTarget now q tail count x
        ⟨((converted q out tail count seg).foldl loadEntry s).shards (forKey q), []⟩ =
      if seg.length ≠ 0 ∧ maxSegBytes < seg.length + 4 + x.length then (tail + 1, []) else (tail, seg) := by
  have hstored := foldl_converted s q out tail (b.count_ne_zero hn) (b.later hn)
  have hcount : 0 < count := UInt64.pos_iff_ne_zero.mpr (b.count_ne_zero hn)
  have hnext : (tail + 1).toNat = tail.toNat + 1 := toNat_succ (lt_of_le_of_lt (Nat.succ_le_succ b.bound) hlt)
  have htail : (⟨((converted q out tail count seg).foldl loadEntry s).shards (forKey q), []⟩ : Txn).get now
      queueSegMap (queueSegKey tail q) = some seg := by
    refine get_of_find ?_ now
    rw [hstored, find_set, if_neg (by simp [queueMap_ne_queueSegMap.symm]), find_set, if_pos ⟨rfl, rfl⟩]
  have hafter : (⟨((converted q out tail count seg).foldl loadEntry s).shards (forKey q), []⟩ : Txn).get now
      queueSegMap (queueSegKey (tail + 1) q) = none := by
    have hne : tail + 1 ≠ tail := fun h => by rw [h] at hnext; omega
    refine get_of_find_none ?_ now
    rw [hstored, find_set, if_neg (by simp [queueMap_ne_queueSegMap.symm]), find_set,
      if_neg (by simp [queueSegKey_inj, hne])]
    exact b.above _ (UInt64.lt_iff_toNat_lt.mpr (by omega))
  simp only [Medusa.offerTarget, if_pos hcount, htail, hafter, Option.getD_some, Option.getD_none]

theorem Building.next (b : Building s q n out tail count seg) (hlt : n + 1 < 2 ^ 64) (x : Bytes) :
    Building s q (n + 1) (convertRound q x out tail seg).1 (convertRound q x out tail seg).2.1 (count + 1)
      (convertRound q x out tail seg).2.2 := by
  have hcount : (count + 1).toNat = n + 1 := by rw [toNat_succ (by rwa [b.counted]), b.counted]
  have hnext : (tail + 1).toNat = tail.toNat + 1 := toNat_succ (lt_of_le_of_lt (Nat.succ_le_succ b.bound) hlt)
  have hbound := b.bound
  unfold convertRound
  split
  · next hroll =>
    refine ⟨hcount, by dsimp only; omega, by simp, fun _ => appendPacked_ne_nil _ _, by simp, fun i hi => ?_⟩
    have hi' : tail.toNat + 1 < i.toNat := hnext ▸ UInt64.lt_iff_toNat_lt.mp hi
    have hne : i ≠ tail := fun h => by rw [h] at hi'; omega
    have hlen : 0 < seg.length := Nat.pos_of_ne_zero hroll.1
    simp only [flushSegment, if_pos hlen, List.foldl_append, List.foldl_cons, List.foldl_nil, loadEntry,
      routedPartition_seg]
    refine (find_set _ _ _ _ _ _).trans ((if_neg ?_).trans (b.above i ?_))
    · simp [Entry.ref, queueSegKey_inj, hne]
    · exact UInt64.lt_iff_toNat_lt.mpr (by omega)
  · exact ⟨hcount, by dsimp only; omega, by simp, fun _ => appendPacked_ne_nil _ _, by simp, b.above⟩

/-- **One more item**: offering it on what the loop has so far stores what the loop has a round later. -/
theorem Building.offer (b : Building s q n out tail count seg) (hlt : n + 1 < 2 ^ 64) (now : ℕ) (x : Bytes) :
    SameFind
      ((converted q (convertRound q x out tail seg).1 (convertRound q x out tail seg).2.1 (count + 1)
        (convertRound q x out tail seg).2.2).foldl loadEntry s)
      (queueTxn ((converted q out tail count seg).foldl loadEntry s) now q .queueoffer x).2.2 := by
  have b' := b.next hlt x
  rw [foldl_converted _ _ _ _ (b'.count_ne_zero (by omega)) (b'.later (by omega))]
  by_cases hn : n = 0
  · -- the first item, on a store without the queue
    obtain ⟨rfl, rfl, rfl⟩ := b.first hn
    have hcount : count = 0 := UInt64.toNat_inj.mp (b.counted.trans hn)
    subst hcount
    have hinfo : decodeQueueMeta ((s.get (forKey q) queueMap q now).getD []) = (0, 0, 0) := by
      rw [get_of_find_none (b.missing hn)]
      rfl
    have htarget : Medusa.offerTarget now q 0 0 x ⟨s.shards (forKey q), []⟩ = (0, []) := by
      simp [Medusa.offerTarget]
    change SameFind _ (queueTxn s now q .queueoffer x).2.2
    rw [queueTxn_offer hinfo htarget]
    exact fun _ _ => rfl
  · have hstored := foldl_converted s q out tail (b.count_ne_zero hn) (b.later hn)
    have hinfo : decodeQueueMeta ((((converted q out tail count seg).foldl loadEntry s).get (forKey q)
        queueMap q now).getD []) = (0, tail, count) := by
      rw [get_of_find (d := encodeQueueMeta 0 tail count) (by rw [hstored, find_set, if_pos ⟨rfl, rfl⟩]),
        Option.getD_some, decode_encodeQueueMeta]
    rw [queueTxn_offer hinfo (b.offerTarget hn hlt now x), hstored]
    intro p r
    unfold convertRound
    split
    · next hroll =>
      -- the tail segment is full and stays as it is
      have hlen : 0 < seg.length := Nat.pos_of_ne_zero hroll.1
      simp only [flushSegment, if_pos hlen, List.foldl_append, List.foldl_cons, List.foldl_nil, loadEntry,
        routedPartition_seg, find_set]
      by_cases hinfo : p = forKey q ∧ r = (queueMap, q)
      · simp [hinfo]
      · simp only [if_neg hinfo]
        rfl
    · -- the tail segment grows
      simp only [find_set]
      by_cases hinfo : p = forKey q ∧ r = (queueMap, q)
      · simp [hinfo]
      · simp only [if_neg hinfo]
        split <;> rfl

/-- Every further item. -/
theorem Building.offers {rest : Bytes} (hrest : queueHead rest = none) {calls : List (ℕ × Bytes)}
    (hitems : ∀ c ∈ calls, c.2.length < 2 ^ 31) (b : Building s q n out tail count seg)
    (hlt : n + calls.length < 2 ^ 64) {fuel : ℕ} (hfuel : calls.length ≤ fuel) :
    SameFind
      ((convertLoop q fuel (packItems (calls.map Prod.snd) ++ rest) out tail count seg).foldl loadEntry s)
      (offerAll q calls ((converted q out tail count seg).foldl loadEntry s)) := by
  induction calls generalizing n out tail count seg fuel with
  | nil =>
    rw [List.map_nil, packItems_nil, List.nil_append, convertLoop_stop hrest]
    exact fun _ _ => rfl
  | cons c calls ih =>
    obtain ⟨fuel, rfl⟩ : ∃ k, fuel = k + 1 := ⟨fuel - 1, by simp at hfuel; omega⟩
    rw [List.length_cons] at hlt hfuel
    rw [List.map_cons, convertLoop_packItems (hitems c List.mem_cons_self)]
    have hrounds := ih (fun d hd => hitems d (List.mem_cons_of_mem _ hd)) (b.next (by omega) c.2)
      (by omega) (by omega : calls.length ≤ fuel)
    have hoffer := (b.offer (by omega) c.1 c.2).offerAll q calls
    exact fun p r => (hoffer p r).trans (hrounds p r)

end building

/-! ### Loading -/

/-- `store.loadAll` with its recursion, to a given depth. -/
def loadAllRec : ℕ → Store → List Entry → Option Store
  | 0, _, _ => none
  | depth + 1, s, es => es.foldlM (fun s e =>
    if isLegacyQueue e.mapName e.value then loadAllRec depth s (convertLegacyQueue e.key e.value)
    else some (s.loadEntry e)) s

theorem loadAllRec_current (depth : ℕ) {es : List Entry}
    (hes : ∀ e ∈ es, isLegacyQueue e.mapName e.value = false) (s : Store) :
    loadAllRec (depth + 1) s es = some (es.foldl loadEntry s) := by
  induction es generalizing s with
  | nil => rfl
  | cons e es ih =>
    rw [loadAllRec, List.foldlM_cons, if_neg (by simp [hes e List.mem_cons_self])]
    exact ih (fun d hd => hes d (List.mem_cons_of_mem _ hd)) _

/-- **The recursion ends at the second level.** -/
theorem loadAllRec_eq (depth : ℕ) (s : Store) (es : List Entry) :
    loadAllRec (depth + 2) s es = some (s.loadAll es) := by
  induction es generalizing s with
  | nil => rfl
  | cons e es ih =>
    have hone : (if isLegacyQueue e.mapName e.value then
        loadAllRec (depth + 1) s (convertLegacyQueue e.key e.value)
        else some (s.loadEntry e)) = some ((upgraded e).foldl loadEntry s) := by
      unfold upgraded
      split
      · exact loadAllRec_current depth (fun d hd => (isConverted_convertLegacyQueue hd).not_legacy) s
      · rfl
    rw [loadAllRec, List.foldlM_cons, hone]
    exact ih _

/-- More rounds than there are items change nothing. -/
theorem convertLoop_fuel {items : List Bytes} (hitems : ∀ x ∈ items, x.length < 2 ^ 31) {rest : Bytes}
    (hrest : queueHead rest = none) {q : Bytes} {fuel fuel' : ℕ} (hfuel : items.length ≤ fuel)
    (hfuel' : items.length ≤ fuel') {out : List Entry} {tail count : UInt64} {seg : Bytes} :
    convertLoop q fuel (packItems items ++ rest) out tail count seg =
      convertLoop q fuel' (packItems items) out tail count seg := by
  induction items generalizing fuel fuel' out tail count seg with
  | nil =>
    rw [packItems_nil, List.nil_append, convertLoop_stop hrest, convertLoop_stop queueHead_nil]
  | cons x items ih =>
    obtain ⟨k, rfl⟩ : ∃ k, fuel = k + 1 := ⟨fuel - 1, by simp at hfuel; omega⟩
    obtain ⟨k', rfl⟩ : ∃ k, fuel' = k + 1 := ⟨fuel' - 1, by simp at hfuel'; omega⟩
    have hx := hitems x List.mem_cons_self
    rw [convertLoop_packItems hx, ← List.append_nil (packItems (x :: items)), convertLoop_packItems hx,
      List.append_nil]
    exact ih (fun y hy => hitems y (List.mem_cons_of_mem _ hy)) (by simpa using hfuel) (by simpa using hfuel')

/-- **Conversion is re-offering.**  For items of any content and bytes after them that are not an item:
the conversion ends and takes the items alone; and when there is an item and the value does not have the
length of a metadata record, loading it into a store without the queue ends with the entries that offering
the items in order, at any instants, stores. -/
theorem legacy_eq_offers (q : Bytes) (items : List Bytes) (hitems : ∀ x ∈ items, x.length < 2 ^ 31)
    (rest : Bytes) (hrest : queueHead rest = none) :
    (∀ fuel, (packItems items ++ rest).length ≤ fuel →
      convertLoop q fuel (packItems items ++ rest) [] 0 0 [] = convertLegacyQueue q (packItems items)) ∧
    (items ≠ [] → (packItems items).length < 2 ^ 63 → (packItems items ++ rest).length ≠ 24 →
      ∀ (s : Store) (expireAt : Int64) (calls : List (ℕ × Bytes)), calls.map Prod.snd = items →
        s.queueView q = ⟨none, fun _ => none⟩ →
        ∀ depth, ∃ out, loadAllRec (depth + 2) s [⟨queueMap, q, packItems items ++ rest, expireAt⟩] = some out ∧
          ∀ p r, out.find p r = (offerAll q calls s).find p r) := by
  have hle := length_le_packItems items
  have hloop : ∀ fuel, (packItems items ++ rest).length ≤ fuel →
      convertLoop q fuel (packItems items ++ rest) [] 0 0 [] = convertLegacyQueue q (packItems items) := by
    intro fuel hfuel
    rw [List.length_append] at hfuel
    exact convertLoop_fuel hitems hrest (by omega) hle
  refine ⟨hloop, fun hne hfits hlen s expireAt calls hcalls hview depth => ⟨_, loadAllRec_eq depth s _, ?_⟩⟩
  subst hcalls
  have hpos : 0 < (packItems (calls.map Prod.snd) ++ rest).length := by
    have := List.length_pos_iff.mpr hne
    rw [List.length_append]
    omega
  have hlegacy : isLegacyQueue queueMap (packItems (calls.map Prod.snd) ++ rest) = true := by
    simp only [isLegacyQueue, beq_self_eq_true, decide_eq_true hlen, decide_eq_true hpos, Bool.and_self]
  have hload : s.loadAll [⟨queueMap, q, packItems (calls.map Prod.snd) ++ rest, expireAt⟩] =
      (convertLoop q (packItems (calls.map Prod.snd) ++ rest).length
        (packItems (calls.map Prod.snd) ++ rest) [] 0 0 []).foldl loadEntry s := by
    simp only [loadAll, List.foldl_cons, List.foldl_nil, upgraded, hlegacy, if_true, convertLegacyQueue]
  have hstart : Building s q 0 [] 0 0 [] :=
    Building.start (congrArg QueueView.info hview) fun i => congrFun (congrArg QueueView.seg hview) i
  rw [List.length_map] at hle
  rw [hload]
  intro p r
  refine ((hstart.offers hrest (fun c hc => hitems c.2 (List.mem_map_of_mem hc)) (by omega) ?_) p r).symm
  rw [List.length_append]
  omega

/-- Two items and a torn third one. -/
theorem legacy_eq_offers_torn :
    ∃ out, loadAllRec 2 Store.empty [⟨queueMap, [113], packItems [[1], [2, 3]] ++ [0, 0], 0⟩] = some out ∧
      ∀ p r, out.find p r = (offerAll [113] [(5, [1]), (6, [2, 3])] Store.empty).find p r :=
  (legacy_eq_offers [113] [[1], [2, 3]] (by decide) [0, 0] (by decide)).2 (by decide) (by decide) (by decide)
    Store.empty 0 [(5, [1]), (6, [2, 3])] rfl rfl 0

end Medusa
