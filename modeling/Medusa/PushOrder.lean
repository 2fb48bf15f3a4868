import Medusa.AntiEntropy
import Medusa.Copies
import Medusa.QueueRefine

/-! # Queue metadata after its segments

`Migrate` and `SyncBackups` push the entries of a partition one request after another, the metadata of
queues last (`orderQueueMetaLast`).  A request may be lost, and the push goes on with the next entry.

* `Needs`: the segments that the metadata of the pushed content references.
* `carried`: the entry that a request of the push carries, read off the history of the pushing thread.
* `segments_first`: **a receiver has the metadata of a pushed queue only with all its segments, when no
  request that carries a segment to it is lost.**
* `metadata_ahead`: the metadata arrives without the segment whose request was lost. -/

namespace Medusa

open Medusa.Partition Store Interleave Service Contract

/-! ### Queues and the segments they need -/

/-- The metadata references the segments from its head to its tail; that of an empty queue none. -/
def References (data : Bytes) (i : UInt64) : Prop :=
  (decodeQueueMeta data).2.2 ≠ 0 ∧ (decodeQueueMeta data).1 ≤ i ∧ i ≤ (decodeQueueMeta data).2.1

instance (data : Bytes) (i : UInt64) : Decidable (References data i) :=
  inferInstanceAs (Decidable (_ ∧ _))

/-- The representation invariant of a queue: the segments from head to tail, and no others, hold its
items, none of them is empty, and the metadata counts the items. -/
def Queued (v : QueueView) : Prop :=
  ∃ h t segs, Layout v h t segs segs.flatten.length ∧ segs.flatten.length < 2 ^ 64

theorem Queued.info_expireAt {v : QueueView} (hv : Queued v) {x : Value} (hx : v.info = some x) :
    x.expireAt = 0 := by
  obtain ⟨h, t, segs, L, -⟩ := hv
  rcases L.info with hinfo | ⟨hnone, -⟩
  · rw [hinfo] at hx
    cases hx
    rfl
  · rw [hnone] at hx
    cases hx

/-- **A queue has the segments its metadata references.** -/
theorem Queued.seg {v : QueueView} (hv : Queued v) {x : Value} (hx : v.info = some x) {i : UInt64}
    (hi : References x.data i) : ∃ d, v.seg i = some ⟨d, 0⟩ := by
  obtain ⟨h, t, segs, L, hlen⟩ := hv
  obtain ⟨hcount, hhead, htail⟩ := hi
  rcases L.info with hinfo | ⟨hnone, -⟩
  swap
  · rw [hnone] at hx
    cases hx
  rw [hinfo] at hx
  cases hx
  rw [decode_encodeQueueMeta] at hcount hhead htail
  have hne : segs ≠ [] := by
    rintro rfl
    exact hcount rfl
  have hchain := L.chain hne
  have hpos : 0 < segs.length := List.length_pos_iff.mpr hne
  have ht : t < 2 ^ 64 := L.lt
  have hh : h < 2 ^ 64 := by omega
  replace hhead : h ≤ i.toNat := by
    rwa [UInt64.le_iff_toNat_le, UInt64.toNat_ofNat_of_lt' hh] at hhead
  replace htail : i.toNat ≤ t := by
    rwa [UInt64.le_iff_toNat_le, UInt64.toNat_ofNat_of_lt' ht] at htail
  have hlt : i.toNat - h < segs.length := by omega
  rw [L.seg i, if_pos hhead, List.getElem?_eq_getElem hlt]
  exact ⟨_, rfl⟩

/-- The data of the entries of queues in partition `p`, which do not expire. -/
def queueData (s : Store) (p : PartitionId) (r : Ref) : Option Bytes :=
  if isReservedMap r.1 then ((s.find p r).filter (fun v => decide (v.expireAt = 0))).map Value.data
  else none

theorem queueData_eq_some {s : Store} {p : PartitionId} {r : Ref} {d : Bytes} :
    queueData s p r = some d ↔ isReservedMap r.1 = true ∧ s.find p r = some ⟨d, 0⟩ := by
  unfold queueData
  split
  · next hres =>
    simp only [Option.map_eq_some_iff, Option.filter_eq_some_iff, decide_eq_true_eq, hres, true_and]
    constructor
    · rintro ⟨⟨data, expireAt⟩, ⟨hfind, rfl⟩, rfl⟩
      exact hfind
    · exact fun hfind => ⟨_, ⟨hfind, rfl⟩, rfl⟩
  · next hres => simp [hres]

/-- The entry `r` is a segment that the metadata of queue `q` in the content `S` references. -/
def Needs (S : Ref → Option Bytes) (q : Bytes) (r : Ref) : Prop :=
  ∃ d i, S (queueMap, q) = some d ∧ References d i ∧ r = (queueSegMap, queueSegKey i q)

/-- Content whose queues keep the representation invariant has what its metadata references. -/
theorem needs_queueData {s : Store} {p : PartitionId}
    (hs : ∀ q v, (view (s.shards p) q).info = some v → Queued (view (s.shards p) q)) {q : Bytes}
    {r : Ref} (hr : Needs (queueData s p) q r) : ∃ d, queueData s p r = some d := by
  obtain ⟨d, i, hd, hi, rfl⟩ := hr
  obtain ⟨-, hfind⟩ := queueData_eq_some.mp hd
  obtain ⟨x, hx⟩ := (hs q ⟨d, 0⟩ hfind).seg (x := ⟨d, 0⟩) hfind hi
  exact ⟨x, queueData_eq_some.mpr ⟨rfl, hx⟩⟩

/-! ### What a request carries -/

/-- The event is a request. -/
def asks : Event → Bool
  | ⟨_, .connect _, _⟩ => true
  | _ => false

/-- The entries an event took from a partition. -/
def snapshotted : Event → Option (List Entry)
  | ⟨_, .on _ (.snapshot _), es⟩ => some es
  | _ => none

/-- The sender's events up to the last one that is not a request. -/
def beforeRequests (h : List Event) : List Event := (senderEvents h).dropWhile asks

/-- The requests of the sender since then. -/
def requests (h : List Event) : ℕ := ((senderEvents h).takeWhile asks).length

/-- The entries that a `Migrate` push sends to each holder, in turn. -/
def sendable (es : List Entry) (now : ℕ) : List Entry :=
  (orderQueueMetaLast es).filter fun e => !lapses e.expireAt now

/-- The entry that the next request of a push carries: `SyncBackups` sends the entry it looked up last;
`Migrate` reads its clock and sends the entries it took in turn. -/
def carried (h : List Event) : Option Ref :=
  match beforeRequests h with
  | ⟨_, .on _ (.lookup _ name key), _⟩ :: _ => some (name, key)
  | ⟨_, .on _ .nowNano, now⟩ :: past =>
    ((sendable ((lastEffect snapshotted past).getD []) now)[requests h]?).map Entry.ref
  | _ => none

/-- The condition on the steps of a run: a request to `y` that carries a segment is not lost. -/
def SegmentsArrive (y : Bytes) (i : ℕ) (e : Action) (c : Choice) (w : World) : Prop :=
  match e with
  | .connect addr =>
    w.state.listen addr = some y → (∃ r ∈ carried (w.own i), r.1 = queueSegMap) → c.lost = false
  | _ => True

instance (y : Bytes) (i : ℕ) (c : Choice) (w : World) :
    (e : Action) → Decidable (SegmentsArrive y i e c w)
  | .connect addr => inferInstanceAs (Decidable (w.state.listen addr = some y →
      (∃ r ∈ carried (w.own i), r.1 = queueSegMap) → c.lost = false))
  | .on _ _ | .reply _ | .ctxErr | .load _ _ | .storeThrough _ _ _ | .deleteThrough _ _ | .start _
  | .crash _ | .close _ => inferInstanceAs (Decidable True)

/-! ### The contract -/

/-- The action puts `r` on node `y`. -/
def Action.putsOn (y : Bytes) (r : Ref) : Action → Bool
  | .on m (.put name key _ _) => decide (m = y ∧ (name, key) = r)
  | _ => false

/-- The action drops entries of a node. -/
def Action.drops : Action → Bool
  | .on _ (.drop _ _) => true
  | _ => false

/-- The history has a put of `r` on node `y`. -/
def GotPut (y : Bytes) (r : Ref) (h : List Event) : Prop := ∃ ev ∈ h, ev.act.putsOn y r = true

/-- Nothing was dropped so far. -/
def NoDrop (h : List Event) : Prop := ∀ ev ∈ h, ev.act.drops = false

theorem GotPut.cons {y : Bytes} {r : Ref} {h : List Event} (hr : GotPut y r h) (ev : Event) :
    GotPut y r (ev :: h) := by
  obtain ⟨ev', hev, hput⟩ := hr
  exact ⟨ev', List.mem_cons_of_mem _ hev, hput⟩

theorem gotPut_cons {y : Bytes} {r : Ref} {h : List Event} {ev : Event} :
    GotPut y r (ev :: h) ↔ ev.act.putsOn y r = true ∨ GotPut y r h := List.exists_mem_cons_iff _ _ _

theorem noDrop_cons {h : List Event} {ev : Event} :
    NoDrop (ev :: h) ↔ ev.act.drops = false ∧ NoDrop h := List.forall_mem_cons

/-- The push of the queue entries `S` of partition `p` of node `n`: what is stored under their names is
their data, `y` gets metadata only after its segments, and entries are read before they are dropped. -/
def ordered (n y : Bytes) (p : PartitionId) (L : Bytes → Option Bytes) (S : Ref → Option Bytes) :
    Contract Action.Resp where
  pre i h e := i = 0 ∧
    match e with
    | .on m (.put name key value expireAt) =>
      (∀ d, S (name, key) = some d → value = d ∧ expireAt = 0) ∧
        (m = y → name = queueMap → ∀ r, Needs S key r → GotPut y r h)
    | .on _ (.prune _ keep) => ∀ r d, S r = some d → r ∈ keep
    | .on m (.drop _ _) => m ≠ y
    | .on _ (.snapshot _) => NoDrop h
    | .on _ (.lookup _ _ _) => NoDrop h
    | .on _ a => a.Reads
    | .start _ => False
    | .crash _ => False
    | .close _ => False
    | _ => True
  post _ h e resp :=
    match e, resp with
    | .connect addr, x => (x = none ∨ x = L addr) ∧
        (L addr = some y → (∃ r ∈ carried h, r.1 = queueSegMap) → x = some y)
    | .on m (.snapshot q), es => m = n → q = p → ∀ r d, S r = some d →
        (∃ e ∈ es, e.ref = r) ∧ ∀ e ∈ es, e.ref = r → e.val = ⟨d, 0⟩
    | .on m (.lookup q name key), v => m = n → q = p → ∀ d, S (name, key) = some d → v = some ⟨d, 0⟩
    | _, _ => True

/-- What holds while the push runs. -/
structure Pushing (n y : Bytes) (p : PartitionId) (L : Bytes → Option Bytes) (S : Ref → Option Bytes)
    (w : World) : Prop where
  alone : w.own 0 = w.past
  listen : w.state.listen = L
  source : NoDrop w.past → ∀ r d, S r = some d → (w.state.nodes n).store.find p r = some ⟨d, 0⟩
  arrived : ∀ r d, S r = some d → GotPut y r w.past →
    ((w.state.nodes y).store.find (routedPartition r.1 r.2) r).isSome
  whole : ∀ q d v, S (queueMap, q) = some d →
    (w.state.nodes y).store.find (routedPartition queueMap q) (queueMap, q) = some v →
    v.data = d ∧ ∀ r, Needs S q r → GotPut y r w.past

variable {n y : Bytes} {p : PartitionId} {L : Bytes → Option Bytes} {S : Ref → Option Bytes}
  {h h' : List Event}

section sound

/-- What a step of the push leaves of an entry of the content on node `m`. -/
theorem find_exec_ordered {i : ℕ} {e : Action} (he : (ordered n y p L S).pre i h e)
    (hdrop : e.drops = false) (c : Choice) (C : Cluster) (m : Bytes) (q : PartitionId) {r : Ref}
    {d : Bytes} (hr : S r = some d) :
    ((exec e c C).2.nodes m).store.find q r =
      if e.putsOn m r = true ∧ q = routedPartition r.1 r.2 then some ⟨d, 0⟩
      else (C.nodes m).store.find q r := by
  cases e with
  | start | crash | close => exact he.2.elim
  | storeThrough | deleteThrough => simp only [exec]; split <;> rfl
  | connect | reply | ctxErr | load => rfl
  | on x a =>
    cases a with
    | put name key value expireAt =>
      rw [find_exec_put]
      by_cases hc : m = x ∧ q = routedPartition name key ∧ r = (name, key)
      · obtain ⟨rfl, rfl, rfl⟩ := hc
        obtain ⟨rfl, rfl⟩ := he.2.1 d hr
        rw [if_pos ⟨rfl, rfl, rfl⟩, if_pos ⟨decide_eq_true ⟨rfl, rfl⟩, rfl⟩]
      · rw [if_neg hc, if_neg]
        rintro ⟨hput, hq⟩
        obtain ⟨rfl, rfl⟩ := of_decide_eq_true hput
        exact hc ⟨rfl, hq, rfl⟩
    | prune k keep =>
      rw [find_exec_prune, if_neg fun hc => hc.2.2 (he.2 r d hr), if_neg fun hc => by cases hc.1]
    | drop => cases hdrop
    | cacheLoaded | remove | execute | queueExecute | sweep | clearMap => exact he.2.elim
    | _ =>
      rw [NodeAction.Reads.exec_store (by exact trivial), if_neg fun hc => by cases hc.1]

/-- A step that drops entries leaves `y` alone. -/
theorem nodes_exec_drop {i : ℕ} {e : Action} (he : (ordered n y p L S).pre i h e) (hdrop : e.drops = true)
    (c : Choice) (C : Cluster) :
    (exec e c C).2.nodes y = C.nodes y ∧ ∀ r, e.putsOn y r = false := by
  cases e with
  | on x a =>
    cases a with
    | drop k es => exact ⟨exec_on_ne _ _ _ _ (Ne.symm he.2), fun _ => rfl⟩
    | _ => cases hdrop
  | _ => cases hdrop

theorem ordered_sound (hy : y ≠ n) :
    (ordered n y p L S).Sound exec (Pushing n y p L S) (SegmentsArrive y) := by
  intro i e c w hw hok he
  obtain rfl : i = 0 := he.1
  refine ⟨⟨?_, ?_, ?_, ?_, ?_⟩, ?_⟩
  · rw [World.next_own_self, hw.alone]
    rfl
  · rw [World.next_state]
    cases e with
    | start | crash | close => exact he.2.elim
    | storeThrough | deleteThrough => simp only [exec]; split <;> exact hw.listen
    | _ => exact hw.listen
  · intro hnd r d hr
    obtain ⟨hdrop, hnd⟩ := noDrop_cons.mp hnd
    rw [World.next_state, find_exec_ordered he hdrop c w.state n p hr, hw.source hnd r d hr, ite_self]
  · intro r d hr hgot
    rw [World.next_past, gotPut_cons] at hgot
    rw [World.next_state]
    cases hdrop : e.drops with
    | true =>
      obtain ⟨hnodes, hput⟩ := nodes_exec_drop he hdrop c w.state
      rw [hnodes]
      exact hw.arrived r d hr (hgot.resolve_left (by simp [hput]))
    | false =>
      rw [find_exec_ordered he hdrop c w.state y _ hr]
      split
      · rfl
      · next hc => exact hw.arrived r d hr (hgot.resolve_left fun hput => hc ⟨hput, rfl⟩)
  · intro q d v hd hfind
    rw [World.next_state] at hfind
    cases hdrop : e.drops with
    | true =>
      obtain ⟨hnodes, -⟩ := nodes_exec_drop he hdrop c w.state
      rw [hnodes] at hfind
      obtain ⟨hv, hneeds⟩ := hw.whole q d v hd hfind
      exact ⟨hv, fun r hr => (hneeds r hr).cons _⟩
    | false =>
      rw [find_exec_ordered he hdrop c w.state y _ hd] at hfind
      split at hfind
      · next hc =>
        cases hfind
        refine ⟨rfl, fun r hr => GotPut.cons ?_ _⟩
        cases e with
        | on m a =>
          cases a with
          | put name key value expireAt =>
            obtain ⟨rfl, hname⟩ := of_decide_eq_true hc.1
            cases hname
            rw [← hw.alone]
            exact he.2.2 rfl rfl r hr
          | _ => cases hc.1
        | _ => cases hc.1
      · obtain ⟨hv, hneeds⟩ := hw.whole q d v hd hfind
        exact ⟨hv, fun r hr => (hneeds r hr).cons _⟩
  · cases e with
    | connect addr =>
      have hresp : (exec (.connect addr) c w.state).1 = if c.lost then none else L addr := by
        rw [← hw.listen]
        rfl
      change (_ = none ∨ _ = L addr) ∧ _
      rw [hresp]
      refine ⟨by split; exacts [Or.inl rfl, Or.inr rfl], fun hL hseg => ?_⟩
      rw [hok (by rw [hw.listen]; exact hL) hseg, hL]
      rfl
    | on m a =>
      cases a with
      | snapshot q =>
        rintro rfl rfl r d hr
        have hfind := hw.source (hw.alone ▸ he.2) r d hr
        refine ⟨⟨entryOf r ⟨d, 0⟩, ?_, rfl⟩, fun e he' href => ?_⟩
        · exact (mem_exec_snapshot _ _ _).mpr (mem_snapshotPartition.mpr ⟨hfind, rfl⟩)
        · have hmem := (mem_snapshotPartition.mp ((mem_exec_snapshot _ _ _).mp he')).1
          rw [href, hfind] at hmem
          exact (Option.some.inj hmem).symm
      | lookup q name key =>
        rintro rfl rfl d hr
        change (w.state.nodes m).store.lookup q name key _ = _
        rw [Store.lookup, hw.source (hw.alone ▸ he.2) _ d hr]
        rfl
      | _ => trivial
    | _ => trivial

end sound

/-! ### The requests -/

section sends

/-- Since `h` the sender made one request, which is being answered (`inside`) or is over; and what `y`
had got it still has. -/
structure Asked (y : Bytes) (inside : Bool) (h h' : List Event) : Prop where
  inCall : inCall h' = inside
  sender : ∃ addr x, senderEvents h' = ⟨0, .connect addr, x⟩ :: senderEvents h
  got : ∀ r, GotPut y r h → GotPut y r h'
  noDrop : NoDrop h → NoDrop h'

theorem Asked.before {inside : Bool} (ha : Asked y inside h h') :
    beforeRequests h' = beforeRequests h := by
  obtain ⟨addr, x, hs⟩ := ha.sender
  rw [beforeRequests, hs, List.dropWhile_cons_of_pos rfl]
  rfl

theorem Asked.requests {inside : Bool} (ha : Asked y inside h h') : requests h' = requests h + 1 := by
  obtain ⟨addr, x, hs⟩ := ha.sender
  rw [Medusa.requests, hs, List.takeWhile_cons_of_pos rfl]
  rfl

theorem asked_connect (hc : Medusa.inCall h = false) (addr : Bytes) (x : Option Bytes) :
    Asked y x.isSome h (⟨0, .connect addr, x⟩ :: h) where
  inCall := rfl
  sender := ⟨addr, x, senderEvents_cons hc⟩
  got _ hr := hr.cons _
  noDrop hn := noDrop_cons.mpr ⟨rfl, hn⟩

theorem Asked.on (ha : Asked y true h h') (m : Bytes) {a : NodeAction} (x : a.Resp)
    (hdrop : (Action.on m a).drops = false) : Asked y true h (⟨0, .on m a, x⟩ :: h') where
  inCall := ha.inCall
  sender := by
    rw [senderEvents, if_pos ha.inCall]
    exact ha.sender
  got r hr := (ha.got r hr).cons _
  noDrop hn := noDrop_cons.mpr ⟨hdrop, ha.noDrop hn⟩

theorem Asked.reply (ha : Asked y true h h') (x : Bytes) (arrived : Bool) :
    Asked y false h (⟨0, .reply x, arrived⟩ :: h') where
  inCall := rfl
  sender := by
    rw [senderEvents, if_pos ha.inCall]
    exact ha.sender
  got r hr := (ha.got r hr).cons _
  noDrop hn := noDrop_cons.mpr ⟨rfl, ha.noDrop hn⟩

/-- **The push of one entry**: its data is that of the content, metadata goes to `y` after its segments;
and a segment sent to `y` arrives. -/
theorem sendPut_ordered {addr name key value : Bytes} {ttlMs : Int64} (hc : inCall h = false)
    (hdata : ∀ d, S (name, key) = some d → value = d ∧ ttlMs = 0)
    (hmeta : L addr = some y → name = queueMap → ∀ r, Needs S key r → GotPut y r h) :
    (ordered n y p L S).Obeys 0 (fun _ h' => Asked y false h h' ∧ (L addr = some y →
        carried h = some (name, key) → name = queueSegMap → GotPut y (name, key) h'))
      (sendPut addr name key value ttlMs true) h := by
  refine Obeys.step ⟨rfl, trivial⟩ (fun x hx => ?_)
  cases x with
  | none =>
    refine ⟨asked_connect hc addr none, fun hL hcar hseg => ?_⟩
    cases hx.2 hL ⟨(name, key), hcar, hseg⟩
  | some x =>
    have hL : some x = L addr := hx.1.resolve_left (by simp)
    have hin : Asked y true h (⟨0, .connect addr, some x⟩ :: h) := asked_connect hc addr (some x)
    refine Obeys.bind (p := Service.applyPut x name key value ttlMs true) ?_
    refine ⟨⟨rfl, trivial⟩, fun t _ => ?_⟩
    have ht := hin.on x (a := .nowNano) t rfl
    refine ⟨⟨rfl, fun d hd => ?_, fun hxy hname r hr => ?_⟩, fun created _ => ?_⟩
    · obtain ⟨hv, rfl⟩ := hdata d hd
      exact ⟨hv, rfl⟩
    · exact ht.got r (hmeta (by rw [← hL, hxy]) hname r hr)
    · refine ⟨⟨rfl, trivial⟩, fun arrived _ => ?_⟩
      refine ⟨(ht.on x (a := .put name key value (expireFromTTL t ttlMs)) created rfl).reply x arrived,
        fun hLy _ _ => GotPut.cons (gotPut_cons.mpr (Or.inl ?_)) _⟩
      rw [hLy] at hL
      exact decide_eq_true ⟨Option.some.inj hL, rfl⟩

/-- A probe of one backup. -/
theorem sendDigest_ordered {addr : Bytes} {q : PartitionId} {digest : UInt64} (hc : inCall h = false) :
    (ordered n y p L S).Obeys 0 (fun _ h' => Asked y false h h') (sendDigest addr q digest) h := by
  refine Obeys.step ⟨rfl, trivial⟩ (fun x _ => ?_)
  cases x with
  | none => exact asked_connect hc addr none
  | some x =>
    have hin : Asked y true h (⟨0, .connect addr, some x⟩ :: h) := asked_connect hc addr (some x)
    refine ⟨⟨rfl, trivial⟩, fun d _ => ⟨⟨rfl, trivial⟩, fun arrived _ => ?_⟩⟩
    exact (hin.on x (a := .digest q) d rfl).reply x arrived

end sends

/-! ### The push of `Migrate` -/

/-- The entries `es` were taken from a partition with the queue entries `S`. -/
structure Taken (S : Ref → Option Bytes) (es : List Entry) : Prop where
  has : ∀ r d, S r = some d → ∃ e ∈ es, e.ref = r
  val : ∀ e ∈ es, ∀ d, S e.ref = some d → e.val = ⟨d, 0⟩

theorem pairwise_orderQueueMetaLast (es : List Entry) :
    (orderQueueMetaLast es).Pairwise fun a b => a.mapName = queueMap → b.mapName = queueMap := by
  refine List.pairwise_append.mpr ⟨?_, ?_, ?_⟩
  · refine List.pairwise_of_forall_mem_list fun a ha b _ hmeta => ?_
    simp [hmeta] at ha
  · refine List.pairwise_of_forall_mem_list fun a _ b hb _ => ?_
    simpa using (List.mem_filter.mp hb).2
  · intro a ha b _ hmeta
    simp [hmeta] at ha

/-- What comes before metadata in the order of the push has everything that is no metadata. -/
theorem mem_before_meta {l done rest : List Entry} {e d : Entry}
    (hl : l.Pairwise fun a b => a.mapName = queueMap → b.mapName = queueMap)
    (hsplit : l = done ++ e :: rest) (he : e.mapName = queueMap) (hd : d ∈ l)
    (hmeta : d.mapName ≠ queueMap) : d ∈ done := by
  subst hsplit
  rcases List.mem_append.mp hd with h | h
  · exact h
  · rcases List.mem_cons.mp h with rfl | h
    · exact absurd he hmeta
    · exact absurd (List.rel_of_pairwise_cons (List.pairwise_append.mp hl).2.1 h he) hmeta

/-- Requests take no snapshot. -/
theorem lastEffect_beforeRequests (h : List Event) :
    lastEffect snapshotted (beforeRequests h) = lastEffect snapshotted (senderEvents h) := by
  unfold beforeRequests
  induction senderEvents h with
  | nil => rfl
  | cons ev l ih =>
    cases ha : asks ev with
    | false => rw [List.dropWhile_cons_of_neg (by simp [ha])]
    | true =>
      rw [List.dropWhile_cons_of_pos ha, ih, lastEffect_cons]
      obtain ⟨j, e, resp⟩ := ev
      cases e with
      | connect => rfl
      | _ => cases ha

section migrate
variable {es : List Entry} (hS : ∀ q r, Needs S q r → ∃ d, S r = some d) (hes : Taken S es)
include hS hes

/-- **The push of the remaining entries to one holder.** -/
theorem pushEntries_ordered {addr : Bytes} {now : ℕ} {past : List Event}
    (hpast : lastEffect snapshotted past = some es) (rest done : List Entry) (ok : Bool)
    (hc : inCall h = false) (hbefore : beforeRequests h = ⟨0, .on n .nowNano, now⟩ :: past)
    (hdone : sendable es now = done ++ rest.filter fun e => !lapses e.expireAt now)
    (hcount : requests h = done.length)
    (hgot : L addr = some y → ∀ e ∈ done, e.mapName = queueSegMap → GotPut y e.ref h) :
    (ordered n y p L S).Obeys 0
      (fun _ h' => inCall h' = false ∧ beforeRequests h' = beforeRequests h)
      (pushEntries addr now rest ok) h := by
  induction rest generalizing done h ok with
  | nil => exact ⟨hc, rfl⟩
  | cons e rest ih =>
    unfold Service.pushEntries
    split
    · next hlapse =>
      rw [List.filter_cons_of_neg (by simp [hlapse])] at hdone
      exact ih done ok hc hbefore hdone hcount hgot
    next hlapse =>
    rw [List.filter_cons_of_pos (by simp [hlapse])] at hdone
    have hmem : e ∈ es := by
      have : e ∈ sendable es now := hdone ▸ List.mem_append_right _ List.mem_cons_self
      exact mem_orderQueueMetaLast.mp (List.mem_filter.mp this).1
    refine Obeys.bind ((sendPut_ordered hc (fun d hd => ?_) fun hL hname r hr => ?_).mono
      fun out h' hsent => ?_)
    · have hval := hes.val e hmem d hd
      exact ⟨congrArg Value.data hval, by rw [show e.expireAt = 0 from congrArg Value.expireAt hval]; rfl⟩
    · -- the segments come first in the order, and those sent to `y` arrived
      obtain ⟨d, hd⟩ := hS e.key r hr
      obtain ⟨seg, hseg, rfl⟩ := hes.has r d hd
      obtain ⟨_, i, -, -, href⟩ := hr
      have hsegMap : seg.mapName = queueSegMap := congrArg Prod.fst href
      have hlive : lapses seg.expireAt now = false := by
        rw [show seg.expireAt = 0 from congrArg Value.expireAt (hes.val seg hseg d hd)]
        rfl
      refine hgot hL seg (mem_before_meta ((pairwise_orderQueueMetaLast es).filter _) hdone hname
        (List.mem_filter.mpr ⟨mem_orderQueueMetaLast.mpr hseg, by simp [hlive]⟩) ?_) hsegMap
      rw [hsegMap]
      exact queueMap_ne_queueSegMap.symm
    · obtain ⟨hasked, harrives⟩ := hsent
      have hcar : carried h = some e.ref := by
        unfold carried
        rw [hbefore]
        simp only [hpast, Option.getD_some, hdone, hcount, List.getElem?_append_right le_rfl,
          Nat.sub_self, List.getElem?_cons_zero, Option.map_some]
      have hrest : ∀ ok', (ordered n y p L S).Obeys 0
          (fun _ h'' => inCall h'' = false ∧ beforeRequests h'' = beforeRequests h)
          (pushEntries addr now rest ok') h' := by
        intro ok'
        refine (ih (done ++ [e]) ok' hasked.inCall (hasked.before.trans hbefore) ?_ ?_ ?_).mono ?_
        · rw [hdone, List.append_assoc]
          rfl
        · rw [hasked.requests, hcount, List.length_append]
          rfl
        · intro hL d hd hseg
          rcases List.mem_append.mp hd with hd | hd
          · exact hasked.got _ (hgot hL d hd hseg)
          · obtain rfl := List.mem_singleton.mp hd
            exact harrives hL hcar hseg
        · exact fun _ h'' hrun => ⟨hrun.1, hrun.2.trans hasked.before⟩
      cases out with
      | ok _ => exact hrest ok
      | error _ => exact hrest false

theorem pushTargets_ordered (ids : List Bytes) (ok : Bool) (hc : inCall h = false)
    (hsnap : lastEffect snapshotted (senderEvents h) = some es) :
    (ordered n y p L S).Obeys 0 (fun _ h' => inCall h' = false)
      (pushTargets n (orderQueueMetaLast es) ids ok) h := by
  induction ids generalizing h ok with
  | nil => exact hc
  | cons id ids ih =>
    refine Obeys.step ⟨rfl, trivial⟩ (fun a _ => ?_)
    have haddr : lastEffect snapshotted (senderEvents (⟨0, .on n (.addrOf id), a⟩ :: h)) = some es := by
      rw [senderEvents_cons hc, lastEffect_cons]
      exact hsnap
    cases a with
    | none => exact ih false hc haddr
    | some addr =>
      refine Obeys.step ⟨rfl, trivial⟩ (fun now _ => ?_)
      have hsender : senderEvents
          (⟨0, .on n .nowNano, now⟩ :: ⟨0, .on n (.addrOf id), some addr⟩ :: h) =
            ⟨0, .on n .nowNano, now⟩ :: senderEvents (⟨0, .on n (.addrOf id), some addr⟩ :: h) :=
        senderEvents_cons hc
      have hidle : inCall (⟨0, .on n .nowNano, now⟩ :: ⟨0, .on n (.addrOf id), some addr⟩ :: h) =
          false := hc
      refine Obeys.bind ((pushEntries_ordered hS hes haddr (orderQueueMetaLast es) [] ok
        hidle ?_ rfl ?_ ?_).mono fun ok' h' hpushed => ?_)
      · rw [beforeRequests, hsender]
        rfl
      · rw [requests, hsender]
        rfl
      · exact fun _ _ hd => absurd hd List.not_mem_nil
      · refine ih ok' hpushed.1 ?_
        rw [← lastEffect_beforeRequests, hpushed.2, lastEffect_beforeRequests, hsender,
          lastEffect_cons]
        exact haddr

end migrate

/-! ### The push of `SyncBackups` -/

section sync

theorem probe_ordered (q : PartitionId) (digest : UInt64) (l : List Bytes) (hc : inCall h = false)
    (hn : NoDrop h) :
    (ordered n y p L S).Obeys 0 (fun _ h' => inCall h' = false ∧ NoDrop h') (probe n q digest l) h := by
  induction l generalizing h with
  | nil => exact ⟨hc, hn⟩
  | cons b l ih =>
    unfold Service.probe
    split
    · exact ih hc hn
    · refine Obeys.step ⟨rfl, trivial⟩ (fun a _ => ?_)
      have hn' : NoDrop (⟨0, .on n (.addrOf b), a⟩ :: h) := noDrop_cons.mpr ⟨rfl, hn⟩
      cases a with
      | none => exact ih hc hn'
      | some addr =>
        have hidle : inCall (⟨0, .on n (.addrOf b), some addr⟩ :: h) = false := hc
        refine Obeys.bind ((sendDigest_ordered hidle).mono fun _ h₁ hasked => ?_)
        exact Obeys.bind ((ih hasked.inCall (hasked.noDrop hn')).mono fun _ _ hrun => hrun)

/-- **The push of one entry to every stale backup.** -/
theorem pushStale_ordered {name key value : Bytes} {ttlMs : Int64} {v : Option Value} {past : List Event}
    (hdata : ∀ d, S (name, key) = some d → value = d ∧ ttlMs = 0) (l : List Bytes) (sent : Bool)
    (hc : inCall h = false) (hn : NoDrop h)
    (hbefore : beforeRequests h = ⟨0, .on n (.lookup p name key), v⟩ :: past)
    (hmeta : (∃ addr ∈ l, L addr = some y) → name = queueMap → ∀ r, Needs S key r → GotPut y r h) :
    (ordered n y p L S).Obeys 0 (fun _ h' => (inCall h' = false ∧ NoDrop h') ∧
        (∀ r, GotPut y r h → GotPut y r h') ∧
        ((∃ addr ∈ l, L addr = some y) → name = queueSegMap → GotPut y (name, key) h'))
      (pushStale name key value ttlMs l sent) h := by
  induction l generalizing h sent with
  | nil => exact ⟨⟨hc, hn⟩, fun _ => id, fun ⟨_, hmem, _⟩ => absurd hmem List.not_mem_nil⟩
  | cons addr l ih =>
    have hcar : carried h = some (name, key) := by
      unfold carried
      rw [hbefore]
    refine Obeys.bind ((sendPut_ordered hc hdata fun hL =>
      hmeta ⟨addr, List.mem_cons_self, hL⟩).mono fun out h₁ hsent => ?_)
    obtain ⟨hasked, harrives⟩ := hsent
    have hrest : ∀ sent', (ordered n y p L S).Obeys 0 (fun _ h' => (inCall h' = false ∧ NoDrop h') ∧
        (∀ r, GotPut y r h → GotPut y r h') ∧
        ((∃ a ∈ addr :: l, L a = some y) → name = queueSegMap → GotPut y (name, key) h'))
        (pushStale name key value ttlMs l sent') h₁ := by
      intro sent'
      refine (ih sent' hasked.inCall (hasked.noDrop hn) (hasked.before.trans hbefore) ?_).mono ?_
      · exact fun ⟨a, ha, hL⟩ hname r hr =>
          hasked.got r (hmeta ⟨a, List.mem_cons_of_mem _ ha, hL⟩ hname r hr)
      · rintro _ h' ⟨hidle, hgot, harr⟩
        refine ⟨hidle, fun r hr => hgot r (hasked.got r hr), ?_⟩
        rintro ⟨a, ha, hL⟩ hseg
        rcases List.mem_cons.mp ha with rfl | ha
        · exact hgot _ (harrives hL hcar hseg)
        · exact harr ⟨a, ha, hL⟩ hseg
    cases out with
    | ok _ => exact hrest true
    | error _ => exact hrest sent

/-- **The push of the remaining entries**: all entries of queues get into the key set. -/
theorem syncEntries_ordered {es : List Entry} (hS : ∀ q r, Needs S q r → ∃ d, S r = some d)
    (hes : Taken S es) (now : ℕ) (stale : List Bytes) (rest done : List Entry) (keyset : List Ref)
    (pushed : ℕ) (hc : inCall h = false) (hn : NoDrop h) (hdone : orderQueueMetaLast es = done ++ rest)
    (hkeys : ∀ e ∈ done, ∀ d, S e.ref = some d → e.ref ∈ keyset)
    (hgot : (∃ addr ∈ stale, L addr = some y) →
      ∀ e ∈ done, ∀ d, S e.ref = some d → e.mapName = queueSegMap → GotPut y e.ref h) :
    (ordered n y p L S).Obeys 0 (fun out _ => ∀ r d, S r = some d → r ∈ out.1)
      (syncEntries n p now stale rest keyset pushed) h := by
  induction rest generalizing done keyset pushed h with
  | nil =>
    intro r d hr
    obtain ⟨e, he, rfl⟩ := hes.has r d hr
    rw [List.append_nil] at hdone
    exact hkeys e (hdone ▸ mem_orderQueueMetaLast.mpr he) d hr
  | cons e rest ih =>
    refine Obeys.step ⟨rfl, hn⟩ (fun v hv => ?_)
    have hn' : NoDrop (⟨0, .on n (.lookup p e.mapName e.key), v⟩ :: h) := noDrop_cons.mpr ⟨rfl, hn⟩
    have hdone' : orderQueueMetaLast es = (done ++ [e]) ++ rest := by
      rw [hdone, List.append_assoc]
      rfl
    -- an entry that is skipped is none of a queue
    have skip : (∀ d, S e.ref ≠ some d) → (ordered n y p L S).Obeys 0
        (fun out _ => ∀ r d, S r = some d → r ∈ out.1) (syncEntries n p now stale rest keyset pushed)
        (⟨0, .on n (.lookup p e.mapName e.key), v⟩ :: h) := by
      intro hnone
      refine ih (done ++ [e]) keyset pushed hc hn' hdone' (fun e' he' d hd => ?_)
        (fun hL e' he' d hd hseg => ?_)
      · rcases List.mem_append.mp he' with he' | he'
        · exact hkeys e' he' d hd
        · exact absurd hd (List.mem_singleton.mp he' ▸ hnone d)
      · rcases List.mem_append.mp he' with he' | he'
        · exact (hgot hL e' he' d hd hseg).cons _
        · exact absurd hd (List.mem_singleton.mp he' ▸ hnone d)
    cases v with
    | none => exact skip fun d hd => by cases hv rfl rfl d hd
    | some v =>
      dsimp only
      split
      · next hlapse =>
        refine skip fun d hd => ?_
        cases hv rfl rfl d hd
        cases hlapse
      have hdata : ∀ d, S (e.mapName, e.key) = some d →
          v.data = d ∧ remainingTTLms v.expireAt now = 0 := by
        intro d hd
        cases hv rfl rfl d hd
        exact ⟨rfl, rfl⟩
      have hidle : inCall (⟨0, .on n (.lookup p e.mapName e.key), some v⟩ :: h) = false := hc
      have hbefore : beforeRequests (⟨0, .on n (.lookup p e.mapName e.key), some v⟩ :: h) =
          ⟨0, .on n (.lookup p e.mapName e.key), some v⟩ :: senderEvents h := by
        rw [beforeRequests, senderEvents_cons hc]
        rfl
      refine Obeys.bind ((pushStale_ordered hdata stale false hidle hn' hbefore
        fun hL hname r hr => ?_).mono fun sent h' hpushed => ?_)
      · obtain ⟨d, hd⟩ := hS e.key r hr
        obtain ⟨seg, hseg, rfl⟩ := hes.has r d hd
        obtain ⟨_, i, -, -, href⟩ := hr
        have hsegMap : seg.mapName = queueSegMap := congrArg Prod.fst href
        refine (hgot hL seg (mem_before_meta (pairwise_orderQueueMetaLast es) hdone hname
          (mem_orderQueueMetaLast.mpr hseg) ?_) d hd hsegMap).cons _
        rw [hsegMap]
        exact queueMap_ne_queueSegMap.symm
      · obtain ⟨⟨hidle, hn''⟩, hkept, harr⟩ := hpushed
        refine ih (done ++ [e]) _ _ hidle hn'' hdone' (fun e' he' d hd => ?_)
          (fun hL e' he' d hd hseg => ?_)
        · rcases List.mem_append.mp he' with he' | he'
          · exact List.mem_append_left _ (hkeys e' he' d hd)
          · exact List.mem_append_right _ (List.mem_singleton.mpr (by rw [List.mem_singleton.mp he']))
        · rcases List.mem_append.mp he' with he' | he'
          · exact hkept _ ((hgot hL e' he' d hd hseg).cons _)
          · obtain rfl := List.mem_singleton.mp he'
            exact harr hL hseg

theorem wiring_ordered : Wiring (fun e => ∀ h, (ordered n y p L S).pre 0 h e) where
  on _ {a} ha _ := by cases a <;> first | exact ha.elim | exact ⟨rfl, trivial⟩
  connect _ _ := ⟨rfl, trivial⟩
  reply _ _ := ⟨rfl, trivial⟩

theorem reconcileAll_ordered {keyset : List Ref} (hkeys : ∀ r d, S r = some d → r ∈ keyset)
    (q : PartitionId) (l : List Bytes) :
    (reconcileAll q keyset l).All (fun e => ∀ h, (ordered n y p L S).pre 0 h e) := by
  induction l with
  | nil => trivial
  | cons addr l ih =>
    refine (wiring_ordered.send fun x => ?_).bind fun _ => ih
    refine Prog.All.step (wiring_ordered.on x (a := .table) trivial) (fun tbl => ?_)
    split
    · trivial
    · exact ⟨fun _ => ⟨rfl, hkeys⟩, fun _ => trivial⟩

end sync

section passes
variable (hS : ∀ q r, Needs S q r → ∃ d, S r = some d)
include hS

/-- **`Migrate` sends metadata after its segments.** -/
theorem migratePartition_ordered (hy : y ≠ n) (tbl : Table) :
    (ordered n y p L S).Obeys 0 (fun _ _ => True) (migratePartition n tbl p) [] := by
  refine Obeys.step ⟨rfl, fun _ h => absurd h List.not_mem_nil⟩ (fun es hpost => ?_)
  have hes : Taken S es := by
    refine ⟨fun r d hr => (hpost rfl rfl r d hr).1, fun e he d hd => ?_⟩
    exact (hpost rfl rfl e.ref d hd).2 e he rfl
  unfold Service.handOver
  split
  · trivial
  refine Obeys.bind ((pushTargets_ordered hS hes _ true rfl rfl).mono fun ok h' _ => ?_)
  split
  · exact ⟨⟨rfl, hy.symm⟩, fun _ _ => trivial⟩
  · trivial

/-- **`SyncBackups` sends metadata after its segments.** -/
theorem syncPartition_ordered (tbl : Table) (now : ℕ) :
    (ordered n y p L S).Obeys 0 (fun _ _ => True) (syncPartition n tbl now p) [] := by
  unfold Service.syncPartition
  split
  · trivial
  refine Obeys.step ⟨rfl, trivial⟩ (fun digest _ => ?_)
  have hn : NoDrop [⟨0, .on n (.digest p), digest⟩] := noDrop_cons.mpr ⟨rfl, fun _ h => by cases h⟩
  refine Obeys.bind ((probe_ordered p digest (tbl.backupsOf p) rfl hn).mono
    fun stale h₁ hprobed => ?_)
  split
  · trivial
  refine Obeys.step ⟨rfl, hprobed.2⟩ (fun es hpost => ?_)
  have hes : Taken S es := by
    refine ⟨fun r d hr => (hpost rfl rfl r d hr).1, fun e he d hd => ?_⟩
    exact (hpost rfl rfl e.ref d hd).2 e he rfl
  have hidle : inCall (⟨0, .on n (.snapshot p), es⟩ :: h₁) = false := hprobed.1
  refine Obeys.bind ((syncEntries_ordered hS hes now stale (orderQueueMetaLast es) [] [] 0 hidle
    (noDrop_cons.mpr ⟨rfl, hprobed.2⟩) rfl (fun _ h => by cases h) (fun _ _ h => by cases h)).mono
    fun out h₂ hkeys => ?_)
  exact Obeys.bind ((Obeys.of_all (reconcileAll_ordered hkeys p stale)
    (fun h e he => he h) h₂).mono fun _ _ _ => trivial)

end passes

/-! ### Runs -/

/-- A push of one partition: that of a `Migrate` pass, or that of a `SyncBackups` pass which read its
clock at `now`. -/
inductive Push where
  | migrate
  | sync (now : ℕ)

/-- The program of a push from node `n` with the table `tbl`. -/
def Push.prog (n : Bytes) (tbl : Table) (p : PartitionId) : Push → Prog Unit
  | .migrate => migratePartition n tbl p
  | .sync now => do let _ ← syncPartition n tbl now p

/-- **A receiver never has queue metadata ahead of its segments, unless a segment is lost**: node `n`
pushes the content of partition `p`, whose queues keep their representation invariant, and `y` has no
metadata of those queues at first.  At every moment of the push, whatever other requests are lost, `y`
has metadata of such a queue only with all the segments it references. -/
theorem segments_first {C : Cluster} {n y : Bytes} (hy : y ≠ n) {p : PartitionId}
    (hqueues : ∀ q v, (view ((C.nodes n).store.shards p) q).info = some v →
      Queued (view ((C.nodes n).store.shards p) q))
    (hfresh : ∀ q v, (view ((C.nodes n).store.shards p) q).info = some v →
      ((C.nodes y).store.queueView q).info = none)
    (push : Push) (tbl : Table) {sched : List (ℕ × Choice)}
    (hok : Meets exec (SegmentsArrive y) sched (Conf.init C (soloPool (push.prog n tbl p)))) :
    let D := (Conf.run exec sched (Conf.init C (soloPool (push.prog n tbl p)))).world.state
    ∀ q v x, (view ((C.nodes n).store.shards p) q).info = some v →
      ((D.nodes y).store.queueView q).info = some x →
      ∀ i, References x.data i → (((D.nodes y).store.queueView q).seg i).isSome := by
  intro D q v x hv hx i hi
  set S := queueData (C.nodes n).store p
  have hneeds : ∀ q r, Needs S q r → ∃ d, S r = some d := fun q r hr => needs_queueData hqueues hr
  have hobeys : ∀ j, (ordered n y p C.listen S).Obeys j (fun _ _ => True)
      ((Conf.init C (soloPool (push.prog n tbl p))).pool j)
      ((Conf.init C (soloPool (push.prog n tbl p))).world.own j) := by
    intro j
    match j, push with
    | 0, .migrate => exact migratePartition_ordered hneeds hy tbl
    | 0, .sync now =>
      exact Obeys.bind ((syncPartition_ordered hneeds tbl now).mono fun _ _ _ => trivial)
    | j + 1, _ => trivial
  have hinit : Pushing n y p C.listen S (Conf.init C (soloPool (push.prog n tbl p))).world := by
    refine ⟨rfl, rfl, fun _ r d hr => (queueData_eq_some.mp hr).2, fun r d _ hgot => ?_,
      fun q d v hd hfind => ?_⟩
    · obtain ⟨_, hev, _⟩ := hgot
      cases hev
    · have hnone := hfresh q ⟨d, 0⟩ (queueData_eq_some.mp hd).2
      rw [routedPartition_meta] at hfind
      cases hfind.symm.trans hnone
  obtain ⟨hend, -, -⟩ := (ordered_sound hy).run hinit hobeys hok
  have hd : S (queueMap, q) = some v.data := by
    refine queueData_eq_some.mpr ⟨rfl, ?_⟩
    rw [show (0 : Int64) = v.expireAt from ((hqueues q v hv).info_expireAt hv).symm]
    exact hv
  obtain ⟨hdata, hgot⟩ := hend.whole q v.data x hd (by rw [routedPartition_meta]; exact hx)
  have hneed : Needs S q (queueSegMap, queueSegKey i q) := ⟨v.data, i, hd, hdata ▸ hi, rfl⟩
  obtain ⟨d, hseg⟩ := hneeds q _ hneed
  have harrived := hend.arrived _ d hseg (hgot _ hneed)
  rw [routedPartition_seg] at harrived
  exact harrived

/-- The shard of a queue of one item. -/
def queueShard : Shard :=
  (((∅ : Shard).insert (queueSegMap, queueSegKey 0 [113]) ⟨packItems [[7]], 0⟩).insert (queueMap, [113])
    ⟨encodeQueueMeta 0 0 1, 0⟩)

/-- Two nodes, the first of which has a queue that the second has not. -/
def queuePair : Cluster where
  nodes n := { (oneEntry [[97], [98]] 1 [] ([109], [114]) []).nodes n with
    store := if n = [97] then Store.empty.setShard (forKey [113]) queueShard else Store.empty }
  listen := (oneEntry [[97], [98]] 1 [] ([109], [114]) []).listen
  backing _ := none

theorem queueShard_queued : Queued (view queueShard [113]) := by
  have hsegs : SegsAt (view queueShard [113]).seg 0 [[[7]]] := by
    have hnone : SegsAt (view (∅ : Shard) [113]).seg 0 ([] ++ []) := fun i => by simp [view]
    rw [queueShard, view_insert_meta, view_insert_seg]
    exact hnone.set_last [] (by decide) (by decide) [[7]]
  have hinfo : (view queueShard [113]).info = some ⟨encodeQueueMeta 0 0 1, 0⟩ := by
    rw [queueShard, view_insert_meta]
  refine ⟨0, 0, [[[7]]], ?_, by decide⟩
  exact ⟨by decide, by simp, by simp, by simp, by simp, hsegs, Or.inl hinfo⟩

theorem queuePair_shard : (queuePair.nodes [97]).store.shards (forKey [113]) = queueShard := by
  simp [queuePair, Store.setShard]

/-- The push of the queue, with no request lost. -/
theorem segments_first_queuePair :
    let D := (Conf.run exec (List.replicate 20 (0, .still)) (Conf.init queuePair
      (soloPool (Push.migrate.prog [97] (queuePair.nodes [97]).mem.table (forKey [113]))))).world.state
    ((D.nodes [98]).store.queueView [113]).info = some ⟨encodeQueueMeta 0 0 1, 0⟩ ∧
      (((D.nodes [98]).store.queueView [113]).seg 0).isSome = true := by
  intro D
  have hinfo : ((D.nodes [98]).store.queueView [113]).info = some ⟨encodeQueueMeta 0 0 1, 0⟩ := by
    decide +kernel
  have hcheck : Conf.check exec (fun i e c w => decide (SegmentsArrive [98] i e c w))
      (List.replicate 20 (0, .still)) (Conf.init queuePair
        (soloPool (Push.migrate.prog [97] (queuePair.nodes [97]).mem.table (forKey [113])))) = true := by
    decide +kernel
  have honly : ∀ q v, (view ((queuePair.nodes [97]).store.shards (forKey [113])) q).info = some v →
      q = [113] := by
    intro q v hv
    by_contra hq
    rw [queuePair_shard, queueShard, view_insert_meta_ne hq, view_insert_seg_ne hq] at hv
    cases hv
  refine ⟨hinfo, segments_first (by decide) (fun q v hv => ?_) (fun q v hv => ?_) .migrate
    (queuePair.nodes [97]).mem.table ((Meets.of_check hcheck).mono fun _ _ _ _ h => of_decide_eq_true h)
    [113] ⟨encodeQueueMeta 0 0 1, 0⟩ _ ?_ hinfo 0 (by decide)⟩
  · rw [honly q v hv, queuePair_shard]
    exact queueShard_queued
  · rw [honly q v hv]
    decide +kernel
  · rw [queuePair_shard, queueShard, view_insert_meta]

/-- **Metadata ahead of its segments**: the request that carries the segment is lost, and the push goes
on.  The receiver has the metadata of the queue, which references segment 0, and no segment. -/
theorem metadata_ahead :
    let lost : Choice := { lost := true }
    let D := (Conf.run exec (List.replicate 3 (0, .still) ++ [(0, lost)] ++ List.replicate 4 (0, .still))
      (Conf.init queuePair (soloPool (Push.migrate.prog [97] (queuePair.nodes [97]).mem.table
        (forKey [113]))))).world.state
    ((D.nodes [98]).store.queueView [113]).info = some ⟨encodeQueueMeta 0 0 1, 0⟩ ∧
      References (encodeQueueMeta 0 0 1) 0 ∧
      ((D.nodes [98]).store.queueView [113]).seg 0 = none := by
  decide +kernel

end Medusa
