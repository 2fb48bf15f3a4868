import Medusa.Lib.EventLog
import Medusa.WriteThrough

/-! # The event stream of a map

A write changes the store under a lock, which also decides whether it created the key, updated it or removed
it.  The event is queued for the listeners after the lock is released, so events of concurrent writes may be
queued in another order than the changes were made.

* `NodeAction.notice`: the event due for a change, and `notice_cases`: what a change does and what is due.
* `Write.telling_obeys`: an operation alone emits the event that is due for its change.
* `events_replay`: **the queued events replay to the content of the map when the events of every key are
  queued in the order of its changes.**
* `reordered_events`: two puts whose events overtake each other. -/

namespace Medusa

open Medusa.Partition Store Interleave Service Contract

/-! ### Events -/

/-- What an event says about the value before the change. -/
def EntryEvent.Finds (ev : EntryEvent) (d : Option Bytes) : Prop :=
  match ev.type with
  | .created => d = none
  | .updated => d ≠ none
  | .removed => d ≠ none

/-- What an event says about the value after the change. -/
def EntryEvent.leaves (ev : EntryEvent) : Option Bytes :=
  match ev.type with
  | .created => some ev.value
  | .updated => some ev.value
  | .removed => none

/-- The events lead from one content of a map to another: created and updated set the value, removed
deletes it, and each finds what it says. -/
abbrev Replays (m : Bytes → Option Bytes) (events : List EntryEvent) (m' : Bytes → Option Bytes) : Prop :=
  EventLog.Replays EntryEvent.key EntryEvent.Finds EntryEvent.leaves m events m'

/-! ### Changes and what is due for them -/

/-- The event due for a critical section with the given response, if it changed an entry. -/
def NodeAction.notice : (a : NodeAction) → a.Resp → Option EntryEvent
  | .put name key value _, created => some ⟨if created then .created else .updated, name, key, value⟩
  | .remove name key, existed => if existed then some ⟨.removed, name, key, []⟩ else none
  | .execute name key _ _, r =>
    match r.action with
    | .keep => none
    | .set => some ⟨if r.existedBefore then .updated else .created, name, key, r.newVal⟩
    | .delete => if r.existedBefore then some ⟨.removed, name, key, []⟩ else none
  | _, _ => none

/-- The critical section changes the map `name`, and sets no expiry. -/
def NodeAction.Alters (name : Bytes) : NodeAction → Prop
  | .put nm _ _ expireAt => nm = name ∧ expireAt = 0
  | .remove nm _ => nm = name
  | .execute nm _ _ _ => nm = name
  | _ => False

/-- What a change of the map does to one key, and the event that is due: nothing, a new value that is live
and takes over the expiry, or none instead of one. -/
inductive Altered (nd : Node) (name key : Bytes) : Option EntryEvent → Store → Prop
  | kept : Altered nd name key none nd.store
  | absent (h : nd.content (name, key) = none) :
      Altered nd name key none (nd.store.erase (routedPartition name key) (name, key))
  | set (v : Value) (hlive : v.expired nd.clock = false)
      (hexp : v.expireAt = 0 ∨ ∃ u, nd.store.find (routedPartition name key) (name, key) = some u ∧
        v.expireAt = u.expireAt) :
      Altered nd name key
        (some ⟨if (nd.content (name, key)).isSome then .updated else .created, name, key, v.data⟩)
        (nd.store.set (routedPartition name key) (name, key) v)
  | removed (h : nd.content (name, key) ≠ none) :
      Altered nd name key (some ⟨.removed, name, key, []⟩)
        (nd.store.erase (routedPartition name key) (name, key))

theorem Node.content_isSome (nd : Node) (name key : Bytes) :
    (nd.content (name, key)).isSome =
      (nd.store.lookup (routedPartition name key) name key nd.clock).isSome := Option.isSome_map

/-- A processor that sets an entry keeps the expiry of a live one. -/
theorem applyExecute_expireAt {s : Store} {name key : Bytes} {proc : Processor} {arg : Bytes} {now : ℕ}
    (hset : (Medusa.applyExecute s name key proc arg now).out.action = .set) :
    (Medusa.applyExecute s name key proc arg now).out.expireAt =
      ((s.lookup (forKey key) name key now).map Value.expireAt).getD 0 := by
  rcases h : proc ((s.lookup (forKey key) name key now).map Value.data) arg with ⟨newVal, action, out⟩
  cases action with
  | keep | delete => simp [Medusa.applyExecute, Store.update, h] at hset
  | set => simp [Medusa.applyExecute, Store.update, h]

theorem notice_cases {name : Bytes} (hname : isReservedMap name = false) {a : NodeAction}
    (ha : a.Alters name) (nd : Node) (c : Choice) :
    ∃ key, Altered nd name key (a.notice (nd.exec c a).1) (nd.exec c a).2.store := by
  cases a with
  | put nm key value expireAt =>
    obtain ⟨rfl, rfl⟩ := ha
    have hcreated : (nd.exec c (.put nm key value 0)).1 = (nd.content (nm, key)).isNone :=
      (Option.isNone_map).symm
    refine ⟨key, ?_⟩
    rw [hcreated, NodeAction.notice]
    have hset := @Altered.set nd nm key ⟨value, 0⟩ rfl (Or.inl rfl)
    cases hd : nd.content (nm, key) <;> rw [hd] at hset <;> exact hset
  | remove nm key =>
    obtain rfl := ha
    have hexisted : (nd.exec c (.remove nm key)).1 = (nd.content (nm, key)).isSome :=
      (nd.content_isSome nm key).symm
    refine ⟨key, ?_⟩
    rw [hexisted, NodeAction.notice]
    cases hd : nd.content (nm, key) with
    | none => exact Altered.absent hd
    | some d => exact Altered.removed (by rw [hd]; exact Option.some_ne_none d)
  | execute nm key proc arg =>
    obtain rfl := ha
    refine ⟨key, ?_⟩
    have hp := routedPartition_ordinary hname key
    have hexisted : (nd.exec c (.execute nm key proc arg)).1.existedBefore =
        (nd.content (nm, key)).isSome := by
      rw [Node.content, hp]
      rfl
    have hstore : (nd.exec c (.execute nm key proc arg)).2.store = _ :=
      applyExecute_store nd.store nm key proc arg nd.clock
    rw [hstore, ← hp]
    simp only [NodeAction.notice, hexisted]
    change Altered nd nm key (match (Medusa.applyExecute nd.store nm key proc arg nd.clock).out.action with
      | .keep => _ | .set => _ | .delete => _) _
    cases hact : (Medusa.applyExecute nd.store nm key proc arg nd.clock).out.action with
    | keep => exact Altered.kept
    | set =>
      have hexp := applyExecute_expireAt hact
      rw [← hp] at hexp
      have hset := @Altered.set nd nm key
        ⟨(Medusa.applyExecute nd.store nm key proc arg nd.clock).out.newVal,
          (Medusa.applyExecute nd.store nm key proc arg nd.clock).out.expireAt⟩
      rw [hexp] at hset ⊢
      cases hold : nd.store.lookup (routedPartition nm key) nm key nd.clock with
      | none =>
        rw [hold] at hset
        exact hset rfl (Or.inl rfl)
      | some u =>
        obtain ⟨hfind, hlive⟩ := lookup_eq_some.mp hold
        rw [hold] at hset
        exact hset hlive (Or.inr ⟨u, hfind, rfl⟩)
    | delete =>
      cases hd : nd.content (nm, key) with
      | none => exact Altered.absent hd
      | some d => exact Altered.removed (by rw [hd]; exact Option.some_ne_none d)
  | _ => exact ha.elim

section altered
variable {nd : Node} {name key : Bytes} {notice : Option EntryEvent} {s : Store}

theorem Altered.find_ne (h : Altered nd name key notice s) {key' : Bytes} (hne : key' ≠ key) :
    s.find (routedPartition name key') (name, key') =
      nd.store.find (routedPartition name key') (name, key') := by
  have hr : ((name, key') : Ref) ≠ (name, key) := fun h => hne (congrArg Prod.snd h)
  cases h with
  | kept => rfl
  | absent | removed => exact (find_erase_routed nd.store (name, key) (name, key')).trans (if_neg hr)
  | set v => exact (find_set_routed nd.store (name, key) (name, key') v).trans (if_neg hr)

/-- Expiry dates are only taken over. -/
theorem Altered.expireAt (h : Altered nd name key notice s) {v : Value}
    (hv : s.find (routedPartition name key) (name, key) = some v) : v.expireAt = 0 ∨
      ∃ u, nd.store.find (routedPartition name key) (name, key) = some u ∧ v.expireAt = u.expireAt := by
  cases h with
  | kept => exact Or.inr ⟨v, hv, rfl⟩
  | absent | removed =>
    rw [find_erase, if_pos ⟨rfl, rfl⟩] at hv
    cases hv
  | set v' hlive hexp =>
    rw [find_set, if_pos ⟨rfl, rfl⟩] at hv
    obtain rfl := Option.some.inj hv
    exact hexp

/-- Without an event the live value stays as it is. -/
theorem Altered.get_eq (h : Altered nd name key none s) :
    s.get (routedPartition name key) name key nd.clock = nd.content (name, key) := by
  generalize hn : (none : Option EntryEvent) = notice at h
  cases h with
  | kept => rfl
  | absent habsent => rw [habsent, Store.get, lookup, find_erase, if_pos ⟨rfl, rfl⟩]; rfl
  | set | removed => cases hn

/-- The event is about the key, finds the live value and leaves the new one. -/
theorem Altered.event {ev : EntryEvent} (h : Altered nd name key (some ev) s) :
    ev.key = key ∧ ev.Finds (nd.content (name, key)) ∧
      s.get (routedPartition name key) name key nd.clock = ev.leaves := by
  generalize hn : some ev = notice at h
  cases h with
  | kept | absent => cases hn
  | set v hlive =>
    obtain rfl := Option.some.inj hn
    refine ⟨rfl, ?_, ?_⟩
    · cases hd : nd.content (name, key) <;> simp [EntryEvent.Finds]
    · rw [Store.get, lookup, find_set, if_pos ⟨rfl, rfl⟩]
      cases hd : nd.content (name, key) <;> simp [EntryEvent.leaves, hlive]
  | removed hpresent =>
    obtain rfl := Option.some.inj hn
    refine ⟨rfl, hpresent, ?_⟩
    rw [Store.get, lookup, find_erase, if_pos ⟨rfl, rfl⟩]
    rfl

end altered

/-! ### Due and told -/

/-- The event due on node `n` for an event of the history, if it changed an entry. -/
def due (n : Bytes) : Event → Option EntryEvent
  | ⟨_, .on m a, resp⟩ => if m = n then a.notice resp else none
  | _ => none

/-- The event that an event of the history emits on node `n`. -/
def told (n : Bytes) : Event → Option EntryEvent
  | ⟨_, .on m (.emit ev), _⟩ => if m = n then some ev else none
  | _ => none

/-- Only what is about the key. -/
def about (key : Bytes) (f : Event → Option EntryEvent) (ev : Event) : Option EntryEvent :=
  (f ev).filter fun e => e.key = key

/-- The condition on the steps of a run: an event is not dropped, and it belongs to the oldest change of
its key whose event has not been emitted yet. -/
def EmitsInTurn (n : Bytes) (i : ℕ) (e : Action) (c : Choice) (w : World) : Prop :=
  ∀ ev ∈ told n ⟨i, e, (exec e c w.state).1⟩,
    c.lost = false ∧ InSequence exec (about ev.key (due n)) (about ev.key (told n)) i e c w

instance (n : Bytes) (i : ℕ) (e : Action) (c : Choice) (w : World) : Decidable (EmitsInTurn n i e c w) :=
  Option.decidableForallMem _

theorem told_eq_some {n : Bytes} {i : ℕ} {e : Action} {resp : e.Resp} {ev : EntryEvent}
    (h : told n ⟨i, e, resp⟩ = some ev) : e = .on n (.emit ev) := by
  cases e with
  | on m a =>
    cases a with
    | emit ev' =>
      simp only [told] at h
      split at h
      · next hm => rw [hm, Option.some.inj h]
      · cases h
    | _ => cases h
  | _ => cases h

theorem due_emit (n : Bytes) (i : ℕ) (m : Bytes) (ev : EntryEvent) :
    due n ⟨i, .on m (.emit ev), ()⟩ = none := by
  simp only [due, NodeAction.notice, ite_self]

theorem map_writeLog (f : Event → Option EntryEvent) (key : Bytes) (h : List Event) :
    (writeLog (about key f) h).map Prod.snd = (h.filterMap f).filter fun e => e.key = key := by
  rw [writeLog, List.map_filterMap, List.filter_filterMap]
  refine List.filterMap_congr fun ev _ => ?_
  rw [about, Option.map_map]
  exact Option.map_id'

/-! ### The contract -/

/-- The action leaves the store of node `n` alone. -/
def Action.Aside (n : Bytes) : Action → Prop
  | .on m a => m = n → a.Reads
  | _ => True

/-- The action changes the map `name` on node `n`, and sets no expiry. -/
def Action.Alters (n name : Bytes) : Action → Prop
  | .on m a => m = n ∧ a.Alters name
  | _ => False

/-- What the owner's threads are told: the addresses of other members are not its own. -/
def Elsewhere (listen : Bytes → Option Bytes) (n : Bytes) : (e : Action) → e.Resp → Prop
  | .on m (.addrOf id), r => m = n → id ≠ n → ∀ addr, r = some addr → listen addr ≠ some n
  | .connect addr, r => ∀ x, r = some x → listen addr = some x
  | _, _ => True

/-- Threads that change one entry of the map on the owner, and emit what is due for that. -/
def telling (listen : Bytes → Option Bytes) (n name : Bytes) : Contract Action.Resp where
  pre _ h e := e.Calm ∧ (e.Aside n ∨ e.Alters n name ∧ h.filterMap (due n) = []) ∧
    ∀ ev, e = .on n (.emit ev) → h.filterMap (due n) = [ev]
  post _ _ e resp := Elsewhere listen n e resp

/-- What holds in a run: the changes of every key replay to its live value, and the events emitted are the
first of those due. -/
structure Telling (C : Cluster) (n name : Bytes) (t : ℕ) (w : World) : Prop where
  listen : w.state.listen = C.listen
  mem : (w.state.nodes n).mem = (C.nodes n).mem
  listener : (w.state.nodes n).listener = true
  clock : (C.nodes n).clock ≤ (w.state.nodes n).clock
  still : ∀ key v, (w.state.nodes n).store.find (routedPartition name key) (name, key) = some v →
    v.expired t = v.expired (C.nodes n).clock
  changes : ∀ key, EventLog.ReplaysAt EntryEvent.Finds EntryEvent.leaves ((C.nodes n).content (name, key))
    ((writeLog (about key (due n)) w.past).map Prod.snd).reverse
    ((w.state.nodes n).store.get (routedPartition name key) name key (C.nodes n).clock)
  order : ∀ key, writeLog (about key (told n)) w.past <:+ writeLog (about key (due n)) w.past
  events : (w.state.nodes n).events = (C.nodes n).events ++ (w.past.filterMap (told n)).reverse

section step
variable {C : Cluster} {n name : Bytes} {t : ℕ} {w : World} {i : ℕ} {e : Action} {c : Choice}

/-- What happens outside the nodes changes none of them. -/
theorem exec_nodes (hc : e.Calm) (hon : ∀ m a, e ≠ .on m a) (c : Choice) (C : Cluster) :
    (exec e c C).2.nodes = C.nodes := by
  cases e with
  | on m a => exact absurd rfl (hon m a)
  | start | crash | close => exact hc.elim
  | storeThrough | deleteThrough => simp only [exec]; split <;> rfl
  | _ => rfl

theorem Action.Aside.store (h : e.Aside n) (hc : e.Calm) (c : Choice) (C : Cluster) :
    ((exec e c C).2.nodes n).store = (C.nodes n).store := by
  cases e with
  | on m a =>
    by_cases hm : m = n
    · exact (h hm).exec_store m c C n
    · rw [exec_on_ne _ _ _ _ (Ne.symm hm)]
  | _ => rw [exec_nodes hc (by simp)]

theorem Action.Aside.due (h : e.Aside n) (i : ℕ) (resp : e.Resp) : due n ⟨i, e, resp⟩ = none := by
  cases e with
  | on m a =>
    simp only [Medusa.due]
    split
    · next hm =>
      have hr := h hm
      cases a with
      | put | remove | execute => exact hr.elim
      | _ => rfl
    · rfl
  | _ => rfl

theorem exec_listener (hc : e.Calm) (c : Choice) (C : Cluster) (n : Bytes) :
    ((exec e c C).2.nodes n).listener = (C.nodes n).listener := by
  cases e with
  | on m a =>
    by_cases hm : n = m
    · subst hm
      rw [exec_on_self]
      cases a with
      | emit ev => simp only [Node.exec]; split <;> rfl
      | _ => rfl
    · rw [exec_on_ne _ _ _ _ hm]
  | _ => rw [exec_nodes hc (by simp)]

/-- The queue of events after an action that drops none. -/
theorem exec_events (hc : e.Calm) (hlistener : (C.nodes n).listener = true)
    (hkept : told n ⟨i, e, (exec e c C).1⟩ ≠ none → c.lost = false) :
    ((exec e c C).2.nodes n).events =
      (C.nodes n).events ++ (told n ⟨i, e, (exec e c C).1⟩).toList := by
  cases e with
  | on m a =>
    by_cases hm : m = n
    · subst hm
      rw [exec_on_self]
      cases a with
      | emit ev =>
        have hlost := hkept (by simp [told])
        simp [Node.exec, Node.tick, hlistener, hlost, told]
      | _ => exact (List.append_nil _).symm
    · rw [exec_on_ne _ _ _ _ (Ne.symm hm)]
      cases a with
      | emit ev => simp [told, hm]
      | _ => exact (List.append_nil _).symm
  | _ =>
    rw [exec_nodes hc (by simp)]
    exact (List.append_nil _).symm

/-- What a thread wrote is in its own history. -/
theorem mem_own_of_mem_writeLog {f : Event → Option EntryEvent} {key : Bytes} {ev : EntryEvent}
    (h : (i, ev) ∈ writeLog (about key f) w.past) : ev ∈ (w.own i).filterMap f := by
  obtain ⟨x, hx, heq⟩ := List.mem_filterMap.mp h
  obtain ⟨ev', hev', hpair⟩ := Option.map_eq_some_iff.mp heq
  obtain ⟨rfl, rfl⟩ := Prod.mk.inj hpair
  refine List.mem_filterMap.mpr ⟨x, List.mem_filter.mpr ⟨hx, by simp⟩, ?_⟩
  exact (Option.filter_eq_some_iff.mp hev').1

theorem Telling.order_next (hw : Telling C n name t w) (hturn : EmitsInTurn n i e c w)
    (hpre : ∀ ev, e = .on n (.emit ev) → (w.own i).filterMap (due n) = [ev]) (key : Bytes) :
    writeLog (about key (told n)) (w.next exec i e c).past <:+
      writeLog (about key (due n)) (w.next exec i e c).past := by
  refine writeLog_suffix_next (hw.order key) ?_ ?_
  · intro hne
    obtain ⟨ev, hev⟩ := Option.ne_none_iff_exists'.mp hne
    obtain ⟨htold, hkey⟩ := Option.filter_eq_some_iff.mp hev
    obtain rfl := of_decide_eq_true hkey
    exact (hturn ev htold).2 hne
  · intro x hx
    obtain ⟨htold, hkey⟩ := Option.filter_eq_some_iff.mp hx
    obtain rfl := told_eq_some htold
    refine ⟨by rw [about, due_emit]; rfl, fun y hy => ?_⟩
    have hown := mem_own_of_mem_writeLog hy
    rw [hpre x rfl] at hown
    exact List.mem_singleton.mp hown

/-- An entry that does not expire reads the same at every clock reading. -/
theorem get_still {s : Store} {name key : Bytes} {t₀ now t : ℕ} (hnow : t₀ ≤ now) (hnow' : now ≤ t)
    (h : ∀ v, s.find (routedPartition name key) (name, key) = some v → v.expired t = v.expired t₀) :
    s.get (routedPartition name key) name key now = s.get (routedPartition name key) name key t₀ := by
  rw [Store.get, Store.get, lookup, lookup]
  cases hv : s.find (routedPartition name key) (name, key) with
  | none => rfl
  | some v =>
    have hexp : v.expired now = v.expired t₀ := by
      cases hx : v.expired now with
      | false => exact (Value.live_of_live_later hx hnow).symm
      | true => rw [← h v hv, Value.expired_mono hx hnow']
    simp only [Option.filter_some, hexp]

/-- One change of the map: no expiry date is new, and it goes on with the event due for it. -/
theorem Telling.alter (hw : Telling C n name t w) (hname : isReservedMap name = false) {a : NodeAction}
    (ha : a.Alters name) (ht : (w.state.nodes n).clock + c.tick ≤ t) :
    (∀ key v, ((exec (.on n a) c w.state).2.nodes n).store.find (routedPartition name key) (name, key) =
      some v → v.expired t = v.expired (C.nodes n).clock) ∧
    ∀ key, EventLog.ReplaysAt EntryEvent.Finds EntryEvent.leaves ((C.nodes n).content (name, key))
      ((writeLog (about key (due n)) (w.next exec i (.on n a) c).past).map Prod.snd).reverse
      (((exec (.on n a) c w.state).2.nodes n).store.get (routedPartition name key) name key
        (C.nodes n).clock) := by
  rw [World.next_past, exec_on_self]
  obtain ⟨key, haltered⟩ := notice_cases hname ha ((w.state.nodes n).tick c.tick) c
  have hstill : ∀ key' v, (((w.state.nodes n).tick c.tick).exec c a).2.store.find
      (routedPartition name key') (name, key') = some v → v.expired t = v.expired (C.nodes n).clock := by
    intro key' v hv
    by_cases hk : key' = key
    · subst hk
      rcases haltered.expireAt hv with h0 | ⟨u, hu, heq⟩
      · simp [Value.expired, h0]
      · have hsteady := hw.still key' u hu
        rwa [Value.expired, Value.expired, ← heq] at hsteady
    · rw [haltered.find_ne hk] at hv
      exact hw.still key' v hv
  have hnow : (C.nodes n).clock ≤ ((w.state.nodes n).tick c.tick).clock :=
    hw.clock.trans (Nat.le_add_right _ _)
  have hold : ((w.state.nodes n).tick c.tick).content (name, key) =
      (w.state.nodes n).store.get (routedPartition name key) name key (C.nodes n).clock :=
    get_still hnow ht (hw.still key)
  have hnew := get_still hnow ht (hstill key)
  have hdue : ∀ key' resp, about key' (due n) ⟨i, .on n a, resp⟩ =
      (a.notice resp).filter fun ev => ev.key = key' := by
    intro key' resp
    simp only [about, due, if_true]
  refine ⟨hstill, fun key' => ?_⟩
  cases hnotice : a.notice (((w.state.nodes n).tick c.tick).exec c a).1 with
  | none =>
    rw [hnotice] at haltered
    rw [writeLog_cons_none (by rw [hdue, exec_on_fst, hnotice]; rfl)]
    by_cases hk : key' = key
    · subst hk
      rw [← hnew, haltered.get_eq, hold]
      exact hw.changes key'
    · rw [Store.get, lookup, haltered.find_ne hk]
      exact hw.changes key'
  | some ev =>
    rw [hnotice] at haltered
    obtain ⟨rfl, hfinds, hleaves⟩ := haltered.event
    by_cases hk : key' = ev.key
    · subst hk
      rw [writeLog_cons_some (x := ev) (by rw [hdue, exec_on_fst, hnotice]; simp), List.map_cons,
        List.reverse_cons, ← hnew, hleaves]
      exact (hw.changes ev.key).snoc (hold ▸ hfinds)
    · rw [writeLog_cons_none (by rw [hdue, exec_on_fst, hnotice]; simpa using Ne.symm hk), Store.get, lookup,
        haltered.find_ne hk]
      exact hw.changes key'

theorem telling_sound (hname : isReservedMap name = false)
    (hforeign : ∀ id addr, id ≠ n → (C.nodes n).mem.addrOf id = some addr → C.listen addr ≠ some n) :
    (telling C.listen n name).Sound exec (Telling C n name t) (fun i e c w => EmitsInTurn n i e c w ∧
      ((exec e c w.state).2.nodes n).clock ≤ t) := by
  rintro i e c w hw ⟨hturn, ht⟩ ⟨hcalm, hstore, hpre⟩
  have hevents := exec_events (i := i) (c := c) hcalm hw.listener fun hne => by
    obtain ⟨ev, hev⟩ := Option.ne_none_iff_exists'.mp hne
    exact (hturn ev hev).1
  refine ⟨?_, ?_⟩
  · have hchange : (∀ key v, ((exec e c w.state).2.nodes n).store.find (routedPartition name key)
          (name, key) = some v → v.expired t = v.expired (C.nodes n).clock) ∧
        ∀ key, EventLog.ReplaysAt EntryEvent.Finds EntryEvent.leaves ((C.nodes n).content (name, key))
          ((writeLog (about key (due n)) (w.next exec i e c).past).map Prod.snd).reverse
          (((exec e c w.state).2.nodes n).store.get (routedPartition name key) name key
            (C.nodes n).clock) := by
      rcases hstore with haside | ⟨halters, -⟩
      · rw [haside.store hcalm]
        refine ⟨hw.still, fun key => ?_⟩
        rw [World.next_past, writeLog_cons_none (by rw [about, haside.due]; rfl)]
        exact hw.changes key
      · cases e with
        | on m a =>
          obtain ⟨rfl, ha⟩ := halters
          rw [exec_on_clock] at ht
          exact hw.alter hname ha ht
        | _ => exact halters.elim
    refine ⟨(hcalm.listen c w.state).trans hw.listen, (hcalm.mem c w.state n).trans hw.mem,
      (exec_listener hcalm c w.state n).trans hw.listener, hw.clock.trans (exec_clock_mono n c w.state e),
      hchange.1, hchange.2, hw.order_next hturn hpre, ?_⟩
    rw [World.next_state, hevents, hw.events, World.next_past, List.filterMap_cons]
    cases told n ⟨i, e, (exec e c w.state).1⟩ <;> simp
  · cases e with
    | connect addr =>
      intro x hx
      change (if c.lost then none else w.state.listen addr) = some x at hx
      split at hx
      · cases hx
      · rwa [hw.listen] at hx
    | on m a =>
      cases a with
      | addrOf id =>
        rintro rfl hid addr haddr
        change (w.state.nodes m).mem.addrOf id = some addr at haddr
        rw [hw.mem] at haddr
        exact hforeign id addr hid haddr
      | _ => trivial
    | _ => trivial

end step

/-! ### What an operation emits -/

section obeys
variable {listen : Bytes → Option Bytes} {i : ℕ} {n name : Bytes}

/-- The action neither changes an entry of node `n` nor emits an event there. -/
def Action.Idle (n : Bytes) (e : Action) : Prop :=
  e.Calm ∧ e.Aside n ∧ ∀ ev, e ≠ .on n (.emit ev)

/-- Nothing became due or was emitted. -/
def Unchanged (n : Bytes) (h h' : List Event) : Prop :=
  h'.filterMap (due n) = h.filterMap (due n) ∧ h'.filterMap (told n) = h.filterMap (told n)

theorem Unchanged.trans {h h' h'' : List Event} (hh : Unchanged n h h') (hh' : Unchanged n h' h'') :
    Unchanged n h h'' := ⟨hh'.1.trans hh.1, hh'.2.trans hh.2⟩

theorem Action.Idle.unchanged {e : Action} (he : e.Idle n) (i : ℕ) (resp : e.Resp) (h : List Event) :
    Unchanged n h (⟨i, e, resp⟩ :: h) := by
  have htold : told n ⟨i, e, resp⟩ = none := by
    rw [Option.eq_none_iff_forall_ne_some]
    exact fun ev hev => he.2.2 ev (told_eq_some hev)
  exact ⟨List.filterMap_cons_none (he.2.1.due i resp), List.filterMap_cons_none htold⟩

theorem Action.Idle.pre {e : Action} (he : e.Idle n) (i : ℕ) (h : List Event) :
    (telling listen n name).pre i h e :=
  ⟨he.1, Or.inl he.2.1, fun ev hev => absurd hev (he.2.2 ev)⟩

theorem idle_obeys {α : Type} {p : Prog α} (hp : p.All (Action.Idle n)) (h : List Event) :
    (telling listen n name).Obeys i (fun _ h' => Unchanged n h h') p h := by
  induction p generalizing h with
  | done a => exact ⟨rfl, rfl⟩
  | act e k ih =>
    refine ⟨hp.1.pre i h, fun resp _ => (ih resp (hp.2 resp) _).mono fun _ h' hh' => ?_⟩
    exact (hp.1.unchanged i resp h).trans hh'

theorem idle_reads (m : Bytes) {a : NodeAction} (hr : a.Reads) (hc : a.Calm) (hemit : ∀ ev, a ≠ .emit ev) :
    (Action.on m a).Idle n :=
  ⟨hc, fun _ => hr, fun ev hev => by
    obtain ⟨-, ha⟩ := Action.on.inj hev
    exact hemit ev ha⟩

/-- Another node applies a message. -/
theorem idle_apply {x : Bytes} (hx : x ≠ n) (msg : Replica) : (msg.apply x).All (Action.Idle n) := by
  have hon : ∀ {a : NodeAction}, a.Calm → (Action.on x a).Idle n := fun hc =>
    ⟨hc, fun h => absurd h hx, fun ev hev => hx (Action.on.inj hev).1⟩
  cases msg with
  | put name key value ttlMs => exact ⟨hon trivial, fun now => ⟨hon trivial, fun _ => trivial⟩⟩
  | remove name key => exact ⟨hon trivial, fun _ => trivial⟩

theorem send_unchanged {addr : Bytes} (haddr : listen addr ≠ some n) (msg : Replica) (h : List Event) :
    (telling listen n name).Obeys i (fun _ h' => Unchanged n h h') (send addr fun x => msg.apply x) h := by
  have hconnect : (Action.connect addr).Idle n := ⟨trivial, trivial, by simp⟩
  refine ⟨hconnect.pre i h, fun r hr => ?_⟩
  have h₁ := hconnect.unchanged i r h
  cases r with
  | none => exact h₁
  | some x =>
    have hx : x ≠ n := fun h0 => haddr (h0 ▸ hr x rfl)
    have hreply : (Action.reply x).Idle n := ⟨trivial, trivial, by simp⟩
    have hall : ((msg.apply x) >>= fun out => Interleave.Prog.perform (R := Action.Resp) (.reply x) >>=
        fun arrived => (return if arrived then out else .error .unreachable :
          Prog (Except ServiceError Bool))).All (Action.Idle n) :=
      (idle_apply hx msg).bind fun _ => ⟨hreply, fun _ => trivial⟩
    exact (idle_obeys hall _).mono fun _ h' hh' => h₁.trans hh'

theorem replicateTo_unchanged (msg : Replica) (l : List Bytes) (h : List Event) :
    (telling listen n name).Obeys i (fun _ h' => Unchanged n h h') (replicateTo n msg l) h := by
  induction l generalizing h with
  | nil => exact ⟨rfl, rfl⟩
  | cons x l ih =>
    unfold replicateTo
    split
    · exact ih h
    · next hx =>
      have haddr := idle_reads (n := n) n (a := .addrOf x) trivial trivial (by simp)
      refine Obeys.step (haddr.pre i h) (fun r hr => ?_)
      have h₁ := haddr.unchanged i r h
      cases r with
      | none => exact (ih _).mono fun _ h' hh' => h₁.trans hh'
      | some addr =>
        refine Obeys.bind ((send_unchanged (hr rfl hx addr rfl) msg _).mono
          fun _ h₂ hh₂ => ?_)
        exact (ih h₂).mono fun _ h' hh' => (h₁.trans hh₂).trans hh'

theorem replicate_unchanged (p : PartitionId) (msg : Replica) (h : List Event) :
    (telling listen n name).Obeys i (fun _ h' => Unchanged n h h') (replicate n p msg) h := by
  have htable := idle_reads (n := n) n (a := .table) trivial trivial (by simp)
  refine Obeys.step (htable.pre i h) (fun tbl _ => ?_)
  exact (replicateTo_unchanged msg _ _).mono fun _ h' hh' => (htable.unchanged i tbl h).trans hh'

/-- The thread has emitted what is due. -/
def Settled (n : Bytes) (h : List Event) : Prop := h.filterMap (told n) = h.filterMap (due n)

theorem Settled.unchanged {h h' : List Event} (hs : Settled n h) (hh : Unchanged n h h') : Settled n h' :=
  hh.2.trans (hs.trans hh.1.symm)

/-- What follows the event is nobody's business. -/
theorem settled_obeys {α : Type} {p : Prog α} (hp : p.All (Action.Idle n)) {h : List Event}
    (hs : Settled n h) : (telling listen n name).Obeys i (fun _ h' => Settled n h') p h :=
  (idle_obeys hp h).mono fun _ _ hh => hs.unchanged hh

theorem idle_callThrough {α : Type} (nm : Bytes) {call : Prog Bool} (hcall : call.All (Action.Idle n))
    (out : α) : (callThrough n nm call out).All (Action.Idle n) := by
  refine Prog.All.step (idle_reads n trivial trivial (by simp)) fun src => ?_
  split
  · exact hcall.bind fun _ => trivial
  · trivial

/-- The events `d` are due, and none has been emitted. -/
def Owing (n : Bytes) (d : List EntryEvent) (h : List Event) : Prop :=
  h.filterMap (due n) = d ∧ h.filterMap (told n) = []

theorem Owing.unchanged {d : List EntryEvent} {h h' : List Event} (ho : Owing n d h)
    (hh : Unchanged n h h') : Owing n d h' := ⟨hh.1.trans ho.1, hh.2.trans ho.2⟩

/-- The event that is due is emitted. -/
theorem emit_settles (hname : isReservedMap name = false) {type : EventType} {key value : Bytes}
    {h : List Event} (ho : Owing n [⟨type, name, key, value⟩] h) :
    (telling listen n name).Obeys i (fun _ h' => Settled n h') (emit n type name key value) h := by
  unfold emit
  rw [if_neg (by simp [hname])]
  refine ⟨⟨trivial, Or.inl fun _ => trivial, fun ev hev => ?_⟩, fun resp _ => ?_⟩
  · obtain ⟨-, ha⟩ := Action.on.inj hev
    obtain rfl := NodeAction.emit.inj ha
    exact ho.1
  · have htold : told n ⟨i, .on n (.emit ⟨type, name, key, value⟩), resp⟩ =
        some ⟨type, name, key, value⟩ := if_pos rfl
    refine (List.filterMap_cons_some htold).trans ?_
    rw [ho.2, List.filterMap_cons_none (due_emit n i n _), ho.1]

/-- Replication, the event and the call after a write. -/
theorem written_settles {α : Type} (hname : isReservedMap name = false) (p : PartitionId)
    (key value : Bytes) (ttlMs : Int64) {type : EventType} (out : α) {h : List Event}
    (ho : Owing n [⟨type, name, key, value⟩] h) :
    (telling listen n name).Obeys i (fun _ h' => Settled n h')
      (do replicate n p (.put name key value ttlMs)
          emit n type name key value
          writeThrough n name key value out : Prog (Except ServiceError α)) h := by
  refine Obeys.bind ((replicate_unchanged p _ h).mono fun _ h₁ hh₁ => ?_)
  refine Obeys.bind ((emit_settles hname (ho.unchanged hh₁)).mono fun _ h₂ hh₂ => ?_)
  exact settled_obeys (idle_callThrough _ (Prog.All.perform ⟨trivial, trivial, by simp⟩) _) hh₂

/-- Replication, the event and the call after a removal. -/
theorem removed_settles {α : Type} (hname : isReservedMap name = false) (p : PartitionId) (key : Bytes)
    (existed : Bool) (out : α) {h : List Event}
    (ho : Owing n (if existed then [⟨.removed, name, key, []⟩] else []) h) :
    (telling listen n name).Obeys i (fun _ h' => Settled n h')
      (do replicate n p (.remove name key)
          emitRemoved n existed name key
          deleteThrough n name key out : Prog (Except ServiceError α)) h := by
  refine Obeys.bind ((replicate_unchanged p _ h).mono fun _ h₁ hh₁ => ?_)
  replace ho := ho.unchanged hh₁
  have hemit : (telling listen n name).Obeys i (fun _ h' => Settled n h')
      (emitRemoved n existed name key) h₁ := by
    cases existed with
    | false => exact ho.2.trans ho.1.symm
    | true => exact emit_settles hname ho
  refine Obeys.bind (hemit.mono fun _ h₂ hh₂ => ?_)
  exact settled_obeys (idle_callThrough _ (Prog.All.perform ⟨trivial, trivial, by simp⟩) _) hh₂

/-- The change of an operation, and what is due for it. -/
theorem alter_obeys {α : Type} {a : NodeAction} (ha : a.Alters name) (hc : a.Calm)
    (htold : ∀ ev, a ≠ .emit ev) {h : List Event} (ho : Owing n [] h) {k : a.Resp → Prog α}
    (hk : ∀ resp h', Owing n (a.notice resp).toList h' →
      (telling listen n name).Obeys i (fun _ h' => Settled n h') (k resp) h') :
    (telling listen n name).Obeys i (fun _ h' => Settled n h') (Prog.on n a >>= k) h := by
  refine Obeys.step ⟨hc, Or.inr ⟨⟨rfl, ha⟩, ho.1⟩, fun ev hev => ?_⟩ fun resp _ => hk resp _ ?_
  · exact absurd (Action.on.inj hev).2 (htold ev)
  · have hnone : told n ⟨i, .on n a, resp⟩ = none := by
      rw [Option.eq_none_iff_forall_ne_some]
      exact fun ev hev => htold ev (Action.on.inj (told_eq_some hev)).2
    refine ⟨?_, (List.filterMap_cons_none hnone).trans ho.2⟩
    have hdue : due n ⟨i, .on n a, resp⟩ = a.notice resp := if_pos rfl
    cases hnotice : a.notice resp with
    | none => exact (List.filterMap_cons_none (hdue.trans hnotice)).trans ho.1
    | some ev => exact (List.filterMap_cons_some (hdue.trans hnotice)).trans (by rw [ho.1]; rfl)

/-- The operation is a put without an expiry, a removal or the execution of a processor, of the map `name`
and asked of its owner `n`. -/
def Service.Write.OfMap (n name : Bytes) : Write → Prop
  | .idle => True
  | .put m nm _ _ ttlMs isBackup => m = n ∧ nm = name ∧ ttlMs = 0 ∧ isBackup = false
  | .remove m nm _ isBackup => m = n ∧ nm = name ∧ isBackup = false
  | .evict _ _ _ => False
  | .execute m nm _ _ _ => m = n ∧ nm = name

theorem owing_nil : Owing n [] [] := ⟨rfl, rfl⟩

theorem applyPut_settles (hname : isReservedMap name = false) (key value : Bytes) :
    (telling listen n name).Obeys i (fun _ h' => Settled n h')
      (Service.applyPut n name key value 0 false) [] := by
  have hnow := idle_reads (n := n) n (a := .nowNano) trivial trivial (by simp)
  refine Obeys.bind (Obeys.step (hnow.pre i _) fun now _ => ?_)
  refine alter_obeys (a := .put name key value (expireFromTTL now 0)) ⟨rfl, rfl⟩ trivial (by simp)
    (owing_nil.unchanged (hnow.unchanged i now _)) fun created h' ho => ?_
  exact written_settles hname _ key value 0 created ho

theorem applyRemove_settles (hname : isReservedMap name = false) (key : Bytes) :
    (telling listen n name).Obeys i (fun _ h' => Settled n h')
      (Service.applyRemove n name key false) [] := by
  refine alter_obeys (a := .remove name key) rfl trivial (by simp) owing_nil fun existed h' ho => ?_
  refine removed_settles hname _ key existed existed ?_
  cases existed <;> exact ho

theorem applyExecute_settles (hname : isReservedMap name = false) (procs : Registry)
    (key procName arg : Bytes) :
    (telling listen n name).Obeys i (fun _ h' => Settled n h')
      (Service.applyExecute procs n name key procName arg) [] := by
  have hne : name ≠ queueMap ∧ name ≠ queueSegMap := by
    constructor <;> rintro rfl <;> exact absurd hname (by decide)
  unfold Service.applyExecute
  rw [if_neg hne.1, if_neg hne.2]
  split
  · exact rfl
  · next proc _ =>
    refine alter_obeys (a := .execute name key proc arg) rfl trivial (by simp) owing_nil fun r h' ho => ?_
    unfold Service.finishExecute
    simp only [NodeAction.notice] at ho
    cases hact : r.action with
    | keep =>
      rw [hact] at ho
      exact ho.2.trans ho.1.symm
    | set =>
      rw [hact] at ho
      have hnow := idle_reads (n := n) n (a := .nowNano) trivial trivial (by simp)
      refine Obeys.step (hnow.pre i _) fun now _ => ?_
      exact written_settles hname _ key r.newVal _ r.out (ho.unchanged (hnow.unchanged i now _))
    | delete =>
      rw [hact] at ho
      refine removed_settles hname _ key r.existedBefore r.out ?_
      cases hexisted : r.existedBefore <;> rw [hexisted] at ho <;> exact ho

/-- **An operation emits the event that is due for its change.** -/
theorem Service.Write.telling_obeys (hname : isReservedMap name = false) (procs : Registry) {w : Write}
    (hw : w.OfMap n name) :
    (telling listen n name).Obeys i (fun _ h' => Settled n h') (w.prog procs) [] := by
  have drop : ∀ {α : Type} {p : Prog α}, (telling listen n name).Obeys i (fun _ h' => Settled n h') p [] →
      (telling listen n name).Obeys i (fun _ h' => Settled n h') (p >>= fun _ => pure ()) [] :=
    fun hp => Obeys.bind (hp.mono fun _ _ h => h)
  cases w with
  | idle => exact rfl
  | put m nm key value ttlMs isBackup =>
    obtain ⟨rfl, rfl, rfl, rfl⟩ := hw
    exact drop (applyPut_settles hname key value)
  | remove m nm key isBackup =>
    obtain ⟨rfl, rfl, rfl⟩ := hw
    exact drop (applyRemove_settles hname key)
  | evict m nm key => exact hw.elim
  | execute m nm key procName arg =>
    obtain ⟨rfl, rfl⟩ := hw
    exact drop (applyExecute_settles hname procs key procName arg)

end obeys

/-! ### Runs -/

/-- **The queued events replay to the content of the map when the events of every key are queued in the
order of its changes**: any number of puts without an expiry, removals and processors of an ordinary map run
on the owner `n`, in any interleaving, and all have returned.  No event is dropped, no entry of the map
expires meanwhile, and messages to other members do not come back. -/
theorem events_replay {C : Cluster} {n name : Bytes} (hname : isReservedMap name = false)
    (hlistener : (C.nodes n).listener = true)
    (hforeign : ∀ id addr, id ≠ n → (C.nodes n).mem.addrOf id = some addr → C.listen addr ≠ some n)
    (procs : Registry) (ops : ℕ → Write) (hops : ∀ j, (ops j).OfMap n name) {sched : List (ℕ × Choice)}
    (hok : Meets exec (EmitsInTurn n) sched (Conf.init C fun j => (ops j).prog procs)) :
    let f := Conf.run exec sched (Conf.init C fun j => (ops j).prog procs)
    (∀ j, (f.pool j).returned = true) →
    (∀ key v, (C.nodes n).store.find (routedPartition name key) (name, key) = some v →
      v.expired (f.world.state.nodes n).clock = v.expired (C.nodes n).clock) →
    ∃ delivered, (f.world.state.nodes n).events = (C.nodes n).events ++ delivered ∧
      Replays (fun key => (C.nodes n).content (name, key)) delivered
        (fun key => (f.world.state.nodes n).content (name, key)) := by
  intro f hret hstill
  have hbelow : Meets exec (fun _ e c w => ((exec e c w.state).2.nodes n).clock ≤
      (f.world.state.nodes n).clock) sched (Conf.init C fun j => (ops j).prog procs) :=
    Meets.below (r := fun C C' : Cluster => (C.nodes n).clock ≤ (C'.nodes n).clock) (fun _ => le_rfl)
      (fun h h' => h.trans h') (fun e c s => exec_clock_mono n c s e) _ _
  have hinit : Telling C n name (f.world.state.nodes n).clock
      (Conf.init C fun j => (ops j).prog procs).world :=
    ⟨rfl, rfl, hlistener, le_rfl, hstill, fun _ => rfl, fun _ => List.suffix_refl _,
      (List.append_nil _).symm⟩
  obtain ⟨hend, -, hobeys⟩ := (telling_sound hname hforeign).run
    (f := Conf.init C fun j => (ops j).prog procs) hinit
    (fun j => Write.telling_obeys hname procs (hops j)) (hok.and hbelow)
  -- every thread has emitted what was due
  have hown : ∀ j key, (f.world.own j).filterMap (about key (told n)) =
      (f.world.own j).filterMap (about key (due n)) := by
    intro j key
    obtain ⟨a, ha⟩ := Prog.returned_iff.mp (hret j)
    have hsettled : Settled n (f.world.own j) := (hobeys j).returned ha
    unfold about
    rw [← List.filter_filterMap, ← List.filter_filterMap, hsettled]
  refine ⟨_, hend.events, (EventLog.replays_iff _ _ _ _ _ _).mpr fun key => ?_⟩
  have hall := writeLog_eq_of_suffix (hend.order key) (hown · key)
  have hchanges := hend.changes key
  rw [← hall, map_writeLog, ← List.filter_reverse] at hchanges
  rw [← get_still hend.clock le_rfl (hend.still key)] at hchanges
  exact hchanges

/-- In a shared view messages to other members do not come back. -/
theorem SharedView.elsewhere {ids : List Bytes} {b : ℕ} {addr : Bytes → Bytes} {C : Cluster} {n : Bytes}
    (hV : SharedView ids b addr C) (hn : n ∈ ids) (id a : Bytes) (hid : id ≠ n)
    (ha : (C.nodes n).mem.addrOf id = some a) : C.listen a ≠ some n := by
  intro hlisten
  obtain ⟨hmem, rfl⟩ := (hV.known n hn).addrOf ha
  exact hid (hV.addr_inj id hmem n hn ((hV.listen _ n).mp hlisten).2)

/-- Two nodes without entries, which have listeners. -/
def heardPair : Cluster where
  nodes n := { (oneEntry [[97], [98]] 1 [] ([109], [114]) []).nodes n with listener := true }
  listen := (oneEntry [[97], [98]] 1 [] ([109], [114]) []).listen
  backing _ := none

theorem heardPair_elsewhere (id a : Bytes) (hid : id ≠ [97])
    (ha : (heardPair.nodes [97]).mem.addrOf id = some a) : heardPair.listen a ≠ some [97] :=
  (oneEntry_sharedView 1 [] ([109], [114]) [] (by decide) (by decide) (by decide +kernel)).elsewhere
    (by decide) id a hid ha

theorem twoPuts_ofMap (j : ℕ) : (twoPuts j).OfMap [97] [109] := by
  match j with
  | 0 | 1 => exact ⟨rfl, rfl, rfl, rfl⟩
  | j + 2 => trivial

/-- One put after the other: the key is created and updated. -/
theorem events_replay_pair :
    let f := Conf.run exec putsInTurn (Conf.init heardPair (fun j => (twoPuts j).prog (fun _ => none)))
    (f.world.state.nodes [97]).events =
      [⟨.created, [109], [114], [1]⟩, ⟨.updated, [109], [114], [2]⟩] ∧
    Replays (fun key => (heardPair.nodes [97]).content ([109], key)) (f.world.state.nodes [97]).events
      (fun key => (f.world.state.nodes [97]).content ([109], key)) := by
  refine ⟨by decide +kernel, ?_⟩
  have hcheck : Conf.check exec (fun i e c w => decide (EmitsInTurn [97] i e c w)) putsInTurn
      (Conf.init heardPair (fun j => (twoPuts j).prog (fun _ => none))) = true := by
    decide +kernel
  have hreturned : ∀ j, ((Conf.run exec putsInTurn
      (Conf.init heardPair (fun j => (twoPuts j).prog (fun _ => none)))).pool j).returned = true := by
    intro j
    match j with
    | 0 | 1 => decide +kernel
    | j + 2 =>
      rw [Conf.run_pool_of_not_mem (by simp [putsInTurn])]
      rfl
  obtain ⟨delivered, hevents, hreplays⟩ := events_replay (by decide) rfl heardPair_elsewhere (fun _ => none)
    twoPuts twoPuts_ofMap ((Meets.of_check hcheck).mono fun _ _ _ _ h => of_decide_eq_true h) hreturned
    (fun key v hv => by cases hv)
  rw [hevents]
  exact hreplays

/-- **Events that overtake each other do not replay**: both puts change the owner's copy, the second emits
its event first.  No event is dropped and both operations return.  The key is updated before it is created,
and the events end with the first value where the map has the second. -/
theorem reordered_events :
    let f := Conf.run exec (List.replicate 2 (0, .still) ++ List.replicate 20 (1, .still) ++
      List.replicate 20 (0, .still)) (Conf.init heardPair (fun j => (twoPuts j).prog (fun _ => none)))
    (f.pool 0).returned = true ∧ (f.pool 1).returned = true ∧
    (heardPair.nodes [97]).content ([109], [114]) = none ∧
    (f.world.state.nodes [97]).events =
      [⟨.updated, [109], [114], [2]⟩, ⟨.created, [109], [114], [1]⟩] ∧
    (f.world.state.nodes [97]).content ([109], [114]) = some [2] ∧
    ¬ Replays (fun key => (heardPair.nodes [97]).content ([109], key)) (f.world.state.nodes [97]).events
      (fun key => (f.world.state.nodes [97]).content ([109], key)) := by
  intro f
  have hnone : (heardPair.nodes [97]).content ([109], [114]) = none := by decide +kernel
  have hevents : (f.world.state.nodes [97]).events =
      [⟨.updated, [109], [114], [2]⟩, ⟨.created, [109], [114], [1]⟩] := by decide +kernel
  refine ⟨by decide +kernel, by decide +kernel, hnone, hevents, by decide +kernel, ?_⟩
  rw [hevents]
  rintro ⟨hfound, -⟩
  exact hfound hnone

end Medusa
