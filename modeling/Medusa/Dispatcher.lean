import Medusa.Cluster

/-! # The dispatcher of entry events

`imap/listener.go`: the registry of listeners, the queue of events and the goroutine that delivers them.  A state
(`Dispatch`) is what the goroutines share and where each of them is, and a step is one access to shared state:
the holder of the mutex (`add` or `close`) goes on, a writer passes the gate or puts its event in the queue, the
dispatcher receives an event, loads the listeners, or calls the next one.

* `Armed`: what holds of the registry; there is at most one dispatcher, although each first `add` starts one.
* `Delivers`: what holds of the events.
* `delivery`: **every listener is called with the accepted events in their order, without a gap, from its
  registration at the latest, and the first one from the first event on.**
* `accepted_emits`: the accepted events are the ones `NodeAction.emit` records. -/

namespace Medusa

/-! ### The registry, the queue and the goroutines -/

/-- The capacity of the queue. -/
def listenerQueue : ℕ := 1024

/-- Where the goroutine that holds the mutex is: in `add`, before the check of `closed`, the store to `active`, the
store to `fns` and the start of the dispatcher; or in `close`, before the check, the store to `active` and the
closing of `done`.  `prev` are the listeners that `add` loaded. -/
inductive Holder (L : Type) where
  | adding (fn : L)
  | arming (fn : L) (prev : List L)
  | publishing (fn : L) (prev : List L)
  | launching (prev : List L)
  | closing
  | disarming
  | finishing
deriving DecidableEq, Repr

/-- Where a dispatcher is: at the `select`, before it loads the listeners for an event, before the call of the
`i`-th of those it loaded, or at its end. -/
inductive Worker (L : Type) where
  | waiting
  | holding (ev : EntryEvent)
  | calling (ev : EntryEvent) (i : ℕ) (fns : List L)
  | returned
deriving DecidableEq, Repr

/-- The fields of `listeners`, the goroutines, and what has happened: the events received from the queue, the calls
(the number of the listener, the listener and the event), and for every listener how many events had been
accepted when it was published. -/
structure Dispatch (L : Type) where
  active : Bool
  fns : List L
  ch : List EntryEvent
  done : Bool
  closed : Bool
  holder : Option (Holder L)
  emitting : List EntryEvent
  workers : List (Worker L)
  taken : List EntryEvent
  calls : List (ℕ × L × EntryEvent)
  marks : List ℕ
deriving DecidableEq, Repr

/-- What a goroutine does next; several writers may have passed the gate (`send i`), and in principle there may be
several dispatchers. -/
inductive Dispatch.Move (L : Type) where
  | add (fn : Option L)
  | close
  | advance
  | emit (ev : EntryEvent)
  | send (i : ℕ)
  | receive (j : ℕ)
  | stop (j : ℕ)
  | work (j : ℕ)
deriving DecidableEq, Repr

namespace Dispatch

variable {L : Type}

/-- `newListeners`. -/
def new : Dispatch L := ⟨false, [], [], false, false, none, [], [], [], [], []⟩

/-- The events that were put in the queue. -/
def accepted (s : Dispatch L) : List EntryEvent := s.taken ++ s.ch

/-- The next step of `add` or `close`. -/
def advance (s : Dispatch L) : Holder L → Dispatch L
  | .adding fn => { s with holder := if s.closed then none else some (.arming fn s.fns) }
  | .arming fn prev => { s with active := true, holder := some (.publishing fn prev) }
  | .publishing fn prev =>
    { s with fns := prev ++ [fn], marks := s.marks ++ [s.accepted.length], holder := some (.launching prev) }
  | .launching prev =>
    { s with workers := if prev.length = 0 then s.workers ++ [.waiting] else s.workers, holder := none }
  | .closing => if s.closed then { s with holder := none } else { s with closed := true, holder := some .disarming }
  | .disarming => { s with active := false, holder := some .finishing }
  | .finishing => { s with done := true, holder := none }

/-- The `select` of `emit`: a full queue drops the event. -/
def send (s : Dispatch L) (i : ℕ) (ev : EntryEvent) : Dispatch L :=
  { s with
    emitting := s.emitting.eraseIdx i
    ch := if s.ch.length < listenerQueue then s.ch ++ [ev] else s.ch }

/-- The dispatcher at work: the load of the listeners, the next call, the end of the loop over them. -/
def work (s : Dispatch L) (j : ℕ) : Worker L → Option (Dispatch L)
  | .holding ev => some { s with workers := s.workers.set j (.calling ev 0 s.fns) }
  | .calling ev i fns => some (fns[i]?.elim { s with workers := s.workers.set j .waiting } fun fn =>
    { s with workers := s.workers.set j (.calling ev (i + 1) fns), calls := s.calls ++ [(i, fn, ev)] })
  | .waiting => none
  | .returned => none

/-- The `select` of `dispatch`, when there is an event. -/
def receive (s : Dispatch L) (j : ℕ) : Worker L → Option (Dispatch L)
  | .waiting => s.ch.head?.map fun ev =>
    { s with ch := s.ch.tail, taken := s.taken ++ [ev], workers := s.workers.set j (.holding ev) }
  | _ => none

/-- The `select` of `dispatch`, when `done` is closed. -/
def stop (s : Dispatch L) (j : ℕ) : Worker L → Option (Dispatch L)
  | .waiting => if s.done then some { s with workers := s.workers.set j .returned } else none
  | _ => none

/-- One step, if it can be taken: `add` and `close` wait for the mutex. -/
def step (s : Dispatch L) : Move L → Option (Dispatch L)
  | .add fn => fn.elim (some s) fun fn => if s.holder.isNone then some { s with holder := some (.adding fn) } else none
  | .close => if s.holder.isNone then some { s with holder := some .closing } else none
  | .advance => s.holder.map s.advance
  | .emit ev => some { s with emitting := if s.active then s.emitting ++ [ev] else s.emitting }
  | .send i => s.emitting[i]?.map (s.send i)
  | .receive j => s.workers[j]?.bind (s.receive j)
  | .stop j => s.workers[j]?.bind (s.stop j)
  | .work j => s.workers[j]?.bind (s.work j)

/-- A run. -/
def run (moves : List (Move L)) (s : Dispatch L) : Option (Dispatch L) := moves.foldlM step s

/-- What a writer offers to the queue in a step, and whether it is dropped. -/
def offer (s : Dispatch L) : Move L → Option (Bool × EntryEvent)
  | .send i => s.emitting[i]?.map fun ev => (decide (listenerQueue ≤ s.ch.length), ev)
  | _ => none

/-! ### What a step does -/

/-- The effect of a step, with what was offered to the queue: `add` with nothing to register, or `add` or `close` has
the mutex; the holder of the mutex goes on; a writer is at the gate, or offers its event; a dispatcher receives
an event, returns, loads the listeners, calls the next one, or has called all of them. -/
inductive Effect (s : Dispatch L) : Option (Bool × EntryEvent) → Dispatch L → Prop
  | nothing : Effect s none s
  | add (fn : L) : Effect s none { s with holder := some (.adding fn) }
  | close : Effect s none { s with holder := some .closing }
  | advance {x : Holder L} (hx : s.holder = some x) : Effect s none (s.advance x)
  | gate (evs : List EntryEvent) : Effect s none { s with emitting := evs }
  | send {i : ℕ} {ev : EntryEvent} : Effect s (some (decide (listenerQueue ≤ s.ch.length), ev)) (s.send i ev)
  | receive {j : ℕ} {ev : EntryEvent} {rest : List EntryEvent} (hw : s.workers[j]? = some .waiting)
      (hch : s.ch = ev :: rest) : Effect s none
        { s with ch := rest, taken := s.taken ++ [ev], workers := s.workers.set j (.holding ev) }
  | stop {j : ℕ} (hw : s.workers[j]? = some .waiting) :
      Effect s none { s with workers := s.workers.set j .returned }
  | load {j : ℕ} {ev : EntryEvent} (hw : s.workers[j]? = some (.holding ev)) :
      Effect s none { s with workers := s.workers.set j (.calling ev 0 s.fns) }
  | call {j : ℕ} {ev : EntryEvent} {i : ℕ} {fns : List L} {fn : L} (hw : s.workers[j]? = some (.calling ev i fns))
      (hfn : fns[i]? = some fn) : Effect s none
        { s with workers := s.workers.set j (.calling ev (i + 1) fns), calls := s.calls ++ [(i, fn, ev)] }
  | finish {j : ℕ} {ev : EntryEvent} {i : ℕ} {fns : List L} (hw : s.workers[j]? = some (.calling ev i fns))
      (hfn : fns[i]? = none) : Effect s none { s with workers := s.workers.set j .waiting }

variable {s s' : Dispatch L} {m : Move L} {moves : List (Move L)} {x : Holder L}

theorem step_effect (hs : s.step m = some s') : s.Effect (s.offer m) s' := by
  cases m with
  | add fn =>
    cases fn with
    | none =>
      obtain rfl := Option.some.inj hs
      exact .nothing
    | some fn =>
      simp only [step, Option.elim_some] at hs
      split at hs
      · obtain rfl := Option.some.inj hs
        exact .add fn
      · cases hs
  | close =>
    simp only [step] at hs
    split at hs
    · obtain rfl := Option.some.inj hs
      exact .close
    · cases hs
  | advance =>
    obtain ⟨x, hx, rfl⟩ := Option.map_eq_some_iff.mp hs
    exact .advance hx
  | emit ev =>
    obtain rfl := Option.some.inj hs
    exact .gate _
  | send i =>
    obtain ⟨ev, hev, rfl⟩ := Option.map_eq_some_iff.mp hs
    rw [offer, hev]
    exact .send
  | receive j =>
    obtain ⟨w, hw, hs⟩ := Option.bind_eq_some_iff.mp hs
    cases w with
    | holding | calling | returned => cases hs
    | waiting =>
      obtain ⟨ev, hev, rfl⟩ := Option.map_eq_some_iff.mp hs
      obtain ⟨rest, hch⟩ := List.head?_eq_some_iff.mp hev
      rw [hch]
      exact .receive hw hch
  | stop j =>
    obtain ⟨w, hw, hs⟩ := Option.bind_eq_some_iff.mp hs
    cases w with
    | holding | calling | returned => cases hs
    | waiting =>
      simp only [stop] at hs
      split at hs
      · obtain rfl := Option.some.inj hs
        exact .stop hw
      · cases hs
  | work j =>
    obtain ⟨w, hw, hs⟩ := Option.bind_eq_some_iff.mp hs
    cases w with
    | waiting | returned => cases hs
    | holding ev =>
      obtain rfl := Option.some.inj hs
      exact .load hw
    | calling ev i fns =>
      obtain rfl := Option.some.inj hs
      cases hfn : fns[i]? with
      | none => exact .finish hw hfn
      | some fn => exact .call hw hfn

/-! ### The registry -/

/-- What the holder of the mutex knows: what it loaded is still there, and what it checked still holds. -/
def Knows (s : Dispatch L) : Holder L → Prop
  | .adding _ => True
  | .arming _ prev => prev = s.fns ∧ s.closed = false
  | .publishing _ prev => prev = s.fns ∧ s.closed = false ∧ s.active = true
  | .launching prev => s.fns ≠ [] ∧ (prev = [] → s.workers.length = 0)
  | .closing => True
  | .disarming => s.closed = true
  | .finishing => s.closed = true

/-- The gate is open while there are listeners and the registry is not closed, and there is a dispatcher at most
once, and none without listeners. -/
structure Armed (s : Dispatch L) : Prop where
  knows : ∀ h, s.holder = some h → s.Knows h
  gate : s.fns ≠ [] → s.closed = false → s.active = true
  single : s.workers.length ≤ 1
  none : s.fns = [] → s.workers.length = 0
  marks : s.marks.length = s.fns.length

theorem armed_new : Armed (new : Dispatch L) where
  knows h hh := by cases hh
  gate h := absurd rfl h
  single := Nat.zero_le 1
  none _ := rfl
  marks := rfl

/-- The dispatcher goes on, or events are queued. -/
theorem Armed.of_eq (h : Armed s) (hactive : s'.active = s.active) (hfns : s'.fns = s.fns)
    (hclosed : s'.closed = s.closed) (hholder : s'.holder = s.holder)
    (hworkers : s'.workers.length = s.workers.length) (hmarks : s'.marks = s.marks) : Armed s' := by
  refine ⟨fun x hx => ?_, ?_, hworkers ▸ h.single, fun hf => ?_, by rw [hmarks, hfns, h.marks]⟩
  · have hk := h.knows x (hholder ▸ hx)
    cases x <;> simp only [Knows, hfns, hclosed, hactive, hworkers] at hk ⊢ <;> exact hk
  · rw [hfns, hclosed, hactive]
    exact h.gate
  · rw [hworkers]
    exact h.none (hfns ▸ hf)

/-- A goroutine has taken the mutex. -/
theorem Armed.lock (h : Armed s) (hx : s.Knows x) :
    Armed { s with holder := some x } := by
  refine ⟨fun y hy => ?_, h.gate, h.single, h.none, h.marks⟩
  obtain rfl := Option.some.inj hy
  cases x <;> exact hx

/-- A goroutine has released the mutex. -/
theorem Armed.unlock (h : Armed s) : Armed { s with holder := Option.none } :=
  ⟨fun y hy => (by cases hy), h.gate, h.single, h.none, h.marks⟩

theorem Armed.advance (h : Armed s) (hx : s.holder = some x) :
    Armed (s.advance x) := by
  have hk := h.knows x hx
  cases x with
  | adding fn =>
    simp only [Dispatch.advance]
    split
    · exact h.unlock
    · next hc => exact h.lock ⟨rfl, by simpa using hc⟩
  | arming fn prev =>
    refine ⟨fun y hy => ?_, fun _ _ => rfl, h.single, h.none, h.marks⟩
    obtain rfl := Option.some.inj hy
    exact ⟨hk.1, hk.2, rfl⟩
  | publishing fn prev =>
    refine ⟨fun y hy => ?_, fun _ _ => hk.2.2, h.single, fun hf => ?_, ?_⟩
    · obtain rfl := Option.some.inj hy
      exact ⟨by simp [Dispatch.advance], fun hprev => h.none (hk.1 ▸ hprev)⟩
    · simp [Dispatch.advance] at hf
    · simp [Dispatch.advance, h.marks, hk.1]
  | launching prev =>
    refine ⟨fun y hy => (by cases hy), h.gate, ?_, fun hf => ?_, h.marks⟩
    · simp only [Dispatch.advance]
      split
      · next hprev => simp [hk.2 (List.eq_nil_of_length_eq_zero hprev)]
      · exact h.single
    · exact absurd hf hk.1
  | closing =>
    simp only [Dispatch.advance]
    split
    · exact h.unlock
    · refine ⟨fun y hy => ?_, fun _ hc => (by cases hc), h.single, h.none, h.marks⟩
      obtain rfl := Option.some.inj hy
      exact rfl
  | disarming =>
    refine ⟨fun y hy => ?_, fun _ hc => ?_, h.single, h.none, h.marks⟩
    · obtain rfl := Option.some.inj hy
      exact hk
    · have hclosed : s.closed = true := hk
      simp only [Dispatch.advance, hclosed] at hc
      cases hc
  | finishing => exact ⟨fun y hy => (by cases hy), h.gate, h.single, h.none, h.marks⟩

/-! ### The events -/

/-- Of the events received, those with which the dispatcher is through as far as the listener `k` goes: all of
them, unless the last one is in hand and the turn of `k` is yet to come. -/
def turned (s : Dispatch L) (k : ℕ) : List EntryEvent :=
  match s.workers.head? with
  | some (.holding _) => s.taken.dropLast
  | some (.calling _ i fns) => if i ≤ k ∧ k < fns.length then s.taken.dropLast else s.taken
  | _ => s.taken

/-- The events with which the listener `k` was called. -/
def callsTo (s : Dispatch L) (k : ℕ) : List EntryEvent :=
  (s.calls.filter fun c => c.1 = k).map fun c => c.2.2

/-- What a dispatcher knows: the event in hand was received last, and the listeners it loaded are the first ones. -/
def WorkerKnows (s : Dispatch L) : Worker L → Prop
  | .waiting => True
  | .holding ev => s.taken.getLast? = some ev
  | .calling ev i fns => s.taken.getLast? = some ev ∧ fns <+: s.fns ∧ i ≤ fns.length
  | .returned => True

/-- Every listener has been called with the events received since some `start`, as far as its turn has come. -/
structure Delivers (s : Dispatch L) : Prop where
  idle : s.workers.length = 0 → s.taken = []
  knows : ∀ w, s.workers = [w] → s.WorkerKnows w
  named : ∀ c ∈ s.calls, s.fns[c.1]? = some c.2.1
  calls : ∀ k < s.fns.length, ∃ start, start ≤ s.marks.getD k 0 ∧ start ≤ (s.turned k).length ∧
    (k = 0 → start = 0) ∧ s.callsTo k = (s.turned k).drop start

theorem delivers_new : Delivers (new : Dispatch L) where
  idle _ := rfl
  knows w hw := by cases hw
  named c hc := by cases hc
  calls k hk := by cases hk

theorem Delivers.of_eq (h : Delivers s) (hworkers : s'.workers = s.workers) (htaken : s'.taken = s.taken)
    (hcalls : s'.calls = s.calls) (hfns : s'.fns = s.fns) (hmarks : s'.marks = s.marks) : Delivers s' := by
  refine ⟨?_, fun w hw => ?_, ?_, ?_⟩
  · rw [hworkers, htaken]
    exact h.idle
  · have hk := h.knows w (hworkers ▸ hw)
    cases w <;> simp only [WorkerKnows, htaken, hfns] at hk ⊢ <;> exact hk
  · rw [hcalls, hfns]
    exact h.named
  · simp only [turned, callsTo, hworkers, htaken, hcalls, hfns, hmarks]
    exact h.calls

/-- No listener that is not there has been called. -/
theorem Delivers.callsTo_eq_nil (h : Delivers s) {k : ℕ} (hk : s.fns.length ≤ k) :
    s.callsTo k = [] := by
  have hnone : s.calls.filter (fun c => c.1 = k) = [] := by
    refine List.filter_eq_nil_iff.mpr fun c hc => ?_
    have hname := h.named c hc
    intro hck
    rw [of_decide_eq_true hck, List.getElem?_eq_none hk] at hname
    cases hname
  rw [callsTo, hnone]
  rfl

/-- At most the event in hand is missing. -/
theorem length_turned_le (s : Dispatch L) (k : ℕ) : (s.turned k).length ≤ s.taken.length := by
  have hdropped : s.taken.dropLast.length ≤ s.taken.length := List.length_dropLast ▸ Nat.sub_le _ _
  unfold turned
  split
  · exact hdropped
  · split
    · exact hdropped
    · exact le_rfl
  · exact le_rfl

/-- A new listener has nothing to catch up with. -/
theorem Delivers.publish (h : Delivers s) (ha : Armed s) (fn : L) {x : Option (Holder L)} :
    Delivers { s with fns := s.fns ++ [fn], marks := s.marks ++ [s.accepted.length], holder := x } := by
  refine ⟨h.idle, fun w hw => ?_, fun c hc => ?_, fun k hk => ?_⟩
  · have hknows := h.knows w hw
    cases w with
    | waiting | holding | returned => exact hknows
    | calling ev i fns => exact ⟨hknows.1, hknows.2.1.trans (List.prefix_append _ _), hknows.2.2⟩
  · have hname := h.named c hc
    obtain ⟨hlt, -⟩ := List.getElem?_eq_some_iff.mp hname
    exact (List.getElem?_append_left hlt).trans hname
  · rw [List.length_append, List.length_singleton] at hk
    by_cases hlast : k = s.fns.length
    · have hle := length_turned_le s k
      refine ⟨(s.turned k).length, ?_, le_rfl, fun h0 => ?_, ?_⟩
      · have hmark : (s.marks ++ [s.accepted.length]).getD k 0 = s.accepted.length := by
          rw [List.getD_eq_getElem?_getD, List.getElem?_append_right (by rw [ha.marks]; omega)]
          simp [ha.marks, hlast]
        change _ ≤ (s.marks ++ [s.accepted.length]).getD k 0
        rw [hmark, accepted, List.length_append]
        exact le_trans hle (Nat.le_add_right _ _)
      · have hnil : s.fns = [] := List.eq_nil_of_length_eq_zero (by omega)
        rw [h.idle (ha.none hnil)] at hle
        exact Nat.le_zero.mp hle
      · exact (h.callsTo_eq_nil hlast.ge).trans (List.drop_eq_nil_of_le le_rfl).symm
    · obtain ⟨start, hmark, hrest⟩ := h.calls k (by omega)
      refine ⟨start, hmark.trans (le_of_eq ?_), hrest⟩
      rw [List.getD_eq_getElem?_getD, List.getD_eq_getElem?_getD,
        List.getElem?_append_left (by rw [ha.marks]; omega)]

theorem Delivers.advance (h : Delivers s) (ha : Armed s) (hx : s.holder = some x) :
    Delivers (s.advance x) := by
  have hk := ha.knows x hx
  cases x with
  | adding | arming | disarming | finishing => exact h.of_eq rfl rfl rfl rfl rfl
  | publishing fn prev =>
    obtain rfl := hk.1
    exact h.publish ha fn
  | launching prev =>
    simp only [Dispatch.advance]
    split
    · next hprev =>
      -- the first dispatcher finds nothing received
      have hnil : s.workers = [] := List.eq_nil_of_length_eq_zero (hk.2 (List.eq_nil_of_length_eq_zero hprev))
      have hturned : ∀ k, s.turned k = s.taken := fun k => by rw [turned, hnil]; rfl
      refine ⟨fun h0 => ?_, fun w hw => ?_, h.named, fun k hk => ?_⟩
      · rw [hnil] at h0
        cases h0
      · rw [hnil] at hw
        obtain rfl := List.singleton_inj.mp hw
        trivial
      · have hcalls := h.calls k hk
        rw [hturned] at hcalls
        rw [hnil]
        exact hcalls
    · exact h.of_eq rfl rfl rfl rfl rfl
  | closing =>
    simp only [Dispatch.advance]
    split
    · exact h.of_eq rfl rfl rfl rfl rfl
    · exact h.of_eq rfl rfl rfl rfl rfl

/-- The dispatcher that takes a step is the only one. -/
theorem Armed.worker (h : Armed s) {j : ℕ} {w : Worker L} (hw : s.workers[j]? = some w)
    (w' : Worker L) : s.workers = [w] ∧ s.workers.set j w' = [w'] := by
  obtain ⟨hlt, hget⟩ := List.getElem?_eq_some_iff.mp hw
  have hsingle := h.single
  obtain ⟨w₀, hw₀⟩ := List.length_eq_one_iff.mp (show s.workers.length = 1 by omega)
  obtain rfl : j = 0 := by omega
  simp only [hw₀, List.getElem_cons_zero] at hget
  rw [hw₀, hget]
  exact ⟨rfl, rfl⟩

/-- The dispatcher goes to another place, and no listener's turn comes or goes. -/
theorem Delivers.goto (h : Delivers s) {w' : Worker L} (hknows : s.WorkerKnows w')
    (hturned : ∀ k < s.fns.length, turned { s with workers := [w'] } k = s.turned k) :
    Delivers { s with workers := [w'] } := by
  refine ⟨fun h0 => (by cases h0), fun w hw => ?_, h.named, fun k hk => ?_⟩
  · obtain rfl := List.singleton_inj.mp hw
    cases w' <;> exact hknows
  · rw [hturned k hk]
    exact h.calls k hk

/-- The `i`-th listener is called: its turn has passed, and the others' have not changed. -/
theorem Delivers.call (h : Delivers s) {ev : EntryEvent} {i : ℕ} {fns : List L} {fn : L}
    (hwait : s.workers = [.calling ev i fns]) (hfn : fns[i]? = some fn) :
    Delivers { s with workers := [.calling ev (i + 1) fns], calls := s.calls ++ [(i, fn, ev)] } := by
  obtain ⟨hlast, hfns, -⟩ := h.knows _ hwait
  obtain ⟨hi, -⟩ := List.getElem?_eq_some_iff.mp hfn
  have hturned : ∀ k, s.turned k = if i ≤ k ∧ k < fns.length then s.taken.dropLast else s.taken := by
    intro k
    rw [turned, hwait]
    rfl
  refine ⟨fun h0 => (by cases h0), fun w hw => ?_, fun c hc => ?_, fun k hk => ?_⟩
  · obtain rfl := List.singleton_inj.mp hw
    exact ⟨hlast, hfns, hi⟩
  · rcases List.mem_append.mp hc with hc | hc
    · exact h.named c hc
    · rw [List.mem_singleton.mp hc]
      obtain ⟨more, hmore⟩ := hfns
      change s.fns[i]? = some fn
      rw [← hmore, List.getElem?_append_left hi, hfn]
  · obtain ⟨start, hmark, hle, hzero, hcalls⟩ := h.calls k hk
    rw [hturned] at hle hcalls
    change ∃ start, _ ∧ start ≤ (if i + 1 ≤ k ∧ k < fns.length then s.taken.dropLast else s.taken).length ∧ _ ∧
      ((s.calls ++ [(i, fn, ev)]).filter fun c => c.1 = k).map (fun c => c.2.2) =
        (if i + 1 ≤ k ∧ k < fns.length then s.taken.dropLast else s.taken).drop start
    rw [List.filter_append, List.map_append]
    by_cases hik : i = k
    · rw [if_pos (by omega)] at hle hcalls
      have htaken : s.taken = s.taken.dropLast ++ [ev] :=
        (List.dropLast_append_getLast? ev hlast).symm
      rw [if_neg (by omega)]
      refine ⟨start, hmark, hle.trans (List.length_dropLast ▸ Nat.sub_le _ _), hzero, ?_⟩
      have hdrop : (s.taken.dropLast ++ [ev]).drop start = s.taken.dropLast.drop start ++ [ev] :=
        List.drop_append_of_le_length hle
      rw [← htaken, ← hcalls] at hdrop
      rw [hdrop]
      simp [callsTo, hik]
    · have hcond : (i + 1 ≤ k ∧ k < fns.length) ↔ (i ≤ k ∧ k < fns.length) := by omega
      simp only [hcond]
      refine ⟨start, hmark, hle, hzero, ?_⟩
      simpa [callsTo, hik] using hcalls

theorem Delivers.receive (h : Delivers s) (hwait : s.workers = [.waiting]) (ev : EntryEvent)
    (rest : List EntryEvent) :
    Delivers { s with ch := rest, taken := s.taken ++ [ev], workers := [.holding ev] } := by
  refine ⟨fun h0 => (by cases h0), fun w hw => ?_, h.named, fun k hk => ?_⟩
  · obtain rfl := List.singleton_inj.mp hw
    exact List.getLast?_concat
  · have hturned : s.turned k = s.taken := by rw [turned, hwait]; rfl
    have hturned' : (s.taken ++ [ev]).dropLast = s.taken := List.dropLast_concat
    have hcalls := h.calls k hk
    rw [hturned] at hcalls
    change ∃ start, _ ∧ start ≤ (s.taken ++ [ev]).dropLast.length ∧ _ ∧ _ = (s.taken ++ [ev]).dropLast.drop start
    rw [hturned']
    exact hcalls

/-! ### Runs -/

/-- One step keeps both. -/
theorem inv_step (ha : Armed s) (h : Delivers s) (hs : s.step m = some s') :
    Armed s' ∧ Delivers s' := by
  have hset : ∀ j w, (s.workers.set j w).length = s.workers.length := fun j w => List.length_set
  have heffect := step_effect hs
  generalize s.offer m = o at heffect
  cases heffect with
  | nothing => exact ⟨ha, h⟩
  | add fn => exact ⟨ha.lock trivial, h.of_eq rfl rfl rfl rfl rfl⟩
  | close => exact ⟨ha.lock trivial, h.of_eq rfl rfl rfl rfl rfl⟩
  | advance hx => exact ⟨ha.advance hx, h.advance ha hx⟩
  | gate evs => exact ⟨ha.of_eq rfl rfl rfl rfl rfl rfl, h.of_eq rfl rfl rfl rfl rfl⟩
  | send => exact ⟨ha.of_eq rfl rfl rfl rfl rfl rfl, h.of_eq rfl rfl rfl rfl rfl⟩
  | receive hw hch =>
    refine ⟨ha.of_eq rfl rfl rfl rfl (hset _ _) rfl, ?_⟩
    obtain ⟨hwait, hone⟩ := ha.worker hw (.holding _)
    rw [hone]
    exact h.receive hwait _ _
  | stop hw =>
    refine ⟨ha.of_eq rfl rfl rfl rfl (hset _ _) rfl, ?_⟩
    obtain ⟨hwait, hone⟩ := ha.worker hw .returned
    rw [hone]
    exact h.goto trivial fun k _ => by rw [turned, turned, hwait]; rfl
  | load hw =>
    refine ⟨ha.of_eq rfl rfl rfl rfl (hset _ _) rfl, ?_⟩
    obtain ⟨hwait, hone⟩ := ha.worker hw (.calling _ 0 s.fns)
    rw [hone]
    refine h.goto ⟨h.knows _ hwait, List.prefix_rfl, Nat.zero_le _⟩ fun k hk => ?_
    rw [turned, turned, hwait]
    exact if_pos ⟨Nat.zero_le k, hk⟩
  | call hw hfn =>
    refine ⟨ha.of_eq rfl rfl rfl rfl (hset _ _) rfl, ?_⟩
    obtain ⟨hwait, hone⟩ := ha.worker hw (.calling _ _ _)
    rw [hone]
    exact h.call hwait hfn
  | finish hw hfn =>
    refine ⟨ha.of_eq rfl rfl rfl rfl (hset _ _) rfl, ?_⟩
    obtain ⟨hwait, hone⟩ := ha.worker hw .waiting
    rw [hone]
    have hend := List.getElem?_eq_none_iff.mp hfn
    refine h.goto trivial fun k _ => ?_
    rw [turned, turned, hwait]
    exact (if_neg (by omega)).symm

theorem inv_run (ha : Armed s) (h : Delivers s) (hs : s.run moves = some s') : Armed s' ∧ Delivers s' := by
  induction moves generalizing s with
  | nil =>
    obtain rfl := Option.some.inj hs
    exact ⟨ha, h⟩
  | cons m moves ih =>
    obtain ⟨s₁, hstep, hrest⟩ := Option.bind_eq_some_iff.mp hs
    obtain ⟨ha₁, h₁⟩ := inv_step ha h hstep
    exact ih ha₁ h₁ hrest

/-! ### What the listeners are called with -/

/-- The dispatcher is between two events, at its end, or not started. -/
def Idle (s : Dispatch L) : Prop := ∀ w ∈ s.workers, w = .waiting ∨ w = .returned

/-- Only the event in hand may be missing. -/
theorem turned_cases (ha : Armed s) (h : Delivers s) (k : ℕ) :
    s.turned k = s.taken ∨ ¬ s.Idle ∧ ∃ ev, s.taken = s.turned k ++ [ev] := by
  cases hworkers : s.workers with
  | nil => exact Or.inl (by rw [turned, hworkers]; rfl)
  | cons w ws =>
    have hsingle := ha.single
    rw [hworkers, List.length_cons] at hsingle
    obtain rfl : ws = [] := List.eq_nil_of_length_eq_zero (by omega)
    have hbusy : w ≠ .waiting → w ≠ .returned → ¬ s.Idle := by
      intro h₁ h₂ hidle
      exact (hidle w (by rw [hworkers]; exact List.mem_singleton_self w)).elim h₁ h₂
    have hhand : ∀ ev, s.taken.getLast? = some ev → s.taken = s.taken.dropLast ++ [ev] :=
      fun ev hev => (List.dropLast_append_getLast? ev hev).symm
    have hknows := h.knows w hworkers
    rw [turned, hworkers]
    cases w with
    | waiting | returned => exact Or.inl rfl
    | holding ev => exact Or.inr ⟨hbusy (by simp) (by simp), ev, hhand ev hknows⟩
    | calling ev i fns =>
      dsimp only [List.head?_cons]
      split
      · exact Or.inr ⟨hbusy (by simp) (by simp), ev, hhand ev hknows.1⟩
      · exact Or.inl rfl

/-- **Every listener gets the accepted events in order, without a gap or a repetition, from its registration at the
latest**: in every run of the goroutines there is at most one dispatcher, the gate is open as long as there are
listeners and the registry is not closed, and what the `k`-th listener has been called with is a block of the
accepted events that begins no later than the events accepted after it was published, for the first listener
with the first event, and reaches to the events in the queue but for one in the dispatcher's hand. -/
theorem delivery {moves : List (Move L)} {s : Dispatch L} (hs : new.run moves = some s) :
    s.workers.length ≤ 1 ∧ (s.fns ≠ [] → s.closed = false → s.active = true) ∧
      ∀ k fn, s.fns[k]? = some fn → (∀ c ∈ s.calls, c.1 = k → c.2.1 = fn) ∧
        ∃ start rest, start ≤ s.marks.getD k 0 ∧ (k = 0 → start = 0) ∧
          s.accepted.drop start = s.callsTo k ++ rest ∧
          (rest = s.ch ∨ ¬ s.Idle ∧ ∃ ev, rest = ev :: s.ch) := by
  obtain ⟨ha, h⟩ := inv_run armed_new delivers_new hs
  refine ⟨ha.single, ha.gate, fun k fn hk => ⟨fun c hc hck => ?_, ?_⟩⟩
  · have hname := h.named c hc
    rw [hck, hk] at hname
    exact (Option.some.inj hname).symm
  · obtain ⟨start, hmark, hle, hzero, hcalls⟩ := h.calls k (List.getElem?_eq_some_iff.mp hk).1
    rcases turned_cases ha h k with hall | ⟨hbusy, ev, hev⟩
    · refine ⟨start, s.ch, hmark, hzero, ?_, Or.inl rfl⟩
      rw [accepted, ← hall, List.drop_append_of_le_length hle, hcalls]
    · refine ⟨start, ev :: s.ch, hmark, hzero, ?_, Or.inr ⟨hbusy, ev, rfl⟩⟩
      rw [accepted, hev, List.append_assoc, List.drop_append_of_le_length hle, hcalls]
      rfl

/-- A listener is added, an event passes while the second one is being published, and two more follow. -/
def twoListeners : List (Move Bool) :=
  [.add (some true), .advance, .advance, .emit ⟨.created, [109], [1], [1]⟩, .send 0, .advance, .advance,
    .receive 0, .add (some false), .advance, .advance, .advance, .work 0, .work 0, .emit ⟨.updated, [109], [1], [2]⟩,
    .advance, .send 0, .work 0, .work 0, .emit ⟨.removed, [109], [1], []⟩, .send 0, .receive 0]

theorem delivery_twoListeners :
    ∃ s, new.run twoListeners = some s ∧ s.fns = [true, false] ∧ s.marks = [1, 1] ∧ s.callsTo 1 = s.accepted.take 1 ∧
      s.workers.length ≤ 1 ∧ (s.fns ≠ [] → s.closed = false → s.active = true) ∧
      ∀ k fn, s.fns[k]? = some fn → (∀ c ∈ s.calls, c.1 = k → c.2.1 = fn) ∧
        ∃ start rest, start ≤ s.marks.getD k 0 ∧ (k = 0 → start = 0) ∧
          s.accepted.drop start = s.callsTo k ++ rest ∧
          (rest = s.ch ∨ ¬ s.Idle ∧ ∃ ev, rest = ev :: s.ch) :=
  ⟨_, rfl, rfl, rfl, rfl, @delivery Bool twoListeners _ rfl⟩

/-! ### The events a node records -/

/-- The offers of a run. -/
def offers : List (Move L) → Dispatch L → List (Bool × EntryEvent)
  | [], _ => []
  | m :: moves, s => (s.offer m).toList ++ (s.step m).elim [] (offers moves)

/-- `NodeAction.emit` for each of the offers. -/
def emits (c : Choice) (os : List (Bool × EntryEvent)) (nd : Node) : Node :=
  os.foldl (fun nd o => (nd.exec { c with lost := o.1 } (.emit o.2)).2) nd

theorem emits_listener (c : Choice) (os : List (Bool × EntryEvent)) (nd : Node) :
    (emits c os nd).listener = nd.listener := by
  induction os generalizing nd with
  | nil => rfl
  | cons o os ih =>
    refine (ih _).trans ?_
    simp only [Node.exec]
    split <;> rfl

theorem events_emits {c : Choice} (os : List (Bool × EntryEvent)) {nd : Node} (hl : nd.listener = true) :
    (emits c os nd).events = nd.events ++ (os.filter fun o => !o.1).map Prod.snd := by
  induction os generalizing nd with
  | nil => simp [emits]
  | cons o os ih =>
    obtain ⟨lost, ev⟩ := o
    have hstep := emits_listener c [(lost, ev)] nd
    refine (ih (hstep.trans hl)).trans ?_
    cases lost <;> simp [emits, Node.exec, hl]

/-- What a step adds to the accepted events. -/
theorem step_accepted (hs : s.step m = some s') :
    s'.accepted = s.accepted ++ ((s.offer m).toList.filter fun o => !o.1).map Prod.snd := by
  have hkeeps : ∀ t : Dispatch L, t.taken = s.taken → t.ch = s.ch → t.accepted = s.accepted ++ [] := by
    intro t htaken hch
    rw [accepted, accepted, htaken, hch, List.append_nil]
  have heffect := step_effect hs
  generalize s.offer m = o at heffect ⊢
  cases heffect with
  | send =>
    by_cases hfull : s.ch.length < listenerQueue
    · simp [send, accepted, hfull]
    · simp [send, accepted, hfull, Nat.le_of_not_lt hfull]
  | receive hw hch => simp [accepted, hch]
  | @advance x hx =>
    cases x with
    | closing => refine hkeeps _ ?_ ?_ <;> simp only [advance] <;> split <;> rfl
    | adding | arming | publishing | launching | disarming | finishing => exact hkeeps _ rfl rfl
  | nothing | add | close | gate | stop | load | call | finish => exact hkeeps _ rfl rfl

/-- **The events a node records are the accepted ones**: `NodeAction.emit`, lost when the queue is full, for each of
the offers in their order. -/
theorem accepted_emits (c : Choice) (hs : s.run moves = some s') {nd : Node} (hl : nd.listener = true)
    (hev : nd.events = s.accepted) :
    (emits c (offers moves s) nd).events = s'.accepted := by
  rw [events_emits _ hl, hev]
  induction moves generalizing s nd with
  | nil =>
    obtain rfl := Option.some.inj hs
    simp [offers]
  | cons m moves ih =>
    obtain ⟨s₁, hstep, hrest⟩ := Option.bind_eq_some_iff.mp hs
    have hrest := @ih s₁ hrest { nd with events := s₁.accepted } hl rfl
    rw [offers, hstep, Option.elim_some, List.filter_append, List.map_append, ← List.append_assoc,
      ← step_accepted hstep, hrest]

/-! ### The dispatcher left alone -/

/-- Steps of the dispatcher alone lead from one state to the other. -/
def Works (s s' : Dispatch L) : Prop :=
  ∃ moves, (∀ m ∈ moves, m = .receive 0 ∨ m = .work 0) ∧ s.run moves = some s'

theorem Works.refl (s : Dispatch L) : s.Works s := ⟨[], by simp, rfl⟩

theorem Works.head {s s₁ s' : Dispatch L} (hm : m = .receive 0 ∨ m = .work 0) (hstep : s.step m = some s₁)
    (h : s₁.Works s') : s.Works s' := by
  obtain ⟨moves, hmoves, hrun⟩ := h
  refine ⟨m :: moves, List.forall_mem_cons.mpr ⟨hm, hmoves⟩, ?_⟩
  rw [run, List.foldlM_cons, hstep]
  exact hrun

/-- The loop over the listeners comes to its end. -/
theorem works_calling (s : Dispatch L) {ev : EntryEvent} {i : ℕ} {fns : List L}
    (hw : s.workers = [.calling ev i fns]) :
    ∃ calls, s.Works { s with workers := [.waiting], calls := calls } := by
  have hstep : s.step (.work 0) = s.work 0 (.calling ev i fns) := by rw [step, hw]; rfl
  induction hn : fns.length - i generalizing s i with
  | zero =>
    have hfn : fns[i]? = none := List.getElem?_eq_none (by omega)
    refine ⟨s.calls, Works.head (Or.inr rfl) (hstep.trans ?_) (Works.refl _)⟩
    rw [work, hfn, hw]
    rfl
  | succ n ih =>
    cases hfn : fns[i]? with
    | none =>
      have hend := List.getElem?_eq_none_iff.mp hfn
      omega
    | some fn =>
      let s₁ : Dispatch L :=
        { s with workers := [.calling ev (i + 1) fns], calls := s.calls ++ [(i, fn, ev)] }
      obtain ⟨calls, hworks⟩ := ih s₁ (i := i + 1) rfl rfl (by omega)
      refine ⟨calls, Works.head (Or.inr rfl) (hstep.trans ?_) hworks⟩
      rw [work, hfn, hw]
      rfl

/-- The dispatcher is done with the event in hand, if there is one. -/
theorem works_waiting (ha : Armed s) (hw : ∃ w ∈ s.workers, w ≠ .returned) :
    ∃ calls, s.Works { s with workers := [.waiting], calls := calls } := by
  obtain ⟨w, hmem, hne⟩ := hw
  obtain ⟨j, hj⟩ := List.mem_iff_getElem?.mp hmem
  have hworkers := (ha.worker hj .waiting).1
  cases w with
  | returned => exact absurd rfl hne
  | waiting =>
    refine ⟨s.calls, ?_⟩
    rw [← hworkers]
    exact Works.refl s
  | holding ev =>
    obtain ⟨calls, hworks⟩ := works_calling { s with workers := [.calling ev 0 s.fns] } rfl
    refine ⟨calls, Works.head (Or.inr rfl) ?_ hworks⟩
    rw [step, hworkers]
    change s.work 0 (.holding ev) = _
    rw [work, hworkers]
    rfl
  | calling ev i fns => exact works_calling s hworkers

theorem Works.trans {s s₁ s' : Dispatch L} (h : s.Works s₁) (h' : s₁.Works s') : s.Works s' := by
  obtain ⟨moves, hmoves, hrun⟩ := h
  obtain ⟨moves', hmoves', hrun'⟩ := h'
  refine ⟨moves ++ moves', List.forall_mem_append.mpr ⟨hmoves, hmoves'⟩, ?_⟩
  have hrun₁ : moves.foldlM step s = some s₁ := hrun
  rw [run, List.foldlM_append, hrun₁]
  exact hrun'

theorem Works.inv (h : s.Works s') (ha : Armed s) (hd : Delivers s) : Armed s' ∧ Delivers s' := by
  obtain ⟨moves, -, hrun⟩ := h
  exact inv_run ha hd hrun

/-- The dispatcher empties the queue. -/
theorem works_empty (ha : Armed s) (hd : Delivers s) (hw : s.workers = [.waiting]) :
    ∃ calls, s.Works { s with workers := [.waiting], ch := [], taken := s.accepted, calls := calls } := by
  induction hch : s.ch generalizing s with
  | nil =>
    refine ⟨s.calls, ?_⟩
    have hsame : ({ s with workers := [.waiting], ch := [], taken := s.accepted, calls := s.calls } : Dispatch L) = s := by
      rw [accepted, hch, List.append_nil, ← hw, ← hch]
    rw [hsame]
    exact Works.refl s
  | cons ev rest ih =>
    let s₁ : Dispatch L := { s with ch := rest, taken := s.taken ++ [ev], workers := [.holding ev] }
    have hstep : s.step (.receive 0) = some s₁ := by
      rw [step, hw]
      change s.receive 0 .waiting = _
      rw [receive, hch, hw]
      rfl
    obtain ⟨ha₁, hd₁⟩ := inv_step ha hd hstep
    obtain ⟨calls₁, hworks₁⟩ := works_waiting ha₁ ⟨_, List.mem_singleton_self _, by simp⟩
    obtain ⟨ha₂, hd₂⟩ := hworks₁.inv ha₁ hd₁
    obtain ⟨calls, hworks⟩ := ih ha₂ hd₂ rfl rfl
    have haccepted : s.accepted = (s.taken ++ [ev]) ++ rest := by simp [accepted, hch]
    refine ⟨calls, Works.head (Or.inl rfl) hstep (hworks₁.trans ?_)⟩
    rw [haccepted]
    exact hworks

/-- **Nothing accepted is lost while the dispatcher runs**: from every state of every run in which the dispatcher has
not returned, its own steps lead to an empty queue, and then every listener has been called with every accepted
event from some point before its registration on. -/
theorem drains {moves : List (Move L)} {s : Dispatch L} (hs : new.run moves = some s)
    (hw : ∃ w ∈ s.workers, w ≠ .returned) :
    ∃ s', s.Works s' ∧ s'.ch = [] ∧ s'.fns = s.fns ∧ s'.accepted = s.accepted ∧
      ∀ k < s.fns.length, ∃ start ≤ s.marks.getD k 0, (k = 0 → start = 0) ∧ s'.callsTo k = s.accepted.drop start := by
  obtain ⟨ha, hd⟩ := inv_run armed_new delivers_new hs
  obtain ⟨calls₁, hworks₁⟩ := works_waiting ha hw
  obtain ⟨ha₁, hd₁⟩ := hworks₁.inv ha hd
  obtain ⟨calls, hworks⟩ := works_empty ha₁ hd₁ rfl
  have hd' := (hworks.inv ha₁ hd₁).2
  refine ⟨_, hworks₁.trans hworks, rfl, rfl, List.append_nil _, fun k hk => ?_⟩
  obtain ⟨start, hmark, -, hzero, hcalls⟩ := hd'.calls k hk
  exact ⟨start, hmark, hzero, hcalls⟩

theorem drains_twoListeners :
    ∃ s s' : Dispatch Bool, new.run twoListeners = some s ∧ s.ch.length = 1 ∧ s.Works s' ∧ s'.ch = [] ∧
      s'.fns = s.fns ∧ s'.accepted = s.accepted ∧ ∀ k < s.fns.length, ∃ start ≤ s.marks.getD k 0,
        (k = 0 → start = 0) ∧ s'.callsTo k = s.accepted.drop start := by
  obtain ⟨s', hs'⟩ := @drains Bool twoListeners _ rfl ⟨_, List.mem_singleton_self _, by simp⟩
  exact ⟨_, s', rfl, rfl, hs'⟩

end Dispatch

end Medusa
