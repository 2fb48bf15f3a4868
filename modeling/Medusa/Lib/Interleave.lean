import Mathlib.Logic.Function.Basic
import Mathlib.Data.List.Basic
import Medusa.Lib.Since

/-! # Interleavings of programs made of atomic actions

A *program* (`Prog R α`) is a tree of atomic actions: `act e k` performs the action `e` and
continues with `k r` on its response `r : R e`, `done a` returns `a`.  The meaning of an action
is a function `exec e c s` of the state `s` and of a *choice* `c`, which carries everything the
environment decides at that step (a clock tick, a lost message, an iteration order).

* `Prog.eval` runs one program to its end on a stream of choices, `Prog.interp` when the state
  decides them.
* A *configuration* (`Conf`) is a world (the state and the events that happened so far) together
  with a pool of threads `ℕ → Prog R α`.  A schedule is a list of pairs (thread, choice), and
  `Conf.run` takes one atomic action of the named thread at a time.  Quantifying over schedules
  is quantifying over interleavings; an infinite pool with a finite schedule contains any number
  of threads.
* `Meets P sched f` says that every step of the run satisfies `P`.  It serves both as the
  hypothesis on a run and as the conclusion about it.

Threads are specified by *contracts*: before an action a thread promises something about the
action in view of its own history (`pre`), and it is told something about the response (`post`).
`Obeys` says that a program keeps a contract and with what it returns; it is a property of the
program alone.  `Sound` says that a contract fits an invariant of the worlds, one action at a
time, and `Sound.run` lifts both to all schedules.  The invariant may speak about the past, so a
fact that has been established once is carried by the event that established it.  `Projects.run`
leaves out the threads whose actions do not matter to the others. -/

namespace Interleave

variable {E : Type} {R : E → Type} {σ χ α β : Type}

/-- Programs over atomic actions `E` with responses `R`. -/
inductive Prog {E : Type} (R : E → Type) (α : Type) : Type where
  | done (a : α)
  | act (e : E) (k : R e → Prog R α)

namespace Prog
variable {P : E → Prop} {p : Prog R α} {e : E}

/-- Sequential composition. -/
protected def bind : Prog R α → (α → Prog R β) → Prog R β
  | done a, f => f a
  | act e k, f => act e (fun r => (k r).bind f)

instance : Monad (Prog R) where
  pure := done
  bind := Prog.bind

/-- One action, returning its response. -/
def perform (e : E) : Prog R (R e) := act e done

@[simp] theorem pure_eq (a : α) : (pure a : Prog R α) = done a := rfl

@[simp] theorem done_bind (a : α) (f : α → Prog R β) : (done a >>= f) = f a := rfl

@[simp] theorem act_bind (e : E) (k : R e → Prog R α) (f : α → Prog R β) :
    (act e k >>= f) = act e (fun r => k r >>= f) := rfl

@[simp] theorem perform_bind (e : E) (f : R e → Prog R β) : (perform e >>= f) = act e f := rfl

theorem bind_assoc {γ : Type} (p : Prog R α) (f : α → Prog R β) (g : β → Prog R γ) :
    (p >>= f >>= g) = (p >>= fun a => f a >>= g) := by
  induction p with
  | done a => rfl
  | act e k ih => simp only [act_bind]; exact congrArg _ (funext ih)

/-- Whether the program has returned. -/
def returned : Prog R α → Bool
  | done _ => true
  | act _ _ => false

/-- What the program has returned, if it has. -/
def result : Prog R α → Option α
  | done a => some a
  | act _ _ => none

theorem result_eq_some {a : α} : p.result = some a ↔ p = done a := by
  cases p <;> simp [result]

theorem returned_iff : p.returned = true ↔ ∃ a, p = done a := by
  cases p <;> simp [returned]

/-- Every action the program can perform satisfies `P`. -/
def All (P : E → Prop) : Prog R α → Prop
  | done _ => True
  | act e k => P e ∧ ∀ r, (k r).All P

theorem All.of_pure (a : α) : (pure a : Prog R α).All P := trivial

theorem All.step {f : R e → Prog R α} (he : P e) (hf : ∀ r, (f r).All P) : (perform e >>= f).All P := ⟨he, hf⟩

theorem All.perform (he : P e) : (perform (R := R) e).All P := ⟨he, fun _ => trivial⟩

theorem All.bind {f : α → Prog R β} (hp : p.All P) (hf : ∀ a, (f a).All P) : (p >>= f).All P := by
  induction p with
  | done a => exact hf a
  | act e k ih => exact ⟨hp.1, fun r => ih r (hp.2 r)⟩

/-- Run a program to its end, taking the choices of the environment from a stream. -/
def eval (exec : (e : E) → χ → σ → R e × σ) : Prog R α → (ℕ → χ) → σ → α × σ
  | done a, _, s => (a, s)
  | act e k, cs, s =>
    (k (exec e (cs 0) s).1).eval exec (fun n => cs (n + 1)) (exec e (cs 0) s).2

/-- Run a program to its end when each action has one meaning. -/
def interp (step : (e : E) → σ → R e × σ) : Prog R α → σ → α × σ
  | done a, s => (a, s)
  | act e k, s => (k (step e s).1).interp step (step e s).2

section interp
variable {step : (e : E) → σ → R e × σ}

@[simp] theorem interp_done (a : α) (s : σ) : (done a : Prog R α).interp step s = (a, s) := rfl

@[simp] theorem interp_pure (a : α) (s : σ) : (pure a : Prog R α).interp step s = (a, s) := rfl

theorem interp_bind (p : Prog R α) (f : α → Prog R β) (s : σ) :
    (p >>= f).interp step s = (f (p.interp step s).1).interp step (p.interp step s).2 := by
  induction p generalizing s with
  | done a => rfl
  | act e k ih => exact ih _ _

/-- What every action of the program keeps holds at its end. -/
theorem interp_of_all {I : σ → Prop} {s : σ} (hp : p.All P) (hstep : ∀ e s, P e → I s → I (step e s).2)
    (hs : I s) : I (p.interp step s).2 := by
  induction p generalizing s with
  | done a => exact hs
  | act e k ih => exact ih _ (hp.2 _) (hstep e s hp.1 hs)

end interp

/-- `Ensures ok Q p s`: run from `s` with choices satisfying `ok`, `p` ends with `Q`. -/
def Ensures (exec : (e : E) → χ → σ → R e × σ) (ok : χ → Prop) (Q : α → σ → Prop) :
    Prog R α → σ → Prop
  | done a, s => Q a s
  | act e k, s => ∀ c, ok c → (k (exec e c s).1).Ensures exec ok Q (exec e c s).2

section ensures
variable {exec : (e : E) → χ → σ → R e × σ} {ok : χ → Prop}

theorem Ensures.bind {Q : β → σ → Prop} {f : α → Prog R β} {s : σ}
    (h : p.Ensures exec ok (fun a s' => (f a).Ensures exec ok Q s') s) :
    (p >>= f).Ensures exec ok Q s := by
  induction p generalizing s with
  | done a => exact h
  | act e k ih => exact fun c hc => ih _ (h c hc)

theorem Ensures.mono {Q Q' : α → σ → Prop} {s : σ} (h : p.Ensures exec ok Q s)
    (hQ : ∀ a s', Q a s' → Q' a s') : p.Ensures exec ok Q' s := by
  induction p generalizing s with
  | done a => exact hQ a s h
  | act e k ih => exact fun c hc => ih _ (h c hc)

theorem Ensures.of_forall {Q : α → σ → Prop} (hQ : ∀ a s', Q a s') (p : Prog R α) (s : σ) :
    p.Ensures exec ok Q s := by
  induction p generalizing s with
  | done a => exact hQ a s
  | act e k ih => exact fun c _ => ih _ _

/-- What every action of the program keeps holds at its end. -/
theorem Ensures.of_all {I : σ → Prop} {s : σ} (hp : p.All P)
    (hstep : ∀ e c s, P e → ok c → I s → I (exec e c s).2) (hs : I s) :
    p.Ensures exec ok (fun _ s' => I s') s := by
  induction p generalizing s with
  | done a => exact hs
  | act e k ih => exact fun c hc => ih _ (hp.2 _) (hstep e c s hp.1 hc hs)

/-- The postcondition holds of every evaluation. -/
theorem Ensures.eval {Q : α → σ → Prop} {s : σ} (h : p.Ensures exec ok Q s) {cs : ℕ → χ}
    (hcs : ∀ n, ok (cs n)) : Q (p.eval exec cs s).1 (p.eval exec cs s).2 := by
  induction p generalizing s cs with
  | done a => exact h
  | act e k ih => exact ih _ (h _ (hcs 0)) (fun n => hcs (n + 1))

end ensures

end Prog

/-! ### Worlds, threads and schedules -/

/-- An action performed by thread `tid`, with its response. -/
structure Event {E : Type} (R : E → Type) where
  tid : ℕ
  act : E
  resp : R act

/-- The state, and what happened so far (newest first). -/
structure World {E : Type} (R : E → Type) (σ : Type) where
  state : σ
  past : List (Event R)

/-- The events of thread `i` (newest first). -/
def World.own (w : World R σ) (i : ℕ) : List (Event R) := w.past.filter (fun ev => ev.tid == i)

theorem World.own_subset (w : World R σ) (i : ℕ) : w.own i ⊆ w.past :=
  List.filter_sublist.subset

/-- Thread `i` performs `e`. -/
def World.next (exec : (e : E) → χ → σ → R e × σ) (w : World R σ) (i : ℕ) (e : E) (c : χ) :
    World R σ :=
  ⟨(exec e c w.state).2, ⟨i, e, (exec e c w.state).1⟩ :: w.past⟩

section world
variable (exec : (e : E) → χ → σ → R e × σ) (w : World R σ) (i : ℕ) (e : E) (c : χ)

@[simp] theorem World.next_state : (w.next exec i e c).state = (exec e c w.state).2 := rfl

@[simp] theorem World.next_past :
    (w.next exec i e c).past = ⟨i, e, (exec e c w.state).1⟩ :: w.past := rfl

@[simp] theorem World.next_own_self :
    (w.next exec i e c).own i = ⟨i, e, (exec e c w.state).1⟩ :: w.own i := by
  simp [World.own]

theorem World.next_own_ne {j : ℕ} (h : i ≠ j) : (w.next exec i e c).own j = w.own j := by
  simp [World.own, h]

end world

/-! ### The last effect of a history

Of each event, `eff` says what it wrote to some place, if anything. -/

section last
variable (eff : Event R → Option β)

/-- What was written last. -/
def lastEffect (h : List (Event R)) : Option β := h.findSome? eff

/-- The thread that wrote last. -/
def lastThread (h : List (Event R)) : Option ℕ := (h.find? (fun ev => (eff ev).isSome)).map Event.tid

variable {eff}

theorem lastEffect_cons (ev : Event R) (h : List (Event R)) :
    lastEffect eff (ev :: h) = (eff ev).or (lastEffect eff h) := by
  unfold lastEffect
  rw [List.findSome?_cons]
  cases eff ev <;> rfl

theorem lastThread_cons (ev : Event R) (h : List (Event R)) :
    lastThread eff (ev :: h) = if (eff ev).isSome then some ev.tid else lastThread eff h := by
  unfold lastThread
  rw [List.find?_cons]
  cases (eff ev).isSome <;> rfl

theorem lastThread_eq_none {h : List (Event R)} :
    lastThread eff h = none ↔ lastEffect eff h = none := by
  unfold lastThread lastEffect
  rw [Option.map_eq_none_iff, List.find?_eq_none, List.findSome?_eq_none_iff]
  simp only [Bool.not_eq_true, Option.isSome_eq_false_iff, Option.isNone_iff_eq_none]

theorem lastEffect_own_eq_none {w : World R σ} (h : lastEffect eff w.past = none) (i : ℕ) :
    lastEffect eff (w.own i) = none := by
  unfold lastEffect at *
  rw [List.findSome?_eq_none_iff] at *
  exact fun ev hev => h ev (w.own_subset i hev)

/-- What was written last is what its thread wrote last. -/
theorem lastEffect_own {w : World R σ} {i : ℕ} (h : lastThread eff w.past = some i) :
    lastEffect eff w.past = lastEffect eff (w.own i) := by
  unfold World.own
  generalize w.past = past at h
  induction past with
  | nil => rfl
  | cons ev past ih =>
    unfold lastThread at h ih
    rw [List.find?_cons] at h
    rw [lastEffect_cons]
    cases he : eff ev with
    | some x =>
      simp only [he, Option.isSome_some, Option.map_some, Option.some.injEq] at h
      rw [List.filter_cons_of_pos (by simp [h]), lastEffect_cons, he]
      rfl
    | none =>
      simp only [he, Option.isSome_none] at h
      rw [Option.none_or, ih h]
      by_cases ht : ev.tid = i
      · rw [List.filter_cons_of_pos (by simp [ht]), lastEffect_cons, he, Option.none_or]
      · rw [List.filter_cons_of_neg (by simp [ht])]

end last

/-! ### Two places, one after the other

Every thread writes to a first place and then the same to a second one. -/

section mirror
variable (exec : (e : E) → χ → σ → R e × σ) (first second : Event R → Option β)

/-- A write to the second place comes from the thread that wrote last to the first, or that thread has
not got to the second yet. -/
def InTurn (i : ℕ) (e : E) (c : χ) (w : World R σ) : Prop :=
  second ⟨i, e, (exec e c w.state).1⟩ ≠ none →
    ∀ j, lastThread first w.past = some j → j ≠ i → lastEffect second (w.own j) = none

instance [DecidableEq β] (i : ℕ) (e : E) (c : χ) (w : World R σ) :
    Decidable (InTurn exec first second i e c w) :=
  decidable_of_iff (second ⟨i, e, (exec e c w.state).1⟩ ≠ none →
    ∀ j ∈ lastThread first w.past, j ≠ i → lastEffect second (w.own j) = none) Iff.rfl

/-- When the thread that wrote last to the first place has got to the second, it was the last to. -/
def CaughtUp (w : World R σ) : Prop :=
  ∀ j, lastThread first w.past = some j → lastEffect second (w.own j) ≠ none →
    lastThread second w.past = some j

variable {exec first second}

theorem CaughtUp.next {w : World R σ} (hw : CaughtUp first second w) {i : ℕ} {e : E} {c : χ}
    (horder : InTurn exec first second i e c w)
    (hfirst : first ⟨i, e, (exec e c w.state).1⟩ ≠ none →
      second ⟨i, e, (exec e c w.state).1⟩ = none ∧ lastEffect second (w.own i) = none) :
    CaughtUp first second (w.next exec i e c) := by
  intro j hj hreach
  rw [World.next_past, lastThread_cons] at hj ⊢
  by_cases hf : first ⟨i, e, (exec e c w.state).1⟩ = none
  · rw [hf] at hj
    by_cases hs : second ⟨i, e, (exec e c w.state).1⟩ = none
    · rw [hs]
      refine hw j hj ?_
      by_cases hij : i = j
      · subst hij
        rwa [World.next_own_self, lastEffect_cons, hs, Option.none_or] at hreach
      · rwa [World.next_own_ne exec w i e c hij] at hreach
    · rw [if_pos (Option.isSome_iff_ne_none.mpr hs)]
      by_cases hij : i = j
      · rw [hij]
      · rw [World.next_own_ne exec w i e c hij] at hreach
        exact absurd (horder hs j hj (Ne.symm hij)) hreach
  · -- the first place changes, and nothing of this thread has got to the second
    rw [if_pos (Option.isSome_iff_ne_none.mpr hf)] at hj
    obtain rfl := Option.some.inj hj
    obtain ⟨hs, hown⟩ := hfirst hf
    rw [World.next_own_self, lastEffect_cons, hs, Option.none_or] at hreach
    exact absurd hown hreach

/-- **Both places end alike** when each thread leaves the same in both. -/
theorem CaughtUp.eq {w : World R σ} (hw : CaughtUp first second w)
    (hmirror : ∀ j, lastEffect second (w.own j) = lastEffect first (w.own j)) :
    lastEffect second w.past = lastEffect first w.past := by
  cases ht : lastThread first w.past with
  | none =>
    -- no thread wrote to the first place, so none did to the second
    have hnone := lastThread_eq_none.mp ht
    rw [hnone]
    cases hts : lastThread second w.past with
    | none => exact lastThread_eq_none.mp hts
    | some j =>
      rw [lastEffect_own hts]
      exact (hmirror j).trans (lastEffect_own_eq_none hnone j)
  | some j =>
    have hne : lastEffect second (w.own j) ≠ none := by
      rw [hmirror, ← lastEffect_own ht]
      exact fun h0 => by rw [lastThread_eq_none.mpr h0] at ht; cases ht
    have hts := hw j ht hne
    exact (lastEffect_own hts).trans ((hmirror j).trans (lastEffect_own ht).symm)

end mirror

/-! ### Two places in the same order

Every thread writes once to a first place, and then the same to a second one. -/

section sequence
variable (exec : (e : E) → χ → σ → R e × σ) (first second : Event R → Option β)

/-- What was written, and by whom (newest first). -/
def writeLog (eff : Event R → Option β) (h : List (Event R)) : List (ℕ × β) :=
  h.filterMap fun ev => (eff ev).map fun x => (ev.tid, x)

/-- A write to the second place comes from the thread with the oldest write to the first that has not got
to the second yet. -/
def InSequence (i : ℕ) (e : E) (c : χ) (w : World R σ) : Prop :=
  second ⟨i, e, (exec e c w.state).1⟩ ≠ none →
    ((writeLog first w.past).reverse[(writeLog second w.past).length]?).map Prod.fst = some i

instance [DecidableEq β] (i : ℕ) (e : E) (c : χ) (w : World R σ) :
    Decidable (InSequence exec first second i e c w) := inferInstanceAs (Decidable (_ → _))

variable {exec first second} {eff : Event R → Option β}

theorem writeLog_cons_some {ev : Event R} {x : β} (hx : eff ev = some x) (h : List (Event R)) :
    writeLog eff (ev :: h) = (ev.tid, x) :: writeLog eff h := by
  rw [writeLog, List.filterMap_cons, hx]
  rfl

theorem writeLog_cons_none {ev : Event R} (hev : eff ev = none) (h : List (Event R)) :
    writeLog eff (ev :: h) = writeLog eff h := by
  rw [writeLog, List.filterMap_cons, hev]
  rfl

theorem writeLog_own (w : World R σ) (j : ℕ) :
    writeLog eff (w.own j) = (writeLog eff w.past).filter (fun x => x.1 == j) := by
  unfold World.own
  induction w.past with
  | nil => rfl
  | cons ev past ih =>
    cases hev : eff ev with
    | none =>
      rw [writeLog_cons_none hev, List.filter_cons]
      split
      · rw [writeLog_cons_none hev, ih]
      · exact ih
    | some x =>
      rw [writeLog_cons_some hev, List.filter_cons, List.filter_cons]
      split
      · rw [writeLog_cons_some hev, ih]
      · exact ih

theorem length_writeLog (h : List (Event R)) : (writeLog eff h).length = (h.filterMap eff).length := by
  rw [← List.length_map (f := Prod.snd), writeLog, List.map_filterMap]
  simp only [Option.map_map, Function.comp_def, Option.map_id']

/-- What has got to the second place was written to the first, in that order. -/
theorem writeLog_suffix_next {w : World R σ} {i : ℕ} {e : E} {c : χ}
    (hw : writeLog second w.past <:+ writeLog first w.past)
    (hturn : InSequence exec first second i e c w)
    (hsecond : ∀ x, second ⟨i, e, (exec e c w.state).1⟩ = some x →
      first ⟨i, e, (exec e c w.state).1⟩ = none ∧ ∀ y, (i, y) ∈ writeLog first w.past → y = x) :
    writeLog second (w.next exec i e c).past <:+ writeLog first (w.next exec i e c).past := by
  rw [World.next_past]
  cases hs : second ⟨i, e, (exec e c w.state).1⟩ with
  | none =>
    rw [writeLog_cons_none hs]
    cases hf : first ⟨i, e, (exec e c w.state).1⟩ with
    | none => rwa [writeLog_cons_none hf]
    | some y =>
      rw [writeLog_cons_some hf]
      exact hw.trans (List.suffix_cons _ _)
  | some x =>
    obtain ⟨hf, hone⟩ := hsecond x hs
    rw [writeLog_cons_some hs, writeLog_cons_none hf]
    -- the oldest that is pending is the thread's own
    have hnext := hturn (by rw [hs]; exact Option.some_ne_none x)
    obtain ⟨pending, hpending⟩ := hw
    rw [← hpending, List.reverse_append, List.getElem?_append_right (by simp), List.length_reverse,
      Nat.sub_self] at hnext
    cases hrev : pending.reverse with
    | nil => simp [hrev] at hnext
    | cons oldest rest =>
      obtain ⟨j, y⟩ := oldest
      obtain rfl : j = i := by simpa [hrev] using hnext
      obtain rfl : pending = rest.reverse ++ [(j, y)] := by
        rw [← List.reverse_reverse pending, hrev, List.reverse_cons]
      obtain rfl := hone y (by rw [← hpending]; simp)
      exact ⟨rest.reverse, by rw [← hpending]; simp⟩

/-- **All has got to the second place** when every thread's has. -/
theorem writeLog_eq_of_suffix {w : World R σ} (hw : writeLog second w.past <:+ writeLog first w.past)
    (hown : ∀ j, (w.own j).filterMap second = (w.own j).filterMap first) :
    writeLog second w.past = writeLog first w.past := by
  obtain ⟨pending, hpending⟩ := hw
  cases pending with
  | nil => exact hpending
  | cons x pending =>
    have hlen := congrArg List.length (hown x.1)
    rw [← length_writeLog, ← length_writeLog, writeLog_own, writeLog_own, ← hpending, List.cons_append,
      List.filter_cons_of_pos (by simp), List.filter_append, List.length_cons, List.length_append] at hlen
    omega

end sequence

/-- A world and a pool of threads. -/
structure Conf {E : Type} (R : E → Type) (σ α : Type) where
  world : World R σ
  pool : ℕ → Prog R α

variable (exec : (e : E) → χ → σ → R e × σ)

/-- One action of thread `i`; nothing happens when the thread has returned. -/
def Conf.step (f : Conf R σ α) (i : ℕ) (c : χ) : Conf R σ α :=
  match f.pool i with
  | .done _ => f
  | .act e k => ⟨f.world.next exec i e c, Function.update f.pool i (k (exec e c f.world.state).1)⟩

/-- Run a schedule. -/
def Conf.run : List (ℕ × χ) → Conf R σ α → Conf R σ α
  | [], f => f
  | (i, c) :: rest, f => Conf.run rest (f.step exec i c)

/-- Every step of the run satisfies `P`. -/
def Meets (P : ℕ → (e : E) → χ → World R σ → Prop) : List (ℕ × χ) → Conf R σ α → Prop
  | [], _ => True
  | (i, c) :: rest, f =>
    (∀ e k, f.pool i = .act e k → P i e c f.world) ∧ Meets P rest (f.step exec i c)

/-- `Meets`, evaluated. -/
def Conf.check (P : ℕ → (e : E) → χ → World R σ → Bool) : List (ℕ × χ) → Conf R σ α → Bool
  | [], _ => true
  | (i, c) :: rest, f =>
    (match f.pool i with
      | .done _ => true
      | .act e _ => P i e c f.world) && Conf.check P rest (f.step exec i c)

section conf
variable {exec} {f : Conf R σ α} {i : ℕ} {c : χ} {s : List (ℕ × χ)}
  {P P' : ℕ → (e : E) → χ → World R σ → Prop}

theorem Conf.step_done {a : α} (h : f.pool i = .done a) : f.step exec i c = f := by
  unfold Conf.step; rw [h]

theorem Conf.step_act {e : E} {k : R e → Prog R α} (h : f.pool i = .act e k) :
    f.step exec i c =
      ⟨f.world.next exec i e c, Function.update f.pool i (k (exec e c f.world.state).1)⟩ := by
  unfold Conf.step; rw [h]

theorem Conf.run_append (s₁ s₂ : List (ℕ × χ)) (f : Conf R σ α) :
    Conf.run exec (s₁ ++ s₂) f = Conf.run exec s₂ (Conf.run exec s₁ f) := by
  induction s₁ generalizing f with
  | nil => rfl
  | cons ic s₁ ih => exact ih _

/-- A thread that is not scheduled stays where it is. -/
theorem Conf.run_pool_of_not_mem {j : ℕ} (hs : ∀ ic ∈ s, ic.1 ≠ j)
    (f : Conf R σ α) : (Conf.run exec s f).pool j = f.pool j := by
  induction s generalizing f with
  | nil => rfl
  | cons ic s ih =>
    refine (ih (fun x hx => hs x (List.mem_cons_of_mem _ hx)) _).trans ?_
    unfold Conf.step
    split
    · rfl
    · exact Function.update_of_ne (Ne.symm (hs ic List.mem_cons_self)) _ _

theorem Meets.of_forall (hP : ∀ i e c w, P i e c w) (s : List (ℕ × χ)) (f : Conf R σ α) : Meets exec P s f := by
  induction s generalizing f with
  | nil => trivial
  | cons ic s ih => exact ⟨fun e _ _ => hP _ e _ _, ih _⟩

/-- A condition on the schedule alone. -/
theorem Meets.of_schedule {P : ℕ → χ → Prop} (hs : ∀ ic ∈ s, P ic.1 ic.2)
    (f : Conf R σ α) : Meets exec (fun i _ c _ => P i c) s f := by
  induction s generalizing f with
  | nil => trivial
  | cons ic s ih =>
    exact ⟨fun _ _ _ => hs ic List.mem_cons_self, ih (fun x hx => hs x (List.mem_cons_of_mem _ hx)) _⟩

theorem Meets.of_choices {P : χ → Prop} (hs : ∀ ic ∈ s, P ic.2)
    (f : Conf R σ α) : Meets exec (fun _ _ c _ => P c) s f := Meets.of_schedule hs f

theorem Meets.and (h : Meets exec P s f) (h' : Meets exec P' s f) :
    Meets exec (fun i e c w => P i e c w ∧ P' i e c w) s f := by
  induction s generalizing f with
  | nil => trivial
  | cons ic s ih => exact ⟨fun e k he => ⟨h.1 e k he, h'.1 e k he⟩, ih h.2 h'.2⟩

/-- What every step under `P` keeps holds at the end of the run. -/
theorem Meets.keeps {I : World R σ → Prop} (hI : ∀ i e c w, P i e c w → I w → I (w.next exec i e c))
    (hs : Meets exec P s f) (hf : I f.world) : I (Conf.run exec s f).world := by
  induction s generalizing f with
  | nil => exact hf
  | cons ic s ih =>
    refine ih hs.2 ?_
    cases hp : f.pool ic.1 with
    | done a => rwa [Conf.step_done hp]
    | act e k =>
      rw [Conf.step_act hp]
      exact hI _ _ _ _ (hs.1 e k hp) hf

/-- What every action keeps, every run keeps. -/
theorem Conf.run_state {I : σ → Prop} (hI : ∀ e c s, I s → I (exec e c s).2) (s : List (ℕ × χ))
    (f : Conf R σ α) (hf : I f.world.state) : I (Conf.run exec s f).world.state :=
  (Meets.of_forall (P := fun _ _ _ _ => True) (fun _ _ _ _ => trivial) s f).keeps
    (I := fun w => I w.state) (fun _ e c w _ hw => hI e c w.state hw) hf

/-- Where every action leads up, every state of a run lies below its last. -/
theorem Meets.below {r : σ → σ → Prop} (hrefl : ∀ s, r s s)
    (htrans : ∀ {s s' s''}, r s s' → r s' s'' → r s s'')
    (hup : ∀ e c s, r s (exec e c s).2) (s : List (ℕ × χ)) (f : Conf R σ α) :
    Meets exec (fun _ e c w => r (exec e c w.state).2 (Conf.run exec s f).world.state) s f := by
  induction s generalizing f with
  | nil => trivial
  | cons ic s ih =>
    refine ⟨fun e k he => ?_, ih _⟩
    have hstep : (f.step exec ic.1 ic.2).world.state = (exec e ic.2 f.world.state).2 := by
      rw [Conf.step_act he]
      rfl
    change r (exec e ic.2 f.world.state).2 _
    rw [← hstep]
    exact Conf.run_state (I := r (f.step exec ic.1 ic.2).world.state)
      (fun e c t ht => htrans ht (hup e c t)) s _ (hrefl _)

theorem Meets.append {s₁ s₂ : List (ℕ × χ)} :
    Meets exec P (s₁ ++ s₂) f ↔ Meets exec P s₁ f ∧ Meets exec P s₂ (Conf.run exec s₁ f) := by
  induction s₁ generalizing f with
  | nil => simp [Meets, Conf.run]
  | cons ic s₁ ih => simp only [List.cons_append, Meets, Conf.run, ih, and_assoc]

theorem Meets.mono (hP : ∀ i e c w, P i e c w → P' i e c w) (h : Meets exec P s f) : Meets exec P' s f := by
  induction s generalizing f with
  | nil => trivial
  | cons ic s ih => exact ⟨fun e k he => hP _ _ _ _ (h.1 e k he), ih h.2⟩

theorem Meets.of_check {P : ℕ → (e : E) → χ → World R σ → Bool} (h : Conf.check exec P s f = true) :
    Meets exec (fun i e c w => P i e c w = true) s f := by
  induction s generalizing f with
  | nil => trivial
  | cons ic s ih =>
    rw [Conf.check, Bool.and_eq_true] at h
    refine ⟨fun e k he => ?_, ih h.2⟩
    have hP := h.1
    rw [he] at hP
    exact hP

end conf

/-! ### Contracts -/

/-- What thread `i`, having performed the events `h` (newest first), promises before an action
(`pre`) and is told about its response (`post`). -/
structure Contract {E : Type} (R : E → Type) where
  pre : ℕ → List (Event R) → E → Prop
  post : ℕ → List (Event R) → (e : E) → R e → Prop

namespace Contract
variable (K : Contract R)

/-- Thread `i`, having performed `h`, keeps the contract while it runs `p`, and returns with `Q`. -/
def Obeys (i : ℕ) (Q : α → List (Event R) → Prop) : Prog R α → List (Event R) → Prop
  | .done a, h => Q a h
  | .act e k, h => K.pre i h e ∧ ∀ r, K.post i h e r → Obeys i Q (k r) (⟨i, e, r⟩ :: h)

variable {K} {i : ℕ} {P : E → Prop} {p : Prog R α} {h : List (Event R)} {Q : α → List (Event R) → Prop}

/-- One action, then the rest. -/
theorem Obeys.step {e : E} {f : R e → Prog R α} (hpre : K.pre i h e)
    (hf : ∀ r, K.post i h e r → K.Obeys i Q (f r) (⟨i, e, r⟩ :: h)) :
    K.Obeys i Q (Prog.perform e >>= f) h := ⟨hpre, hf⟩

/-- Sequential composition. -/
theorem Obeys.bind {Q : β → List (Event R) → Prop} {f : α → Prog R β}
    (hp : K.Obeys i (fun a h' => K.Obeys i Q (f a) h') p h) :
    K.Obeys i Q (p >>= f) h := by
  induction p generalizing h with
  | done a => exact hp
  | act e k ih => exact ⟨hp.1, fun r hr => ih r (hp.2 r hr)⟩

theorem Obeys.mono {Q Q' : α → List (Event R) → Prop} (hp : K.Obeys i Q p h)
    (hQ : ∀ a h', Q a h' → Q' a h') : K.Obeys i Q' p h := by
  induction p generalizing h with
  | done a => exact hQ a h hp
  | act e k ih => exact ⟨hp.1, fun r hr => ih r (hp.2 r hr)⟩

/-- A program whose actions all keep a promise that does not depend on the history. -/
theorem Obeys.of_all (hp : p.All P) (hP : ∀ h e, P e → K.pre i h e)
    (h : List (Event R)) : K.Obeys i (fun _ _ => True) p h := by
  induction p generalizing h with
  | done a => trivial
  | act e k ih => exact ⟨hP h e hp.1, fun r _ => ih r (hp.2 r) _⟩

/-- A thread that need not promise anything. -/
theorem Obeys.of_pre (hpre : ∀ h e, K.pre i h e) (p : Prog R α) (h : List (Event R)) :
    K.Obeys i (fun _ _ => True) p h := by
  induction p generalizing h with
  | done a => trivial
  | act e k ih => exact ⟨hpre h e, fun r _ => ih r _⟩

/-- The history only grows. -/
theorem Obeys.suffix (hp : K.Obeys i Q p h) : K.Obeys i (fun a h' => Q a h' ∧ h <:+ h') p h := by
  induction p generalizing h with
  | done a => exact ⟨hp, List.suffix_refl h⟩
  | act e k ih =>
    refine ⟨hp.1, fun r hr => (ih r (hp.2 r hr)).mono ?_⟩
    exact fun a h' ⟨hq, hs⟩ => ⟨hq, (List.suffix_cons _ h).trans hs⟩

/-- The history grows by the program's actions. -/
theorem Obeys.extending (hall : p.All P) (hp : K.Obeys i Q p h) :
    K.Obeys i (fun a h' => Q a h' ∧ Extends (fun ev => P ev.act) h h') p h := by
  induction p generalizing h with
  | done a => exact ⟨hp, Extends.refl _ h⟩
  | act e k ih =>
    refine ⟨hp.1, fun r hr => (ih r (hall.2 r) (hp.2 r hr)).mono (fun a h' hq => ⟨hq.1, ?_⟩)⟩
    have hone : Extends (fun ev : Event R => P ev.act) h (⟨i, e, r⟩ :: h) := Extends.single hall.1
    exact hone.trans hq.2

/-- A contract is sound for an invariant: an action taken under `ok` by a thread that keeps its
promise preserves the invariant and delivers what the thread is told. -/
def Sound (K : Contract R) (inv : World R σ → Prop)
    (ok : ℕ → (e : E) → χ → World R σ → Prop) : Prop :=
  ∀ i e c w, inv w → ok i e c w → K.pre i (w.own i) e →
    inv (w.next exec i e c) ∧ K.post i (w.own i) e (exec e c w.state).1

variable {exec} {inv : World R σ → Prop} {ok : ℕ → (e : E) → χ → World R σ → Prop}

/-- A thread goes on after one of its actions, and the others stay where they are. -/
theorem obeys_update {Q : ℕ → α → List (Event R) → Prop} {f : Conf R σ α} {e : E} {c : χ}
    (hs : ∀ j, K.Obeys j (Q j) (f.pool j) (f.world.own j))
    (hp : K.Obeys i (Q i) p (⟨i, e, (exec e c f.world.state).1⟩ :: f.world.own i)) (j : ℕ) :
    K.Obeys j (Q j) (Function.update f.pool i p j) ((f.world.next exec i e c).own j) := by
  by_cases hj : j = i
  · subst hj
    rwa [Function.update_self, World.next_own_self]
  · rw [Function.update_of_ne hj, World.next_own_ne exec _ _ _ _ (Ne.symm hj)]
    exact hs j

/-- One step of a run. -/
theorem Sound.step (hK : Sound exec K inv ok) {Q : ℕ → α → List (Event R) → Prop}
    {f : Conf R σ α} {c : χ} (hI : inv f.world)
    (hs : ∀ j, K.Obeys j (Q j) (f.pool j) (f.world.own j))
    (hok : ∀ e k, f.pool i = .act e k → ok i e c f.world) :
    inv (f.step exec i c).world ∧
      (∀ e k, f.pool i = .act e k → K.pre i (f.world.own i) e) ∧
      ∀ j, K.Obeys j (Q j) ((f.step exec i c).pool j) ((f.step exec i c).world.own j) := by
  cases hp : f.pool i with
  | done a =>
    rw [Conf.step_done hp]
    exact ⟨hI, fun e k he => by simp at he, hs⟩
  | act e k =>
    have hsi := hs i
    rw [hp] at hsi
    obtain ⟨hinv, hpost⟩ := hK i e c f.world hI (hok e k hp) hsi.1
    rw [Conf.step_act hp]
    refine ⟨hinv, ?_, ?_⟩
    · intro e' k' he
      injection he with he hk
      exact he ▸ hsi.1
    · exact obeys_update hs (hsi.2 _ hpost)

/-- **Every schedule keeps the contract**: when every thread keeps it and every step is taken under
`ok`, the invariant holds at the end, every step was taken as promised, and every thread still
keeps the contract. -/
theorem Sound.run (hK : Sound exec K inv ok) {Q : ℕ → α → List (Event R) → Prop}
    {sched : List (ℕ × χ)} {f : Conf R σ α} (hI : inv f.world)
    (hs : ∀ j, K.Obeys j (Q j) (f.pool j) (f.world.own j)) (hok : Meets exec ok sched f) :
    inv (Conf.run exec sched f).world ∧
      Meets exec (fun i e c w => inv w ∧ ok i e c w ∧ K.pre i (w.own i) e) sched f ∧
      ∀ j, K.Obeys j (Q j) ((Conf.run exec sched f).pool j)
        ((Conf.run exec sched f).world.own j) := by
  induction sched generalizing f with
  | nil => exact ⟨hI, trivial, hs⟩
  | cons ic sched ih =>
    obtain ⟨i, c⟩ := ic
    obtain ⟨h1, h2, h3⟩ := hK.step (i := i) (c := c) hI hs hok.1
    obtain ⟨g1, g2, g3⟩ := ih h1 h3 hok.2
    exact ⟨g1, ⟨fun e k he => ⟨hI, hok.1 e k he, h2 e k he⟩, g2⟩, g3⟩

/-! ### Leaving threads out -/

/-- The threads outside `keep` do not matter to the others: an action of a kept thread has the same
response in related states and leads to related states, and an action of another thread keeps a state
related to what it was related to. -/
structure Projects (exec : (e : E) → χ → σ → R e × σ) (K : Contract R) (keep : ℕ → Prop)
    (rel : σ → σ → Prop) : Prop where
  kept : ∀ i e c (w : World R σ) s', keep i → rel w.state s' → K.pre i (w.own i) e →
    (exec e c s').1 = (exec e c w.state).1 ∧ rel (exec e c w.state).2 (exec e c s').2 ∧
      K.post i (w.own i) e (exec e c w.state).1
  dropped : ∀ i e c (w : World R σ) s', ¬ keep i → rel w.state s' → K.pre i (w.own i) e →
    rel (exec e c w.state).2 s' ∧ K.post i (w.own i) e (exec e c w.state).1

/-- **The run with the other threads left out looks the same to the kept ones.** -/
theorem Projects.run {keep : ℕ → Prop} {rel : σ → σ → Prop} (hK : Projects exec K keep rel)
    {Q : ℕ → α → List (Event R) → Prop} (sched : List (ℕ × χ)) {f g : Conf R σ α}
    (hrel : rel f.world.state g.world.state)
    (hs : ∀ j, K.Obeys j (Q j) (f.pool j) (f.world.own j))
    (hkept : ∀ j, keep j → g.pool j = f.pool j) (hidle : ∀ j, ¬ keep j → (g.pool j).returned = true) :
    rel (Conf.run exec sched f).world.state (Conf.run exec sched g).world.state ∧
      ∀ j, keep j → (Conf.run exec sched g).pool j = (Conf.run exec sched f).pool j := by
  induction sched generalizing f g with
  | nil => exact ⟨hrel, hkept⟩
  | cons ic sched ih =>
    obtain ⟨i, c⟩ := ic
    cases hp : f.pool i with
    | done a =>
      have hg : g.step exec i c = g := by
        by_cases hi : keep i
        · exact Conf.step_done ((hkept i hi).trans hp)
        · obtain ⟨b, hb⟩ := Prog.returned_iff.mp (hidle i hi)
          exact Conf.step_done hb
      simp only [Conf.run, Conf.step_done hp, hg]
      exact ih hrel hs hkept hidle
    | act e k =>
      have hsi := hs i
      rw [hp] at hsi
      by_cases hi : keep i
      · obtain ⟨hresp, hrel', hpost⟩ := hK.kept i e c f.world g.world.state hi hrel hsi.1
        simp only [Conf.run, Conf.step_act hp, Conf.step_act ((hkept i hi).trans hp)]
        refine ih hrel' (obeys_update hs (hsi.2 _ hpost)) (fun j hj => ?_) (fun j hj => ?_)
        · by_cases hij : j = i
          · subst hij
            simp only [Function.update_self, hresp]
          · simp only [Function.update_of_ne hij]
            exact hkept j hj
        · have hij : j ≠ i := fun h => hj (h ▸ hi)
          simp only [Function.update_of_ne hij]
          exact hidle j hj
      · obtain ⟨hrel', hpost⟩ := hK.dropped i e c f.world g.world.state hi hrel hsi.1
        obtain ⟨b, hb⟩ := Prog.returned_iff.mp (hidle i hi)
        simp only [Conf.run, Conf.step_act hp, Conf.step_done hb]
        refine ih hrel' (obeys_update hs (hsi.2 _ hpost)) (fun j hj => ?_) hidle
        have hij : j ≠ i := fun h => hi (h ▸ hj)
        simp only [Function.update_of_ne hij]
        exact hkept j hj

/-- What a thread that has returned knows about its history. -/
theorem Obeys.returned {a : α} (hp : K.Obeys i Q p h) (hd : p = .done a) : Q a h := by
  subst hd
  exact hp

end Contract

end Interleave
