import Medusa.Agreement
import Medusa.Calls

/-! # Reads that fill the owner's memory from the backing store

A `Get` that misses on the owner loads the value from the backing store and then caches it, in two
steps with no lock between them.  Puts and removals of the same entry run in between.

* `find_exec_timeless`: what one step leaves in memory under an entry.
* `memory_follows`: **memory has the value of the last put; and nothing, when the last change is a
  removal after every load, provided no load is cached over a removal.**
* `removed_value_returns`: a load that is cached after the removal brings the removed value back. -/

namespace Medusa

open Medusa.Partition Store Interleave Service Contract

/-! ### Operations -/

/-- An operation on the owner of its key. -/
inductive CacheOp where
  | idle
  | put (name key value : Bytes)
  | remove (name key : Bytes)
  | get (name key : Bytes)
deriving DecidableEq, Repr

/-- The owner's part of an operation, its result dropped.  A put of `Map.Put` has no expiry. -/
def CacheOp.prog (n : Bytes) : CacheOp → Prog Unit
  | .idle => return ()
  | .put name key value => do let _ ← Service.applyPut n name key value 0 false
  | .remove name key => do let _ ← Service.applyRemove n name key false
  | .get name key => do let _ ← getThrough n name key

/-! ### Loads and what they cache -/

/-- The value an event read from the backing store under `r`. -/
def loaded (r : Ref) : Event → Option Bytes
  | ⟨_, .load name key, .ok v⟩ => if (name, key) = r then v else none
  | _ => none

/-- What an event read from the backing store under `r`, or left in memory under it on node `n`. -/
def noted (n : Bytes) (r : Ref) (ev : Event) : Option (Option Bytes) :=
  ((loaded r ev).map some).or (effect n r ev)

/-- The action caches a loaded value of `r` on node `n`. -/
def Action.caches (n : Bytes) (r : Ref) : Action → Bool
  | .on m (.cacheLoaded _ name key _) => decide (m = n ∧ (name, key) = r)
  | _ => false

/-- What happened since thread `i` read a value of `r` from the backing store. -/
def sinceLoad (r : Ref) (i : ℕ) (past : List Event) : List Event :=
  past.takeWhile fun ev => !(decide (ev.tid = i) && (loaded r ev).isSome)

/-- The condition on the steps of a run: when a thread caches a value it loaded, the last change of
the entry since its load is not a removal. -/
def CachedInTime (n : Bytes) (r : Ref) (i : ℕ) (e : Action) (_c : Choice) (w : World) : Prop :=
  e.caches n r = true → wrote n r (sinceLoad r i w.past) ≠ some none

instance (n : Bytes) (r : Ref) (i : ℕ) (e : Action) (c : Choice) (w : World) :
    Decidable (CachedInTime n r i e c w) := inferInstanceAs (Decidable (_ → _))

/-- A removal after every load is a removal since the load of each thread. -/
theorem wrote_sinceLoad {n : Bytes} {r : Ref} (i : ℕ) {past : List Event}
    (h : lastEffect (noted n r) past = some none) : wrote n r (sinceLoad r i past) = some none := by
  induction past with
  | nil => cases h
  | cons ev past ih =>
    rw [lastEffect_cons, noted] at h
    cases hl : loaded r ev with
    | some v => rw [hl] at h; cases h
    | none =>
      rw [hl, Option.map_none, Option.none_or] at h
      rw [sinceLoad, List.takeWhile_cons_of_pos (by simp [hl]), wrote, lastEffect_cons]
      cases he : effect n r ev with
      | some d => rwa [he] at h
      | none =>
        rw [he, Option.none_or] at h
        exact ih h

/-! ### One step -/

/-- The critical section writes entries without expiry, where they are routed to, and changes
nothing else. -/
def NodeAction.Timeless : NodeAction → Prop
  | .put _ _ _ expireAt => expireAt = 0
  | .remove _ _ => True
  | .cacheLoaded p name key _ => p = routedPartition name key
  | a => a.Reads

@[inherit_doc NodeAction.Timeless]
def Action.Timeless : Action → Prop
  | .on _ a => a.Timeless
  | .start _ => False
  | .crash _ => False
  | _ => True

/-- The data as a value that does not expire. -/
def unexpiring (d : Option Bytes) : Option Value := d.map fun v => ⟨v, 0⟩

/-- A loaded value is cached only where memory has no live one. -/
theorem find_cacheLoaded (s : Store) (name key value : Bytes) (now : ℕ) (r : Ref) :
    (s.cacheLoaded (routedPartition name key) name key value now).2.find
        (routedPartition r.1 r.2) r = s.find (routedPartition r.1 r.2) r ∨
      (name, key) = r ∧ ∀ v, s.find (routedPartition r.1 r.2) r = some v → v.expireAt ≠ 0 := by
  unfold Store.cacheLoaded
  split
  · exact Or.inl rfl
  · next hnone =>
    by_cases hr : (name, key) = r
    · refine Or.inr ⟨hr, fun v hv h0 => ?_⟩
      subst hr
      rw [Store.lookup, hv] at hnone
      simp [Value.expired, h0] at hnone
    · left
      rw [find_set, if_neg fun h => hr h.2.symm]

/-- **What one step leaves in memory under an entry**: what it changed it to; and when it did not
change it, what was there, unless it caches a loaded value where nothing lasting was. -/
theorem find_exec_timeless {n : Bytes} {r : Ref} {e : Action} (he : e.Timeless) (i : ℕ) (c : Choice)
    (C : Cluster) :
    copyOf r n (exec e c C).2 =
        ((effect n r ⟨i, e, (exec e c C).1⟩).map unexpiring).getD (copyOf r n C) ∨
      effect n r ⟨i, e, (exec e c C).1⟩ = none ∧ e.caches n r = true ∧
        ∀ v, copyOf r n C = some v → v.expireAt ≠ 0 := by
  cases e with
  | start | crash => exact he.elim
  | storeThrough | deleteThrough =>
    left
    simp only [exec]
    split <;> rfl
  | connect | reply | ctxErr | load | close => exact Or.inl rfl
  | on m a =>
    by_cases hm : n = m
    swap
    · left
      rw [copyOf, exec_on_ne _ _ _ _ hm, effect, changes, if_neg (Ne.symm hm)]
      rfl
    subst hm
    cases a with
    | put name key value expireAt =>
      left
      obtain rfl : expireAt = 0 := he
      rw [copyOf, find_exec_put, effect, changes, if_pos rfl, NodeAction.changes, leaves_single,
        Mutation.ref, copyOf]
      by_cases hr : (name, key) = r
      · subst hr
        rw [if_pos ⟨rfl, rfl, rfl⟩, if_pos rfl]
        rfl
      · rw [if_neg fun h => hr h.2.2.symm, if_neg hr]
        rfl
    | remove name key =>
      left
      rw [copyOf, exec_on_self, effect, changes, if_pos rfl, NodeAction.changes, leaves_single,
        Mutation.ref, copyOf]
      change ((C.nodes n).store.erase (routedPartition name key) (name, key)).find _ r = _
      rw [find_erase]
      by_cases hr : (name, key) = r
      · subst hr
        rw [if_pos ⟨rfl, rfl⟩, if_pos rfl]
        rfl
      · rw [if_neg fun h => hr h.2.symm, if_neg hr]
        rfl
    | cacheLoaded p name key value =>
      obtain rfl : p = routedPartition name key := he
      have hnone : effect n r ⟨i, .on n (.cacheLoaded (routedPartition name key) name key value),
          (exec (.on n (.cacheLoaded (routedPartition name key) name key value)) c C).1⟩ = none := by
        rw [effect, changes, if_pos rfl]
        rfl
      rw [hnone, copyOf, exec_on_self]
      rcases find_cacheLoaded (C.nodes n).store name key value ((C.nodes n).tick c.tick).clock r with
        h | ⟨hr, hold⟩
      · exact Or.inl h
      · exact Or.inr ⟨rfl, decide_eq_true ⟨rfl, hr⟩, hold⟩
    | execute | queueExecute | drop | prune | sweep | clearMap => exact he.elim
    | _ =>
      left
      rw [effect, changes, if_pos rfl]
      exact congrArg (fun s : Store => s.find (routedPartition r.1 r.2) r)
        (NodeAction.Reads.exec_store (by exact trivial) n c C n)

/-! ### The operations -/

/-- Threads whose changes do not expire. -/
def caching : Contract Action.Resp where
  pre _ _ e := e.Timeless
  post _ _ _ _ := True

theorem reading_caching (i : ℕ) : Reading (fun e => ∀ h, caching.pre i h e) where
  on n {a} ha _ := by cases a <;> first | exact ha.elim | trivial
  connect _ _ := trivial
  reply _ _ := trivial
  toStore _ _ _ _ := trivial
  toDelete _ _ _ := trivial
  reads n {a} ha _ _ := by cases a <;> first | exact ha.elim | trivial
  load _ _ _ := trivial

section obeys
variable {i : ℕ} (n name key : Bytes)

theorem storePut_caching (x value : Bytes) (h : List Event) :
    caching.Obeys i (fun _ _ => True) (storePut x name key value 0) h :=
  ⟨trivial, fun _ _ => ⟨rfl, fun _ _ => trivial⟩⟩

theorem applyPut_caching (value : Bytes) (h : List Event) :
    caching.Obeys i (fun _ _ => True) (Service.applyPut n name key value 0 false) h := by
  refine Obeys.bind (p := storePut n name key value 0)
    ((storePut_caching name key n value h).mono fun created h' _ => ?_)
  refine (reading_caching i).toPlumbing.afterPut_obeys n _ _ created (fun x h₁ => ?_) h'
  exact Obeys.bind ((storePut_caching name key x value h₁).mono fun _ _ _ => trivial)

/-- **The operations write without expiry.** -/
theorem CacheOp.caching_obeys (op : CacheOp) :
    caching.Obeys i (fun _ _ => True) (op.prog n) [] := by
  cases op with
  | idle => trivial
  | put name key value =>
    exact Obeys.bind ((applyPut_caching n name key value []).mono fun _ _ _ => trivial)
  | remove name key =>
    refine Obeys.of_all (P := fun e => ∀ h, caching.pre i h e) ?_ (fun h e he => he h) []
    exact ((reading_caching i).applyRemove n name key false fun _ _ => trivial).bind
      fun _ => trivial
  | get name key =>
    refine Obeys.of_all (P := fun e => ∀ h, caching.pre i h e) ?_ (fun h e he => he h) []
    exact ((reading_caching i).getThrough n name key fun _ _ => rfl).bind fun _ => trivial

end obeys

/-! ### Runs -/

section runs
variable {n : Bytes} {r : Ref}

/-- Memory has the value of the last put, whatever is loaded. -/
theorem put_kept : caching.Sound exec
    (fun w => ∀ v, wrote n r w.past = some (some v) → copyOf r n w.state = some ⟨v, 0⟩)
    (fun _ _ _ _ => True) := by
  intro i e c w hw _ he
  refine ⟨fun v hv => ?_, trivial⟩
  rw [World.next_past, wrote, lastEffect_cons] at hv
  rw [World.next_state]
  rcases find_exec_timeless he i c w.state with hfind | ⟨hnone, -, hold⟩
  · rw [hfind]
    cases heff : effect n r ⟨i, e, (exec e c w.state).1⟩ with
    | some d =>
      rw [heff] at hv
      cases hv
      rfl
    | none =>
      rw [heff, Option.none_or] at hv
      exact hw v hv
  · -- what the last put left has no expiry, so nothing is cached over it
    rw [hnone, Option.none_or] at hv
    exact absurd rfl (hold _ (hw v hv))

/-- Memory has nothing after a removal that no load follows, when nothing is cached over it. -/
theorem removal_kept : caching.Sound exec
    (fun w => lastEffect (noted n r) w.past = some none → copyOf r n w.state = none)
    (CachedInTime n r) := by
  intro i e c w hw hok he
  refine ⟨fun hv => ?_, trivial⟩
  rw [World.next_past, lastEffect_cons, noted] at hv
  rw [World.next_state]
  cases hl : loaded r ⟨i, e, (exec e c w.state).1⟩ with
  | some v => rw [hl] at hv; cases hv
  | none =>
    rw [hl, Option.map_none, Option.none_or] at hv
    rcases find_exec_timeless he i c w.state with hfind | ⟨hnone, hcaches, -⟩
    · rw [hfind]
      cases heff : effect n r ⟨i, e, (exec e c w.state).1⟩ with
      | some d =>
        rw [heff] at hv
        cases hv
        rfl
      | none =>
        rw [heff, Option.none_or] at hv
        exact hw hv
    · rw [hnone, Option.none_or] at hv
      exact absurd (wrote_sinceLoad i hv) (hok hcaches)

/-- **Memory after concurrent reads and writes of an entry on its owner**: any number of puts,
removals and reads with read-through run on `n`, in any interleaving.  At every moment, and so when all
have returned, memory has the value of the last put if a put made the last change in memory; and it has
nothing if the last change is a removal made after every load that read a value, in every run in which
no thread caches what it loaded before a removal. -/
theorem memory_follows (C : Cluster) (ops : ℕ → CacheOp) (sched : List (ℕ × Choice)) :
    let f := Conf.run exec sched (Conf.init C fun j => (ops j).prog n)
    (∀ v, wrote n r f.world.past = some (some v) → copyOf r n f.world.state = some ⟨v, 0⟩) ∧
    (Meets exec (CachedInTime n r) sched (Conf.init C fun j => (ops j).prog n) →
      lastEffect (noted n r) f.world.past = some none → copyOf r n f.world.state = none) := by
  have hobeys : ∀ j, caching.Obeys j (fun _ _ => True)
      ((Conf.init C fun j => (ops j).prog n).pool j)
      ((Conf.init C fun j => (ops j).prog n).world.own j) := fun j => (ops j).caching_obeys n
  refine ⟨?_, fun hok => ?_⟩
  · exact (put_kept.run (fun v hv => by cases hv) hobeys
      (Meets.of_forall (fun _ _ _ _ => trivial) _ _)).1
  · exact (removal_kept.run (fun hv => by cases hv) hobeys hok).1

end runs

/-- A node alone, with an empty memory and a `MapStore` that holds an entry. -/
def backedNode : Cluster where
  nodes n := { (oneEntry [[97]] 0 [] ([109], [114]) []).nodes n with loaders := fun _ => .store }
  listen := (oneEntry [[97]] 0 [] ([109], [114]) []).listen
  backing r := if r = ([109], [114]) then some [118] else none

/-- A read of the entry, and its removal. -/
def getAndRemove : ℕ → CacheOp
  | 0 => .get [109] [114]
  | 1 => .remove [109] [114]
  | _ => .idle

/-- The read caches its value, and then the entry is removed. -/
theorem memory_follows_getAndRemove :
    let sched := List.replicate 10 (0, Choice.still) ++ List.replicate 10 (1, Choice.still)
    let f := Conf.run exec sched (Conf.init backedNode fun j => (getAndRemove j).prog [97])
    lastEffect (noted [97] ([109], [114])) f.world.past = some none ∧
      copyOf ([109], [114]) [97] f.world.state = none := by
  intro sched f
  have hcheck : Conf.check exec
      (fun i e c w => decide (CachedInTime [97] ([109], [114]) i e c w)) sched
      (Conf.init backedNode fun j => (getAndRemove j).prog [97]) = true := by
    decide +kernel
  have hlast : lastEffect (noted [97] ([109], [114])) f.world.past = some none := by decide +kernel
  exact ⟨hlast, (memory_follows backedNode getAndRemove sched).2
    ((Meets.of_check hcheck).mono fun _ _ _ _ h => of_decide_eq_true h) hlast⟩

/-- **A load cached after a removal brings the removed value back**: the read misses and loads the
value, the entry is removed from memory and from the backing store, and the read caches what it loaded.
All calls succeed and both operations return; the removal made the last change in memory, after the
load, and memory has the removed value. -/
theorem removed_value_returns :
    let f := Conf.run exec (List.replicate 4 (0, .still) ++ List.replicate 10 (1, .still) ++
      List.replicate 10 (0, .still)) (Conf.init backedNode fun j => (getAndRemove j).prog [97])
    (backedNode.nodes [97]).mem.table.ownerOf (forKey [114]) = [97] ∧
    (backedNode.nodes [97]).loaders [109] = .store ∧
    (f.pool 0).returned = true ∧ (f.pool 1).returned = true ∧
    lastEffect (noted [97] ([109], [114])) f.world.past = some none ∧
    f.world.state.backing ([109], [114]) = none ∧
    copyOf ([109], [114]) [97] f.world.state = some ⟨[118], 0⟩ := by
  decide +kernel

end Medusa
