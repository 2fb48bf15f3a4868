import Medusa.Changes
import Medusa.ScaleOut

/-! # Client operations during a rebalance

All nodes have adopted a table.  A client's operations on one key run on the new owner, while the
other nodes hand their partitions over: each pass pushes the values of its snapshots, as they
were, to the holders.

* `rebalance_keeps_last`: **the new owner has the value and the expiry of the client's last operation,
  when no push that reaches it after an operation carries another value or expiry.**
* `stale_push_wins`: a pass that took its snapshot before the operation brings the old value back,
  over an acknowledged put and over an acknowledged remove. -/

namespace Medusa

open Medusa.Partition Store Interleave Service Contract

/-- A client operation on a key. -/
inductive KeyOp where
  | put (value : Bytes) (ttlMs : Int64)
  | remove
deriving DecidableEq, Repr

/-- What the operation is to leave. -/
def KeyOp.data : KeyOp → Option Bytes
  | put value _ => some value
  | remove => none

/-- The operation on node `n`, as owner. -/
def KeyOp.prog (n : Bytes) (r : Ref) : KeyOp → Prog (Except ServiceError Bool)
  | put value ttlMs => Service.applyPut n r.1 r.2 value ttlMs false
  | remove => Service.applyRemove n r.1 r.2 false

/-- One operation after another. -/
def KeyOp.runAll (n : Bytes) (r : Ref) : List KeyOp → Prog Unit
  | [] => return ()
  | op :: ops => do
      let _ ← op.prog n r
      KeyOp.runAll n r ops

/-- Thread `0` runs the client's operations on the owner; the others run a pass of `Migrate` each. -/
def rebalancing (owner : Bytes) (r : Ref) (ops : List KeyOp) (passes : ℕ → Bytes) : ℕ → Prog Unit
  | 0 => KeyOp.runAll owner r ops
  | j + 1 => do
      let _ ← Node.rebalance (passes j)
      return ()

/-! ### The owner's copy -/

theorem plumbing_tracked (n : Bytes) : Plumbing (Action.Tracked n) where
  on m {a} ha := fun _ => by cases a <;> first | exact ha.elim | trivial
  connect _ := trivial
  reply _ := trivial
  toStore _ _ _ := trivial
  toDelete _ _ := trivial

theorem plumbing_plain (n : Bytes) : Plumbing (fun e => e.Tracked n ∧ e.Plain n) where
  on m {a} ha := ⟨(plumbing_tracked n).on m ha, by cases a <;> first | exact ha.elim | trivial⟩
  connect _ := ⟨trivial, trivial⟩
  reply _ := ⟨trivial, trivial⟩
  toStore _ _ _ := ⟨trivial, trivial⟩
  toDelete _ _ := ⟨trivial, trivial⟩

/-- A pass on another node changes the owner's entries by its pushes only. -/
theorem rebalance_plain {owner n : Bytes} (hn : n ≠ owner) :
    (Node.rebalance n).All (fun e => e.Tracked owner ∧ e.Plain owner) := by
  refine Prog.All.step ⟨fun _ => trivial, trivial⟩ (fun tbl => ?_)
  exact (plumbing_plain owner).migrate (fun _ _ _ _ _ => ⟨fun _ => trivial, trivial⟩) tbl
    ⟨trivial, trivial⟩ (fun _ => ⟨fun _ => trivial, trivial⟩)
    (fun _ _ => ⟨fun h => absurd h hn, trivial⟩)

/-! ### The contract -/

/-- What a history last left under `r` on node `n`, expiry included. -/
abbrev lastLeft (n : Bytes) (r : Ref) (h : List Event) : Option (Option Value) :=
  lastEffect (fun ev => ev.act.leaving n r) h

/-- The condition on the steps of a run: a push of the key that reaches the owner after an operation
of the client was applied there carries what the newest one left, the data and the expiry. -/
def NoStalePush (owner : Bytes) (r : Ref) (i : ℕ) (e : Action) (_ : Choice) (w : World) : Prop :=
  i ≠ 0 → ∀ v, e.leaving owner r = some v → ∀ v', lastLeft owner r (w.own 0) = some v' → v = v'

/-- All threads change the owner's entries by puts and removals only. -/
def rebalanceContract (owner : Bytes) : Contract Action.Resp where
  pre _ _ e := e.Tracked owner ∧ e.Plain owner
  post _ _ _ _ := True

/-- Once the client has changed the entry, the owner has what the client left last. -/
theorem rebalance_sound (owner : Bytes) (r : Ref) :
    (rebalanceContract owner).Sound exec
      (fun w => ∀ v, lastLeft owner r (w.own 0) = some v → copyOf r owner w.state = v)
      (NoStalePush owner r) := by
  intro i e c w hw hok hpre
  refine ⟨fun v hv => ?_, trivial⟩
  rw [World.next_state, copyOf_exec hpre.1 hpre.2]
  by_cases hi : i = 0
  · subst hi
    rw [World.next_own_self, lastLeft, lastEffect_cons] at hv
    cases he : e.leaving owner r with
    | none => exact hw v (by rwa [he, Option.none_or] at hv)
    | some v' => exact Option.some.inj (by rwa [he] at hv)
  · rw [World.next_own_ne exec w i e c hi] at hv
    cases he : e.leaving owner r with
    | none => exact hw v hv
    | some v' => exact hok hi v' he v hv

/-! ### The client's operations -/

/-- What the operation may leave after the history `h`: a put its value, which expires its TTL after the
clock reading just made, a removal nothing. -/
def KeyOp.Leaves (owner : Bytes) (h : List Event) (v : Option Value) : KeyOp → Prop
  | put value ttlMs => ∃ (now : ℕ) (h' : List Event), h = ⟨0, .on owner .nowNano, now⟩ :: h' ∧
      v = some ⟨value, expireFromTTL now ttlMs⟩
  | remove => v = none

/-- The newest change of `r` on the owner in the client's history is one of `op`, and left `v`. -/
def KeyOp.LeftLast (owner : Bytes) (r : Ref) (h : List Event) (v : Option Value) (op : KeyOp) : Prop :=
  ∃ (new : List Event) (e : Action) (resp : e.Resp) (h' : List Event), h = new ++ ⟨0, e, resp⟩ :: h' ∧
    (∀ ev ∈ new, ev.act.leaving owner r = none) ∧ e.leaving owner r = some v ∧ op.Leaves owner h' v

/-- While `op` runs, the owner's copy of `r` is changed as `op` may. -/
def KeyOp.contract (owner : Bytes) (r : Ref) (op : KeyOp) : Contract Action.Resp where
  pre _ h e := (e.Tracked owner ∧ e.Plain owner) ∧
    ∀ v, e.leaving owner r = some v → op.Leaves owner h v
  post _ _ _ _ := True

section ops
variable {owner : Bytes} {r : Ref} {op : KeyOp}

theorem KeyOp.LeftLast.lastLeft_eq {h : List Event} {v : Option Value}
    (hl : op.LeftLast owner r h v) : lastLeft owner r h = some v := by
  obtain ⟨new, e, resp, h', rfl, hnew, he, -⟩ := hl
  have hnone : new.findSome? (fun ev => ev.act.leaving owner r) = none :=
    List.findSome?_eq_none_iff.mpr hnew
  rw [lastLeft, lastEffect, List.findSome?_append, hnone, List.findSome?_cons, he]
  rfl

theorem KeyOp.LeftLast.data_eq {h : List Event} {v : Option Value} (hl : op.LeftLast owner r h v) :
    v.map Value.data = op.data := by
  obtain ⟨_, _, _, _, -, -, -, hv⟩ := hl
  cases op with
  | put value ttlMs =>
    obtain ⟨now, _, -, rfl⟩ := hv
    rfl
  | remove =>
    obtain rfl := hv
    rfl

/-- After a change by `op`, the newest change stays one of `op` while `op` runs. -/
theorem KeyOp.LeftLast.obeys (op : KeyOp) {α : Type} {Q : α → List Event → Prop} {p : Prog α} {h : List Event}
    (hp : (op.contract owner r).Obeys 0 Q p h) (hl : ∃ v, op.LeftLast owner r h v) :
    (rebalanceContract owner).Obeys 0 (fun _ h' => ∃ v, op.LeftLast owner r h' v) p h := by
  induction p generalizing h with
  | done a => exact hl
  | act e k ih =>
    refine ⟨hp.1.1, fun resp _ => ih resp (hp.2 resp trivial) ?_⟩
    cases he : e.leaving owner r with
    | none =>
      obtain ⟨v, new, e', resp', h', rfl, hnew, hv⟩ := hl
      exact ⟨v, ⟨0, e, resp⟩ :: new, e', resp', h', rfl, List.forall_mem_cons.mpr ⟨he, hnew⟩, hv⟩
    | some v => exact ⟨v, [], e, resp, h, rfl, List.forall_mem_nil _, he, hp.1.2 v he⟩

theorem KeyOp.plumbing : Plumbing (fun e => ∀ h, (op.contract owner r).pre 0 h e) where
  on m {a} ha h := by
    refine ⟨(plumbing_plain owner).on m ha, fun v hv => ?_⟩
    cases a <;> first | exact ha.elim | cases hv
  connect _ _ := ⟨⟨trivial, trivial⟩, fun _ hv => by cases hv⟩
  reply _ _ := ⟨⟨trivial, trivial⟩, fun _ hv => by cases hv⟩
  toStore _ _ _ _ := ⟨⟨trivial, trivial⟩, fun _ hv => by cases hv⟩
  toDelete _ _ _ := ⟨⟨trivial, trivial⟩, fun _ hv => by cases hv⟩

/-- A put right after a reading of the same clock. -/
theorem KeyOp.put_pre (value : Bytes) (ttlMs : Int64) (x : Bytes) (now : ℕ) (h : List Event) :
    ((KeyOp.put value ttlMs).contract owner r).pre 0 (⟨0, .on x .nowNano, now⟩ :: h)
      (.on x (.put r.1 r.2 value (expireFromTTL now ttlMs))) := by
  refine ⟨⟨fun _ => trivial, trivial⟩, fun v hv => ?_⟩
  by_cases hx : x = owner
  · subst hx
    exact ⟨now, h, rfl, (Option.some.inj ((if_pos ⟨rfl, rfl⟩).symm.trans hv)).symm⟩
  · cases (if_neg fun h => hx h.1).symm.trans hv

theorem KeyOp.remove_pre (x : Bytes) (h : List Event) :
    (KeyOp.remove.contract owner r).pre 0 h (.on x (.remove r.1 r.2)) := by
  refine ⟨⟨fun _ => trivial, trivial⟩, fun v hv => ?_⟩
  simp only [Action.leaving] at hv
  split at hv
  · exact (Option.some.inj hv).symm
  · cases hv

/-- An operation makes the newest change on the owner. -/
theorem KeyOp.obeys (op : KeyOp) (h : List Event) :
    (rebalanceContract owner).Obeys 0 (fun _ h' => ∃ v, op.LeftLast owner r h' v)
      (op.prog owner r) h := by
  cases op with
  | put value ttlMs =>
    refine Obeys.bind ?_
    refine Obeys.step ⟨fun _ => trivial, trivial⟩ (fun now _ => ?_)
    refine ⟨⟨fun _ => trivial, trivial⟩, fun created _ => ?_⟩
    refine KeyOp.LeftLast.obeys (.put value ttlMs) (KeyOp.plumbing.afterPut_obeys owner _ _
      created (fun x h' => ?_) _) ?_
    · refine Obeys.bind (Obeys.step (KeyOp.plumbing.on x (a := .nowNano) trivial h')
        (fun now' _ => ?_))
      exact ⟨KeyOp.put_pre value ttlMs x now' h', fun _ _ => trivial⟩
    · exact ⟨_, [], _, created, _, rfl, List.forall_mem_nil _, if_pos ⟨rfl, rfl⟩, now, h, rfl, rfl⟩
  | remove =>
    refine Obeys.step ⟨fun _ => trivial, trivial⟩ (fun existed _ => ?_)
    refine KeyOp.LeftLast.obeys .remove (Obeys.of_all (P := fun e => ∀ h,
      (KeyOp.remove.contract owner r).pre 0 h e) ?_ (fun h e he => he h) _) ?_
    · exact KeyOp.plumbing.afterRemove _ _ _ _ _ (fun x h => KeyOp.remove_pre x h)
    · exact ⟨_, [], _, existed, _, rfl, List.forall_mem_nil _, if_pos ⟨rfl, rfl⟩, rfl⟩

/-- The newest change on the owner is the last operation's. -/
theorem KeyOp.runAll_obeys {ops : List KeyOp} (hop : ops.getLast? = some op) (h : List Event) :
    (rebalanceContract owner).Obeys 0 (fun _ h' => ∃ v, op.LeftLast owner r h' v)
      (KeyOp.runAll owner r ops) h := by
  induction ops generalizing h with
  | nil => cases hop
  | cons o ops ih =>
    refine Obeys.bind ((o.obeys h).mono (fun _ h₁ hleft => ?_))
    cases ops with
    | nil =>
      obtain rfl : o = op := Option.some.inj hop
      exact hleft
    | cons o' ops => exact ih (by rwa [List.getLast?_cons_cons] at hop) h₁

end ops

/-- **No update is lost across a rebalance, when no stale push comes after an operation**: thread
`0` has run the client's operations on the owner, the other threads are anywhere in their passes
over other nodes, and the owner stores what the last operation left, the data and the expiry.  Views,
lost messages, cancelled passes and clocks are arbitrary. -/
theorem rebalance_keeps_last {owner : Bytes} (passes : ℕ → Bytes)
    (hpasses : ∀ j, passes j ≠ owner) (C : Cluster) (r : Ref) (ops : List KeyOp) (hops : ops ≠ [])
    {sched : List (ℕ × Choice)}
    (hok : Meets exec (NoStalePush owner r) sched (Conf.init C (rebalancing owner r ops passes))) :
    let f := Conf.run exec sched (Conf.init C (rebalancing owner r ops passes))
    (f.pool 0).returned = true →
      (ops.getLast hops).LeftLast owner r (f.world.own 0) (copyOf r owner f.world.state) ∧
      stored owner r f.world.state = (ops.getLast hops).data := by
  intro f hret
  obtain ⟨a, ha⟩ := Prog.returned_iff.mp hret
  have hpool : ∀ j, (rebalanceContract owner).Obeys j
      (fun _ h' => j = 0 → ∃ v, (ops.getLast hops).LeftLast owner r h' v)
      (rebalancing owner r ops passes j) [] := by
    intro j
    cases j with
    | zero =>
      exact (KeyOp.runAll_obeys (List.getLast?_eq_some_getLast hops) []).mono (fun _ _ hv _ => hv)
    | succ j =>
      refine Obeys.bind ((Obeys.of_all (K := rebalanceContract owner)
        (rebalance_plain (hpasses j)) (fun _ _ he => he) []).mono ?_)
      exact fun _ _ _ h0 => absurd h0 (Nat.succ_ne_zero j)
  obtain ⟨hinv, -, hobeys⟩ := (rebalance_sound owner r).run
    (f := Conf.init C (rebalancing owner r ops passes)) (fun v hv => by cases hv) hpool hok
  obtain ⟨v, hleft⟩ := (hobeys 0).returned ha rfl
  obtain rfl : copyOf r owner f.world.state = v := hinv v hleft.lastLeft_eq
  exact ⟨hleft, hleft.data_eq⟩

/-! ### A stale push -/

/-- `a` hands over to the new owner `b`, where a client runs one operation on the entry. -/
def grownRebalance (op : KeyOp) : ℕ → Prog Unit :=
  rebalancing [98] ([109], [92]) [op] (fun _ => [97])

/-- The pass of `a` is over before the client puts a new value and removes it. -/
theorem rebalance_keeps_last_grown :
    stored [98] ([109], [92]) (Conf.run exec (List.replicate 560 (1, .still) ++
      List.replicate 40 (0, .still)) (Conf.init grown (rebalancing [98] ([109], [92])
        [.put [119] 0, .remove] (fun _ => [97])))).world.state = none := by
  refine (rebalance_keeps_last (fun _ => [97]) (fun _ => by decide) grown ([109], [92])
    [.put [119] 0, .remove] (by decide) ?_ (by decide +kernel)).2
  have hcheck : Conf.check exec
      (fun i _ _ w => i == 0 || (lastLeft [98] ([109], [92]) (w.own 0)).isNone)
      (List.replicate 560 (1, .still) ++ List.replicate 40 (0, .still))
      (Conf.init grown (rebalancing [98] ([109], [92]) [.put [119] 0, .remove] (fun _ => [97]))) =
        true := by
    decide +kernel
  refine (Meets.of_check hcheck).mono (fun i e c w h hi v _ v' hv' => ?_)
  rw [Bool.or_eq_true, hv'] at h
  exact absurd (eq_of_beq (h.resolve_right (by simp))) hi

/-- **A stale push brings the old value back**: `a` takes its snapshot, the client's operation on
the new owner is acknowledged and replicated, and then `a` pushes what its snapshot has.  All
messages arrive and both threads return; the old value stands where the client put another one,
and where it removed the key. -/
theorem stale_push_wins :
    let sched := List.replicate 7 (1, .still) ++ List.replicate 20 (0, .still) ++
      List.replicate 560 (1, .still)
    let f := Conf.run exec sched (Conf.init grown (grownRebalance (.put [119] 0)))
    let g := Conf.run exec sched (Conf.init grown (grownRebalance .remove))
    SharedView [[98], [97]] 1 id grown ∧
    (newTable [[98], [97]] 1).ownerOf (routedPartition [109] [92]) = [98] ∧
    (f.pool 0).returned = true ∧ (f.pool 1).returned = true ∧
    stored [98] ([109], [92]) f.world.state = some [118] ∧
    (g.pool 0).returned = true ∧ (g.pool 1).returned = true ∧
    stored [98] ([109], [92]) g.world.state = some [118] := by
  refine ⟨grown_sharedView, ?_⟩
  decide +kernel

end Medusa
