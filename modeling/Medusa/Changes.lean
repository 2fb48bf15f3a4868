import Medusa.Writes

/-! # What a run wrote

Client operations and migration pushes change entries by a few critical sections.  Of an event,
`changes n` is the list of entry changes it made on node `n`, and `effect n r` what it left under
the entry `r`: some data, nothing, or no change.

`stored_run`: **what a node stores under an entry is the last effect of the run on it**, when the
run consists of tracked actions there. -/

namespace Medusa

open Medusa.Partition Store Interleave Service Contract

/-! ### The effect of an event -/

/-- The entry a mutation changes. -/
def Store.Mutation.ref (m : Mutation) : Ref := (m.mapName, m.key)

/-- The data a mutation leaves. -/
def Store.Mutation.data (m : Mutation) : Option Bytes := if m.del then none else some m.value

/-- What a list of mutations leaves under `r`, if it changes it. -/
def leaves (r : Ref) (muts : List Mutation) : Option (Option Bytes) :=
  muts.foldl (fun acc m => if m.ref = r then some m.data else acc) none

/-- The entry changes made by a critical section with the given response. -/
def NodeAction.changes : (a : NodeAction) → a.Resp → List Mutation
  | .put name key value _, _ => [⟨name, key, value, false⟩]
  | .remove name key, _ => [⟨name, key, [], true⟩]
  | .execute name key _ _, r =>
    match r.action with
    | .keep => []
    | .set => [⟨name, key, r.newVal, false⟩]
    | .delete => [⟨name, key, [], true⟩]
  | .queueExecute _ _ _, r => r.2
  | _, _ => []

/-- The entry changes an event made on node `n`. -/
def changes (n : Bytes) : Event → List Mutation
  | ⟨_, .on m a, resp⟩ => if m = n then a.changes resp else []
  | _ => []

/-- What an event left under `r` on node `n`, if it changed it. -/
def effect (n : Bytes) (r : Ref) (ev : Event) : Option (Option Bytes) := leaves r (changes n ev)

/-- The data node `n` stores under `r`, expired or not. -/
def stored (n : Bytes) (r : Ref) (C : Cluster) : Option Bytes :=
  ((C.nodes n).store.find (routedPartition r.1 r.2) r).map Value.data

/-- The critical section changes entries only as `changes` says. -/
def NodeAction.Tracked : NodeAction → Prop
  | .cacheLoaded _ _ _ _ => False
  | .drop _ _ => False
  | .prune _ _ => False
  | .sweep => False
  | .clearMap _ => False
  | .execute name _ _ _ => name ≠ queueSegMap
  | _ => True

/-- The action changes entries of node `n` only as `changes` says. -/
def Action.Tracked (n : Bytes) : Action → Prop
  | .on m a => m = n → a.Tracked
  | .start _ => False
  | .crash _ => False
  | _ => True

/-! ### Mutations -/

theorem leaves_foldl (r : Ref) (muts : List Mutation) (acc : Option (Option Bytes)) :
    muts.foldl (fun acc m => if m.ref = r then some m.data else acc) acc = (leaves r muts).or acc := by
  unfold leaves
  induction muts generalizing acc with
  | nil => rfl
  | cons m muts ih =>
    rw [List.foldl_cons, List.foldl_cons, ih, ih (if m.ref = r then some m.data else none),
      Option.or_assoc]
    by_cases h : m.ref = r <;> simp [h]

theorem leaves_cons (r : Ref) (m : Mutation) (muts : List Mutation) :
    leaves r (m :: muts) = (leaves r muts).or (if m.ref = r then some m.data else none) :=
  leaves_foldl r muts _

@[simp] theorem leaves_nil (r : Ref) : leaves r [] = none := rfl

theorem leaves_single (r : Ref) (m : Mutation) :
    leaves r [m] = if m.ref = r then some m.data else none := rfl

theorem leaves_eq_none {r : Ref} {muts : List Mutation} (h : ∀ m ∈ muts, m.ref ≠ r) :
    leaves r muts = none := by
  induction muts with
  | nil => rfl
  | cons m muts ih =>
    rw [leaves_cons, ih (fun m' hm' => h m' (List.mem_cons_of_mem _ hm')),
      if_neg (h m List.mem_cons_self)]
    rfl

section stores
variable (s : Store) (r : Ref)

theorem map_find_set (name key : Bytes) (v : Value) :
    ((s.set (routedPartition name key) (name, key) v).find (routedPartition r.1 r.2) r).map Value.data =
      (if (name, key) = r then some (some v.data) else none).getD
        ((s.find (routedPartition r.1 r.2) r).map Value.data) := by
  rw [find_set]
  by_cases h : (name, key) = r
  · subst h
    simp
  · rw [if_neg (fun h' => h h'.2.symm), if_neg h]
    rfl

theorem map_find_erase (name key : Bytes) :
    ((s.erase (routedPartition name key) (name, key)).find (routedPartition r.1 r.2) r).map
        Value.data =
      (if (name, key) = r then some none else none).getD
        ((s.find (routedPartition r.1 r.2) r).map Value.data) := by
  rw [find_erase]
  by_cases h : (name, key) = r
  · subst h
    simp
  · rw [if_neg (fun h' => h h'.2.symm), if_neg h]
    rfl

/-- Mutations of one partition, applied one after another. -/
theorem map_find_mutations {p : PartitionId} {muts : List Mutation}
    (hp : ∀ m ∈ muts, routedPartition m.mapName m.key = p) :
    ((s.setShard p (muts.foldl applyMutation (s.shards p))).find (routedPartition r.1 r.2) r).map
        Value.data =
      (leaves r muts).getD ((s.find (routedPartition r.1 r.2) r).map Value.data) := by
  rw [find_foldl_applyMutation]
  induction muts generalizing s with
  | nil => rfl
  | cons m muts ih =>
    rw [List.foldl_cons, ih _ (fun m' hm' => hp m' (List.mem_cons_of_mem _ hm')), leaves_cons,
      ← hp m List.mem_cons_self]
    have hm : ((if m.del then s.erase (routedPartition m.mapName m.key) (m.mapName, m.key)
        else s.set (routedPartition m.mapName m.key) (m.mapName, m.key) ⟨m.value, 0⟩).find
          (routedPartition r.1 r.2) r).map Value.data =
        (if m.ref = r then some m.data else none).getD
          ((s.find (routedPartition r.1 r.2) r).map Value.data) := by
      unfold Mutation.ref Mutation.data
      by_cases hd : m.del
      · rw [if_pos hd, if_pos hd, map_find_erase]
      · rw [if_neg hd, if_neg hd, map_find_set]
    rw [hm]
    cases leaves r muts <;> rfl

end stores

/-! ### Tracked actions -/

/-- One critical section leaves under `r` what its changes say. -/
theorem map_find_exec {a : NodeAction} (ha : a.Tracked) (nd : Node) (c : Choice) (r : Ref) :
    ((nd.exec c a).2.store.find (routedPartition r.1 r.2) r).map Value.data =
      (leaves r (a.changes (nd.exec c a).1)).getD
        ((nd.store.find (routedPartition r.1 r.2) r).map Value.data) := by
  cases a with
  | cacheLoaded | drop | prune | sweep | clearMap => exact ha.elim
  | put name key value expireAt => exact map_find_set nd.store r name key ⟨value, expireAt⟩
  | remove name key => exact map_find_erase nd.store r name key
  | execute name key proc arg =>
    change ((applyExecute nd.store name key proc arg nd.clock).store.find _ r).map _ = _
    rw [applyExecute_store, ← routedPartition_of_ne ha key]
    change _ = (leaves r (match (applyExecute nd.store name key proc arg nd.clock).out.action with
      | .keep => []
      | .set => [⟨name, key, _, false⟩]
      | .delete => [⟨name, key, [], true⟩])).getD _
    cases (applyExecute nd.store name key proc arg nd.clock).out.action with
    | keep => rfl
    | set => exact map_find_set nd.store r name key _
    | delete => exact map_find_erase nd.store r name key
  | queueExecute qname op arg =>
    change ((queueTxn nd.store nd.clock qname op arg).2.2.find _ r).map _ = _
    rw [queueTxn_store]
    exact map_find_mutations nd.store r (fun m hm => queueTxn_routed hm)
  | emit ev =>
    simp only [Node.exec]
    split <;> rfl
  | _ => rfl

theorem stored_exec {n : Bytes} {e : Action} (h : e.Tracked n) (i : ℕ) (c : Choice) (C : Cluster)
    (r : Ref) :
    stored n r (exec e c C).2 = (effect n r ⟨i, e, (exec e c C).1⟩).getD (stored n r C) := by
  cases e with
  | on m a =>
    unfold stored effect
    by_cases hm : m = n
    · subst hm
      rw [exec_on_self, map_find_exec (h rfl)]
      simp only [changes, if_true, exec_on_fst]
      rfl
    · rw [exec_on_ne _ _ _ _ (Ne.symm hm)]
      simp only [changes, if_neg hm]
      rfl
  | start | crash => exact h.elim
  | storeThrough | deleteThrough => simp only [exec]; split <;> rfl
  | _ => rfl

/-- Tracked threads: nothing is promised but that, and nothing is told. -/
def tracking (n : Bytes) : Contract Action.Resp where
  pre _ _ e := e.Tracked n
  post _ _ _ _ := True

/-- What node `n` stores under `r` is the last effect on it, or what it stored at the start. -/
theorem tracking_sound (n : Bytes) (r : Ref) (init : Option Bytes) :
    (tracking n).Sound exec
      (fun w => stored n r w.state = (lastEffect (effect n r) w.past).getD init)
      (fun _ _ _ _ => True) := by
  intro i e c w hw _ hpre
  refine ⟨?_, trivial⟩
  change stored n r (exec e c w.state).2 = (lastEffect (effect n r) (_ :: w.past)).getD init
  rw [stored_exec hpre i, hw, lastEffect_cons]
  cases effect n r ⟨i, e, (exec e c w.state).1⟩ <;> rfl

/-- **What a node stores under an entry is the last effect of the run on it.** -/
theorem stored_run {α : Type} {n : Bytes} (r : Ref) {C : Cluster} {pool : ℕ → Prog α}
    (hpool : ∀ j, (pool j).All (Action.Tracked n)) (sched : List (ℕ × Choice)) :
    stored n r (Conf.run exec sched (Conf.init C pool)).world.state =
      (lastEffect (effect n r) (Conf.run exec sched (Conf.init C pool)).world.past).getD
        (stored n r C) :=
  ((tracking_sound n r (stored n r C)).run (f := Conf.init C pool) rfl
    (fun j => Obeys.of_all (K := tracking n) (hpool j) (fun _ _ h => h) [])
    (Meets.of_forall (fun _ _ _ _ => trivial) _ _)).1

/-! ### Whole values -/

/-- What an action leaves under `r` on node `n`, expiry included, if it is a put or a removal there. -/
def Action.leaving (n : Bytes) (r : Ref) : Action → Option (Option Value)
  | .on m (.put name key value expireAt) =>
    if m = n ∧ (name, key) = r then some (some ⟨value, expireAt⟩) else none
  | .on m (.remove name key) => if m = n ∧ (name, key) = r then some none else none
  | _ => none

/-- The action runs no processor and no queue operation on node `n`. -/
def Action.Plain (n : Bytes) : Action → Prop
  | .on m (.execute _ _ _ _) => m ≠ n
  | .on m (.queueExecute _ _ _) => m ≠ n
  | _ => True

/-- A plain action changes the copies of node `n` only as `leaving` says. -/
theorem copyOf_exec {n : Bytes} {e : Action} (ht : e.Tracked n) (hp : e.Plain n) (c : Choice)
    (C : Cluster) (r : Ref) :
    copyOf r n (exec e c C).2 = (e.leaving n r).getD (copyOf r n C) := by
  cases e with
  | on m a =>
    by_cases hm : m = n
    · subst hm
      cases a with
      | put name key value expireAt =>
        rw [copyOf, find_exec_put, Action.leaving]
        by_cases hr : (name, key) = r
        · subst hr
          simp
        · rw [if_neg fun h => hr h.2.2.symm, if_neg fun h => hr h.2]
          rfl
      | remove name key =>
        rw [copyOf, exec_on_self, Action.leaving]
        change ((C.nodes m).store.erase (routedPartition name key) (name, key)).find _ r = _
        rw [find_erase]
        by_cases hr : (name, key) = r
        · subst hr
          simp
        · rw [if_neg fun h => hr h.2.symm, if_neg fun h => hr h.2]
          rfl
      | execute | queueExecute => exact absurd rfl hp
      | cacheLoaded | drop | prune | sweep | clearMap => exact (ht rfl).elim
      | _ =>
        exact congrArg (fun s : Store => s.find (routedPartition r.1 r.2) r)
          (NodeAction.Reads.exec_store (by exact trivial) m c C m)
    · have hnone : Action.leaving n r (.on m a) = none := by
        cases a <;> first | rfl | exact if_neg fun h => hm h.1
      rw [copyOf, exec_on_ne _ _ _ _ (Ne.symm hm), hnone]
      rfl
  | start | crash => exact ht.elim
  | storeThrough | deleteThrough =>
    simp only [exec]
    split <;> rfl
  | _ => rfl

end Medusa
