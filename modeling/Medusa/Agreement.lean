import Medusa.Rebalance
import Medusa.Departures

/-! # Replicas after concurrent writes

An owner changes its store under a lock, and sends the replication messages of an operation one at
a time after releasing it.  Concurrent operations on one entry change the owner's copy in one order
and may reach a backup in another.

* `Write.obeys`: an operation alone leaves on every backup what it left on the owner (`Mirrored`).
* `replicas_agree`: **a backup agrees with the owner about an entry when the messages about it are
  applied in the order of the owner's changes.**
* `reordered_messages_diverge`: two puts whose messages overtake each other leave the backup with
  the overwritten value. -/

namespace Medusa

open Medusa.Partition Store Interleave Service Contract

/-- The operation is asked of node `o`, not as a backup. -/
def Service.Write.AsOwner (o : Bytes) : Write → Prop
  | .idle => True
  | .put n _ _ _ _ isBackup => n = o ∧ isBackup = false
  | .remove n _ _ isBackup => n = o ∧ isBackup = false
  | .evict n _ _ => n = o
  | .execute n _ _ _ _ => n = o

/-! ### The contract -/

/-- What the owner's threads are told when views and listeners stay as they are and messages
arrive. -/
def Served (ids : List Bytes) (b : ℕ) (addr : Bytes → Bytes) (o : Bytes) :
    (e : Action) → e.Resp → Prop
  | .connect a, r => ∀ x ∈ ids, a = addr x → r = some x
  | .on m .table, tbl => m = o → tbl = newTable ids b
  | .on m (.addrOf x), r => m = o → x ∈ ids → r = some (addr x)
  | .on _ (.queueExecute qname _ _), r =>
    (∀ m ∈ r.2, routedPartition m.mapName m.key = forKey qname) ∧ ∀ err, r.1 = .error err → r.2 = []
  | _, _ => True

/-- What a history left under `r` on node `n`, if it changed it. -/
abbrev wrote (n : Bytes) (r : Ref) (h : List Event) : Option (Option Bytes) :=
  lastEffect (effect n r) h

/-- The action may change entries of node `n`. -/
def Action.ChangesOn (n : Bytes) : Action → Prop
  | .on m (.put _ _ _ _) => m = n
  | .on m (.remove _ _) => m = n
  | .on m (.execute _ _ _ _) => m = n
  | .on m (.queueExecute _ _ _) => m = n
  | _ => False

/-- Calm threads with tracked actions, which change the owner's entries before any others. -/
def serving (ids : List Bytes) (b : ℕ) (addr : Bytes → Bytes) (o : Bytes) :
    Contract Action.Resp where
  pre _ h e := (e.Calm ∧ ∀ n, e.Tracked n) ∧ (e.ChangesOn o → ∀ n r, wrote n r h = none)
  post _ _ e r := Served ids b addr o e r

/-- The condition on the steps of a run: a change of `r` on the backup `x` comes from the operation
that changed the owner's copy last, or that operation's change has not reached `x` yet. -/
def InOrder (o x : Bytes) (r : Ref) (i : ℕ) (e : Action) (c : Choice) (w : World) : Prop :=
  effect x r ⟨i, e, (exec e c w.state).1⟩ ≠ none →
    ∀ j, lastThread (effect o r) w.past = some j → j ≠ i → wrote x r (w.own j) = none

instance (o x : Bytes) (r : Ref) (i : ℕ) (e : Action) (c : Choice) (w : World) :
    Decidable (InOrder o x r i e c w) :=
  decidable_of_iff (effect x r ⟨i, e, (exec e c w.state).1⟩ ≠ none →
    ∀ j ∈ lastThread (effect o r) w.past, j ≠ i → wrote x r (w.own j) = none) Iff.rfl

theorem queueTxn_error {s : Store} {now : ℕ} {q : Bytes} {op : QueueOp} {arg : Bytes}
    {err : ServiceError} (h : (queueTxn s now q op arg).1 = .error err) :
    (queueTxn s now q op arg).2.1 = [] := by
  cases op with
  | other op => rfl
  | queueoffer | queuesize => simp [queueTxn, updateMulti, queueOp] at h
  | queuepoll | queuepeek =>
    simp only [queueTxn, updateMulti, queueOp] at h
    repeat' split at h
    all_goals simp at h

section served
variable {ids : List Bytes} {b : ℕ} {addr : Bytes → Bytes} {C : Cluster} {o : Bytes}

/-- What a run with messages in order satisfies: views and listeners stay as they are, and when the
operation that changed the owner's copy last has reached `x`, it was the last to do so. -/
structure Serving (C : Cluster) (o x : Bytes) (r : Ref) (w : World) : Prop where
  listen : w.state.listen = C.listen
  mem : (w.state.nodes o).mem = (C.nodes o).mem
  last : ∀ j, lastThread (effect o r) w.past = some j → wrote x r (w.own j) ≠ none →
    lastThread (effect x r) w.past = some j

/-- A change on node `n` is made by an action on it. -/
theorem effect_ne_none {n : Bytes} {r : Ref} {i : ℕ} {e : Action} {resp : e.Resp}
    (h : effect n r ⟨i, e, resp⟩ ≠ none) : e.ChangesOn n := by
  cases e with
  | on m a =>
    simp only [effect, changes] at h
    split at h
    · next hm =>
      subst hm
      cases a with
      | put | remove | execute | queueExecute => rfl
      | _ => exact absurd rfl h
    · exact absurd rfl h
  | _ => exact absurd rfl h

theorem changesOn_unique {n m : Bytes} {e : Action} (hn : e.ChangesOn n) (hm : e.ChangesOn m) :
    n = m := by
  cases e with
  | on k a =>
    cases a with
    | put | remove | execute | queueExecute => exact hn.symm.trans hm
    | _ => exact hn.elim
  | _ => exact hn.elim

theorem serving_sound (hV : SharedView ids b addr C) (ho : o ∈ ids) {x : Bytes} (hxo : x ≠ o)
    (r : Ref) :
    (serving ids b addr o).Sound exec (Serving C o x r)
      (fun i e c w => c.lost = false ∧ InOrder o x r i e c w) := by
  rintro i e c w hw ⟨hlost, horder⟩ hpre
  have hlast : CaughtUp (effect o r) (effect x r) (w.next exec i e c) := by
    refine CaughtUp.next hw.last horder fun hne => ⟨?_, hpre.2 (effect_ne_none hne) x r⟩
    by_contra hxne
    exact hxo (changesOn_unique (effect_ne_none hxne) (effect_ne_none hne))
  refine ⟨⟨?_, ?_, hlast⟩, ?_⟩
  · exact (hpre.1.1.listen c w.state).trans hw.listen
  · exact (hpre.1.1.mem c w.state o).trans hw.mem
  · cases e with
    | connect a =>
      intro y hy ha
      change (if c.lost then none else w.state.listen a) = some y
      rw [hlost, hw.listen, ha]
      exact (hV.listen _ y).mpr ⟨hy, rfl⟩
    | on m a =>
      cases a with
      | table =>
        rintro rfl
        change (w.state.nodes m).mem.table = _
        rw [hw.mem, hV.table ho]
      | addrOf y =>
        rintro rfl hy
        change (w.state.nodes m).mem.addrOf y = _
        rw [hw.mem, hV.addrOf ho hy]
      | queueExecute qname op arg =>
        exact ⟨fun mu hmu => queueTxn_routed hmu, fun err herr => queueTxn_error herr⟩
      | _ => trivial
    | _ => trivial

/-! ### What a thread wrote -/

/-- The action changes no entry. -/
def Action.Silent (e : Action) : Prop :=
  (e.Calm ∧ ∀ n, e.Tracked n) ∧ ∀ n, ¬ e.ChangesOn n

theorem plumbing_silent : Plumbing Action.Silent where
  on m {a} ha := by
    refine ⟨⟨plumbing_calm.on m ha, fun n => (plumbing_tracked n).on m ha⟩, fun n hn => ?_⟩
    cases a <;> first | exact ha.elim | exact hn.elim
  connect _ := ⟨⟨trivial, fun _ => trivial⟩, fun _ h => h⟩
  reply _ := ⟨⟨trivial, fun _ => trivial⟩, fun _ h => h⟩
  toStore _ _ _ := ⟨⟨trivial, fun _ => trivial⟩, fun _ h => h⟩
  toDelete _ _ := ⟨⟨trivial, fun _ => trivial⟩, fun _ h => h⟩

theorem Action.Silent.pre {e : Action} (he : e.Silent) (i : ℕ) (h : List Event) :
    (serving ids b addr o).pre i h e := ⟨he.1, fun hc => absurd hc (he.2 o)⟩

theorem wrote_silent {e : Action} (he : e.Silent) (i : ℕ) (resp : e.Resp) (h : List Event)
    (n : Bytes) (r : Ref) : wrote n r (⟨i, e, resp⟩ :: h) = wrote n r h := by
  have hnone : effect n r ⟨i, e, resp⟩ = none := by
    by_contra hne
    exact he.2 n (effect_ne_none hne)
  rw [wrote, lastEffect_cons, hnone, Option.none_or]

theorem wrote_on (i : ℕ) (m : Bytes) (a : NodeAction) (resp : a.Resp) (h : List Event) (n : Bytes)
    (r : Ref) : wrote n r (⟨i, .on m a, resp⟩ :: h) =
      (if n = m then leaves r (a.changes resp) else none).or (wrote n r h) := by
  unfold wrote
  rw [lastEffect_cons]
  congr 1
  simp only [effect, changes, eq_comm]
  split <;> rfl

/-- The entry change of a replication message. -/
def Service.Replica.mutation : Replica → Mutation
  | .put name key value _ => ⟨name, key, value, false⟩
  | .remove name key => ⟨name, key, [], true⟩

/-- From `h` to `h'` the mutations were applied on the nodes of `l` other than `o`. -/
def Spread (o : Bytes) (l : List Bytes) (muts : List Mutation) (h h' : List Event) : Prop :=
  ∀ n r, wrote n r h' = (if n ∈ l ∧ n ≠ o then leaves r muts else none).or (wrote n r h)

section obeys
variable {i : ℕ}

theorem silent_obeys {α : Type} {p : Prog α} (hp : p.All Action.Silent) (h : List Event) :
    (serving ids b addr o).Obeys i (fun _ h' => ∀ n r, wrote n r h' = wrote n r h) p h := by
  induction p generalizing h with
  | done a => exact fun _ _ => rfl
  | act e k ih =>
    refine ⟨hp.1.pre i h, fun resp _ => (ih resp (hp.2 resp) _).mono (fun _ h' hh' n r => ?_)⟩
    rw [hh', wrote_silent hp.1]

theorem apply_obeys {x : Bytes} (hxo : x ≠ o) (msg : Replica) (h : List Event) :
    (serving ids b addr o).Obeys i (fun _ h' => ∀ n r, wrote n r h' =
      (if n = x then leaves r [msg.mutation] else none).or (wrote n r h)) (msg.apply x) h := by
  cases msg with
  | put name key value ttlMs =>
    have hnow := plumbing_silent.on x (a := .nowNano) trivial
    refine Obeys.bind (Obeys.step (hnow.pre i h) (fun now _ => ?_))
    refine ⟨⟨⟨trivial, fun _ _ => trivial⟩, fun h0 => absurd h0 hxo⟩, fun created _ n r => ?_⟩
    rw [wrote_on, wrote_silent hnow]
    rfl
  | remove name key =>
    refine ⟨⟨⟨trivial, fun _ _ => trivial⟩, fun h0 => absurd h0 hxo⟩, fun existed _ n r => ?_⟩
    rw [wrote_on]
    rfl

theorem replicateTo_obeys (msg : Replica) {l : List Bytes} (hl : l ⊆ ids) (h : List Event) :
    (serving ids b addr o).Obeys i (fun _ h' => Spread o l [msg.mutation] h h')
      (replicateTo o msg l) h := by
  induction l generalizing h with
  | nil => exact fun n r => by simp
  | cons x l ih =>
    have hih := ih (fun y hy => hl (List.mem_cons_of_mem _ hy))
    unfold replicateTo
    split
    · next hx =>
      refine (hih h).mono (fun _ h' hh' n r => ?_)
      rw [hh' n r]
      congr 2
      simp only [List.mem_cons, hx, eq_iff_iff]
      constructor
      · rintro ⟨hn, hne⟩
        exact ⟨Or.inr hn, hne⟩
      · rintro ⟨hn, hne⟩
        exact ⟨hn.resolve_left hne, hne⟩
    · next hx =>
      have haddr := plumbing_silent.on o (a := .addrOf x) trivial
      refine Obeys.step (haddr.pre i h) (fun a ha => ?_)
      obtain rfl := ha rfl (hl List.mem_cons_self)
      refine Obeys.bind (Obeys.step ((plumbing_silent.connect _).pre i _)
        (fun y hy => ?_))
      obtain rfl := hy x (hl List.mem_cons_self) rfl
      refine Obeys.bind ((apply_obeys hx msg _).mono (fun out h₁ hh₁ => ?_))
      refine Obeys.step ((plumbing_silent.reply x).pre i _) (fun arrived _ => ?_)
      refine (hih _).mono (fun _ h' hh' n r => ?_)
      rw [hh' n r, wrote_silent (plumbing_silent.reply x), hh₁ n r,
        wrote_silent (plumbing_silent.connect _), wrote_silent haddr, ← Option.or_assoc]
      congr 1
      by_cases hnx : n = x
      · subst hnx
        simp only [List.mem_cons, true_or, true_and, if_true, ne_eq, hx, not_false_eq_true]
        split <;> simp
      · simp [hnx]

theorem backupsOf_subset (ids : List Bytes) (b : ℕ) (p : PartitionId) :
    (newTable ids b).backupsOf p ⊆ ids := by
  intro x hx
  rw [newTable_backupsOf] at hx
  exact mem_of_mem_holders (List.mem_of_mem_tail hx)

theorem replicate_obeys (p : PartitionId) (msg : Replica) (h : List Event) :
    (serving ids b addr o).Obeys i
      (fun _ h' => Spread o ((newTable ids b).backupsOf p) [msg.mutation] h h')
      (replicate o p msg) h := by
  have htable := plumbing_silent.on o (a := .table) trivial
  refine Obeys.step (htable.pre i h) (fun tbl htbl => ?_)
  obtain rfl := htbl rfl
  refine (replicateTo_obeys msg (backupsOf_subset ids b p) _).mono (fun _ h' hh' n r => ?_)
  rw [hh' n r, wrote_silent htable]

theorem replicateAll_obeys (p : PartitionId) (msgs : List Replica) (h : List Event) :
    (serving ids b addr o).Obeys i
      (fun _ h' => Spread o ((newTable ids b).backupsOf p) (msgs.map Replica.mutation) h h')
      (replicateAll o p msgs) h := by
  induction msgs generalizing h with
  | nil => exact fun n r => by simp
  | cons msg msgs ih =>
    refine Obeys.bind ((replicate_obeys p msg h).mono (fun _ h₁ hh₁ => ?_))
    refine (ih h₁).mono (fun _ h' hh' n r => ?_)
    rw [hh' n r, hh₁ n r, ← Option.or_assoc, List.map_cons, leaves_single, leaves_cons]
    congr 1
    split <;> rfl

/-! ### What an operation leaves -/

/-- The backups of every entry were left what the owner was left. -/
def Mirrored (tbl : Table) (o : Bytes) (h : List Event) : Prop :=
  ∀ r x, x ∈ tbl.backupsOf (routedPartition r.1 r.2) → x ≠ o → wrote x r h = wrote o r h

/-- Mutations of one partition that the owner made and its backups applied. -/
theorem Spread.mirrored {p : PartitionId} {tbl : Table} {muts : List Mutation}
    (hp : ∀ m ∈ muts, routedPartition m.mapName m.key = p) {h h' : List Event}
    (ho : ∀ n r, wrote n r h = if n = o then leaves r muts else none)
    (hs : Spread o (tbl.backupsOf p) muts h h') : Mirrored tbl o h' := by
  intro r x hx hxo
  have hso := hs o r
  rw [if_neg (fun h0 => h0.2 rfl), ho o r, if_pos rfl, Option.none_or] at hso
  rw [hso, hs x r, ho x r, if_neg hxo, Option.or_none]
  by_cases hr : routedPartition r.1 r.2 = p
  · rw [if_pos ⟨hr ▸ hx, hxo⟩]
  · have hnone : leaves r muts = none := leaves_eq_none (fun m hm h0 => hr (h0 ▸ hp m hm))
    rw [hnone, ite_self]

theorem Mirrored.of_eq {tbl : Table} {h h' : List Event} (hm : Mirrored tbl o h)
    (heq : ∀ n r, wrote n r h' = wrote n r h) : Mirrored tbl o h' := by
  intro r x hx hxo
  rw [heq, heq, hm r x hx hxo]

/-- The owner's store change, its messages, and what follows. -/
theorem mirrored_obeys {α : Type} {p : PartitionId} (muts : List Mutation)
    (hp : ∀ m ∈ muts, routedPartition m.mapName m.key = p) {send : Prog Unit}
    (hsend : ∀ h, (serving ids b addr o).Obeys i
      (fun _ h' => Spread o ((newTable ids b).backupsOf p) muts h h') send h)
    {rest : Prog α} (hrest : rest.All Action.Silent) {h : List Event}
    (hh : ∀ n r, wrote n r h = if n = o then leaves r muts else none) :
    (serving ids b addr o).Obeys i (fun _ h' => Mirrored (newTable ids b) o h')
      (send >>= fun _ => rest) h := by
  refine Obeys.bind ((hsend h).mono (fun _ h₁ hh₁ => ?_))
  exact (silent_obeys hrest h₁).mono (fun _ h' hh' => (hh₁.mirrored hp hh).of_eq hh')

theorem leaves_ofMutation (r : Ref) (muts : List Mutation) :
    leaves r ((muts.map Replica.ofMutation).map Replica.mutation) = leaves r muts := by
  induction muts with
  | nil => rfl
  | cons m muts ih =>
    rw [List.map_cons, List.map_cons, leaves_cons, leaves_cons, ih]
    congr 1
    unfold Replica.ofMutation
    cases hd : m.del <;> simp [Replica.mutation, Mutation.ref, Mutation.data, hd]

theorem wrote_nil (n : Bytes) (r : Ref) : wrote n r [] = none := rfl

theorem applyPut_obeys (name key value : Bytes) (ttlMs : Int64) :
    (serving ids b addr o).Obeys i (fun _ h' => Mirrored (newTable ids b) o h')
      (Service.applyPut o name key value ttlMs false) [] := by
  have hnow := plumbing_silent.on o (a := .nowNano) trivial
  refine Obeys.bind (Obeys.step (hnow.pre i []) (fun now _ => ?_))
  refine ⟨⟨⟨trivial, fun _ _ => trivial⟩, fun _ n r => wrote_silent hnow i now [] n r⟩,
    fun created _ => ?_⟩
  refine mirrored_obeys [⟨name, key, value, false⟩] (by simp)
    (fun h => replicate_obeys _ (.put name key value ttlMs) h) ?_ (fun n r => ?_)
  · exact (plumbing_silent.emit _ _ _ _ _).bind (fun _ => plumbing_silent.writeThrough _ _ _ _ _)
  · rw [wrote_on, wrote_silent hnow, wrote_nil, Option.or_none]
    rfl

/-- The owner removes an entry and tells its backups. -/
theorem remove_obeys {α : Type} (name key : Bytes) {rest : Bool → Prog α}
    (hrest : ∀ existed, (rest existed).All Action.Silent) :
    (serving ids b addr o).Obeys i (fun _ h' => Mirrored (newTable ids b) o h')
      (do let existed : Bool ← Prog.on o (.remove name key)
          replicate o (routedPartition name key) (.remove name key)
          rest existed) [] := by
  refine Obeys.step ⟨⟨trivial, fun _ _ => trivial⟩, fun _ => wrote_nil⟩
    (fun existed _ => ?_)
  refine mirrored_obeys [⟨name, key, [], true⟩] (by simp)
    (fun h => replicate_obeys _ (.remove name key) h) (hrest existed) (fun n r => ?_)
  rw [wrote_on, wrote_nil, Option.or_none]
  rfl

theorem applyQueueExecute_obeys (qname : Bytes) (op : QueueOp) (arg : Bytes) :
    (serving ids b addr o).Obeys i (fun _ h' => Mirrored (newTable ids b) o h')
      (Service.applyQueueExecute o qname op arg) [] := by
  refine Obeys.step ⟨⟨trivial, fun _ _ => trivial⟩, fun _ => wrote_nil⟩ (fun r hr => ?_)
  have hh : ∀ n s, wrote n s [⟨i, .on o (.queueExecute qname op arg), r⟩] =
      if n = o then leaves s r.2 else none := by
    intro n s
    rw [wrote_on, wrote_nil, Option.or_none]
    rfl
  split
  · next err herr =>
    intro s x _ hxo
    rw [hh, hh, hr.2 err herr]
    simp
  · refine mirrored_obeys r.2 hr.1 (fun h => ?_) (Interleave.Prog.All.of_pure _) hh
    refine (replicateAll_obeys _ _ h).mono (fun _ h' hs n s => ?_)
    rw [hs n s, leaves_ofMutation]

theorem applyExecute_obeys (procs : Registry) (name key procName arg : Bytes) :
    (serving ids b addr o).Obeys i (fun _ h' => Mirrored (newTable ids b) o h')
      (Service.applyExecute procs o name key procName arg) [] := by
  unfold Service.applyExecute
  split
  · exact applyQueueExecute_obeys _ _ _
  · split
    · exact fun _ _ _ _ => rfl
    · next hseg =>
      split
      · exact fun _ _ _ _ => rfl
      · next proc _ =>
        refine Obeys.step ⟨⟨trivial, fun _ _ => hseg⟩, fun _ => wrote_nil⟩ (fun r _ => ?_)
        have hh : ∀ n s, wrote n s [⟨i, .on o (.execute name key proc arg), r⟩] =
            if n = o then leaves s (NodeAction.changes (.execute name key proc arg) r) else none := by
          intro n s
          rw [wrote_on, wrote_nil, Option.or_none]
        have hpart := routedPartition_of_ne hseg key
        unfold Service.finishExecute
        simp only [NodeAction.changes] at hh
        cases hact : r.action with
        | keep =>
          simp only [hact] at hh
          intro s x _ _
          rw [hh, hh]
          simp
        | set =>
          simp only [hact] at hh
          have hnow := plumbing_silent.on o (a := .nowNano) trivial
          refine Obeys.step (hnow.pre i _) (fun now _ => ?_)
          refine mirrored_obeys [⟨name, key, r.newVal, false⟩] (by simp [hpart])
            (fun h => replicate_obeys _ (.put name key r.newVal _) h) ?_ (fun n s => ?_)
          · exact (plumbing_silent.emit _ _ _ _ _).bind
              (fun _ => plumbing_silent.writeThrough _ _ _ _ _)
          · rw [wrote_silent hnow, hh]
        | delete =>
          simp only [hact] at hh
          refine mirrored_obeys [⟨name, key, [], true⟩] (by simp [hpart])
            (fun h => replicate_obeys _ (.remove name key) h) ?_ hh
          exact (plumbing_silent.emitRemoved _ _ _ _).bind
            (fun _ => plumbing_silent.deleteThrough _ _ _ _)

/-- **An operation leaves on the backups what it leaves on the owner.** -/
theorem Service.Write.obeys (procs : Registry) {w : Write} (hw : w.AsOwner o) :
    (serving ids b addr o).Obeys i (fun _ h' => Mirrored (newTable ids b) o h') (w.prog procs) [] := by
  have drop : ∀ {α : Type} {p : Prog α}, (serving ids b addr o).Obeys i
      (fun _ h' => Mirrored (newTable ids b) o h') p [] → (serving ids b addr o).Obeys i
      (fun _ h' => Mirrored (newTable ids b) o h') (p >>= fun _ => pure ()) [] :=
    fun hp => Obeys.bind (hp.mono (fun _ _ h => h))
  cases w with
  | idle => exact fun _ _ _ _ => rfl
  | put n name key value ttlMs isBackup =>
    obtain ⟨rfl, rfl⟩ := hw
    exact drop (applyPut_obeys name key value ttlMs)
  | remove n name key isBackup =>
    obtain ⟨rfl, rfl⟩ := hw
    exact drop (remove_obeys name key (fun existed =>
      (plumbing_silent.emitRemoved _ _ _ _).bind (fun _ => plumbing_silent.deleteThrough _ _ _ _)))
  | evict n name key =>
    obtain rfl := hw
    exact drop (remove_obeys name key (fun existed => trivial))
  | execute n name key procName arg =>
    obtain rfl := hw
    exact drop (applyExecute_obeys procs name key procName arg)

end obeys

/-- Where nothing stored has expired, the live data is the stored data. -/
theorem content_eq_stored {C : Cluster} {n : Bytes} {r : Ref}
    (h : ∀ v, (C.nodes n).store.find (routedPartition r.1 r.2) r = some v →
      v.expired (C.nodes n).clock = false) : (C.nodes n).content r = stored n r C := by
  unfold Node.content Store.get Store.lookup stored
  cases hv : (C.nodes n).store.find (routedPartition r.1 r.2) r with
  | none => rfl
  | some v => simp [h v hv]

/-- **Replicas agree after concurrent writes, when messages are applied in the order of the
owner's changes**: any number of operations run on the owner `o` of the entry `r`, in any
interleaving, messages arrive, and all operations have returned.  If one of them changed the entry, or
the two copies agreed before, the backup `x` has the owner's live data, unless a copy has expired. -/
theorem replicas_agree (hV : SharedView ids b addr C) (ho : o ∈ ids) (procs : Registry)
    (ops : ℕ → Write) (hops : ∀ j, (ops j).AsOwner o) {r : Ref} {x : Bytes}
    (hown : (newTable ids b).ownerOf (routedPartition r.1 r.2) = o)
    (hx : x ∈ (newTable ids b).backupsOf (routedPartition r.1 r.2))
    {sched : List (ℕ × Choice)}
    (hok : Meets exec (fun i e c w => c.lost = false ∧ InOrder o x r i e c w) sched
      (Conf.init C (fun j => (ops j).prog procs))) :
    let f := Conf.run exec sched (Conf.init C (fun j => (ops j).prog procs))
    (∀ j, (f.pool j).returned = true) →
    (∃ ev ∈ f.world.past, effect o r ev ≠ none) ∨ stored x r C = stored o r C →
    (∀ n, n = o ∨ n = x → ∀ v,
      (f.world.state.nodes n).store.find (routedPartition r.1 r.2) r = some v →
        v.expired (f.world.state.nodes n).clock = false) →
    (f.world.state.nodes x).content r = (f.world.state.nodes o).content r := by
  intro f hret hany hfresh
  have hstored : ∀ n, stored n r f.world.state = (wrote n r f.world.past).getD (stored n r C) :=
    fun n => stored_run r (fun j => (plumbing_tracked n).write (fun _ _ _ _ _ _ => trivial)
      (fun _ _ _ _ => trivial) procs (fun _ _ _ _ _ hname _ => hname) (fun _ _ _ _ _ => trivial)
      (ops j)) sched
  have hxo : x ≠ o := by
    have hnd : (holders ids b (routedPartition r.1 r.2)).Nodup := Ranking.top_nodup _ hV.nodup
    rw [holders_eq_cons (List.ne_nil_of_mem ho), hown] at hnd
    exact fun h0 => (List.nodup_cons.mp hnd).1 (h0 ▸ hx)
  have hinit : Serving C o x r ⟨C, []⟩ := ⟨rfl, rfl, fun j hj => by cases hj⟩
  obtain ⟨hserving, -, hobeys⟩ := (serving_sound hV ho hxo r).run
    (f := Conf.init C (fun j => (ops j).prog procs)) hinit (fun j => Write.obeys procs (hops j)) hok
  have hmirror : ∀ j, wrote x r (f.world.own j) = wrote o r (f.world.own j) := by
    intro j
    obtain ⟨a, ha⟩ := Prog.returned_iff.mp (hret j)
    exact (hobeys j).returned ha r x hx hxo
  have heq : wrote x r f.world.past = wrote o r f.world.past := CaughtUp.eq hserving.last hmirror
  rw [content_eq_stored (hfresh x (Or.inr rfl)), content_eq_stored (hfresh o (Or.inl rfl)),
    hstored, hstored, heq]
  rcases hany with ⟨ev, hev, hne⟩ | hsync
  · have hsome : wrote o r f.world.past ≠ none :=
      fun hnone => hne (List.findSome?_eq_none_iff.mp hnone ev hev)
    obtain ⟨v, hv⟩ := Option.ne_none_iff_exists'.mp hsome
    simp only [hv, Option.getD_some]
  · rw [hsync]

end served

/-! ### Two puts of one entry -/

/-- Two clients put the entry of `pair` at the same time. -/
def twoPuts : ℕ → Write
  | 0 => .put [97] [109] [114] [1] 0 false
  | 1 => .put [97] [109] [114] [2] 0 false
  | _ => .idle

/-- The first thread to its end, then the second. -/
def putsInTurn : List (ℕ × Choice) := List.replicate 20 (0, .still) ++ List.replicate 20 (1, .still)

/-- One put after the other. -/
theorem replicas_agree_pair :
    let f := Conf.run exec putsInTurn (Conf.init pair (fun j => (twoPuts j).prog (fun _ => none)))
    (f.world.state.nodes [98]).content ([109], [114]) =
      (f.world.state.nodes [97]).content ([109], [114]) := by
  refine replicas_agree pair_sharedView (o := [97]) (by decide) (fun _ => none) twoPuts
    ?_ (r := ([109], [114])) (x := [98]) (by decide +kernel) (by decide +kernel) ?_ ?_
    (Or.inr (by decide +kernel)) ?_
  · intro j
    match j with
    | 0 | 1 => exact ⟨rfl, rfl⟩
    | j + 2 => trivial
  · have hcheck : Conf.check exec
        (fun i e c w => !c.lost && decide (InOrder [97] [98] ([109], [114]) i e c w)) putsInTurn
        (Conf.init pair (fun j => (twoPuts j).prog (fun _ => none))) = true := by decide +kernel
    exact (Meets.of_check hcheck).mono (fun _ _ c _ h => by simpa using h)
  · intro j
    match j with
    | 0 | 1 => decide +kernel
    | j + 2 =>
      rw [Conf.run_pool_of_not_mem (by simp [putsInTurn])]
      rfl
  · have hall : ∀ n ∈ [[97], [98]], ((Conf.run exec putsInTurn
        (Conf.init pair (fun j => (twoPuts j).prog (fun _ => none)))).world.state.nodes
          n).store.find (forKey [114]) ([109], [114]) = some ⟨[2], 0⟩ := by decide +kernel
    intro n hn v hv
    have hn' : n ∈ [[97], [98]] := by
      rcases hn with rfl | rfl <;> decide
    rw [← Option.some.inj ((hall n hn').symm.trans hv)]
    rfl

/-- **Messages that overtake each other leave a backup behind**: both puts change the owner's copy,
the second sends its message first.  All messages arrive and both operations return; the owner has
the second value, the backup the first. -/
theorem reordered_messages_diverge :
    let f := Conf.run exec (List.replicate 2 (0, .still) ++ List.replicate 20 (1, .still) ++
      List.replicate 20 (0, .still)) (Conf.init pair (fun j => (twoPuts j).prog (fun _ => none)))
    SharedView [[97], [98]] 1 id pair ∧ Replicated [[97], [98]] 1 pair ∧
    (f.pool 0).returned = true ∧ (f.pool 1).returned = true ∧
    (f.world.state.nodes [97]).content ([109], [114]) = some [2] ∧
    (f.world.state.nodes [98]).content ([109], [114]) = some [1] := by
  refine ⟨pair_sharedView, pair_replicated, ?_⟩
  decide +kernel

end Medusa
