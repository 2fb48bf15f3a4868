import Medusa.Agreement

/-! # The backing store after concurrent writes

An owner changes its store under a lock, and calls the `MapStore` of the map after releasing it.
Concurrent operations on one entry change the owner's copy in one order and may make their calls in
another.

* `Write.through_obeys`: an operation alone leaves in the backing store what it left on the owner.
* `backing_follows`: **the backing store has the owner's data of an entry when the calls about it are
  made in the order of the owner's changes.**
* `reordered_calls_diverge`: two puts whose calls overtake each other leave the overwritten value in
  the backing store. -/

namespace Medusa

open Medusa.Partition Store Interleave Service Contract

/-! ### What a run left in the backing store -/

/-- What an event left in the backing store under `r`, if it changed it. -/
def called (r : Ref) : Event → Option (Option Bytes)
  | ⟨_, .storeThrough name key value, done⟩ => if done ∧ (name, key) = r then some (some value) else none
  | ⟨_, .deleteThrough name key, done⟩ => if done ∧ (name, key) = r then some none else none
  | _ => none

/-- What a history left in the backing store under `r`, if it changed it. -/
abbrev saved (r : Ref) (h : List Event) : Option (Option Bytes) := lastEffect (called r) h

theorem backing_exec (r : Ref) (i : ℕ) (e : Action) (c : Choice) (C : Cluster) :
    (exec e c C).2.backing r = (called r ⟨i, e, (exec e c C).1⟩).getD (C.backing r) := by
  cases e with
  | storeThrough name key value =>
    by_cases hl : c.lost = true
    · simp [exec, hl, called]
    · by_cases hr : r = (name, key)
      · simp [exec, hl, called, hr]
      · simp [exec, hl, called, hr, Ne.symm hr]
  | deleteThrough name key =>
    by_cases hl : c.lost = true
    · simp [exec, hl, called]
    · by_cases hr : r = (name, key)
      · simp [exec, hl, called, hr]
      · simp [exec, hl, called, hr, Ne.symm hr]
  | _ => rfl

/-- **What the backing store has under an entry is the last call of the run about it.** -/
theorem backing_run {α : Type} (r : Ref) (C : Cluster) (pool : ℕ → Prog α)
    (sched : List (ℕ × Choice)) :
    (Conf.run exec sched (Conf.init C pool)).world.state.backing r =
      (saved r (Conf.run exec sched (Conf.init C pool)).world.past).getD (C.backing r) := by
  refine Meets.keeps (P := fun _ _ _ _ => True)
    (I := fun w : World => w.state.backing r = (saved r w.past).getD (C.backing r)) ?_
    (Meets.of_forall (fun _ _ _ _ => trivial) sched (Conf.init C pool)) rfl
  intro i e c w _ hw
  rw [World.next_state, World.next_past, backing_exec r i, hw, saved, saved, lastEffect_cons]
  cases called r ⟨i, e, (exec e c w.state).1⟩ <;> rfl

/-! ### The contract -/

/-- The operation is asked of the owner `n`, and is a put, a removal or the execution of a
processor. -/
def Service.Write.Through (n : Bytes) : Write → Prop
  | .evict _ _ _ => False
  | w => w.AsOwner n

/-- What the owner's threads are told: the source of the map, and that its calls succeed. -/
def Sourced (n : Bytes) (name : Bytes) : (e : Action) → e.Resp → Prop
  | .on m (.source nm), src => m = n → nm = name → src = .store
  | .on _ (.queueExecute _ _ _), r => ∀ mu ∈ r.2, isReservedMap mu.mapName = true
  | .storeThrough _ _ _, done => done = true
  | .deleteThrough _ _, done => done = true
  | _, _ => True

/-- Threads that change the owner's copy of `r` before the backing store's. -/
def through (n : Bytes) (r : Ref) : Contract Action.Resp where
  pre _ h e := e.ChangesOn n → saved r h = none
  post _ _ e resp := Sourced n r.1 e resp

/-- The action calls a `MapStore` to change it. -/
def Action.callsThrough : Action → Bool
  | .storeThrough _ _ _ => true
  | .deleteThrough _ _ => true
  | _ => false

/-- The condition on the steps of a run: calls of the backing store succeed, and a call about `r` comes
from the operation that changed the owner's copy last, or that operation's call is still to come. -/
def CalledInTurn (n : Bytes) (r : Ref) (i : ℕ) (e : Action) (c : Choice) (w : World) : Prop :=
  (e.callsThrough = true → c.lost = false) ∧ InTurn exec (effect n r) (called r) i e c w

instance (n : Bytes) (r : Ref) (i : ℕ) (e : Action) (c : Choice) (w : World) :
    Decidable (CalledInTurn n r i e c w) := inferInstanceAs (Decidable (_ ∧ _))

theorem through_sound {n : Bytes} {r : Ref} :
    (through n r).Sound exec
      (fun w => (w.state.nodes n).loaders r.1 = .store ∧ CaughtUp (effect n r) (called r) w)
      (CalledInTurn n r) := by
  rintro i e c w ⟨hsrc, hlast⟩ ⟨hdone, horder⟩ hpre
  refine ⟨⟨?_, hlast.next horder fun hne => ⟨?_, hpre (effect_ne_none hne)⟩⟩, ?_⟩
  · rw [World.next_state, exec_loaders, hsrc]
  · cases e with
    | storeThrough | deleteThrough => exact (effect_ne_none hne).elim
    | _ => rfl
  · cases e with
    | on m a =>
      cases a with
      | source nm =>
        rintro rfl rfl
        exact hsrc
      | queueExecute qname op arg => exact fun mu hmu => queueTxn_reserved hmu
      | _ => trivial
    | storeThrough name key value =>
      change (exec (.storeThrough name key value) c w.state).1 = true
      simp [exec, hdone rfl]
    | deleteThrough name key =>
      change (exec (.deleteThrough name key) c w.state).1 = true
      simp [exec, hdone rfl]
    | _ => trivial

/-! ### What an operation leaves -/

section obeys
variable {i : ℕ} {n : Bytes} {r : Ref} {α : Type} {d : Option (Option Bytes)} {h : List Event}

/-- The action makes no call of the backing store, and leaves `d` on the owner if it changes it. -/
def Action.Echoes (n : Bytes) (r : Ref) (d : Option (Option Bytes)) (e : Action) : Prop :=
  ∀ (i : ℕ) (resp : e.Resp), called r ⟨i, e, resp⟩ = none ∧
    (effect n r ⟨i, e, resp⟩ = none ∨ effect n r ⟨i, e, resp⟩ = d)

theorem wiring_echoes (n : Bytes) (r : Ref) (d : Option (Option Bytes)) :
    Wiring (Action.Echoes n r d) where
  on m {a} ha i resp := by
    refine ⟨rfl, Or.inl ?_⟩
    by_contra hne
    have hc := effect_ne_none hne
    cases a <;> first | exact ha.elim | exact hc.elim
  connect _ _ _ := ⟨rfl, Or.inl rfl⟩
  reply _ _ _ := ⟨rfl, Or.inl rfl⟩

/-- Replicating a change echoes it, should a message come back to the owner. -/
theorem echoes_replica (n : Bytes) (r : Ref) (msg : Replica) :
    msg.Applies (Action.Echoes n r (leaves r [msg.mutation])) := by
  cases msg with
  | put name key value ttlMs =>
    intro x expireAt i resp
    refine ⟨rfl, ?_⟩
    simp only [effect, changes]
    split
    · exact Or.inr rfl
    · exact Or.inl rfl
  | remove name key =>
    intro x i resp
    refine ⟨rfl, ?_⟩
    simp only [effect, changes]
    split
    · exact Or.inr rfl
    · exact Or.inl rfl

/-- The thread left `d` on the owner, and has made no call about `r` yet. -/
def Changed (n : Bytes) (r : Ref) (d : Option (Option Bytes)) (h : List Event) : Prop :=
  wrote n r h = d ∧ saved r h = none

theorem Changed.cons (hh : Changed n r d h) {e : Action} (he : e.Echoes n r d)
    (resp : e.Resp) : Changed n r d (⟨i, e, resp⟩ :: h) := by
  obtain ⟨hcall, heff⟩ := he i resp
  refine ⟨?_, ?_⟩
  · rw [wrote, lastEffect_cons, ← wrote, hh.1]
    rcases heff with heff | heff
    · rw [heff, Option.none_or]
    · rw [heff, Option.or_self]
  · rw [saved, lastEffect_cons, hcall, Option.none_or]
    exact hh.2

theorem echoes_obeys {p : Prog α} (hp : p.All (Action.Echoes n r d)) (hh : Changed n r d h) :
    (through n r).Obeys i (fun _ h' => Changed n r d h') p h := by
  induction p generalizing h with
  | done a => exact hh
  | act e k ih => exact ⟨fun _ => hh.2, fun resp _ => ih resp (hp.2 resp) (hh.cons hp.1 resp)⟩

theorem replicate_echoes (p : PartitionId) (msg : Replica) (hh : Changed n r (leaves r [msg.mutation]) h) :
    (through n r).Obeys i (fun _ h' => Changed n r (leaves r [msg.mutation]) h')
      (replicate n p msg) h :=
  echoes_obeys ((wiring_echoes n r _).replicate n p msg (echoes_replica n r msg)) hh

/-- A call that leaves in the backing store what the thread left on the owner. -/
theorem Changed.call (hh : Changed n r d h) {e : Action} {resp : e.Resp}
    (hcall : called r ⟨i, e, resp⟩ = d) (heff : effect n r ⟨i, e, resp⟩ = none) :
    saved r (⟨i, e, resp⟩ :: h) = wrote n r (⟨i, e, resp⟩ :: h) := by
  have hwrote : wrote n r (⟨i, e, resp⟩ :: h) = d := by
    rw [wrote, lastEffect_cons, heff, Option.none_or]
    exact hh.1
  have hsaved : saved r (⟨i, e, resp⟩ :: h) = d.or (saved r h) := by
    rw [← hcall]
    exact lastEffect_cons _ _
  rw [hwrote, hsaved, hh.2, Option.or_none]

/-- An operation that did not change `r` and calls no backing store. -/
theorem Changed.silent {m : Mutation} (hh : Changed n r (leaves r [m]) h)
    (hne : m.ref ≠ r) : saved r h = wrote n r h := by
  rw [hh.1, hh.2, leaves_single, if_neg hne]

/-- The call that ends a change, if its map has a `MapStore`. -/
theorem callThrough_obeys {m : Mutation} {call : Prog Bool} (out : α)
    (hcall : ∀ {h}, Changed n r (leaves r [m]) h →
      (through n r).Obeys i (fun _ h' => saved r h' = wrote n r h') call h)
    (hh : Changed n r (leaves r [m]) h) :
    (through n r).Obeys i (fun _ h' => saved r h' = wrote n r h')
      (callThrough n m.ref.1 call out) h := by
  refine Obeys.step (fun h0 => h0.elim) (fun src hpost => ?_)
  have hh' := hh.cons (i := i) ((wiring_echoes n r _).on n (a := .source m.ref.1) trivial) src
  split
  · exact Obeys.bind ((hcall hh').mono fun _ _ hs => hs)
  · next hsrc => exact hh'.silent fun hr => hsrc (hpost rfl (congrArg Prod.fst hr))

/-- Replication, the event and the call after a write of the owner's copy. -/
theorem written_obeys (p : PartitionId) (name key value : Bytes) (ttlMs : Int64) (type : EventType)
    (out : α) (hh : Changed n r (leaves r [⟨name, key, value, false⟩]) h) :
    (through n r).Obeys i (fun _ h' => saved r h' = wrote n r h')
      (do replicate n p (.put name key value ttlMs)
          emit n type name key value
          writeThrough n name key value out : Prog (Except ServiceError α)) h := by
  refine Obeys.bind ((replicate_echoes p (.put name key value ttlMs) hh).mono
    (fun _ h₁ hh₁ => ?_))
  refine Obeys.bind ((echoes_obeys ((wiring_echoes n r _).emit _ _ _ _ _) hh₁).mono
    (fun _ h₂ hh₂ => ?_))
  refine callThrough_obeys (m := ⟨name, key, value, false⟩) out (fun hh => ?_) hh₂
  refine ⟨fun h0 => h0.elim, fun done hdone => hh.call ?_ rfl⟩
  obtain rfl : done = true := hdone
  simp [called, leaves_single, Mutation.ref, Mutation.data]

/-- Replication, the event and the call after a removal of the owner's copy. -/
theorem removed_obeys (p : PartitionId) (name key : Bytes) (existed : Bool) (out : α)
    (hh : Changed n r (leaves r [⟨name, key, [], true⟩]) h) :
    (through n r).Obeys i (fun _ h' => saved r h' = wrote n r h')
      (do replicate n p (.remove name key)
          emitRemoved n existed name key
          deleteThrough n name key out : Prog (Except ServiceError α)) h := by
  refine Obeys.bind ((replicate_echoes p (.remove name key) hh).mono (fun _ h₁ hh₁ => ?_))
  refine Obeys.bind ((echoes_obeys ((wiring_echoes n r _).emitRemoved _ _ _ _) hh₁).mono
    (fun _ h₂ hh₂ => ?_))
  refine callThrough_obeys (m := ⟨name, key, [], true⟩) out (fun hh => ?_) hh₂
  refine ⟨fun h0 => h0.elim, fun done hdone => hh.call ?_ rfl⟩
  obtain rfl : done = true := hdone
  simp [called, leaves_single, Mutation.ref, Mutation.data]

/-- The first change of a thread. -/
theorem changed_single (a : NodeAction) (resp : a.Resp) (hh : Changed n r none h) :
    Changed n r (leaves r (a.changes resp)) (⟨i, .on n a, resp⟩ :: h) := by
  refine ⟨?_, hh.2⟩
  rw [wrote_on, if_pos rfl, hh.1, Option.or_none]

theorem changed_nil : Changed n r none [] := ⟨rfl, rfl⟩

theorem applyPut_through (name key value : Bytes) (ttlMs : Int64) :
    (through n r).Obeys i (fun _ h' => saved r h' = wrote n r h')
      (Service.applyPut n name key value ttlMs false) [] := by
  refine Obeys.bind (Obeys.step (fun h0 => h0.elim) (fun now _ => ?_))
  have hnow := (changed_nil (n := n) (r := r)).cons (i := i)
    ((wiring_echoes n r _).on n (a := .nowNano) trivial) now
  refine ⟨fun _ => hnow.2, fun created _ => ?_⟩
  exact written_obeys _ name key value ttlMs _ created
    (changed_single (.put name key value (expireFromTTL now ttlMs)) created hnow)

theorem applyRemove_through (name key : Bytes) :
    (through n r).Obeys i (fun _ h' => saved r h' = wrote n r h')
      (Service.applyRemove n name key false) [] := by
  refine Obeys.step (fun _ => rfl) (fun existed _ => ?_)
  exact removed_obeys _ name key existed existed
    (changed_single (.remove name key) existed changed_nil)

/-- A queue operation leaves entries of ordinary maps alone. -/
theorem applyQueueExecute_through (hr : isReservedMap r.1 = false) (qname : Bytes) (op : QueueOp)
    (arg : Bytes) :
    (through n r).Obeys i (fun _ h' => saved r h' = wrote n r h')
      (Service.applyQueueExecute n qname op arg) [] := by
  refine Obeys.step (fun _ => rfl) (fun resp hresp => ?_)
  have hother : ∀ mu ∈ resp.2, mu.ref ≠ r := by
    rintro mu hmu rfl
    exact absurd (hresp mu hmu) (by simpa [Mutation.ref] using hr)
  have hh := changed_single (n := n) (r := r) (i := i) (.queueExecute qname op arg) resp changed_nil
  rw [show NodeAction.changes (.queueExecute qname op arg) resp = resp.2 from rfl,
    leaves_eq_none hother] at hh
  split
  · exact hh.2.trans hh.1.symm
  · have hsilent : ∀ msg ∈ resp.2.map Replica.ofMutation,
        msg.Applies (Action.Echoes n r none) := by
      intro msg hmsg
      obtain ⟨mu, hmu, rfl⟩ := List.mem_map.mp hmsg
      have hnone : leaves r [(Replica.ofMutation mu).mutation] = none :=
        (leaves_ofMutation r [mu]).trans (if_neg (hother mu hmu))
      exact hnone ▸ echoes_replica n r (Replica.ofMutation mu)
    refine Obeys.bind ((echoes_obeys ((wiring_echoes n r none).replicateAll n _ hsilent)
      hh).mono (fun _ h' hh' => ?_))
    exact hh'.2.trans hh'.1.symm

theorem applyExecute_through (hr : isReservedMap r.1 = false) (procs : Registry)
    (name key procName arg : Bytes) :
    (through n r).Obeys i (fun _ h' => saved r h' = wrote n r h')
      (Service.applyExecute procs n name key procName arg) [] := by
  unfold Service.applyExecute
  split
  · exact applyQueueExecute_through hr _ _ _
  · split
    · exact rfl
    · split
      · exact rfl
      · next proc _ =>
        refine Obeys.step (fun _ => rfl) (fun resp _ => ?_)
        have hh := changed_single (n := n) (r := r) (i := i) (.execute name key proc arg) resp
          changed_nil
        simp only [NodeAction.changes] at hh
        unfold Service.finishExecute
        cases hact : resp.action with
        | keep =>
          simp only [hact] at hh
          exact hh.2.trans hh.1.symm
        | set =>
          simp only [hact] at hh
          refine Obeys.step (fun h0 => h0.elim) (fun now _ => ?_)
          exact written_obeys _ name key resp.newVal _ _ resp.out
            (hh.cons ((wiring_echoes n r _).on n (a := .nowNano) trivial) now)
        | delete =>
          simp only [hact] at hh
          exact removed_obeys _ name key _ resp.out hh

/-- **An operation leaves in the backing store what it leaves on the owner.** -/
theorem Service.Write.through_obeys (hr : isReservedMap r.1 = false) (procs : Registry) {w : Write}
    (hw : w.Through n) :
    (through n r).Obeys i (fun _ h' => saved r h' = wrote n r h') (w.prog procs) [] := by
  have drop : ∀ {α : Type} {p : Prog α}, (through n r).Obeys i
      (fun _ h' => saved r h' = wrote n r h') p [] → (through n r).Obeys i
      (fun _ h' => saved r h' = wrote n r h') (p >>= fun _ => pure ()) [] :=
    fun hp => Obeys.bind (hp.mono (fun _ _ h => h))
  cases w with
  | idle => exact rfl
  | put m name key value ttlMs isBackup =>
    obtain ⟨rfl, rfl⟩ := hw
    exact drop (applyPut_through name key value ttlMs)
  | remove m name key isBackup =>
    obtain ⟨rfl, rfl⟩ := hw
    exact drop (applyRemove_through name key)
  | evict m name key => exact hw.elim
  | execute m name key procName arg =>
    obtain rfl := hw
    exact drop (applyExecute_through hr procs name key procName arg)

end obeys

/-! ### Runs -/

/-- **The backing store follows the owner when the calls about an entry are made in the order of the
owner's changes**: any number of puts, removals and processors run on the owner `n`, in any
interleaving, and all have returned.  For every entry `r` of a map with a `MapStore` that one of them
changed, or on which both agreed before, the backing store has the data stored on the owner. -/
theorem backing_follows {C : Cluster} {n : Bytes} {r : Ref} (hr : isReservedMap r.1 = false)
    (hsrc : (C.nodes n).loaders r.1 = .store) (procs : Registry) (ops : ℕ → Write)
    (hops : ∀ j, (ops j).Through n) {sched : List (ℕ × Choice)}
    (hok : Meets exec (CalledInTurn n r) sched (Conf.init C (fun j => (ops j).prog procs))) :
    let f := Conf.run exec sched (Conf.init C (fun j => (ops j).prog procs))
    (∀ j, (f.pool j).returned = true) →
    (∃ ev ∈ f.world.past, effect n r ev ≠ none) ∨ C.backing r = stored n r C →
    f.world.state.backing r = stored n r f.world.state := by
  intro f hret htouched
  have hstored : stored n r f.world.state = (wrote n r f.world.past).getD (stored n r C) :=
    stored_run r (fun j => (plumbing_tracked n).write (fun _ _ _ _ _ _ => trivial)
      (fun _ _ _ _ => trivial) procs (fun _ _ _ _ _ hname _ => hname) (fun _ _ _ _ _ => trivial)
      (ops j)) sched
  obtain ⟨⟨-, hlast⟩, -, hobeys⟩ := through_sound.run
    (f := Conf.init C (fun j => (ops j).prog procs)) ⟨hsrc, fun j hj => by cases hj⟩
    (fun j => Write.through_obeys hr procs (hops j)) hok
  have heq : saved r f.world.past = wrote n r f.world.past := by
    refine hlast.eq fun j => ?_
    obtain ⟨a, ha⟩ := Prog.returned_iff.mp (hret j)
    exact (hobeys j).returned ha
  rw [backing_run r C, heq, hstored]
  rcases htouched with ⟨ev, hev, hne⟩ | hagree
  · have hsome : wrote n r f.world.past ≠ none := by
      intro h0
      rw [wrote, lastEffect, List.findSome?_eq_none_iff] at h0
      exact hne (h0 ev hev)
    obtain ⟨d, hd⟩ := Option.ne_none_iff_exists'.mp hsome
    rw [hd]
    rfl
  · rw [hagree]

/-- The nodes of `pair`, with a `MapStore` that holds the entry too. -/
def backedPair : Cluster where
  nodes n := { pair.nodes n with loaders := fun _ => .store }
  listen := pair.listen
  backing r := if r = ([109], [114]) then some [118] else none

/-- One put after the other. -/
theorem backing_follows_pair :
    let f := Conf.run exec putsInTurn (Conf.init backedPair (fun j => (twoPuts j).prog (fun _ => none)))
    f.world.state.backing ([109], [114]) = stored [97] ([109], [114]) f.world.state := by
  refine backing_follows (n := [97]) (r := ([109], [114])) (by decide) rfl (fun _ => none) twoPuts
    ?_ ?_ ?_ (Or.inr (by decide +kernel))
  · intro j
    match j with
    | 0 | 1 => exact ⟨rfl, rfl⟩
    | j + 2 => trivial
  · have hcheck : Conf.check exec
        (fun i e c w => decide (CalledInTurn [97] ([109], [114]) i e c w)) putsInTurn
        (Conf.init backedPair (fun j => (twoPuts j).prog (fun _ => none))) = true := by
      decide +kernel
    exact (Meets.of_check hcheck).mono (fun _ _ _ _ h => of_decide_eq_true h)
  · intro j
    match j with
    | 0 | 1 => decide +kernel
    | j + 2 =>
      rw [Conf.run_pool_of_not_mem (by simp [putsInTurn])]
      rfl

/-- **Calls that overtake each other leave the backing store behind**: both puts change the owner's
copy, the second makes its call first.  All calls succeed and both operations return; the owner has
the second value, the backing store the first. -/
theorem reordered_calls_diverge :
    let f := Conf.run exec (List.replicate 2 (0, .still) ++ List.replicate 20 (1, .still) ++
      List.replicate 20 (0, .still)) (Conf.init backedPair (fun j => (twoPuts j).prog (fun _ => none)))
    (backedPair.nodes [97]).mem.table.ownerOf (forKey [114]) = [97] ∧
    (backedPair.nodes [97]).loaders [109] = .store ∧
    backedPair.backing ([109], [114]) = stored [97] ([109], [114]) backedPair ∧
    (f.pool 0).returned = true ∧ (f.pool 1).returned = true ∧
    stored [97] ([109], [114]) f.world.state = some [2] ∧
    f.world.state.backing ([109], [114]) = some [1] := by
  decide +kernel

end Medusa
