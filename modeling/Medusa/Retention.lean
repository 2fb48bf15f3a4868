import Medusa.Node

/-! # Who keeps an entry

The maintenance of a cluster moves and prunes copies of entries.  This module watches one entry
(`Watch`): the cluster's members `ids`, the entry's `ref` and `data`, and three kinds of nodes:

* `kept`: nodes that hold the entry from the start and never lose it;
* `stay`: holders that keep the entry from the moment they have it;
* `moves`: nodes that hold the entry from the start, are no holders any more, and give it up only
  after handing it to all of `stay`.

`Watch.contract` is what the maintenance programs promise about their actions, `Watch.Inv` the
invariant they maintain, and `Watch.Ok` the condition on the steps of a run: no copy of the entry
comes within a millisecond of its expiry, and a holder outside `kept` reads the partition for its
backups only while it stores the entry.  `Watch.sound` connects the three.

Two facts about rendezvous hashing carry the argument.  A holder is a holder in the view of any
part of the members (`mem_holders_of_subset`), so it never drops its copy.  And a node that owns
the partition in any such view outranks its backups there, so a node that prunes a holder is a
holder itself (`ownerOf_mem_holders`). -/

namespace Medusa

open Medusa.Partition Store Interleave Service

/-- An entry to watch, and the nodes that matter to it. -/
structure Watch where
  ids : List Bytes
  backups : ℕ
  addr : Bytes → Bytes
  ref : Ref
  data : Bytes
  kept : Bytes → Prop
  stay : Bytes → Prop
  moves : Bytes → Prop
  /-- Views are complete, messages arrive, contexts live, and no node stops. -/
  steady : Prop
  nodup : ids.Nodup
  named : [] ∉ ids
  addr_inj : ∀ a ∈ ids, ∀ b ∈ ids, addr a = addr b → a = b
  kept_stay : ∀ x, kept x → stay x
  stay_holder : ∀ x, stay x → x ∈ holders ids backups (routedPartition ref.1 ref.2)
  moves_steady : ∀ x, moves x → steady
  moves_mem : ∀ x, moves x → x ∈ ids
  moves_not_holder : ∀ x, moves x → x ∉ holders ids backups (routedPartition ref.1 ref.2)

namespace Watch

variable (W : Watch)

/-- The partition of the entry. -/
def part : PartitionId := routedPartition W.ref.1 W.ref.2

/-- Node `n` stores a copy of the entry. -/
def Holds (n : Bytes) (C : Cluster) : Prop := ∃ v, (C.nodes n).store.find W.part W.ref = some v

/-- In the history, the entry was put on node `x`. -/
def PutIn (h : List Event) (x : Bytes) : Prop :=
  ∃ (i : ℕ) (expireAt : Int64) (created : Bool),
    (⟨i, .on x (.put W.ref.1 W.ref.2 W.data expireAt), created⟩ : Event) ∈ h

/-- In the history, `snap` was read from the entry's partition on node `n`. -/
def SnapIn (h : List Event) (n : Bytes) (snap : List Entry) : Prop :=
  ∃ i, (⟨i, .on n (.snapshot W.part), snap⟩ : Event) ∈ h

/-- A member under its own address. -/
def Known (mem : Member) : Prop := mem.id ∈ W.ids ∧ mem.addr = W.addr mem.id

/-- A table of the members that node `n` may see. -/
structure Sees (n : Bytes) (tbl : Table) (keys : List Bytes) : Prop where
  eq : tbl = newTable keys W.backups
  nodup : keys.Nodup
  subset : keys ⊆ W.ids
  self_mem : n ∈ keys
  full : W.steady → W.ids ⊆ keys

/-! ### The contract -/

/-- What a thread promises about an action. -/
def pre (h : List Event) : Action → Prop
  | .on n (.merge ms) => n ∈ W.ids ∧ ∀ mem ∈ ms, W.Known mem
  | .on n (.rejoin mem) => n ∈ W.ids ∧ W.Known mem
  | .on n (.removeMember _) => n ∈ W.ids ∧ ¬ W.steady
  | .on n (.detect _ _ _) => n ∈ W.ids ∧ ¬ W.steady
  | .on n (.put name key value _) => n ∈ W.ids ∧ ((name, key) = W.ref → value = W.data)
  | .on n (.drop p entries) => n ∈ W.ids ∧ (p = W.part → ¬ W.stay n ∧
      (W.moves n → W.ref ∈ entries.map Entry.ref → ∀ x, W.stay x → W.PutIn h x))
  | .on n (.prune p keep) => n ∈ W.ids ∧ (p = W.part → W.stay n ∨ W.moves n → W.ref ∈ keep)
  | .on _ (.cacheLoaded _ _ _ _) => False
  | .on _ (.remove _ _) => False
  | .on _ (.execute _ _ _ _) => False
  | .on _ (.queueExecute _ _ _) => False
  | .on _ (.clearMap _) => False
  | .on n _ => n ∈ W.ids
  | .start n => n ∈ W.ids ∧ ¬ W.stay n ∧ ¬ W.steady
  | .crash n => n ∈ W.ids ∧ ¬ W.stay n ∧ ¬ W.steady
  | .close n => n ∈ W.ids ∧ ¬ W.steady
  | _ => True

/-- What a thread is told about a response; `sync` says that it runs anti-entropy. -/
def post (sync : Prop) (h : List Event) : (e : Action) → e.Resp → Prop
  | .connect a, r =>
    (∀ x, r = some x → x ∈ W.ids ∧ a = W.addr x) ∧
    (W.steady → ∀ x ∈ W.ids, a = W.addr x → r = some x)
  | .reply _, r => W.steady → r = true
  | .ctxErr, r => W.steady → r = false
  | .on n .nowNano, now => W.steady → ∀ snap, W.SnapIn h n snap →
      ∀ d ∈ snap, d.ref = W.ref → lapses d.expireAt now = false
  | .on n .table, tbl => ∃ keys, W.Sees n tbl keys
  | .on _ (.addrOf id), r =>
    (∀ a, r = some a → id ∈ W.ids ∧ a = W.addr id) ∧ (W.steady → id ∈ W.ids → r ≠ none)
  | .on _ .members, ms => ∀ mem ∈ ms, W.Known mem
  | .on _ .snapshotProto, ms => ∀ mem ∈ ms, W.Known mem
  | .on n (.snapshot p), snap =>
    (∀ d ∈ snap, d.ref = W.ref → p = W.part ∧ d.value = W.data) ∧
    (sync → p = W.part → n ∈ holders W.ids W.backups W.part → W.ref ∈ snap.map Entry.ref)
  | .on n (.lookup p name key), r => (name, key) = W.ref → p = W.part →
      (∀ v, r = some v → v.data = W.data) ∧
      (sync → n ∈ holders W.ids W.backups W.part →
        ∃ v, r = some v ∧ ∀ now, ReadClock h n now → lapses v.expireAt now = false)
  | _, _ => True

/-- The contract of the maintenance programs; the threads of `sync` run anti-entropy. -/
def contract (sync : ℕ → Prop) : Contract Action.Resp where
  pre _ h e := W.pre h e
  post i h e r := W.post (sync i) h e r

/-! ### The invariant -/

/-- The view of node `n`. -/
structure View (n : Bytes) (m : Membership) : Prop where
  self : m.self = ⟨n, W.addr n⟩
  count : m.backups = W.backups
  known : m.Over W.ids W.addr
  full : W.steady → W.ids ⊆ m.members.keys

/-- What every world of a run satisfies. -/
structure Inv (w : World) : Prop where
  view : ∀ n ∈ W.ids, W.View n (w.state.nodes n).mem
  net : ∀ a x, w.state.listen a = some x → x ∈ W.ids ∧ a = W.addr x
  up : W.steady → ∀ x ∈ W.ids, w.state.listen (W.addr x) = some x
  data : ∀ n ∈ W.ids, ∀ p v, (w.state.nodes n).store.find p W.ref = some v →
    p = W.part ∧ v.data = W.data
  held : ∀ x, W.stay x → W.kept x ∨ W.PutIn w.past x → W.Holds x w.state
  clock : ∀ n, ClockOk n w
  moved : ∀ g, W.moves g → W.Holds g w.state ∨ ∀ x, W.stay x → W.PutIn w.past x
  seen : ∀ g, W.moves g ∨ W.kept g → ∀ snap, W.SnapIn w.past g snap →
    W.ref ∈ snap.map Entry.ref ∨ ∀ x, W.stay x → W.PutIn w.past x

/-- The action reads the entry's partition on node `n` for its backups. -/
def ReadsEntry (n : Bytes) (e : Action) : Prop :=
  e = .on n (.snapshot W.part) ∨ e = .on n (.lookup W.part W.ref.1 W.ref.2)

/-- The condition on the steps of a run. -/
structure Ok (sync : ℕ → Prop) (i : ℕ) (e : Action) (c : Choice) (w : World) : Prop where
  /-- No stored copy of the entry is within a millisecond of its expiry. -/
  fresh : ∀ n ∈ W.ids, ∀ v, (w.state.nodes n).store.find W.part W.ref = some v →
    v.Lasting ((exec e c w.state).2.nodes n).clock
  /-- A holder outside `kept` reads the partition for its backups only while it has the entry. -/
  reads : sync i → ∀ n ∈ holders W.ids W.backups W.part, ¬ W.kept n → W.ReadsEntry n e →
    W.Holds n w.state
  /-- In steady runs messages arrive and contexts live, -/
  arrives : W.steady → c.lost = false
  /-- and no copy lapses between its snapshot and its push. -/
  prompt : W.steady → ∀ n, e = .on n .nowNano → ∀ snap, W.SnapIn (w.own i) n snap →
    ∀ d ∈ snap, d.ref = W.ref → d.val.Lasting ((exec e c w.state).2.nodes n).clock

/-! ### What one action does to the copies -/

/-- The copies of the entry in a store. -/
def copies (s : Store) : PartitionId → Option Value := fun p => s.find p W.ref

variable {W} {n x : Bytes} {v : Value} {p : PartitionId}

section copies
variable {s : Store}

theorem copies_set_self (s : Store) (v : Value) :
    W.copies (s.set W.part W.ref v) = Function.update (W.copies s) W.part (some v) := by
  funext p
  by_cases hp : p = W.part
  · subst hp
    rw [Function.update_self, copies, find_set, if_pos ⟨rfl, rfl⟩]
  · rw [Function.update_of_ne hp, copies, find_set, if_neg (fun h => hp h.1)]
    rfl

theorem copies_set_ne (s : Store) (p : PartitionId) {r : Ref} (hr : W.ref ≠ r) (v : Value) :
    W.copies (s.set p r v) = W.copies s := by
  funext q
  rw [copies, find_set, if_neg (fun h => hr h.2)]
  rfl

theorem copies_drop_le (p : PartitionId) (entries : List Entry) (q : PartitionId)
    (hv : W.copies (s.dropMigrated p entries).2 q = some v) : W.copies s q = some v := by
  rw [copies, find_dropMigrated] at hv
  split at hv
  · exact (Option.filter_eq_some_iff.mp hv).1
  · exact hv

theorem copies_prune_le (p : PartitionId) (keep : List Ref) (q : PartitionId)
    (hv : W.copies (s.pruneToKeyset p keep).2 q = some v) : W.copies s q = some v := by
  rw [copies, find_pruneToKeyset] at hv
  split at hv
  · simp at hv
  · exact hv

theorem copies_prune_mem (p : PartitionId) {keep : List Ref} (hr : W.ref ∈ keep) :
    W.copies (s.pruneToKeyset p keep).2 = W.copies s := by
  funext q
  rw [copies, find_pruneToKeyset, if_neg (fun h => h.2 hr)]
  rfl

variable (hnone : ∀ p, p ≠ W.part → s.find p W.ref = none)
include hnone

theorem copies_drop_eq {entries : List Entry} (h : p = W.part → W.ref ∉ entries.map Entry.ref) :
    W.copies (s.dropMigrated p entries).2 = W.copies s := by
  funext q
  rw [copies, find_dropMigrated]
  split
  · next hq =>
    subst hq
    cases hv : s.find q W.ref with
    | none => exact hv.symm
    | some v =>
      have hq : q = W.part := by
        by_contra hne
        rw [hnone q hne] at hv
        cases hv
      have hno : entryOf W.ref v ∉ entries := fun hm => h hq (List.mem_map.mpr ⟨_, hm, rfl⟩)
      rw [Option.filter_some, if_pos (by simpa using hno)]
      exact hv.symm
  · rfl

theorem copies_prune_ne (hp : p ≠ W.part) (keep : List Ref) :
    W.copies (s.pruneToKeyset p keep).2 = W.copies s := by
  funext q
  rw [copies, find_pruneToKeyset]
  split
  · next h => exact (hnone q (h.1 ▸ hp)).symm
  · rfl

theorem copies_sweep {now : ℕ} (hl : ∀ v, s.find W.part W.ref = some v → v.expired now = false) :
    W.copies (s.sweepExpired now) = W.copies s := by
  funext q
  rw [copies, find_sweepExpired]
  cases hv : s.find q W.ref with
  | none => exact hv.symm
  | some v =>
    have hq : q = W.part := by
      by_contra hne
      rw [hnone q hne] at hv
      cases hv
    subst hq
    rw [Option.filter_some, if_pos (by simp [hl v hv])]
    exact hv.symm

end copies

variable {sync : ℕ → Prop} {i : ℕ} {e : Action} {c : Choice} {w : World}

theorem Inv.find_none (hI : W.Inv w) (hn : n ∈ W.ids) (p : PartitionId)
    (hp : p ≠ W.part) : (w.state.nodes n).store.find p W.ref = none := by
  cases hv : (w.state.nodes n).store.find p W.ref with
  | none => rfl
  | some v => exact absurd (hI.data n hn p v hv).1 hp

/-- An action leaves the copies of a node alone, or puts the entry there, or takes copies away from
a node that need not stay and has, if it moves, handed the entry over. -/
theorem copies_cases (hI : W.Inv w) (hok : W.Ok sync i e c w) (hpre : W.pre (w.own i) e) (hn : n ∈ W.ids) :
    W.copies ((exec e c w.state).2.nodes n).store = W.copies (w.state.nodes n).store ∨
    (∃ expireAt, e = .on n (.put W.ref.1 W.ref.2 W.data expireAt) ∧
      W.copies ((exec e c w.state).2.nodes n).store =
        Function.update (W.copies (w.state.nodes n).store) W.part (some ⟨W.data, expireAt⟩)) ∨
    ((∀ p v, W.copies ((exec e c w.state).2.nodes n).store p = some v →
        W.copies (w.state.nodes n).store p = some v) ∧
      ¬ W.stay n ∧ (W.moves n → ∀ x, W.stay x → W.PutIn (w.own i) x)) := by
  cases e with
  | on m a =>
    by_cases hm : n = m
    · subst hm
      rw [exec_on_self]
      cases a with
      | cacheLoaded | remove | execute | queueExecute | clearMap => exact hpre.elim
      | put name key value expireAt =>
        by_cases hr : W.ref = (name, key)
        · refine Or.inr (Or.inl ⟨expireAt, ?_, ?_⟩)
          · rw [hr, hpre.2 hr.symm]
          · have hset := copies_set_self (W := W) (w.state.nodes n).store ⟨W.data, expireAt⟩
            rw [part, hr, ← hpre.2 hr.symm] at hset ⊢
            exact hset
        · exact Or.inl (copies_set_ne _ _ hr _)
      | drop p entries =>
        by_cases hp : p = W.part ∧ W.ref ∈ entries.map Entry.ref
        · obtain ⟨hstay, hmoves⟩ := hpre.2 hp.1
          refine Or.inr (Or.inr ⟨fun q v hv => copies_drop_le p entries q hv, hstay, ?_⟩)
          exact fun hg => hmoves hg hp.2
        · exact Or.inl (copies_drop_eq (hI.find_none hn) (fun h hr => hp ⟨h, hr⟩))
      | prune p keep =>
        by_cases hp : p = W.part
        · by_cases hr : W.ref ∈ keep
          · exact Or.inl (copies_prune_mem p hr)
          · have hno : ¬ (W.stay n ∨ W.moves n) := fun h => hr (hpre.2 hp h)
            refine Or.inr (Or.inr ⟨fun q v hv => copies_prune_le p keep q hv, ?_, ?_⟩)
            · exact fun h => hno (Or.inl h)
            · exact fun h => absurd (Or.inr h) hno
        · exact Or.inl (copies_prune_ne (hI.find_none hn) hp keep)
      | sweep =>
        refine Or.inl (copies_sweep (hI.find_none hn) (fun v hv => ?_))
        have := hok.fresh n hn v hv
        rw [exec_on_clock] at this
        exact this.not_expired
      | emit ev => exact Or.inl (by simp only [Node.exec]; split <;> rfl)
      | _ => exact Or.inl rfl
    · exact Or.inl (by rw [exec_on_ne _ _ _ _ hm])
  | start m =>
    by_cases hm : n = m
    · subst hm
      refine Or.inr (Or.inr ⟨?_, hpre.2.1, fun hg => absurd (W.moves_steady n hg) hpre.2.2⟩)
      rw [exec_start_self]
      intro p v hv
      simp [copies, Node.fresh] at hv
    · exact Or.inl (by rw [exec_start_ne _ _ _ hm])
  | crash m =>
    by_cases hm : n = m
    · subst hm
      refine Or.inr (Or.inr ⟨?_, hpre.2.1, fun hg => absurd (W.moves_steady n hg) hpre.2.2⟩)
      rw [exec_crash_self]
      intro p v hv
      simp [copies, Node.fresh] at hv
    · exact Or.inl (by rw [exec_crash_ne _ _ _ hm])
  | storeThrough | deleteThrough => exact Or.inl (by simp only [exec]; split <;> rfl)
  | _ => exact Or.inl rfl

/-! ### What one action does to the views -/

theorem View.fresh {nd : Node} (hV : W.View n nd.mem) (hn : n ∈ W.ids)
    (hs : ¬ W.steady) : W.View n nd.fresh.mem := by
  refine ⟨hV.self, hV.count, ?_, fun h => absurd h hs⟩
  refine Membership.Over.new ?_ ?_ _
  · rw [hV.self]
    exact hn
  · rw [hV.self]

theorem view_next (hI : W.Inv w) (hpre : W.pre (w.own i) e) (hn : n ∈ W.ids) :
    W.View n ((exec e c w.state).2.nodes n).mem := by
  have hV := hI.view n hn
  cases e with
  | on m a =>
    by_cases hm : n = m
    · subst hm
      rw [exec_on_self]
      cases a with
      | cacheLoaded | remove | execute | queueExecute => exact hpre.elim
      | merge ms =>
        exact ⟨(Membership.merge_self _ _).trans hV.self,
          (Membership.merge_backups _ _).trans hV.count, hV.known.merge hpre.2,
          fun hs => List.Subset.trans (hV.full hs) (Membership.merge_keys_subset _ _)⟩
      | rejoin mem =>
        exact ⟨(Membership.rejoin_self _ _).trans hV.self,
          (Membership.rejoin_backups _ _).trans hV.count, hV.known.rejoin hpre.2.1 hpre.2.2,
          fun hs => List.Subset.trans (hV.full hs) (Membership.rejoin_keys_subset _ _)⟩
      | removeMember id =>
        exact ⟨(Membership.removeLocked_self _ _ _).trans hV.self,
          (Membership.removeLocked_backups _ _ _).trans hV.count, hV.known.removeLocked _ _,
          fun hs => absurd hs hpre.2⟩
      | detect id failed threshold =>
        exact ⟨(Membership.detect_self _ _ _ _ _ _).trans hV.self,
          (Membership.detect_backups _ _ _ _ _ _).trans hV.count, hV.known.detect _ _ _ _ _,
          fun hs => absurd hs hpre.2⟩
      | pruneTombstones ttl =>
        refine ⟨(Membership.pruneTombstones_self _ _ _).trans hV.self,
          (Membership.pruneTombstones_backups _ _ _).trans hV.count,
          hV.known.pruneTombstones _ _, fun hs => ?_⟩
        change W.ids ⊆ ((w.state.nodes n).mem.pruneTombstones ttl _).members.keys
        rw [Membership.pruneTombstones_members]
        exact hV.full hs
      | emit ev =>
        simp only [Node.exec]
        split <;> exact hV
      | _ => exact hV
    · rw [exec_on_ne _ _ _ _ hm]
      exact hV
  | start m =>
    by_cases hm : n = m
    · subst hm
      rw [exec_start_self]
      exact hV.fresh hn hpre.2.2
    · rw [exec_start_ne _ _ _ hm]
      exact hV
  | crash m =>
    by_cases hm : n = m
    · subst hm
      rw [exec_crash_self]
      exact hV.fresh hn hpre.2.2
    · rw [exec_crash_ne _ _ _ hm]
      exact hV
  | storeThrough | deleteThrough => simp only [exec]; split <;> exact hV
  | _ => exact hV

/-- Addresses lead to their nodes, or nowhere. -/
theorem net_next (hI : W.Inv w) (hpre : W.pre (w.own i) e) (a x : Bytes)
    (hx : (exec e c w.state).2.listen a = some x) : x ∈ W.ids ∧ a = W.addr x := by
  have hclosed : ∀ n, Function.update w.state.listen n none a = some x → x ∈ W.ids ∧ a = W.addr x := by
    intro n h
    rw [Function.update_apply] at h
    split at h
    · cases h
    · exact hI.net a x h
  cases e with
  | start n =>
    change Function.update w.state.listen (w.state.nodes n).mem.self.addr (some n) a = some x at hx
    rw [Function.update_apply] at hx
    split at hx
    · next ha =>
      obtain rfl := Option.some.inj hx
      rw [ha, (hI.view n hpre.1).self]
      exact ⟨hpre.1, rfl⟩
    · exact hI.net a x hx
  | crash n => exact hclosed _ hx
  | close n => exact hclosed _ hx
  | storeThrough | deleteThrough =>
    simp only [exec] at hx
    split at hx <;> exact hI.net a x hx
  | _ => exact hI.net a x hx

theorem up_next (hI : W.Inv w) (hpre : W.pre (w.own i) e) (hs : W.steady)
    (hx : x ∈ W.ids) : (exec e c w.state).2.listen (W.addr x) = some x := by
  cases e with
  | start n => exact absurd hs hpre.2.2
  | crash n => exact absurd hs hpre.2.2
  | close n => exact absurd hs hpre.2
  | storeThrough | deleteThrough =>
    simp only [exec]
    split <;> exact hI.up hs x hx
  | _ => exact hI.up hs x hx

/-! ### What a thread is told -/

theorem View.sees {m : Membership} (hV : W.View n m) : W.Sees n m.table m.members.keys := by
  refine ⟨?_, m.members.keys_nodup, fun id hid => hV.known.mem_keys hid, ?_, hV.full⟩
  · rw [m.table_eq, hV.count]
  · have h := m.self_mem_keys
    rw [hV.self] at h
    exact h

/-- A holder that runs anti-entropy has the entry when it reads it. -/
theorem Ok.holds (hok : W.Ok sync i e c w) (hI : W.Inv w) (hs : sync i)
    (hn : n ∈ holders W.ids W.backups W.part) (he : W.ReadsEntry n e) : W.Holds n w.state := by
  by_cases hk : W.kept n
  · exact hI.held n (W.kept_stay n hk) (Or.inl hk)
  · exact hok.reads hs n hn hk he

theorem post_exec (hI : W.Inv w) (hok : W.Ok sync i e c w) (hpre : W.pre (w.own i) e) :
    W.post (sync i) (w.own i) e (exec e c w.state).1 := by
  cases e with
  | connect a =>
    change (∀ x, (if c.lost then none else w.state.listen a) = some x → _) ∧
      (W.steady → ∀ x ∈ W.ids, a = W.addr x → (if c.lost then none else w.state.listen a) = some x)
    constructor
    · intro x hx
      split at hx
      · cases hx
      · exact hI.net a x hx
    · intro hs x hx ha
      rw [hok.arrives hs, ha]
      exact hI.up hs x hx
  | reply x =>
    intro hs
    change (!c.lost) = true
    rw [hok.arrives hs]
    rfl
  | ctxErr => exact fun hs => hok.arrives hs
  | on n a =>
    cases a with
    | cacheLoaded | remove | execute | queueExecute => exact hpre.elim
    | nowNano =>
      intro hs snap hsnap d hd hr
      have hl := hok.prompt hs n rfl snap hsnap d hd hr
      rw [exec_on_clock] at hl
      exact not_lapses_of_lasting hl
    | table => exact ⟨_, (hI.view n hpre).sees⟩
    | addrOf id =>
      refine ⟨fun a ha => (hI.view n hpre).known.addrOf ha, fun hs hid h0 => ?_⟩
      have hmem := (hI.view n hpre).full hs hid
      rw [← AList.mem_keys, ← AList.lookup_isSome, Option.isSome_iff_ne_none] at hmem
      exact hmem (Option.map_eq_none_iff.mp h0)
    | members =>
      intro mem hmem
      refine (hI.view n hpre).known.mem_snapshotProto ?_
      exact (List.perm_insertionSort _ _).mem_iff.mp hmem
    | snapshotProto => exact fun mem hmem => (hI.view n hpre).known.mem_snapshotProto hmem
    | snapshot p =>
      constructor
      · intro d hd hr
        rw [mem_exec_snapshot, mem_snapshotPartition, hr] at hd
        exact hI.data n hpre p d.val hd.1
      · intro hs hp hn
        subst hp
        obtain ⟨v, hv⟩ := hok.holds hI hs hn (Or.inl rfl)
        have hl := hok.fresh n hpre v hv
        rw [exec_on_clock] at hl
        refine List.mem_map.mpr ⟨entryOf W.ref v, ?_, rfl⟩
        rw [mem_exec_snapshot, mem_snapshotPartition]
        exact ⟨hv, hl.not_expired⟩
    | lookup p name key =>
      intro hr hp
      subst hp
      have hfind : ∀ v, (w.state.nodes n).store.lookup W.part name key
          ((w.state.nodes n).clock + c.tick) = some v ↔
          (w.state.nodes n).store.find W.part W.ref = some v ∧
            v.expired ((w.state.nodes n).clock + c.tick) = false := by
        intro v
        rw [lookup_eq_some, hr]
      refine ⟨fun v hv => (hI.data n hpre _ v ((hfind v).mp hv).1).2, fun hs hn => ?_⟩
      obtain ⟨v, hv⟩ := hok.holds hI hs hn (Or.inr (by rw [← hr]))
      have hl := hok.fresh n hpre v hv
      rw [exec_on_clock] at hl
      refine ⟨v, (hfind v).mpr ⟨hv, hl.not_expired⟩, fun now hnow => ?_⟩
      have hle := hI.clock n now (hnow.mono (w.own_subset i))
      exact not_lapses_of_lasting (hl.mono (hle.trans (Nat.le_add_right _ _)))
    | _ => trivial
  | _ => trivial

/-! ### The contract is sound -/

theorem PutIn.mono {h h' : List Event} (hp : W.PutIn h x) (hs : h ⊆ h') :
    W.PutIn h' x := by
  obtain ⟨i, expireAt, created, hm⟩ := hp
  exact ⟨i, expireAt, created, hs hm⟩

theorem SnapIn.mono {h h' : List Event} {snap : List Entry} (hp : W.SnapIn h n snap)
    (hs : h ⊆ h') : W.SnapIn h' n snap := by
  obtain ⟨i, hm⟩ := hp
  exact ⟨i, hs hm⟩

theorem stay_mem (hx : W.stay x) : x ∈ W.ids := mem_of_mem_holders (W.stay_holder x hx)

theorem holds_put (x : Bytes) (expireAt : Int64) (C : Cluster) :
    W.Holds x (exec (.on x (.put W.ref.1 W.ref.2 W.data expireAt)) c C).2 := by
  refine ⟨⟨W.data, expireAt⟩, ?_⟩
  rw [exec_on_self]
  exact (find_set _ _ _ _ _ _).trans (if_pos ⟨rfl, rfl⟩)

/-- A node loses its copy only if it need not stay and has, if it moves, handed the entry over. -/
theorem holds_next (hI : W.Inv w) (hok : W.Ok sync i e c w) (hpre : W.pre (w.own i) e) (hn : n ∈ W.ids)
    (hh : W.Holds n w.state) :
    W.Holds n (exec e c w.state).2 ∨
      (¬ W.stay n ∧ (W.moves n → ∀ x, W.stay x → W.PutIn (w.own i) x)) := by
  obtain ⟨v, hv⟩ := hh
  rcases copies_cases hI hok hpre hn with heq | ⟨expireAt, -, heq⟩ | ⟨-, hlost⟩
  · exact Or.inl ⟨v, (congrFun heq W.part).trans hv⟩
  · exact Or.inl ⟨_, (congrFun heq W.part).trans (Function.update_self _ _ _)⟩
  · exact Or.inr hlost

theorem data_next (hI : W.Inv w) (hok : W.Ok sync i e c w) (hpre : W.pre (w.own i) e) (hn : n ∈ W.ids)
    (hv : ((exec e c w.state).2.nodes n).store.find p W.ref = some v) :
    p = W.part ∧ v.data = W.data := by
  change W.copies ((exec e c w.state).2.nodes n).store p = some v at hv
  rcases copies_cases hI hok hpre hn with heq | ⟨expireAt, -, heq⟩ | ⟨hle, -⟩
  · rw [heq] at hv
    exact hI.data n hn p v hv
  · rw [heq, Function.update_apply] at hv
    split at hv
    · next hp => exact ⟨hp, by rw [← Option.some.inj hv]⟩
    · exact hI.data n hn p v hv
  · exact hI.data n hn p v (hle p v hv)

theorem held_next (hI : W.Inv w) (hok : W.Ok sync i e c w) (hpre : W.pre (w.own i) e) (hx : W.stay x)
    (hh : W.kept x ∨ W.PutIn (w.next exec i e c).past x) :
    W.Holds x (exec e c w.state).2 := by
  have hold : W.kept x ∨ W.PutIn w.past x → W.Holds x (exec e c w.state).2 := fun h =>
    (holds_next hI hok hpre (stay_mem hx) (hI.held x hx h)).resolve_right (fun hno => hno.1 hx)
  rcases hh with hk | ⟨j, expireAt, created, hm⟩
  · exact hold (Or.inl hk)
  · rcases List.mem_cons.mp hm with heq | hm
    · injection heq with _ he _
      subst he
      exact holds_put x expireAt w.state
    · exact hold (Or.inr ⟨j, expireAt, created, hm⟩)

/-- A node that is to hand the entry over, or keeps it, finds it in its snapshots, or has handed it
over. -/
theorem seen_next (hI : W.Inv w) (hok : W.Ok sync i e c w) {g : Bytes} (hg : W.moves g ∨ W.kept g)
    {snap : List Entry} (hs : W.SnapIn (w.next exec i e c).past g snap) :
    W.ref ∈ snap.map Entry.ref ∨ ∀ x, W.stay x → W.PutIn w.past x := by
  obtain ⟨j, hj⟩ := hs
  rcases List.mem_cons.mp hj with heq | hj
  · injection heq with _ he hr
    subst he
    obtain rfl := eq_of_heq hr
    have hmem : g ∈ W.ids := hg.elim (W.moves_mem g) (fun hk => stay_mem (W.kept_stay g hk))
    have hholds : W.Holds g w.state ∨ ∀ x, W.stay x → W.PutIn w.past x := hg.elim (hI.moved g)
      (fun hk => Or.inl (hI.held g (W.kept_stay g hk) (Or.inl hk)))
    refine hholds.imp_left (fun ⟨v, hv⟩ => ?_)
    have hl := hok.fresh g hmem v hv
    rw [exec_on_clock] at hl
    refine List.mem_map.mpr ⟨entryOf W.ref v, ?_, rfl⟩
    rw [mem_exec_snapshot, mem_snapshotPartition]
    exact ⟨hv, hl.not_expired⟩
  · exact hI.seen g hg snap ⟨j, hj⟩

/-- **The contract is sound**: an action that keeps it preserves the invariant, in every run whose
steps meet `Ok`. -/
theorem sound (W : Watch) (sync : ℕ → Prop) : (W.contract sync).Sound exec W.Inv (W.Ok sync) := by
  intro i e c w hI hok hpre
  have hpast : w.past ⊆ (w.next exec i e c).past := List.subset_cons_self _ _
  refine ⟨⟨fun n hn => view_next hI hpre hn, net_next hI hpre, fun hs x hx => up_next hI hpre hs hx,
    fun n hn p v hv => data_next hI hok hpre hn hv, fun x hx hh => held_next hI hok hpre hx hh,
    fun n => (hI.clock n).next i e c, fun g hg => ?_, fun g hg snap hs => ?_⟩,
    post_exec hI hok hpre⟩
  · rcases hI.moved g hg with hh | hput
    · refine (holds_next hI hok hpre (W.moves_mem g hg) hh).imp_right (fun hlost x hx => ?_)
      exact (hlost.2 hg x hx).mono (List.Subset.trans (w.own_subset i) hpast)
    · exact Or.inr (fun x hx => (hput x hx).mono hpast)
  · exact (seen_next hI hok hg hs).imp_right (fun hput x hx => (hput x hx).mono hpast)

end Watch

end Medusa
