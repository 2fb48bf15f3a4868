import Medusa.Placement
import Medusa.ScaleOut
import Medusa.Writes

/-! # Migration puts every entry where the table says

Every live node runs one pass of `Migrate` with the same table, in any interleaving, and nothing else
runs.  An entry may lie on nodes that are no longer holders of its partition, and be missing on nodes
that are.

A pass pushes the copies it finds to all holders, and a node that is not a holder drops its copy once
they have it (`Relocation.pre`).  So a holder's copy never goes away, a copy elsewhere goes away only
once every holder has one, and it does go away, since its node's pass reads it, or it is gone already
(`Relocation.Inv`).

* `migrate_places`: **afterwards the owner and the backups store the entry, and no other node does**.
* `migrate_loses_short_lived`: an entry with less than a millisecond to live is dropped, and no other
  node has it. -/

namespace Medusa

open Medusa.Partition Store Interleave Service Contract

/-- An entry on its way to the holders of a table: the live nodes, the members of the table with
their addresses, and the cluster before the passes. -/
structure Relocation where
  nodes : List Bytes
  ids : List Bytes
  backups : ℕ
  addr : Bytes → Bytes
  ref : Ref
  data : Bytes
  origin : Cluster
  nonempty : ids ≠ []
  named : [] ∉ ids
  live : ids ⊆ nodes
  known : ∀ n ∈ nodes, ∀ x ∈ ids, (origin.nodes n).mem.addrOf x = some (addr x)
  up : ∀ x ∈ ids, origin.listen (addr x) = some x
  placed : ∀ n ∈ nodes, ∀ q v, (origin.nodes n).store.find q ref = some v →
    q = routedPartition ref.1 ref.2 ∧ v.data = data

namespace Relocation
variable (R : Relocation)

/-- The partition of the entry. -/
def part : PartitionId := routedPartition R.ref.1 R.ref.2

/-- The table of the passes. -/
def table : Table := newTable R.ids R.backups

/-- The holders of the entry's partition. -/
def homes : List Bytes := holders R.ids R.backups R.part

/-- The entry on node `n`. -/
def copy (n : Bytes) (C : Cluster) : Option Value := (C.nodes n).store.find R.part R.ref

/-- In the history, the entry was put on node `x`. -/
def PutIn (h : List Event) (x : Bytes) : Prop :=
  ∃ (j : ℕ) (expireAt : Int64) (created : Bool),
    (⟨j, .on x (.put R.ref.1 R.ref.2 R.data expireAt), created⟩ : Event) ∈ h

/-- In the history, `snap` was read from the entry's partition on node `n`. -/
def SnapIn (h : List Event) (n : Bytes) (snap : List Entry) : Prop :=
  ∃ j, (⟨j, .on n (.snapshot R.part), snap⟩ : Event) ∈ h

/-- In the history, node `n` dropped `entries` from the entry's partition. -/
def DropIn (h : List Event) (n : Bytes) (entries : List Entry) : Prop :=
  ∃ j out, (⟨j, .on n (.drop R.part entries), out⟩ : Event) ∈ h

/-! ### The contract -/

/-- What a thread promises about an action. -/
def pre (h : List Event) : Action → Prop
  | .on x (.put name key value _) => (name, key) = R.ref → value = R.data ∧ x ∈ R.homes
  | .on n (.drop p entries) => R.ref ∈ entries.map Entry.ref →
      p = R.part ∧ n ∉ R.homes ∧ ∀ x ∈ R.homes, R.PutIn h x
  | .on _ (.prune _ _) => False
  | .on _ (.cacheLoaded _ _ _ _) => False
  | .on _ (.remove _ _) => False
  | .on _ (.execute _ _ _ _) => False
  | .on _ (.queueExecute _ _ _) => False
  | .on _ .sweep => False
  | .on _ (.clearMap _) => False
  | e => e.Calm

/-- What a thread is told about a response. -/
def post (h : List Event) : (e : Action) → e.Resp → Prop
  | .connect a, r => ∀ x ∈ R.ids, a = R.addr x → r = some x
  | .reply _, r => r = true
  | .ctxErr, r => r = false
  | .on n (.addrOf x), r => n ∈ R.nodes → x ∈ R.ids → r = some (R.addr x)
  | .on n .nowNano, now => ∀ snap, R.SnapIn h n snap →
      ∀ d ∈ snap, d.ref = R.ref → lapses d.expireAt now = false
  | .on n (.snapshot p), snap => n ∈ R.nodes →
      ∀ d ∈ snap, d.ref = R.ref → p = R.part ∧ d.value = R.data
  | _, _ => True

/-- The contract of the passes. -/
def contract : Contract Action.Resp where
  pre _ h e := R.pre h e
  post _ h e r := R.post h e r

/-- What every world of a run satisfies. -/
structure Inv (w : World) : Prop where
  mem : ∀ n, (w.state.nodes n).mem = (R.origin.nodes n).mem
  listen : w.state.listen = R.origin.listen
  data : ∀ n ∈ R.nodes, ∀ q v, (w.state.nodes n).store.find q R.ref = some v →
    q = R.part ∧ v.data = R.data
  /-- A holder keeps the entry from the moment it has it, -/
  held : ∀ x ∈ R.homes, (R.copy x R.origin).isSome ∨ R.PutIn w.past x → (R.copy x w.state).isSome
  /-- and finds it in its snapshots. -/
  found : ∀ x ∈ R.homes, (R.copy x R.origin).isSome → ∀ snap, R.SnapIn w.past x snap →
    R.ref ∈ snap.map Entry.ref
  /-- Another node gets no copy, -/
  only : ∀ n, n ∉ R.homes → ∀ v, R.copy n w.state = some v → R.copy n R.origin = some v
  /-- gives its copy up when all holders have one, -/
  moved : ∀ n, n ∉ R.homes → ∀ v, R.copy n R.origin = some v →
    R.copy n w.state = some v ∨ ∀ x ∈ R.homes, R.PutIn w.past x
  /-- finds it in its snapshots unless it is gone, -/
  listed : ∀ n ∈ R.nodes, n ∉ R.homes → ∀ v, R.copy n R.origin = some v →
    ∀ snap, R.SnapIn w.past n snap → entryOf R.ref v ∈ snap ∨ R.copy n w.state = none
  /-- and has lost it once it dropped it. -/
  dropped : ∀ n, n ∉ R.homes → ∀ v, R.copy n R.origin = some v →
    ∀ entries, R.DropIn w.past n entries → entryOf R.ref v ∈ entries → R.copy n w.state = none

/-- No copy of `r` on the nodes is expired at the clock of its node. -/
def Unexpired (nodes : List Bytes) (r : Ref) (e : Action) (c : Choice) (w : World) : Prop :=
  ∀ n ∈ nodes, ∀ v, (w.state.nodes n).store.find (routedPartition r.1 r.2) r = some v →
    v.expired ((exec e c w.state).2.nodes n).clock = false

/-- The condition on the steps of a run. -/
def Ok (i : ℕ) (e : Action) (c : Choice) (w : World) : Prop :=
  Delivered R.ref i e c w ∧ Unexpired R.nodes R.ref e c w

/-! ### The contract is sound -/

variable {R} {n x : Bytes} {v : Value} {h h' : List Event}

theorem PutIn.mono (hp : R.PutIn h x) (hs : h ⊆ h') :
    R.PutIn h' x := by
  obtain ⟨j, expireAt, created, hm⟩ := hp
  exact ⟨j, expireAt, created, hs hm⟩

theorem SnapIn.mono {snap : List Entry} (hp : R.SnapIn h n snap) (hs : h ⊆ h') : R.SnapIn h' n snap := by
  obtain ⟨j, hm⟩ := hp
  exact ⟨j, hs hm⟩

theorem DropIn.mono {entries : List Entry} (hp : R.DropIn h n entries)
    (hs : h ⊆ h') : R.DropIn h' n entries := by
  obtain ⟨j, out, hm⟩ := hp
  exact ⟨j, out, hs hm⟩

section step
variable {i : ℕ} {e : Action} {c : Choice} {w : World} {h : List Event} {C : Cluster} {n : Bytes}

theorem pre_calm (he : R.pre h e) : e.Calm := by
  cases e with
  | on m a => cases a <;> first | exact he | trivial
  | _ => exact he

/-- An action leaves the copies on a node alone, or puts the entry on a holder, or takes it from
another node when all holders have been given it. -/
theorem copy_cases (he : R.pre h e) (c : Choice) (C : Cluster) (n : Bytes) :
    (∀ q, ((exec e c C).2.nodes n).store.find q R.ref = (C.nodes n).store.find q R.ref) ∨
    (n ∈ R.homes ∧ ∃ v : Value, v.data = R.data ∧ ∀ q,
      ((exec e c C).2.nodes n).store.find q R.ref =
        if q = R.part then some v else (C.nodes n).store.find q R.ref) ∨
    ((n ∉ R.homes ∧ ∀ x ∈ R.homes, R.PutIn h x) ∧ ∀ q v,
      ((exec e c C).2.nodes n).store.find q R.ref = some v →
        (C.nodes n).store.find q R.ref = some v) := by
  cases e with
  | on m a =>
    have hreads : a.Reads → ∀ q, ((exec (.on m a) c C).2.nodes n).store.find q R.ref =
        (C.nodes n).store.find q R.ref := fun ha q => by rw [ha.exec_store]
    cases a with
    | put name key value expireAt =>
      by_cases hr : n = m ∧ R.ref = (name, key)
      · obtain ⟨rfl, hr⟩ := hr
        obtain ⟨hvalue, hhome⟩ := he hr.symm
        refine Or.inr (Or.inl ⟨hhome, ⟨value, expireAt⟩, hvalue, fun q => ?_⟩)
        rw [find_exec_put, part, hr]
        simp
      · exact Or.inl fun q => by rw [find_exec_put, if_neg (fun h => hr ⟨h.1, h.2.2⟩)]
    | drop p entries =>
      by_cases hr : n = m ∧ R.ref ∈ entries.map Entry.ref
      · obtain ⟨rfl, hr⟩ := hr
        refine Or.inr (Or.inr ⟨(he hr).2, fun q v hv => ?_⟩)
        rw [find_exec_drop] at hv
        split at hv
        · exact (Option.filter_eq_some_iff.mp hv).1
        · exact hv
      · refine Or.inl fun q => ?_
        rw [find_exec_drop]
        split
        · next hq =>
          cases hv : (C.nodes n).store.find q R.ref with
          | none => rfl
          | some v =>
            have hno : entryOf R.ref v ∉ entries := fun hm =>
              hr ⟨hq.1, List.mem_map.mpr ⟨_, hm, entryOf_ref R.ref v⟩⟩
            exact if_pos (decide_eq_true hno)
        · rfl
    | prune | cacheLoaded | remove | execute | queueExecute | sweep | clearMap => exact he.elim
    | _ => exact Or.inl (hreads trivial)
  | start | crash | close => exact he.elim
  | storeThrough | deleteThrough =>
    refine Or.inl fun q => ?_
    simp only [exec]
    split <;> rfl
  | _ => exact Or.inl fun _ => rfl

/-- A holder keeps its copy. -/
theorem isSome_next (he : R.pre h e) (c : Choice) (hn : n ∈ R.homes)
    (hh : (R.copy n C).isSome) : (R.copy n (exec e c C).2).isSome := by
  rcases copy_cases he c C n with heq | ⟨-, v, -, heq⟩ | ⟨hno, -⟩
  · rw [copy, heq]
    exact hh
  · rw [copy, heq, if_pos rfl]
    rfl
  · exact absurd hn hno.1

/-- Another node gets no copy. -/
theorem copy_next (he : R.pre h e) (hn : n ∉ R.homes)
    (hv : R.copy n (exec e c C).2 = some v) : R.copy n C = some v := by
  rcases copy_cases he c C n with heq | ⟨hhome, -⟩ | ⟨-, hle⟩
  · exact (heq _).symm.trans hv
  · exact absurd hhome hn
  · exact hle _ v hv

theorem none_next (he : R.pre h e) (c : Choice) (hn : n ∉ R.homes) (hv : R.copy n C = none) :
    R.copy n (exec e c C).2 = none := by
  cases hc : R.copy n (exec e c C).2 with
  | none => rfl
  | some v =>
    rw [copy_next he hn hc] at hv
    cases hv

theorem data_next (hI : R.Inv w) (he : R.pre (w.own i) e) (hn : n ∈ R.nodes) {q : PartitionId}
    (hv : ((exec e c w.state).2.nodes n).store.find q R.ref = some v) :
    q = R.part ∧ v.data = R.data := by
  rcases copy_cases he c w.state n with heq | ⟨-, u, hu, heq⟩ | ⟨-, hle⟩
  · exact hI.data n hn q v ((heq q).symm.trans hv)
  · rw [heq] at hv
    split at hv
    · next hq => exact ⟨hq, Option.some.inj hv ▸ hu⟩
    · exact hI.data n hn q v hv
  · exact hI.data n hn q v (hle q v hv)

theorem held_next (hI : R.Inv w) (he : R.pre (w.own i) e) (hn : n ∈ R.homes)
    (hh : (R.copy n R.origin).isSome ∨ R.PutIn (w.next exec i e c).past n) :
    (R.copy n (exec e c w.state).2).isSome := by
  rcases hh with hk | ⟨j, expireAt, created, hm⟩
  · exact isSome_next he c hn (hI.held n hn (Or.inl hk))
  · rcases List.mem_cons.mp hm with heq | hm
    · injection heq with _ he' _
      subst he'
      rw [copy, find_exec_put, if_pos ⟨rfl, rfl, rfl⟩]
      rfl
    · exact isSome_next he c hn (hI.held n hn (Or.inr ⟨j, expireAt, created, hm⟩))

/-- A copy that is not expired is in the snapshot. -/
theorem mem_snapshot (hok : R.Ok i (.on n (.snapshot R.part)) c w) (hn : n ∈ R.nodes)
    (hv : R.copy n w.state = some v) :
    entryOf R.ref v ∈ (exec (.on n (.snapshot R.part)) c w.state).1 := by
  have hlive := hok.2 n hn v hv
  rw [exec_on_clock] at hlive
  exact (mem_exec_snapshot _ _ _).mpr (mem_snapshotPartition.mpr ⟨hv, hlive⟩)

theorem found_next (hI : R.Inv w) (hok : R.Ok i e c w) (hn : n ∈ R.homes)
    (hk : (R.copy n R.origin).isSome) {snap : List Entry}
    (hs : R.SnapIn (w.next exec i e c).past n snap) : R.ref ∈ snap.map Entry.ref := by
  obtain ⟨j, hj⟩ := hs
  rcases List.mem_cons.mp hj with heq | hj
  · injection heq with _ he hr
    subst he
    obtain rfl := eq_of_heq hr
    obtain ⟨v, hv⟩ := Option.isSome_iff_exists.mp (hI.held n hn (Or.inl hk))
    exact List.mem_map.mpr ⟨_, mem_snapshot hok (R.live (mem_of_mem_holders hn)) hv,
      entryOf_ref R.ref v⟩
  · exact hI.found n hn hk snap ⟨j, hj⟩

/-- On a node that is no holder, the copy is the one it had, or gone. -/
theorem Inv.copy_or (hI : R.Inv w) (hn : n ∉ R.homes)
    (hv : R.copy n R.origin = some v) : R.copy n w.state = some v ∨ R.copy n w.state = none := by
  cases hc : R.copy n w.state with
  | none => exact Or.inr rfl
  | some u =>
    have hu := hI.only n hn u hc
    rw [hv] at hu
    exact Or.inl hu.symm

theorem listed_next (hI : R.Inv w) (hok : R.Ok i e c w) (he : R.pre (w.own i) e) (hn : n ∈ R.nodes)
    (hno : n ∉ R.homes) (hv : R.copy n R.origin = some v) {snap : List Entry}
    (hs : R.SnapIn (w.next exec i e c).past n snap) :
    entryOf R.ref v ∈ snap ∨ R.copy n (exec e c w.state).2 = none := by
  obtain ⟨j, hj⟩ := hs
  rcases List.mem_cons.mp hj with heq | hj
  · injection heq with _ he' hr
    subst he'
    obtain rfl := eq_of_heq hr
    rcases hI.copy_or hno hv with hc | hc
    · exact Or.inl (mem_snapshot hok hn hc)
    · exact Or.inr (none_next he c hno hc)
  · exact (hI.listed n hn hno v hv snap ⟨j, hj⟩).imp_right (none_next he c hno)

theorem dropped_next (hI : R.Inv w) (he : R.pre (w.own i) e) (hno : n ∉ R.homes)
    (hv : R.copy n R.origin = some v) {entries : List Entry}
    (hd : R.DropIn (w.next exec i e c).past n entries) (hmem : entryOf R.ref v ∈ entries) :
    R.copy n (exec e c w.state).2 = none := by
  obtain ⟨j, out, hj⟩ := hd
  rcases List.mem_cons.mp hj with heq | hj
  · injection heq with _ he' _
    subst he'
    rcases hI.copy_or hno hv with hc | hc
    · rw [copy, find_exec_drop, if_pos ⟨rfl, rfl⟩]
      rw [copy] at hc
      rw [hc]
      exact if_neg (by simpa using hmem)
    · exact none_next he c hno hc
  · exact none_next he c hno (hI.dropped n hno v hv entries ⟨j, out, hj⟩ hmem)

theorem post_exec (hI : R.Inv w) (hok : R.Ok i e c w) : R.post (w.own i) e (exec e c w.state).1 := by
  obtain ⟨hdel, -⟩ := hok
  cases e with
  | connect a =>
    intro x hx ha
    change (if c.lost then none else w.state.listen a) = some x
    rw [hdel.arrives, hI.listen, ha]
    exact R.up x hx
  | reply x =>
    change (!c.lost) = true
    rw [hdel.arrives]
    rfl
  | ctxErr => exact hdel.arrives
  | on n a =>
    cases a with
    | addrOf x =>
      intro hn hx
      rw [exec_on_fst]
      change (w.state.nodes n).mem.addrOf x = some (R.addr x)
      rw [hI.mem]
      exact R.known n hn x hx
    | nowNano =>
      intro snap ⟨j, hj⟩ d hd hr
      have hl := hdel.prompt n rfl j snap hj d hd hr
      rw [exec_on_clock] at hl
      exact not_lapses_of_lasting hl
    | snapshot p =>
      intro hn d hd hr
      have hfind := (mem_snapshotPartition.mp ((mem_exec_snapshot _ _ _).mp hd)).1
      rw [hr] at hfind
      exact hI.data n hn p d.val hfind
    | _ => trivial
  | _ => trivial

/-- **The contract is sound.** -/
theorem sound (R : Relocation) : R.contract.Sound exec R.Inv R.Ok := by
  intro i e c w hI hok he
  have hpast : w.past ⊆ (w.next exec i e c).past := List.subset_cons_self _ _
  refine ⟨{ mem n := ((pre_calm he).mem c w.state n).trans (hI.mem n)
            listen := ((pre_calm he).listen c w.state).trans hI.listen
            data n hn q v hv := data_next hI he hn hv
            held n hn hh := held_next hI he hn hh
            found n hn hk snap hs := found_next hI hok hn hk hs
            only n hn v hv := hI.only n hn v (copy_next he hn hv)
            moved n hn v hv := ?_
            listed n hn hno v hv snap hs := listed_next hI hok he hn hno hv hs
            dropped n hn v hv entries hd hmem := dropped_next hI he hn hv hd hmem },
    post_exec hI hok⟩
  rcases hI.moved n hn v hv with hc | hput
  · rcases copy_cases he c w.state n with heq | ⟨hhome, -⟩ | ⟨⟨-, hput⟩, -⟩
    · exact Or.inl ((heq _).trans hc)
    · exact absurd hhome hn
    · exact Or.inr fun x hx => (hput x hx).mono (List.Subset.trans (w.own_subset i) hpast)
  · exact Or.inr fun x hx => (hput x hx).mono hpast

/-- Before the passes. -/
theorem inv_init (R : Relocation) : R.Inv ⟨R.origin, []⟩ where
  mem _ := rfl
  listen := rfl
  data := R.placed
  held x _ hh := hh.resolve_right fun ⟨_, _, _, hm⟩ => by simp at hm
  found x _ _ snap hs := by
    obtain ⟨j, hj⟩ := hs
    simp at hj
  only _ _ _ hv := hv
  moved _ _ _ hv := Or.inl hv
  listed _ _ _ _ _ snap hs := by
    obtain ⟨j, hj⟩ := hs
    simp at hj
  dropped _ _ _ _ entries hd := by
    obtain ⟨j, out, hj⟩ := hd
    simp at hj

end step

/-! ### The passes keep the contract -/

section pass
variable {i : ℕ}

/-- A push reaches the node and is acknowledged. -/
theorem sendPut_obeys (hx : x ∈ R.ids) {name key value : Bytes}
    (hput : (name, key) = R.ref → value = R.data ∧ x ∈ R.homes) (ttlMs : Int64) (h : List Event) :
    R.contract.Obeys i
      (fun out h' => (∃ created, out = .ok created) ∧ ((name, key) = R.ref → R.PutIn h' x))
      (sendPut (R.addr x) name key value ttlMs true) h := by
  refine Obeys.step trivial (fun r hr => ?_)
  obtain rfl := hr x hx rfl
  refine Obeys.step trivial (fun now _ => ?_)
  refine Obeys.step hput (fun created _ => ?_)
  refine Obeys.step trivial (fun arrived harr => ?_)
  obtain rfl : arrived = true := harr
  refine ⟨⟨created, rfl⟩, fun hr => ?_⟩
  obtain ⟨hname, hkey⟩ := Prod.mk.inj hr
  have hvalue := (hput hr).1
  subst hname hkey hvalue
  exact ⟨i, _, created, List.mem_cons_of_mem _ List.mem_cons_self⟩

theorem pushEntries_obeys (hx : x ∈ R.ids) {now : ℕ} {es : List Entry} (hes : ∀ d ∈ es, d.ref = R.ref →
      (d.value = R.data ∧ x ∈ R.homes) ∧ lapses d.expireAt now = false) (pushedOK : Bool) (h : List Event) :
    R.contract.Obeys i
      (fun ok h' => ok = pushedOK ∧ (R.ref ∈ es.map Entry.ref → R.PutIn h' x))
      (pushEntries (R.addr x) now es pushedOK) h := by
  induction es generalizing h with
  | nil => exact ⟨rfl, fun hr => by simp at hr⟩
  | cons d es ih =>
    have hih := ih (fun e he => hes e (List.mem_cons_of_mem _ he))
    have hd := hes d List.mem_cons_self
    unfold pushEntries
    split
    · next hl =>
      refine (hih h).mono ?_
      rintro ok h' ⟨hok, hq⟩
      refine ⟨hok, fun hr => ?_⟩
      rcases List.mem_cons.mp hr with hr | hr
      · rw [(hd hr.symm).2] at hl
        cases hl
      · exact hq hr
    · refine Obeys.bind ((sendPut_obeys hx (fun hr => (hd hr).1) _ h).mono ?_)
      rintro out h₁ ⟨⟨created, rfl⟩, hput⟩
      refine (hih h₁).suffix.mono ?_
      rintro ok h' ⟨⟨hok, hq⟩, hsuf⟩
      refine ⟨hok, fun hr => ?_⟩
      rcases List.mem_cons.mp hr with hr | hr
      · exact (hput hr.symm).mono hsuf.subset
      · exact hq hr

theorem pushTargets_obeys (hn : n ∈ R.nodes) {snap es : List Entry} (hsub : es ⊆ snap) {ids : List Bytes}
    (hids : ∀ x ∈ ids, x ∈ R.ids)
    (hes : ∀ d ∈ es, d.ref = R.ref → d.value = R.data ∧ ∀ x ∈ ids, x ∈ R.homes) (pushedOK : Bool)
    {h : List Event} (hsnap : R.ref ∈ es.map Entry.ref → R.SnapIn h n snap) :
    R.contract.Obeys i
      (fun ok h' => ok = pushedOK ∧ (R.ref ∈ es.map Entry.ref → ∀ x ∈ ids, R.PutIn h' x))
      (pushTargets n es ids pushedOK) h := by
  induction ids generalizing h with
  | nil => exact ⟨rfl, fun _ x hx => by simp at hx⟩
  | cons y ids ih =>
    have hih := @ih (fun x hx => hids x (List.mem_cons_of_mem _ hx))
      (fun d hd hr => (hes d hd hr).imp_right fun hall x hx => hall x (List.mem_cons_of_mem _ hx))
    have hy := hids y List.mem_cons_self
    refine Obeys.step trivial (fun r hr => ?_)
    obtain rfl := hr hn hy
    refine Obeys.step trivial (fun now hnow => ?_)
    have hlive : ∀ d ∈ es, d.ref = R.ref →
        (d.value = R.data ∧ y ∈ R.homes) ∧ lapses d.expireAt now = false := by
      intro d hd hdr
      have hmem := List.mem_map.mpr ⟨d, hd, hdr⟩
      exact ⟨(hes d hd hdr).imp_right fun hall => hall y List.mem_cons_self,
        hnow snap ((hsnap hmem).mono (List.subset_cons_self _ _)) d (hsub hd) hdr⟩
    refine Obeys.bind ((pushEntries_obeys hy hlive pushedOK _).suffix.mono ?_)
    rintro ok h₁ ⟨⟨rfl, hput⟩, hsuf⟩
    have hsnap₁ : R.ref ∈ es.map Entry.ref → R.SnapIn h₁ n snap := fun hmem =>
      (hsnap hmem).mono (List.Subset.trans (List.subset_cons_of_subset _
        (List.subset_cons_self _ _)) hsuf.subset)
    refine (hih hsnap₁).suffix.mono (fun ok h' ⟨⟨hok, hq⟩, hsuf'⟩ => ⟨hok, fun hmem x hx => ?_⟩)
    rcases List.mem_cons.mp hx with rfl | hx
    · exact (hput hmem).mono hsuf'.subset
    · exact hq hmem x hx

/-- A node pushes to the holders other than itself. -/
theorem mem_targets {n x : Bytes} {p : PartitionId} :
    x ∈ targets n R.table p ↔ x ∈ holders R.ids R.backups p ∧ x ≠ n := by
  have hcons := holders_eq_cons R.nonempty R.backups p
  have hne : R.table.ownerOf p ≠ [] := by
    intro h0
    have hown := ownerOf_holder R.nonempty R.backups p
    exact R.named (h0 ▸ mem_of_mem_holders hown)
  rw [hcons, List.mem_cons]
  unfold targets
  rw [List.mem_append, List.mem_filter, decide_eq_true_iff]
  change _ ↔ (x = R.table.ownerOf p ∨ x ∈ R.table.backupsOf p) ∧ x ≠ n
  rw [or_and_right]
  refine or_congr ?_ Iff.rfl
  split
  · next ho =>
    rw [List.mem_singleton]
    exact ⟨fun hx => ⟨hx, hx ▸ ho.2⟩, fun hx => hx.1⟩
  · next ho =>
    have hself : R.table.ownerOf p = n := not_not.mp fun h => ho ⟨hne, h⟩
    exact ⟨fun hx => absurd hx List.not_mem_nil, fun ⟨hx, hxn⟩ => absurd (hx.trans hself) hxn⟩

theorem selfHolds_table (n : Bytes) (p : PartitionId) :
    selfHolds n R.table p = decide (n ∈ holders R.ids R.backups p) := by
  rw [selfHolds, holders_eq_cons R.nonempty, ← Bool.decide_or]
  refine decide_eq_decide.mpr ?_
  rw [List.mem_cons, eq_comm]
  rfl

/-- What the round of the entry's partition did: the entries of its snapshot are on all other
holders, and no more on a node that is no holder. -/
def Done (R : Relocation) (n : Bytes) (h : List Event) : Prop :=
  ∃ snap, R.SnapIn h n snap ∧ (R.ref ∈ snap.map Entry.ref →
    (∀ x ∈ R.homes, x ≠ n → R.PutIn h x) ∧
    (n ∉ R.homes → ∃ entries, R.DropIn h n entries ∧ snap ⊆ entries))

theorem Done.mono (hd : R.Done n h) (hs : h ⊆ h') :
    R.Done n h' := by
  obtain ⟨snap, hsnap, hr⟩ := hd
  refine ⟨snap, hsnap.mono hs, fun hmem => ?_⟩
  obtain ⟨hput, hdrop⟩ := hr hmem
  refine ⟨fun x hx hxn => (hput x hx hxn).mono hs, fun hn => ?_⟩
  obtain ⟨entries, hin, hsub⟩ := hdrop hn
  exact ⟨entries, hin.mono hs, hsub⟩

theorem migratePartition_obeys (hn : n ∈ R.nodes) (p : PartitionId) (h : List Event) :
    R.contract.Obeys i (fun _ h' => p = R.part → R.Done n h') (migratePartition n R.table p) h := by
  refine Obeys.step trivial (fun snap hpost => ?_)
  have hes : ∀ d, d ∈ orderQueueMetaLast snap ↔ d ∈ snap := fun d => mem_orderQueueMetaLast
  have hrefs : R.ref ∈ (orderQueueMetaLast snap).map Entry.ref ↔ R.ref ∈ snap.map Entry.ref := by
    simp only [List.mem_map, hes]
  have hpart : ∀ d ∈ snap, d.ref = R.ref → p = R.part ∧ d.value = R.data := hpost hn
  have hin : R.ref ∈ snap.map Entry.ref → p = R.part := by
    intro hr
    obtain ⟨d, hd, hdr⟩ := List.mem_map.mp hr
    exact (hpart d hd hdr).1
  have hsnap : p = R.part → R.SnapIn (⟨i, .on n (.snapshot p), snap⟩ :: h) n snap := by
    rintro rfl
    exact ⟨i, List.mem_cons_self⟩
  unfold handOver
  split
  · next hnil =>
    refine fun hp => ⟨snap, hsnap hp, fun hr => ?_⟩
    rw [← hrefs, hnil] at hr
    simp at hr
  · refine Obeys.bind ((pushTargets_obeys hn (fun d hd => (hes d).mp hd)
      (fun x hx => mem_of_mem_holders (mem_targets.mp hx).1) (fun d hd hdr => ?_) true
      (fun hr => hsnap (hin (hrefs.mp hr)))).suffix.mono ?_)
    · obtain ⟨rfl, hvalue⟩ := hpart d ((hes d).mp hd) hdr
      exact ⟨hvalue, fun x hx => (mem_targets.mp hx).1⟩
    rintro ok h₁ ⟨⟨rfl, hput⟩, hsuf⟩
    have hput' : R.ref ∈ snap.map Entry.ref → ∀ x ∈ R.homes, x ≠ n → R.PutIn h₁ x := by
      intro hr x hx hxn
      obtain rfl := hin hr
      exact hput (hrefs.mpr hr) x (mem_targets.mpr ⟨hx, hxn⟩)
    rw [selfHolds_table, Bool.and_true]
    split
    · next hcond =>
      have hno : n ∉ holders R.ids R.backups p := by simpa using hcond
      refine Obeys.step (fun hr => ?_) (fun out _ hp => ?_)
      · obtain rfl := hin (hrefs.mp hr)
        exact ⟨rfl, hno, fun x hx =>
          hput' (hrefs.mp hr) x hx fun hxn => hno (hxn ▸ hx)⟩
      · subst hp
        refine ⟨snap, ((hsnap rfl).mono hsuf.subset).mono (List.subset_cons_self _ _), fun hr => ?_⟩
        refine ⟨fun x hx hxn => (hput' hr x hx hxn).mono (List.subset_cons_self _ _), fun _ => ?_⟩
        exact ⟨_, ⟨i, out, List.mem_cons_self⟩, fun d hd => (hes d).mpr hd⟩
    · next hcond =>
      have hself : n ∈ holders R.ids R.backups p := by simpa using hcond
      rintro rfl
      exact ⟨snap, (hsnap rfl).mono hsuf.subset, fun hr => ⟨hput' hr, fun hno => absurd hself hno⟩⟩

theorem migrateLoop_obeys (hn : n ∈ R.nodes) (ps : List PartitionId) (h : List Event) :
    R.contract.Obeys i (fun _ h' => R.part ∈ ps → R.Done n h') (migrateLoop n R.table ps) h := by
  induction ps generalizing h with
  | nil => exact fun hp => by simp at hp
  | cons p ps ih =>
    refine Obeys.step trivial (fun stop hstop => ?_)
    obtain rfl : stop = false := hstop
    refine Obeys.bind ((migratePartition_obeys hn p _).mono (fun _ h₁ hdone => ?_))
    refine (ih h₁).suffix.mono (fun _ h' ⟨hq, hsuf⟩ hp => ?_)
    rcases List.mem_cons.mp hp with rfl | hp
    · exact (hdone rfl).mono hsuf.subset
    · exact hq hp

theorem migrate_obeys (hn : n ∈ R.nodes) (h : List Event) :
    R.contract.Obeys i (fun _ h' => R.Done n h') (migrate n R.table) h :=
  (migrateLoop_obeys hn _ h).mono (fun _ _ hq => hq (List.mem_finRange _))

end pass

/-! ### The end of a run -/

section final
variable {w : World}

/-- Once some node's pass has read the entry or handed it over, every holder has it. -/
theorem Inv.held_of_done (hI : R.Inv w) (hn : n ∈ R.nodes) (hk : (R.copy n R.origin).isSome)
    (hdone : R.Done n w.past) (hx : x ∈ R.homes) :
    (R.copy x w.state).isSome := by
  obtain ⟨snap, hsnap, hread⟩ := hdone
  by_cases hh : n ∈ R.homes
  · by_cases hxn : x = n
    · exact hI.held x hx (Or.inl (hxn ▸ hk))
    · exact hI.held x hx (Or.inr ((hread (hI.found n hh hk snap hsnap)).1 x hx hxn))
  · obtain ⟨v, hv⟩ := Option.isSome_iff_exists.mp hk
    rcases hI.listed n hn hh v hv snap hsnap with hmem | hgone
    · have hr := List.mem_map.mpr ⟨_, hmem, entryOf_ref R.ref v⟩
      exact hI.held x hx (Or.inr ((hread hr).1 x hx fun h => hh (h ▸ hx)))
    · rcases hI.moved n hh v hv with hc | hput
      · rw [hgone] at hc
        cases hc
      · exact hI.held x hx (Or.inr (hput x hx))

/-- A node that is no holder has lost its copy after its pass. -/
theorem Inv.gone_of_done (hI : R.Inv w) (hn : n ∈ R.nodes) (hno : n ∉ R.homes)
    (hdone : R.Done n w.past) : R.copy n w.state = none := by
  cases hc : R.copy n w.state with
  | none => rfl
  | some v =>
    obtain ⟨snap, hsnap, hread⟩ := hdone
    have hv := hI.only n hno v hc
    have hmem : entryOf R.ref v ∈ snap :=
      (hI.listed n hn hno v hv snap hsnap).resolve_right (by rw [hc]; simp)
    have hr := List.mem_map.mpr ⟨_, hmem, entryOf_ref R.ref v⟩
    obtain ⟨entries, hdrop, hsub⟩ := (hread hr).2 hno
    rw [hI.dropped n hno v hv entries hdrop (hsub hmem)] at hc
    cases hc

/-- After the passes of all nodes, exactly the holders have the entry. -/
theorem Inv.placed (hI : R.Inv w) (hstored : ∃ n ∈ R.nodes, (R.copy n R.origin).isSome)
    (hdone : ∀ n ∈ R.nodes, R.Done n w.past) (hn : n ∈ R.nodes) (q : PartitionId) :
    ((w.state.nodes n).store.find q R.ref).map Value.data =
      if q = R.part ∧ n ∈ R.homes then some R.data else none := by
  split
  · next h =>
    obtain ⟨rfl, hhome⟩ := h
    obtain ⟨m, hm, hk⟩ := hstored
    obtain ⟨v, hv⟩ := Option.isSome_iff_exists.mp (hI.held_of_done hm hk (hdone m hm) hhome)
    rw [copy] at hv
    rw [hv, Option.map_some, (hI.data n hn _ v hv).2]
  · next h =>
    cases hv : (w.state.nodes n).store.find q R.ref with
    | none => rfl
    | some v =>
      obtain ⟨rfl, -⟩ := hI.data n hn q v hv
      have hgone := hI.gone_of_done hn (fun hhome => h ⟨rfl, hhome⟩) (hdone n hn)
      rw [copy, hv] at hgone
      cases hgone

end final

end Relocation

/-- Every node runs a pass with the table. -/
def migratePool (nodes : List Bytes) (tbl : Table) (i : ℕ) : Prog Bool :=
  match nodes[i]? with
  | some n => migrate n tbl
  | none => return true

/-- **Migration places an entry exactly on its holders.**  The live nodes include the members of the
table, which they can reach; the copies of the entry lie in its partition and have the same data.
If every live node completes one pass of `Migrate` with the table, with all messages delivered and
no copy expired on the way or within a millisecond of its expiry when it is pushed, then the owner
and the backups of the partition store the entry with this data, and no other live node does. -/
theorem migrate_places {nodes ids : List Bytes} (addr : Bytes → Bytes) {C : Cluster} (b : ℤ)
    (hids : ids ≠ []) (hnamed : [] ∉ ids) (hlive : ids ⊆ nodes)
    (hknown : ∀ n ∈ nodes, ∀ x ∈ ids, (C.nodes n).mem.addrOf x = some (addr x))
    (hup : ∀ x ∈ ids, C.listen (addr x) = some x) {r : Ref} {d : Bytes}
    (hplaced : ∀ n ∈ nodes, ∀ q v, (C.nodes n).store.find q r = some v →
      q = routedPartition r.1 r.2 ∧ v.data = d)
    (hstored : ∃ n ∈ nodes, ((C.nodes n).store.find (routedPartition r.1 r.2) r).isSome)
    {sched : List (ℕ × Choice)}
    (hok : Meets exec (fun i e c w => Delivered r i e c w ∧ Relocation.Unexpired nodes r e c w) sched
      (Conf.init C (migratePool nodes (newTable ids b))))
    (hdone : ∀ i, ((Conf.run exec sched
      (Conf.init C (migratePool nodes (newTable ids b)))).pool i).returned = true) :
    let f := Conf.run exec sched (Conf.init C (migratePool nodes (newTable ids b)))
    let p := routedPartition r.1 r.2
    ∀ n ∈ nodes, ∀ q, ((f.world.state.nodes n).store.find q r).map Value.data =
      if q = p ∧ (n = (newTable ids b).ownerOf p ∨ n ∈ (newTable ids b).backupsOf p)
      then some d else none := by
  intro f p n hn q
  let R : Relocation := ⟨nodes, ids, b.toNat, addr, r, d, C, hids, hnamed, hlive, hknown, hup, hplaced⟩
  have htable : newTable ids b = R.table := newTable_toNat ids b
  have hpool : ∀ i, R.contract.Obeys i (fun _ h => ∀ m, nodes[i]? = some m → R.Done m h)
      (migratePool nodes (newTable ids b) i) [] := by
    intro i
    rw [htable]
    unfold migratePool
    split
    · next m hm =>
      refine (Relocation.migrate_obeys (List.mem_of_getElem? hm) []).mono (fun _ h hd m' hm' => ?_)
      obtain rfl := Option.some.inj (hm.symm.trans hm')
      exact hd
    · next hm =>
      intro m hm'
      rw [hm] at hm'
      cases hm'
  obtain ⟨hI, -, hobeys⟩ := (Relocation.sound R).run R.inv_init hpool hok
  have hpasses : ∀ m ∈ nodes, R.Done m f.world.past := by
    intro m hm
    obtain ⟨i, hi⟩ := List.getElem?_of_mem hm
    obtain ⟨ok, hret⟩ := Prog.returned_iff.mp (hdone i)
    exact ((hobeys i).returned hret m hi).mono (f.world.own_subset i)
  have hhome : n ∈ R.homes ↔ n = (newTable ids b).ownerOf p ∨ n ∈ (newTable ids b).backupsOf p := by
    rw [htable, ← List.mem_cons]
    exact iff_of_eq (congrArg (n ∈ ·) (holders_eq_cons hids _ p))
  exact (hI.placed hstored hpasses hn q).trans (if_congr (and_congr_right fun _ => hhome) rfl rfl)

/-! ### An entry on a node that is no member any more -/

/-- Node `a` has an entry with the given expiry, and the table is to have `b` only. -/
def stranded (expireAt : Int64) : Cluster :=
  let C := oneEntry [[97], [98]] 0 [] ([109], [114]) [118]
  C.setNode [97] { C.nodes [97] with
    store := Store.empty.set (routedPartition [109] [114]) ([109], [114]) ⟨[118], expireAt⟩ }

/-- Both nodes have a pass to run. -/
def strandedPasses (expireAt : Int64) : Conf Bool :=
  Conf.init (stranded expireAt) (migratePool [[97], [98]] (newTable [[98]] 0))

/-- Both nodes run their pass, `a` first. -/
def strandedSchedule : List (ℕ × Choice) :=
  List.replicate 560 (0, .still) ++ List.replicate 560 (1, .still)

/-- `Unexpired`, evaluated. -/
def unexpiredCheck (nodes : List Bytes) (r : Ref) (e : Action) (c : Choice) (w : World) : Bool :=
  nodes.all fun n => ((w.state.nodes n).store.find (routedPartition r.1 r.2) r).all
    fun v => !v.expired ((exec e c w.state).2.nodes n).clock

theorem Relocation.Unexpired.of_check {nodes : List Bytes} {r : Ref} {e : Action} {c : Choice}
    {w : World} (h : unexpiredCheck nodes r e c w = true) : Relocation.Unexpired nodes r e c w := by
  intro n hn v hv
  have hall := List.all_eq_true.mp h n hn
  rw [hv] at hall
  simpa using hall

/-- **An entry with less than a millisecond to live is lost**, though it is not expired and every
message is delivered: `a` does not push it to the owner `b`, and drops it. -/
theorem migrate_loses_short_lived :
    let f := Conf.run exec strandedSchedule (strandedPasses 500000)
    (((stranded 500000).nodes [97]).store.find (routedPartition [109] [114]) ([109], [114])).isSome ∧
    Meets exec (fun _ e c w => c.lost = false ∧
      Relocation.Unexpired [[97], [98]] ([109], [114]) e c w) strandedSchedule (strandedPasses 500000) ∧
    ((f.pool 0).returned = true ∧ (f.pool 1).returned = true) ∧
    (newTable [[98]] 0).ownerOf (routedPartition [109] [114]) = [98] ∧
    (f.world.state.nodes [98]).store.find (routedPartition [109] [114]) ([109], [114]) = none := by
  intro f
  have hcheck : Conf.check exec (fun _ e c w => !c.lost &&
      unexpiredCheck [[97], [98]] ([109], [114]) e c w) strandedSchedule (strandedPasses 500000) = true := by
    decide +kernel
  have hend : ((f.pool 0).returned = true ∧ (f.pool 1).returned = true) ∧
      (newTable [[98]] 0).ownerOf (routedPartition [109] [114]) = [98] ∧
      (f.world.state.nodes [98]).store.find (routedPartition [109] [114]) ([109], [114]) = none := by
    decide +kernel
  refine ⟨by decide +kernel, (Meets.of_check hcheck).mono (fun i e c w h => ?_), hend⟩
  rw [Bool.and_eq_true] at h
  exact ⟨by simpa using h.1, Relocation.Unexpired.of_check h.2⟩

/-- Without an expiry, the entry moves from `a` to `b`. -/
theorem migrate_places_stranded :
    let f := Conf.run exec strandedSchedule (strandedPasses 0)
    ((f.world.state.nodes [98]).store.find (routedPartition [109] [114]) ([109], [114])).map
        Value.data = some [118] ∧
      ((f.world.state.nodes [97]).store.find (routedPartition [109] [114]) ([109], [114])).map
        Value.data = none := by
  have hcheck : Conf.check exec (fun _ e c w => deliveredCheck e c w &&
      unexpiredCheck [[97], [98]] ([109], [114]) e c w) strandedSchedule (strandedPasses 0) = true := by
    decide +kernel
  have hok : Meets exec (fun i e c w => Delivered ([109], [114]) i e c w ∧
      Relocation.Unexpired [[97], [98]] ([109], [114]) e c w) strandedSchedule (strandedPasses 0) := by
    refine (Meets.of_check hcheck).mono (fun i e c w h => ?_)
    rw [Bool.and_eq_true] at h
    exact ⟨Delivered.of_check h.1, Relocation.Unexpired.of_check h.2⟩
  have hfind : ∀ n ∈ ([[97], [98]] : List Bytes), ∀ q v,
      ((stranded 0).nodes n).store.find q ([109], [114]) = some v →
      q = routedPartition [109] [114] ∧ v.data = [118] := by
    intro n _ q v hv
    by_cases hn : n = [97]
    · subst hn
      rw [stranded, Cluster.setNode_self, find_set] at hv
      split at hv
      · next h => exact ⟨h.1, Option.some.inj hv ▸ rfl⟩
      · simp at hv
    · rw [stranded, Cluster.setNode_ne _ _ hn] at hv
      simp [oneEntry] at hv
  have hdone : ∀ i, ((Conf.run exec strandedSchedule (strandedPasses 0)).pool i).returned = true := by
    have hends : ∀ i < 2, ((Conf.run exec strandedSchedule (strandedPasses 0)).pool i).returned = true := by
      decide +kernel
    intro i
    by_cases hi : i < 2
    · exact hends i hi
    · obtain ⟨j, rfl⟩ : ∃ j, i = j + 2 := ⟨i - 2, by omega⟩
      rw [Conf.run_pool_of_not_mem (fun ic hic => ?_)]
      · rfl
      · rcases List.mem_append.mp hic with h | h <;> rw [List.eq_of_mem_replicate h] <;> simp
  unfold strandedPasses at hok hdone ⊢
  have hplaces := migrate_places id 0 (by decide) (by decide) (by decide)
    (by decide +kernel) (by decide +kernel) hfind ⟨[97], by decide, by decide +kernel⟩ hok hdone
  have hown : (newTable [[98]] 0).ownerOf (routedPartition [109] [114]) = [98] := by decide +kernel
  have hback : (newTable [[98]] 0).backupsOf (routedPartition [109] [114]) = [] := by decide +kernel
  dsimp only at hplaces ⊢
  have hb := hplaces [98] (by decide) (routedPartition [109] [114])
  have ha := hplaces [97] (by decide) (routedPartition [109] [114])
  rw [if_pos ⟨rfl, Or.inl hown.symm⟩] at hb
  rw [hown, hback, if_neg (by simp)] at ha
  exact ⟨hb, ha⟩

end Medusa
