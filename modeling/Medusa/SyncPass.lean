import Medusa.Node
import Medusa.Writes

/-! # What a pass of anti-entropy did

The pass of `SyncBackups` on an owner, as a thread among others: before it prunes a backup with a key
set it has re-read every entry of its snapshot, and pushed those in the key set (`Sync.PruneOk`).

* `Sync.contract`: what the threads promise and are told, when the messages of other threads are
  delivered and those of the pass from its snapshot on.
* `syncBackups_obeys`: **the pass keeps it**, and settles every backup it is to visit.
* `applyPut_obeys`: a put of the owner reaches every backup. -/

namespace Medusa

open Medusa.Partition Store Interleave Service Contract

/-- The owner, the nodes it knows with their addresses, its table, the nodes that do not take
themselves for the owner of a partition, the partitions in which no entry lapses between its reading
and its push, and whether the owner has its entries where they belong. -/
structure Sync where
  owner : Bytes
  ids : List Bytes
  addr : Bytes → Bytes
  table : Table
  follows : PartitionId → Bytes → Prop
  prompt : PartitionId → Prop
  placed : Prop
  addr_inj : ∀ x ∈ ids, ∀ y ∈ ids, addr x = addr y → x = y

namespace Sync
variable (S : Sync)

/-- The pass has read the clock of a node. -/
def Read (h : List Event) (n : Bytes) (now : ℕ) : Prop := (⟨0, .on n .nowNano, now⟩ : Event) ∈ h

/-- The pass has read an entry. -/
def Found (h : List Event) (q : PartitionId) (r : Ref) (v : Value) : Prop :=
  (⟨0, .on S.owner (.lookup q r.1 r.2), some v⟩ : Event) ∈ h

/-- The pass takes a snapshot of partition `q`. -/
def Snaps (q : PartitionId) (ev : Event) : Prop :=
  ev.tid = 0 ∧ ev.act = .on S.owner (.snapshot q)

/-- The pass starts a round: it reads a digest of the owner. -/
def Starts (ev : Event) : Prop := ev.tid = 0 ∧ ∃ q, ev.act = .on S.owner (.digest q)

/-- The pass is past the probes of its round. -/
def Sending (h : List Event) : Prop := Since (fun ev => ∃ q, S.Snaps q ev) S.Starts h

/-- The pass prunes node `y`. -/
def Prunes (y : Bytes) (ev : Event) : Prop := ev.tid = 0 ∧ ∃ q keep, ev.act = .on y (.prune q keep)

/-- The pass pushes `r` to node `y`. -/
def Pushes (y : Bytes) (r : Ref) (ev : Event) : Prop :=
  ev.tid = 0 ∧ ∃ value expireAt, ev.act = .on y (.put r.1 r.2 value expireAt)

/-- The pass finds `r` missing: not in the snapshot, gone since, or about to lapse at `now`. -/
inductive Misses (q : PartitionId) (r : Ref) (now : ℕ) : Event → Prop where
  | unlisted (snap : List Entry) (hr : r ∉ snap.map Entry.ref) :
      Misses q r now ⟨0, .on S.owner (.snapshot q), snap⟩
  | gone : Misses q r now ⟨0, .on S.owner (.lookup q r.1 r.2), none⟩
  | lapsed (v : Value) (hq : ¬ S.prompt q) (hv : lapses v.expireAt now = true) :
      Misses q r now ⟨0, .on S.owner (.lookup q r.1 r.2), some v⟩

/-- What the pass pushes: an entry it has read, with the time it has left. -/
def PutOk (h : List Event) (y name key value : Bytes) (expireAt : Int64) : Prop :=
  y ≠ S.owner ∧ ∃ q v now t, S.Found h q (name, key) v ∧ value = v.data ∧ Read h S.owner now ∧
    Read h y t ∧ v.expired now = false ∧ lapses v.expireAt now = false ∧
    expireAt = expireFromTTL t (remainingTTLms v.expireAt now)

/-- What the pass prunes with: since its snapshot it has pushed what is in the key set, and found
missing what is not. -/
def PruneOk (h : List Event) (y : Bytes) (q : PartitionId) (keep : List Ref) : Prop :=
  y ≠ S.owner ∧ ∃ now, Read h S.owner now ∧ ∀ r,
    (r ∈ keep → Since (Pushes y r) (Prunes y) h) ∧
    (r ∉ keep → Since (S.Misses q r now) (S.Snaps q) h)

/-- What thread `i` promises; the pass is thread `0`. -/
def pre (i : ℕ) (h : List Event) : Action → Prop
  | .on y (.put name key value expireAt) => i = 0 → S.PutOk h y name key value expireAt
  | .on y (.prune q keep) => i = 0 ∧ S.PruneOk h y q keep
  | .on _ (.cacheLoaded _ _ _ _) => False
  | .on _ (.remove _ _) => False
  | .on _ (.execute _ _ _ _) => False
  | .on _ (.queueExecute _ _ _) => False
  | .on _ (.drop _ _) => False
  | .on _ .sweep => False
  | .on _ (.clearMap _) => False
  | e => e.Calm

/-- The messages of the thread are delivered. -/
def Reliable (i : ℕ) (h : List Event) : Prop := i ≠ 0 ∨ S.Sending h

/-- What thread `i` is told. -/
def post (i : ℕ) (h : List Event) : (e : Action) → e.Resp → Prop
  | .connect a, r => ∀ y ∈ S.ids, a = S.addr y → (∀ x, r = some x → x = y) ∧
      (S.Reliable i h → r = some y)
  | .reply _, r => S.Reliable i h → r = true
  | .on m .table, tbl => (m = S.owner → tbl = S.table) ∧ ∀ q, S.follows q m → tbl.ownerOf q ≠ m
  | .on m (.addrOf y), r => m = S.owner → y ∈ S.ids → r = some (S.addr y)
  | .on m (.snapshot q), snap => m = S.owner → S.placed →
      ∀ e ∈ snap, routedPartition e.mapName e.key = q
  | .on m (.lookup q _ _), r => m = S.owner → ∀ v, r = some v → ∀ now, Read h m now →
      v.expired now = false ∧ (S.prompt q → lapses v.expireAt now = false)
  | _, _ => True

/-- The contract of a pass and of the puts beside it. -/
def contract : Contract Action.Resp where
  pre := S.pre
  post := S.post

/-! ### What the actions do -/

section actions
variable {S} {i : ℕ} {h : List Event} {e : Action}

theorem pre_calm (he : S.pre i h e) : e.Calm := by
  cases e with
  | on m a => cases a <;> first | exact he | trivial
  | _ => exact he

/-- Stores change only by puts and prunes. -/
theorem pre_store (he : S.pre i h e) :
    (∃ y name key value expireAt, e = .on y (.put name key value expireAt)) ∨
    (∃ y q keep, e = .on y (.prune q keep)) ∨
    ∀ c C n, ((exec e c C).2.nodes n).store = (C.nodes n).store := by
  cases e with
  | on m a =>
    have hreads : a.Reads → ∀ c C n,
        ((exec (.on m a) c C).2.nodes n).store = (C.nodes n).store := fun ha => ha.exec_store m
    cases a with
    | put name key value expireAt => exact Or.inl ⟨m, name, key, value, expireAt, rfl⟩
    | prune q keep => exact Or.inr (Or.inl ⟨m, q, keep, rfl⟩)
    | cacheLoaded | remove | execute | queueExecute | drop | sweep | clearMap => exact he.elim
    | _ => exact Or.inr (Or.inr (hreads trivial))
  | start | crash | close => exact he.elim
  | storeThrough | deleteThrough =>
    refine Or.inr (Or.inr fun c C n => ?_)
    simp only [exec]
    split <;> rfl
  | _ => exact Or.inr (Or.inr fun _ _ _ => rfl)

variable {c : Choice} {C : Cluster} {n : Bytes} {r : Ref}

/-- An entry stays as it is, unless it is put or its partition is pruned. -/
theorem find_after {q : PartitionId} (he : S.pre i h e)
    (hput : ∀ name key value expireAt, e = .on n (.put name key value expireAt) →
      routedPartition name key = q → (name, key) ≠ r)
    (hprune : ∀ keep, e ≠ .on n (.prune q keep)) :
    ((exec e c C).2.nodes n).store.find q r = (C.nodes n).store.find q r := by
  rcases pre_store he with ⟨y, name, key, value, expireAt, rfl⟩ | ⟨y, q', keep, rfl⟩ | hs
  · rw [find_exec_put, if_neg]
    rintro ⟨rfl, hq, hr⟩
    exact hput name key value expireAt rfl hq.symm hr.symm
  · rw [find_exec_prune, if_neg]
    rintro ⟨rfl, rfl, -⟩
    exact hprune keep rfl
  · rw [hs]

end actions

/-! ### Messages -/

section messages
variable {S} {i : ℕ}

/-- A message reaches the node at its address, or is lost. -/
theorem send_obeys {α : Type} {y : Bytes} (hy : y ∈ S.ids)
    {handle : Bytes → Prog (Except ServiceError α)} {Q : Except ServiceError α → List Event → Prop}
    {h : List Event}
    (hlost : ¬ S.Reliable i h → Q (.error .unreachable) (⟨i, .connect (S.addr y), none⟩ :: h))
    (hsome : S.contract.Obeys i (fun out h' => ∀ arrived, (S.Reliable i h' → arrived = true) →
        Q (if arrived then out else .error .unreachable) (⟨i, .reply y, arrived⟩ :: h'))
      (handle y) (⟨i, .connect (S.addr y), some y⟩ :: h)) :
    S.contract.Obeys i Q (send (S.addr y) handle) h := by
  refine Obeys.step trivial (fun r hr => ?_)
  obtain ⟨hx, hrel⟩ := hr y hy rfl
  cases r with
  | none => exact hlost (fun h' => by simpa using hrel h')
  | some x =>
    obtain rfl := hx x rfl
    refine Obeys.bind (hsome.mono (fun out h' hq => ?_))
    exact Obeys.step trivial (fun arrived harr => hq arrived harr)

end messages

/-! ### The pass -/

section pass
variable {S} {q : PartitionId} {y : Bytes} {now : ℕ} {tbl : Table} {h : List Event}

/-- The events of a push of entries of partition `q` to the nodes of `ys`. -/
structure Pushing (S : Sync) (q : PartitionId) (ys : List Bytes) (ev : Event) : Prop where
  put : ∀ y name key value expireAt, ev.act = .on y (.put name key value expireAt) →
    y ∈ ys ∧ (S.placed → routedPartition name key = q)
  prune : ∀ y q keep, ev.act ≠ .on y (.prune q keep)
  snap : ∀ y q, ev.act ≠ .on y (.snapshot q)
  start : ∀ y q, ev.act ≠ .on y (.digest q)

section pushing
variable {q : PartitionId} {ys ys' : List Bytes} {ev : Event}

theorem Pushing.mono (hs : ys ⊆ ys') (h : S.Pushing q ys ev) : S.Pushing q ys' ev :=
  { h with put := fun y name key value expireAt he =>
      (h.put y name key value expireAt he).imp_left fun hy => hs hy }

theorem Pushing.not_prunes (h : S.Pushing q ys ev) (y : Bytes) : ¬ Prunes y ev :=
  fun ⟨_, q, keep, he⟩ => h.prune y q keep he

theorem Pushing.not_snaps (h : S.Pushing q ys ev) (q : PartitionId) : ¬ S.Snaps q ev :=
  fun ⟨_, he⟩ => h.snap _ q he

theorem Pushing.not_starts (h : S.Pushing q ys ev) : ¬ S.Starts ev :=
  fun ⟨_, q, he⟩ => h.start _ q he

end pushing

/-- A push of an entry the pass has read. -/
theorem sendPut_obeys (hy : y ∈ S.ids) (hyo : y ≠ S.owner) {v : Value} {name key : Bytes}
    (hplace : S.placed → routedPartition name key = q) (hf : S.Found h q (name, key) v)
    (hnow : Read h S.owner now) (hlive : v.expired now = false) (hl : lapses v.expireAt now = false)
    (hs : S.Sending h) :
    S.contract.Obeys 0
      (fun _ h' => Extends (S.Pushing q [y]) h h' ∧ Since (Pushes y (name, key)) (Prunes y) h')
      (sendPut (S.addr y) name key v.data (remainingTTLms v.expireAt now) true) h := by
  refine send_obeys hy (fun hr => absurd (Or.inr hs) hr) ?_
  refine Obeys.step trivial (fun t _ => ?_)
  refine Obeys.step (fun _ => ⟨hyo, q, v, now, t, ?_, rfl, ?_, ?_, hlive, hl, rfl⟩)
    (fun created _ arrived _ => ⟨?_, ?_⟩)
  · exact List.mem_cons_of_mem _ (List.mem_cons_of_mem _ hf)
  · exact List.mem_cons_of_mem _ (List.mem_cons_of_mem _ hnow)
  · exact List.mem_cons_self
  · refine ⟨[_, _, _, _], rfl, fun ev hev => ?_⟩
    simp only [List.mem_cons, List.not_mem_nil, or_false] at hev
    rcases hev with rfl | rfl | rfl | rfl
    · exact ⟨by simp, by simp, by simp, by simp⟩
    · refine ⟨fun y' _ _ _ _ he => ?_, by simp, by simp, by simp⟩
      injection he with hy' he
      injection he with hname hkey
      subst hname hkey
      exact ⟨List.mem_singleton.mpr hy'.symm, hplace⟩
    · exact ⟨by simp, by simp, by simp, by simp⟩
    · exact ⟨by simp, by simp, by simp, by simp⟩
  · exact Since.cons (by simp [Prunes]) (Since.here ⟨rfl, _, _, rfl⟩)

theorem pushStale_obeys {v : Value} {name key : Bytes} (hplace : S.placed → routedPartition name key = q)
    (ys : List Bytes) (hys : ∀ y ∈ ys, y ∈ S.ids ∧ y ≠ S.owner) (hlive : v.expired now = false)
    (hl : lapses v.expireAt now = false) (sent : Bool) (hf : S.Found h q (name, key) v)
    (hnow : Read h S.owner now) (hs : S.Sending h) :
    S.contract.Obeys 0
      (fun _ h' => Extends (S.Pushing q ys) h h' ∧
        ∀ y ∈ ys, Since (Pushes y (name, key)) (Prunes y) h')
      (pushStale name key v.data (remainingTTLms v.expireAt now) (ys.map S.addr) sent) h := by
  induction ys generalizing sent h with
  | nil => exact ⟨Extends.refl _ h, by simp⟩
  | cons y ys ih =>
    obtain ⟨hy, hyo⟩ := hys y List.mem_cons_self
    have hrest := fun z hz => hys z (List.mem_cons_of_mem _ hz)
    refine Obeys.bind ((sendPut_obeys hy hyo hplace hf hnow hlive hl hs).mono ?_)
    rintro out h₁ ⟨hx, hput⟩
    have hs₁ : S.Sending h₁ := hs.continued (hx.mono fun _ hev => hev.not_starts)
    -- the other pushes prune nothing
    have hgo : ∀ sent, S.contract.Obeys 0
        (fun _ h' => Extends (S.Pushing q (y :: ys)) h h' ∧
          ∀ z ∈ y :: ys, Since (Pushes z (name, key)) (Prunes z) h')
        (pushStale name key v.data (remainingTTLms v.expireAt now) (ys.map S.addr) sent) h₁ := by
      intro sent
      refine (ih hrest sent (hx.subset hf) (hx.subset hnow) hs₁).mono ?_
      rintro _ h' ⟨hx', hput'⟩
      refine ⟨(hx.mono fun _ => Pushing.mono (by simp)).trans
        (hx'.mono fun _ => Pushing.mono (by simp)), fun z hz => ?_⟩
      rcases List.mem_cons.mp hz with rfl | hz
      · exact hput.continued (hx'.mono fun _ hp => hp.not_prunes z)
      · exact hput' z hz
    cases out with
    | ok b => exact hgo true
    | error err => exact hgo sent

/-- Where the pass stands after its snapshot: what is in the key set was pushed, and what is not was
found missing or is still to be read. -/
structure Progress (S : Sync) (q : PartitionId) (now : ℕ) (ys : List Bytes) (keyset : List Ref)
    (rest : List Entry) (h : List Event) : Prop where
  read : Read h S.owner now
  sending : S.Sending h
  kept : ∀ r ∈ keyset, ∀ y ∈ ys, Since (Pushes y r) (Prunes y) h
  missed : ∀ r, r ∉ keyset →
    r ∈ rest.map Entry.ref ∨ Since (S.Misses q r now) (S.Snaps q) h

theorem Progress.continued {q q' : PartitionId} {ys ys' : List Bytes} {keyset : List Ref}
    {rest : List Entry} {h h' : List Event} (hp : S.Progress q now ys keyset rest h)
    (hx : Extends (S.Pushing q' ys') h h') : S.Progress q now ys keyset rest h' where
  read := hx.subset hp.read
  sending := hp.sending.continued (hx.mono fun _ h => h.not_starts)
  kept r hr y hy := (hp.kept r hr y hy).continued (hx.mono fun _ h => h.not_prunes y)
  missed r hr := (hp.missed r hr).imp_right fun hm => hm.continued (hx.mono fun _ h => h.not_snaps q)

theorem syncEntries_obeys (ys : List Bytes) (hys : ∀ y ∈ ys, y ∈ S.ids ∧ y ≠ S.owner) (es : List Entry)
    (hes : S.placed → ∀ e ∈ es, routedPartition e.mapName e.key = q) (keyset : List Ref) (pushed : ℕ)
    (hp : S.Progress q now ys keyset es h) :
    S.contract.Obeys 0
      (fun out h' => S.Progress q now ys out.1 [] h' ∧ Extends (S.Pushing q ys) h h')
      (syncEntries S.owner q now (ys.map S.addr) es keyset pushed) h := by
  induction es generalizing keyset pushed h with
  | nil => exact ⟨hp, Extends.refl _ h⟩
  | cons e es ih =>
    unfold syncEntries
    refine Obeys.step trivial (fun found hfound => ?_)
    have hlook : Extends (S.Pushing q ys) h
        (⟨0, .on S.owner (.lookup q e.mapName e.key), found⟩ :: h) :=
      Extends.single ⟨by simp, by simp, by simp, by simp⟩
    have hp₁ := hp.continued hlook
    have hes' : S.placed → ∀ e ∈ es, routedPartition e.mapName e.key = q :=
      fun hpl d hd => hes hpl d (List.mem_cons_of_mem _ hd)
    -- an entry found missing is left out of the key set
    have hskip : S.Misses q e.ref now ⟨0, .on S.owner (.lookup q e.mapName e.key), found⟩ →
        S.contract.Obeys 0
          (fun out h' => S.Progress q now ys out.1 [] h' ∧ Extends (S.Pushing q ys) h h')
          (syncEntries S.owner q now (ys.map S.addr) es keyset pushed)
          (⟨0, .on S.owner (.lookup q e.mapName e.key), found⟩ :: h) := by
      intro hmiss
      refine (ih hes' keyset pushed { hp₁ with missed := fun r hr => ?_ }).mono
        (fun _ h' hq => ⟨hq.1, hlook.trans hq.2⟩)
      rcases hp₁.missed r hr with hmem | hm
      · rcases List.mem_cons.mp hmem with rfl | hmem
        · exact Or.inr (Since.here hmiss)
        · exact Or.inl hmem
      · exact Or.inr hm
    cases found with
    | none => exact hskip .gone
    | some v =>
      dsimp only
      split
      · next hl =>
        refine hskip (.lapsed v (fun hq => ?_) hl)
        rw [(hfound rfl v rfl now hp.read).2 hq] at hl
        cases hl
      · next hl =>
        refine Obeys.bind ((pushStale_obeys (fun hpl => hes hpl e List.mem_cons_self) ys hys
          (hfound rfl v rfl now hp.read).1 (by simpa using hl) false List.mem_cons_self hp₁.read
          hp₁.sending).mono ?_)
        rintro sent h₁ ⟨hx, hput⟩
        have hp₂ := hp₁.continued hx
        refine (ih hes' (keyset ++ [e.ref]) _ { hp₂ with kept := ?_, missed := ?_ }).mono
          (fun _ h' hq => ⟨hq.1, (hlook.trans hx).trans hq.2⟩)
        · intro r hr y hy
          rcases List.mem_append.mp hr with hr | hr
          · exact hp₂.kept r hr y hy
          · rw [List.mem_singleton.mp hr]
            exact hput y hy
        · intro r hr
          rw [List.mem_append, not_or] at hr
          rcases hp₂.missed r hr.1 with hmem | hm
          · exact Or.inl ((List.mem_cons.mp hmem).resolve_left
              (fun e => hr.2 (List.mem_singleton.mpr e)))
          · exact Or.inr hm

/-- The events of a reconciliation of partition `q` with the nodes of `ys`. -/
structure Reconciling (S : Sync) (q : PartitionId) (ys : List Bytes) (ev : Event) : Prop where
  put : ∀ y name key value expireAt, ev.act ≠ .on y (.put name key value expireAt)
  prune : ∀ y q' keep, ev.act = .on y (.prune q' keep) → y ∈ ys ∧ q' = q
  snap : ∀ y q, ev.act ≠ .on y (.snapshot q)
  start : ∀ y q, ev.act ≠ .on y (.digest q)

theorem Reconciling.mono {ys ys' : List Bytes} (hs : ys ⊆ ys') {ev : Event}
    (h : S.Reconciling q ys ev) : S.Reconciling q ys' ev :=
  { h with prune := fun y q' keep he => (h.prune y q' keep he).imp_left fun hy => hs hy }

/-- The pass prunes partition `q` on `y`. -/
def PrunesOf (q : PartitionId) (y : Bytes) (ev : Event) : Prop :=
  ev.tid = 0 ∧ ∃ keep, ev.act = .on y (.prune q keep)

/-- The pass puts an entry of partition `q` on `y`. -/
def PutsIn (q : PartitionId) (y : Bytes) (ev : Event) : Prop :=
  ev.tid = 0 ∧ ∃ name key value expireAt, ev.act = .on y (.put name key value expireAt) ∧
    routedPartition name key = q

/-- The key set reaches a backup, which prunes unless it takes itself for the owner. -/
theorem sendReconcile_obeys (hy : y ∈ S.ids) (hyo : y ≠ S.owner) {keep : List Ref}
    (hp : S.Progress q now [y] keep [] h) :
    S.contract.Obeys 0
      (fun _ h' => Extends (S.Reconciling q [y]) h h' ∧
        (S.follows q y → Since (PrunesOf q y) (PutsIn q y) h'))
      (sendReconcile (S.addr y) q keep) h := by
  refine send_obeys hy (fun hr => absurd (Or.inr hp.sending) hr) ?_
  refine Obeys.step trivial (fun tbl htbl => ?_)
  have hquiet : Extends (S.Pushing q []) h
      (⟨0, .on y .table, tbl⟩ :: ⟨0, .connect (S.addr y), some y⟩ :: h) := by
    refine Extends.trans (Extends.single ?_) (Extends.single ?_)
    all_goals exact ⟨by simp, by simp, by simp, by simp⟩
  have hp₁ := hp.continued hquiet
  split
  · next hown =>
    refine fun arrived _ => ⟨?_, fun hf => absurd hown (htbl.2 q hf)⟩
    refine ⟨[_, _, _], rfl, fun ev hev => ?_⟩
    simp only [List.mem_cons, List.not_mem_nil, or_false] at hev
    rcases hev with rfl | rfl | rfl
    all_goals exact ⟨by simp, by simp, by simp, by simp⟩
  · refine Obeys.step ⟨rfl, hyo, now, hp₁.read, fun r => ⟨fun hr => ?_, fun hr => ?_⟩⟩
      (fun pruned _ arrived _ => ⟨?_, fun _ => ?_⟩)
    · exact hp₁.kept r hr y (List.mem_singleton.mpr rfl)
    · exact (hp₁.missed r hr).resolve_left (by simp)
    · refine ⟨[_, _, _, _], rfl, fun ev hev => ?_⟩
      simp only [List.mem_cons, List.not_mem_nil, or_false] at hev
      rcases hev with rfl | rfl | rfl | rfl
      · exact ⟨by simp, by simp, by simp, by simp⟩
      · refine ⟨by simp, fun y' q' keep' he => ?_, by simp, by simp⟩
        injection he with he hq
        injection hq with hq
        exact ⟨List.mem_singleton.mpr he.symm, hq.symm⟩
      · exact ⟨by simp, by simp, by simp, by simp⟩
      · exact ⟨by simp, by simp, by simp, by simp⟩
    · exact Since.cons (by simp [PutsIn]) (Since.here ⟨rfl, keep, rfl⟩)

theorem reconcileAll_obeys (ys : List Bytes) (hnodup : ys.Nodup) (hys : ∀ y ∈ ys, y ∈ S.ids ∧ y ≠ S.owner)
    {keep : List Ref} (hp : S.Progress q now ys keep [] h) :
    S.contract.Obeys 0
      (fun _ h' => Extends (S.Reconciling q ys) h h' ∧
        ∀ y ∈ ys, S.follows q y → Since (PrunesOf q y) (PutsIn q y) h')
      (reconcileAll q keep (ys.map S.addr)) h := by
  induction ys generalizing h with
  | nil => exact ⟨Extends.refl _ h, by simp⟩
  | cons y ys ih =>
    obtain ⟨hy, hyo⟩ := hys y List.mem_cons_self
    obtain ⟨hnew, hnodup'⟩ := List.nodup_cons.mp hnodup
    refine Obeys.bind ((sendReconcile_obeys hy hyo
      { hp with kept := fun r hr z hz => hp.kept r hr z (by simp_all) }).mono ?_)
    rintro out h₁ ⟨hx, hprune⟩
    -- the others have not been pruned yet
    have hp₁ : S.Progress q now ys keep [] h₁ :=
      { read := hx.subset hp.read
        sending := hp.sending.continued (hx.mono fun ev hev => fun ⟨_, q', he⟩ => hev.start _ q' he)
        kept := by
          intro r hr z hz
          refine (hp.kept r hr z (List.mem_cons_of_mem _ hz)).continued (hx.mono ?_)
          rintro ev hev ⟨-, q', keep', he⟩
          exact hnew (List.mem_singleton.mp (hev.prune z q' keep' he).1 ▸ hz)
        missed := fun r hr => (hp.missed r hr).imp_right fun hm =>
          hm.continued (hx.mono fun ev hev => fun ⟨_, he⟩ => hev.snap _ q he) }
    refine (ih hnodup' (fun z hz => hys z (List.mem_cons_of_mem _ hz)) hp₁).mono ?_
    rintro _ h' ⟨hx', hprune'⟩
    refine ⟨(hx.mono fun _ => Reconciling.mono (by simp)).trans
      (hx'.mono fun _ => Reconciling.mono (by simp)), fun z hz hf => ?_⟩
    rcases List.mem_cons.mp hz with rfl | hz
    · refine (hprune hf).continued (hx'.mono ?_)
      rintro ev hev ⟨-, name, key, value, expireAt, he, -⟩
      exact hev.put _ name key value expireAt he
    · exact hprune' z hz hf

/-- Backup `y` has found that it has the owner's digest of partition `q`. -/
def Matched (S : Sync) (q : PartitionId) (y : Bytes) : List Event → Prop
  | [] => False
  | ev :: h => (∃ d : UInt64, ev = ⟨0, .on y (.digest q), d⟩ ∧
      (⟨0, .on S.owner (.digest q), d⟩ : Event) ∈ h) ∨ Matched S q y h

/-- The owner has heard from `y` that it has the owner's digest of partition `q`. -/
def Answered (S : Sync) (q : PartitionId) (y : Bytes) : List Event → Prop
  | [] => False
  | ev :: h => (ev = ⟨0, .reply y, true⟩ ∧ S.Matched q y h) ∨ Answered S q y h

theorem Answered.mono {h h' : List Event} (ha : S.Answered q y h) (hs : h <:+ h') : S.Answered q y h' := by
  obtain ⟨new, rfl⟩ := hs
  induction new with
  | nil => exact ha
  | cons ev new ih => exact Or.inr ih

theorem Answered.matched (ha : S.Answered q y h) :
    S.Matched q y h := by
  induction h with
  | nil => exact ha
  | cons ev h ih => exact Or.inr (ha.elim And.right ih)

/-- The events of probes: no store changes. -/
structure Probing (ev : Event) : Prop where
  put : ∀ y name key value expireAt, ev.act ≠ .on y (.put name key value expireAt)
  prune : ∀ y q keep, ev.act ≠ .on y (.prune q keep)

theorem sendDigest_obeys {digest : UInt64} (hy : y ∈ S.ids)
    (ho : (⟨0, .on S.owner (.digest q), digest⟩ : Event) ∈ h) :
    S.contract.Obeys 0
      (fun res h' => Extends Probing h h' ∧ (res = .ok true → S.Answered q y h'))
      (sendDigest (S.addr y) q digest) h := by
  refine send_obeys hy (fun _ => ⟨Extends.single ⟨by simp, by simp⟩, by simp⟩) ?_
  refine Obeys.step trivial (fun d _ arrived _ => ⟨?_, fun hres => ?_⟩)
  · refine ⟨[_, _, _], rfl, fun ev hev => ?_⟩
    simp only [List.mem_cons, List.not_mem_nil, or_false] at hev
    rcases hev with rfl | rfl | rfl
    all_goals exact ⟨by simp, by simp⟩
  · cases arrived with
    | false => simp at hres
    | true =>
      have hd : (d == digest) = true := Except.ok.inj hres
      rw [← beq_iff_eq.mp hd] at ho
      exact Or.inl ⟨rfl, Or.inl ⟨d, rfl, List.mem_cons_of_mem _ ho⟩⟩

/-- The backups found stale; the others have answered with the owner's digest. -/
theorem probe_obeys {digest : UInt64} (bs : List Bytes) (hbs : ∀ y ∈ bs, y ∈ S.ids)
    (hown : (⟨0, .on S.owner (.digest q), digest⟩ : Event) ∈ h) :
    S.contract.Obeys 0
      (fun stale h' => Extends Probing h h' ∧ ∃ ys : List Bytes, stale = ys.map S.addr ∧
        ys.Sublist bs ∧ S.owner ∉ ys ∧ ∀ y ∈ bs, y ≠ S.owner → y ∉ ys → S.Answered q y h')
      (probe S.owner q digest bs) h := by
  induction bs generalizing h with
  | nil => exact ⟨Extends.refl _ h, [], rfl, List.Sublist.refl _, by simp, by simp⟩
  | cons y bs ih =>
    have hrest := fun z hz => hbs z (List.mem_cons_of_mem _ hz)
    unfold probe
    split
    · next hyo =>
      refine (ih hrest hown).mono (fun stale h' ⟨hx, ys, hst, hsub, ho, hm⟩ => ?_)
      refine ⟨hx, ys, hst, hsub.cons y, ho, fun z hz hzo hzy => ?_⟩
      rcases List.mem_cons.mp hz with rfl | hz
      · exact absurd hyo hzo
      · exact hm z hz hzo hzy
    · next hyo =>
      refine Obeys.step trivial (fun r hr => ?_)
      obtain rfl : r = some (S.addr y) := hr rfl (hbs y List.mem_cons_self)
      have haddr : Extends Probing h (⟨0, .on S.owner (.addrOf y), some (S.addr y)⟩ :: h) :=
        Extends.single ⟨by simp, by simp⟩
      refine Obeys.bind ((sendDigest_obeys (hbs y List.mem_cons_self)
        (haddr.subset hown)).mono ?_)
      rintro res h₁ ⟨hx₁, hmatch⟩
      refine Obeys.bind ((ih hrest (hx₁.subset (haddr.subset hown))).mono ?_)
      rintro stale h' ⟨hx, ys, rfl, hsub, ho, hm⟩
      have hall := (haddr.trans hx₁).trans hx
      by_cases hres : res = .ok true
      · rw [if_pos hres]
        refine ⟨hall, ys, rfl, hsub.cons y, ho, fun z hz hzo hzy => ?_⟩
        rcases List.mem_cons.mp hz with rfl | hz
        · exact (hmatch hres).mono hx.suffix
        · exact hm z hz hzo hzy
      · rw [if_neg hres]
        refine ⟨hall, y :: ys, rfl, hsub.cons_cons y, ?_, fun z hz hzo hzy => ?_⟩
        · simpa using ⟨Ne.symm hyo, ho⟩
        · rw [List.mem_cons, not_or] at hzy
          exact hm z ((List.mem_cons.mp hz).resolve_left hzy.1) hzo hzy.2

/-- The event changes no entry of partition `q`. -/
def Off (q : PartitionId) (ev : Event) : Prop := ∀ y, ¬ PutsIn q y ev ∧ ¬ PrunesOf q y ev

section off
variable {q q' : PartitionId} {ys : List Bytes} {ev : Event}

theorem Probing.off (h : Probing ev) (q : PartitionId) : Off q ev := fun y =>
  ⟨fun ⟨_, name, key, value, expireAt, he, _⟩ => h.put y name key value expireAt he,
    fun ⟨_, keep, he⟩ => h.prune y q keep he⟩

theorem Pushing.off (hpl : S.placed) (hne : q' ≠ q) (h : S.Pushing q ys ev) : Off q' ev := fun y =>
  ⟨fun ⟨_, name, key, value, expireAt, he, hq⟩ =>
      hne (hq.symm.trans ((h.put y name key value expireAt he).2 hpl)),
    fun ⟨_, keep, he⟩ => h.prune y q' keep he⟩

theorem Reconciling.off (hne : q' ≠ q) (h : S.Reconciling q ys ev) : Off q' ev := fun y =>
  ⟨fun ⟨_, name, key, value, expireAt, he, _⟩ => h.put y name key value expireAt he,
    fun ⟨_, keep, he⟩ => hne (h.prune y q' keep he).2⟩

end off

/-- What a pass did for partition `q` on backup `y`: it answered the probe with the owner's digest, or
it was pruned last, unless it takes itself for the owner. -/
def Settled (S : Sync) (q : PartitionId) (y : Bytes) (h : List Event) : Prop :=
  S.Answered q y h ∨ (S.follows q y → Since (PrunesOf q y) (PutsIn q y) h)

theorem Settled.continued {h h' : List Event} (hs : S.Settled q y h)
    (hx : Extends (Off q) h h') : S.Settled q y h' :=
  Or.imp (fun ha => ha.mono hx.suffix)
    (fun hp hf => (hp hf).continued (hx.mono fun _ hev => (hev y).1)) hs

/-- A pass has come to partition `q` on backup `y`: it answered with the owner's digest, or was
pruned. -/
def Reached (S : Sync) (q : PartitionId) (y : Bytes) (h : List Event) : Prop :=
  S.Answered q y h ∨ (S.follows q y → ∃ ev ∈ h, PrunesOf q y ev)

theorem Settled.reached {h h' : List Event} (hs : S.Settled q y h) (hx : h <:+ h') : S.Reached q y h' :=
  Or.imp (fun ha => ha.mono hx)
    (fun hp hf => (hp hf).exists_mem.imp fun _ ⟨hev, he⟩ => ⟨hx.subset hev, he⟩) hs

theorem syncPartition_obeys (hbs : ∀ y ∈ tbl.backupsOf q, y ∈ S.ids) (hnodup : (tbl.backupsOf q).Nodup)
    (hnow : Read h S.owner now) :
    S.contract.Obeys 0
      (fun _ h' => (S.placed → ∀ q', q' ≠ q → Extends (Off q') h h') ∧
        (tbl.ownerOf q = S.owner → ∀ y ∈ tbl.backupsOf q, y ≠ S.owner → S.Settled q y h'))
      (syncPartition S.owner tbl now q) h := by
  unfold syncPartition
  split
  · next hown => exact ⟨fun _ q' _ => Extends.refl _ h, fun h' => absurd h' hown⟩
  · refine Obeys.step trivial (fun d _ => ?_)
    have hd : Extends Probing h (⟨0, .on S.owner (.digest q), d⟩ :: h) :=
      Extends.single ⟨by simp, by simp⟩
    refine Obeys.bind ((probe_obeys (tbl.backupsOf q) hbs List.mem_cons_self).mono ?_)
    rintro stale h₁ ⟨hx₁, ys, rfl, hsub, ho, hmatch⟩
    have hx₀ := hd.trans hx₁
    split
    · next hnil =>
      obtain rfl : ys = [] := List.map_eq_nil_iff.mp hnil
      exact ⟨fun _ q' _ => hx₀.mono fun _ hev => hev.off q',
        fun _ y hy hyo => Or.inl (hmatch y hy hyo (by simp))⟩
    · refine Obeys.step trivial (fun snap hsnap => ?_)
      have hys : ∀ y ∈ ys, y ∈ S.ids ∧ y ≠ S.owner := fun y hy =>
        ⟨hbs y (hsub.subset hy), fun e => ho (e ▸ hy)⟩
      have hp : S.Progress q now ys [] (orderQueueMetaLast snap)
          (⟨0, .on S.owner (.snapshot q), snap⟩ :: h₁) :=
        { read := List.mem_cons_of_mem _ (hx₀.subset hnow)
          sending := Since.here ⟨q, rfl, rfl⟩
          kept := by simp
          missed := by
            intro r _
            by_cases hr : r ∈ snap.map Entry.ref
            · refine Or.inl ?_
              obtain ⟨e, he, rfl⟩ := List.mem_map.mp hr
              exact List.mem_map.mpr ⟨e, mem_orderQueueMetaLast.mpr he, rfl⟩
            · exact Or.inr (Since.here (.unlisted snap hr)) }
      have hes : S.placed → ∀ e ∈ orderQueueMetaLast snap, routedPartition e.mapName e.key = q :=
        fun hpl e he => hsnap rfl hpl e (mem_orderQueueMetaLast.mp he)
      have hx₁' : Extends Probing h (⟨0, .on S.owner (.snapshot q), snap⟩ :: h₁) :=
        hx₀.trans (Extends.single ⟨by simp, by simp⟩)
      refine Obeys.bind ((syncEntries_obeys ys hys _ hes [] 0 hp).mono ?_)
      rintro out h₂ ⟨hp₂, hx₂⟩
      refine Obeys.bind ((reconcileAll_obeys ys (hnodup.sublist hsub) hys hp₂).mono ?_)
      rintro _ h₃ ⟨hx₃, hprune⟩
      refine ⟨fun hpl q' hne => ?_, fun _ y hy hyo => ?_⟩
      · exact (hx₁'.mono fun _ hev => hev.off q').trans ((hx₂.mono fun _ hev => hev.off hpl hne).trans
          (hx₃.mono fun _ hev => hev.off hne))
      · by_cases hyy : y ∈ ys
        · exact Or.inr (hprune y hyy)
        · refine Or.inl ((hmatch y hy hyo hyy).mono ?_)
          exact (List.suffix_cons _ _).trans (hx₂.suffix.trans hx₃.suffix)

/-- The partitions a pass of `batch` rounds from `q` on visits. -/
def visited : ℕ → PartitionId → List PartitionId
  | 0, _ => []
  | batch + 1, q => q :: visited batch (q + 1)

/-- Where a pass starts. -/
def first (start : ℤ) : PartitionId := Fin.ofNat Count (start.emod Count).toNat

/-- What a pass over the given partitions did. -/
structure Passed (S : Sync) (tbl : Table) (qs : List PartitionId) (h h' : List Event) : Prop where
  off : S.placed → ∀ q, q ∉ qs → Extends (Off q) h h'
  settled : S.placed → ∀ q ∈ qs, tbl.ownerOf q = S.owner → ∀ y ∈ tbl.backupsOf q, y ≠ S.owner →
    S.Settled q y h'
  reached : ∀ q ∈ qs, tbl.ownerOf q = S.owner → ∀ y ∈ tbl.backupsOf q, y ≠ S.owner →
    S.Reached q y h'

theorem syncLoop_obeys (hbs : ∀ q, ∀ y ∈ tbl.backupsOf q, y ∈ S.ids)
    (hnodup : ∀ q, (tbl.backupsOf q).Nodup) (batch : ℕ) (q : PartitionId) (pushed : ℕ)
    (hnow : Read h S.owner now) :
    S.contract.Obeys 0 (fun _ h' => S.Passed tbl (visited batch q) h h')
      (syncLoop S.owner tbl now batch q pushed) h := by
  induction batch generalizing q pushed h with
  | zero =>
    exact ⟨fun _ q' _ => Extends.refl _ h, fun _ q' hq' => absurd hq' (by simp [visited]),
      fun q' hq' => absurd hq' (by simp [visited])⟩
  | succ batch ih =>
    refine Obeys.bind ((syncPartition_obeys (hbs q) (hnodup q) hnow).suffix.mono ?_)
    rintro d h₁ ⟨⟨hoff, hround⟩, hsub⟩
    refine (ih (q + 1) (pushed + d) (hsub.subset hnow)).suffix.mono
      (fun _ h' ⟨hrest, hsub'⟩ => ⟨?_, ?_, ?_⟩)
    · intro hpl q' hq'
      rw [visited, List.mem_cons, not_or] at hq'
      exact (hoff hpl q' hq'.1).trans (hrest.off hpl q' hq'.2)
    · intro hpl q' hq' hown y hy hyo
      by_cases hq : q' ∈ visited batch (q + 1)
      · exact hrest.settled hpl q' hq hown y hy hyo
      · obtain rfl : q' = q := (List.mem_cons.mp hq').resolve_right hq
        exact (hround hown y hy hyo).continued (hrest.off hpl q' hq)
    · intro q' hq' hown y hy hyo
      rcases List.mem_cons.mp hq' with rfl | hq'
      · exact (hround hown y hy hyo).reached hsub'
      · exact hrest.reached q' hq' hown y hy hyo

/-- **A pass of anti-entropy keeps the contract**, and settles every backup of the partitions it
visits. -/
theorem syncBackups_obeys (hbs : ∀ q, ∀ y ∈ tbl.backupsOf q, y ∈ S.ids)
    (hnodup : ∀ q, (tbl.backupsOf q).Nodup) (start : ℤ) (batch : ℕ) (h : List Event) :
    S.contract.Obeys 0 (fun _ h' => S.Passed tbl (visited batch (first start)) h h')
      (syncBackups S.owner tbl start batch) h := by
  refine Obeys.step trivial (fun now _ => ?_)
  have hread : ∀ q, Off q ⟨0, .on S.owner .nowNano, now⟩ := fun q y => by simp [PutsIn, PrunesOf]
  refine (syncLoop_obeys hbs hnodup batch _ 0 List.mem_cons_self).mono (fun _ h' hp => ?_)
  exact { hp with off := fun hpl q hq => (Extends.single (hread q)).trans (hp.off hpl q hq) }

theorem antiEntropy_obeys (hbs : ∀ q, ∀ y ∈ S.table.backupsOf q, y ∈ S.ids)
    (hnodup : ∀ q, (S.table.backupsOf q).Nodup) (start : ℤ) (batch : ℕ) (h : List Event) :
    S.contract.Obeys 0
      (fun _ h' => ∀ q ∈ visited batch (first start), S.table.ownerOf q = S.owner →
        ∀ y ∈ S.table.backupsOf q, y ≠ S.owner → S.Reached q y h')
      (Node.antiEntropy S.owner start batch) h := by
  refine Obeys.step trivial (fun tbl htbl => ?_)
  obtain rfl := htbl.1 rfl
  refine Obeys.bind ((syncBackups_obeys hbs hnodup start batch _).mono ?_)
  exact fun _ h' hp => hp.reached

end pass

/-! ### Puts beside the pass -/

section puts
variable {S} {i : ℕ}

/-- A put of `r` on node `n`. -/
def PutsOn (n : Bytes) (r : Ref) (ev : Event) : Prop :=
  ∃ value expireAt, ev.act = .on n (.put r.1 r.2 value expireAt)

/-- An action without a store change, which everybody may take. -/
def Idle (e : Action) : Prop :=
  (∀ i h, S.pre i h e) ∧ ∀ n name key value expireAt, e ≠ .on n (.put name key value expireAt)

theorem plumbing_idle : Plumbing S.Idle where
  on m {a} ha := by
    refine ⟨fun i h => ?_, fun n name key value expireAt he => ?_⟩
    · cases a <;> first | exact ha.elim | trivial
    · injection he with _ he
      rw [he] at ha
      exact ha
  connect _ := ⟨fun _ _ => trivial, by simp⟩
  reply _ := ⟨fun _ _ => trivial, by simp⟩
  toStore _ _ _ := ⟨fun _ _ => trivial, by simp⟩
  toDelete _ _ := ⟨fun _ _ => trivial, by simp⟩

theorem Idle.not_putsOn {ev : Event} (h : S.Idle ev.act) (n : Bytes) (r : Ref) : ¬ PutsOn n r ev :=
  fun ⟨value, expireAt, he⟩ => h.2 n r.1 r.2 value expireAt he

/-- An idle program puts nothing. -/
theorem idle_obeys {α : Type} {p : Prog α} (hp : p.All S.Idle) (h : List Event) :
    S.contract.Obeys i (fun _ h' => ∀ n r, Extends (fun ev => ¬ PutsOn n r ev) h h') p h := by
  refine ((Obeys.of_all hp (fun h e he => he.1 i h) h).extending hp).mono ?_
  exact fun _ h' hq n r => hq.2.mono fun ev hev => hev.not_putsOn n r

theorem replicateTo_obeys (hi : i ≠ 0) (r : Ref) (value : Bytes) (ttlMs : Int64) {l : List Bytes}
    (hl : ∀ y ∈ l, y ∈ S.ids) (h : List Event) :
    S.contract.Obeys i (fun _ h' => Extends (fun ev => ∀ r', ¬ PutsOn S.owner r' ev) h h' ∧
        ∀ y ∈ l, y ≠ S.owner → Since (PutsOn y r) (PutsOn S.owner r) h')
      (replicateTo S.owner (.put r.1 r.2 value ttlMs) l) h := by
  induction l generalizing h with
  | nil => exact ⟨Extends.refl _ h, by simp⟩
  | cons y l ih =>
    have hih := ih (fun z hz => hl z (List.mem_cons_of_mem _ hz))
    unfold replicateTo
    split
    · next hyo =>
      refine (hih h).mono (fun _ h' hq => ⟨hq.1, fun z hz hzo => ?_⟩)
      exact hq.2 z ((List.mem_cons.mp hz).resolve_left (fun e => hzo (e.trans hyo))) hzo
    · next hyo =>
      refine Obeys.step trivial (fun a ha => ?_)
      obtain rfl : a = some (S.addr y) := ha rfl (hl y List.mem_cons_self)
      refine Obeys.bind (send_obeys (hl y List.mem_cons_self)
        (fun hr => absurd (Or.inl hi) hr) ?_)
      refine Obeys.step trivial (fun t _ => ?_)
      refine Obeys.step (fun h0 => absurd h0 hi) (fun created _ arrived _ => ?_)
      refine (hih _).mono (fun _ h' hq => ⟨?_, fun z hz hzo => ?_⟩)
      · refine Extends.trans ⟨[_, _, _, _, _], rfl, fun ev hev => ?_⟩ hq.1
        simp only [List.mem_cons, List.not_mem_nil, or_false] at hev
        rcases hev with rfl | rfl | rfl | rfl | rfl
        all_goals simp [PutsOn, hyo]
      · rcases List.mem_cons.mp hz with rfl | hz
        · exact Since.continued (hq.1.mono fun _ hev => hev r)
            (Since.cons (by simp [PutsOn]) (Since.here ⟨_, _, rfl⟩))
        · exact hq.2 z hz hzo

/-- **A put of the owner reaches every backup**: nothing is left to do when it returns. -/
theorem applyPut_obeys (hi : i ≠ 0) (name key value : Bytes) (ttlMs : Int64)
    (hbs : ∀ q, ∀ y ∈ S.table.backupsOf q, y ∈ S.ids) :
    S.contract.Obeys i (fun _ h' => ∀ r, ∀ y ∈ S.table.backupsOf (routedPartition r.1 r.2),
        y ≠ S.owner → ¬ Since (PutsOn S.owner r) (PutsOn y r) h')
      (Service.applyPut S.owner name key value ttlMs false) [] := by
  refine Obeys.bind (Obeys.step trivial (fun now _ => ?_))
  refine ⟨fun h0 => absurd h0 hi, fun created _ => ?_⟩
  refine Obeys.bind (Obeys.step trivial (fun tbl htbl => ?_))
  obtain rfl := htbl.1 rfl
  refine (replicateTo_obeys hi (name, key) value ttlMs (hbs _) _).mono (fun _ h₁ hq => ?_)
  have hemit := (plumbing_idle (S := S)).emit S.owner (if created then .created else .updated) name
    key value
  have hwrite := (plumbing_idle (S := S)).writeThrough S.owner name key value created
  refine Obeys.bind ((idle_obeys hemit h₁).mono (fun _ h₂ hx => ?_))
  refine (idle_obeys hwrite h₂).mono (fun _ h₃ hx' r y hy hyo hpend => ?_)
  by_cases hr : r = (name, key)
  · subst hr
    refine Since.asymm ?_ ((hq.2 y hy hyo).continued ((hx _ _).trans (hx' _ _))) hpend
    rintro ev ⟨v, e, he⟩ ⟨v', e', he'⟩
    rw [he] at he'
    injection he' with he'
    exact hyo he'
  · -- nothing else was put on the owner
    obtain ⟨new, rfl, hnew⟩ := (hq.1.mono fun _ hev => hev r).trans ((hx S.owner r).trans (hx' _ r))
    obtain ⟨ev, hev, hput⟩ := hpend.exists_mem
    rcases List.mem_append.mp hev with hev | hev
    · exact hnew ev hev hput
    · simp only [List.mem_cons, List.not_mem_nil, or_false] at hev
      obtain ⟨v, e, he⟩ := hput
      rcases hev with rfl | rfl | rfl
      · simp at he
      · injection he with _ he
        injection he with h1 h2
        exact hr (Prod.ext h1.symm h2.symm)
      · simp at he

end puts

end Sync

end Medusa
