import Medusa.Map
import Medusa.Replicas
import Medusa.Writes

/-! # Failover

Some holders of a partition have crashed, and no other node knows yet.  Calls of `Map.Put` and
`Map.Remove` reach the owner, or the first live backup when the owner has crashed; a `Map.Get` walks
the same list, but goes on after a backup that has no copy.

* `Later`: what a program did to the copies of one entry, everything else being as it was.
* `call_later`: a call lands on all live holders when the owner is alive, and only on the first
  live one otherwise (`landing`).
* `failover_reads_iff`: **a read after the calls returns what the last one left** exactly when the
  last call is a put, or no live backup beyond the first can have an older copy and the last
  backup of the list is alive.
* `removed_key_reads_old_value`: two live backups, a removal, and a read that returns the removed
  value. -/

namespace Medusa

open Medusa.Partition Store Interleave Service

/-! ### The copies of one entry -/

/-- From `C` to `C'` the copies of `r` on the nodes of `touched` became `d` and the others stayed;
views, listeners and loaders stayed, and clocks advanced. -/
structure Later (r : Ref) (touched : List Bytes) (d : Option Value) (C C' : Cluster) : Prop where
  listen : C'.listen = C.listen
  mem : ∀ n, (C'.nodes n).mem = (C.nodes n).mem
  loaders : ∀ n, (C'.nodes n).loaders = (C.nodes n).loaders
  clock : ∀ n, (C.nodes n).clock ≤ (C'.nodes n).clock
  copy : ∀ n, copyOf r n C' = if n ∈ touched then d else copyOf r n C

section later
variable {r : Ref} {t t' : List Bytes} {d : Option Value} {C C' C'' : Cluster}

theorem Later.refl (r : Ref) (d : Option Value) (C : Cluster) : Later r [] d C C :=
  ⟨rfl, fun _ => rfl, fun _ => rfl, fun _ => le_rfl, fun _ => rfl⟩

theorem Later.trans (h : Later r t d C C') (h' : Later r t' d C' C'') :
    Later r (t ++ t') d C C'' where
  listen := h'.listen.trans h.listen
  mem n := (h'.mem n).trans (h.mem n)
  loaders n := (h'.loaders n).trans (h.loaders n)
  clock n := (h.clock n).trans (h'.clock n)
  copy n := by
    rw [h'.copy, h.copy]
    by_cases hn : n ∈ t' <;> simp [hn]

theorem Later.congr (h : Later r t d C C') (ht : ∀ n, n ∈ t ↔ n ∈ t') : Later r t' d C C' :=
  { h with copy := fun n => by rw [h.copy, if_congr (ht n) rfl rfl] }

/-- A calm action is `Later` when it treats the copies of `r` so. -/
theorem Later.of_calm {e : Action} (he : e.Calm) {c : Choice}
    (hcopy : ∀ n, copyOf r n (exec e c C).2 = if n ∈ t then d else copyOf r n C) :
    Later r t d C (exec e c C).2 :=
  ⟨he.listen c C, fun n => he.mem c C n, exec_loaders e c C, fun n => exec_clock_mono n c C e, hcopy⟩

/-- The actions that change no store. -/
def Action.Quiet : Action → Prop
  | .on _ a => a.Plumbing ∨ ∃ p name key, a = .get p name key
  | .connect _ => True
  | .reply _ => True
  | _ => False

theorem Action.Quiet.later {e : Action} (he : e.Quiet) (r : Ref) (d : Option Value) (c : Choice)
    (C : Cluster) : Later r [] d C (exec e c C).2 := by
  cases e with
  | on m a =>
    have hcalm : a.Calm := by
      rcases he with h | ⟨p, name, key, rfl⟩
      · exact plumbing_calm.on m h
      · trivial
    refine Later.of_calm (e := .on m a) hcalm (fun n => ?_)
    rw [if_neg List.not_mem_nil, copyOf]
    by_cases hn : n = m
    · subst hn
      rw [exec_on_self]
      cases a with
      | emit ev => simp only [Node.exec]; split <;> rfl
      | nowNano | table | addrOf | source | get => rfl
      | _ => rcases he with h | ⟨p, name, key, h⟩ <;> first | exact h.elim | cases h
    · rw [exec_on_ne _ _ _ _ hn]
      rfl
  | connect | reply => exact Later.refl r d C
  | _ => exact he.elim

/-- A quiet program touches no copy. -/
theorem quiet_later {α : Type} {p : Prog α} (hp : p.All Action.Quiet) (r : Ref) (d : Option Value)
    {ok : Choice → Prop} (C : Cluster) :
    p.Ensures exec ok (fun _ C' => Later r [] d C C') C :=
  Prog.Ensures.of_all hp (fun _ c _ he _ h => h.trans (he.later r d c _))
    (Later.refl r d C)

end later

/-- A put changes the copy of its node. -/
theorem copyOf_put (r : Ref) (x n value : Bytes) (expireAt : Int64) (c : Choice) (C : Cluster) :
    copyOf r n (exec (.on x (.put r.1 r.2 value expireAt)) c C).2 =
      if n ∈ [x] then some ⟨value, expireAt⟩ else copyOf r n C := by
  by_cases hn : n = x
  · subst hn
    rw [copyOf, exec_on_self, if_pos (List.mem_singleton.mpr rfl)]
    exact (find_set _ _ _ _ _ _).trans (if_pos ⟨rfl, rfl⟩)
  · rw [copyOf, exec_on_ne _ _ _ _ hn, if_neg (fun h => hn (List.mem_singleton.mp h)), copyOf]

/-- A removal erases the copy of its node. -/
theorem copyOf_remove (r : Ref) (x n : Bytes) (c : Choice) (C : Cluster) :
    copyOf r n (exec (.on x (.remove r.1 r.2)) c C).2 =
      if n ∈ [x] then none else copyOf r n C := by
  by_cases hn : n = x
  · subst hn
    rw [copyOf, exec_on_self, if_pos (List.mem_singleton.mpr rfl)]
    exact (find_erase _ _ _ _ _).trans (if_pos ⟨rfl, rfl⟩)
  · rw [copyOf, exec_on_ne _ _ _ _ hn, if_neg (fun h => hn (List.mem_singleton.mp h)), copyOf]

/-! ### A cluster with crashed nodes -/

/-- The cluster in which the nodes of `F` no longer listen. -/
def Cluster.without (C : Cluster) (F : List Bytes) : Cluster :=
  { C with listen := fun a => (C.listen a).filter (fun x => decide (x ∉ F)) }

/-- The nodes share one table and know each other's addresses, and those of `F` do not listen. -/
structure Linked (ids : List Bytes) (b : ℕ) (addr : Bytes → Bytes) (F : List Bytes) (C : Cluster) :
    Prop where
  table : ∀ n ∈ ids, (C.nodes n).mem.table = newTable ids b
  addrOf : ∀ n ∈ ids, ∀ x ∈ ids, (C.nodes n).mem.addrOf x = some (addr x)
  listen : ∀ x ∈ ids, C.listen (addr x) = if x ∈ F then none else some x

/-- What calls on the map `name` find when it has no loader. -/
structure Degraded (ids : List Bytes) (b : ℕ) (addr : Bytes → Bytes) (F : List Bytes)
    (name : Bytes) (C : Cluster) : Prop extends Linked ids b addr F C where
  loaders : ∀ n ∈ ids, (C.nodes n).loaders name = .none

section degraded
variable {ids : List Bytes} {b : ℕ} {addr : Bytes → Bytes} {F : List Bytes} {name : Bytes}
  {r : Ref} {t : List Bytes} {d : Option Value} {C C' : Cluster} {n x : Bytes}

theorem SharedView.linked_without (hV : SharedView ids b addr C) (F : List Bytes) :
    Linked ids b addr F (C.without F) where
  table _ hn := hV.table hn
  addrOf _ hn _ hx := hV.addrOf hn hx
  listen x hx := by
    simp only [Cluster.without, (hV.listen _ x).mpr ⟨hx, rfl⟩, Option.filter]
    by_cases hF : x ∈ F <;> simp [hF]

theorem Linked.calm (hL : Linked ids b addr F C) {e : Action} (he : e.Calm) (c : Choice) :
    Linked ids b addr F (exec e c C).2 where
  table n hn := by rw [he.mem, hL.table n hn]
  addrOf n hn x hx := by rw [he.mem, hL.addrOf n hn x hx]
  listen x hx := by rw [he.listen, hL.listen x hx]

theorem Degraded.later (hD : Degraded ids b addr F name C) (h : Later r t d C C') :
    Degraded ids b addr F name C' where
  table n hn := by rw [h.mem, hD.table n hn]
  addrOf n hn x hx := by rw [h.mem, hD.addrOf n hn x hx]
  listen x hx := by rw [h.listen, hD.listen x hx]
  loaders n hn := by rw [h.loaders, hD.loaders n hn]

variable {α : Type} {Q : α → Cluster → Prop}

theorem Degraded.table_step (hD : Degraded ids b addr F name C) (hn : n ∈ ids)
    {f : Table → Prog α}
    (h : ∀ C', Later r [] d C C' → (f (newTable ids b)).Ensures exec Arrives Q C') :
    (Prog.on n .table >>= f).Ensures exec Arrives Q C := by
  intro c hc
  change (f (C.nodes n).mem.table).Ensures exec Arrives Q _
  rw [hD.table n hn]
  exact h _ (Action.Quiet.later (e := .on n .table) (Or.inl trivial) r d c C)

theorem Degraded.addrOf_step (hD : Degraded ids b addr F name C) (hn : n ∈ ids) (hx : x ∈ ids)
    {f : Option Bytes → Prog α}
    (h : ∀ C', Later r [] d C C' → (f (some (addr x))).Ensures exec Arrives Q C') :
    (Prog.on n (.addrOf x) >>= f).Ensures exec Arrives Q C := by
  intro c hc
  change (f ((C.nodes n).mem.addrOf x)).Ensures exec Arrives Q _
  rw [hD.addrOf n hn x hx]
  exact h _ (Action.Quiet.later (e := .on n (.addrOf x)) (Or.inl trivial) r d c C)

variable {handle : Bytes → Prog (Except ServiceError α)} {Q : Except ServiceError α → Cluster → Prop}

/-- A call of a crashed node fails. -/
theorem Degraded.send_crashed (hD : Degraded ids b addr F name C) (hx : x ∈ ids) (hF : x ∈ F)
    (h : Q (.error .unreachable) C) : (send (addr x) handle).Ensures exec Arrives Q C := by
  intro c hc
  have hconnect : (exec (.connect (addr x)) c C).1 = none := by
    change (if c.lost then none else C.listen (addr x)) = none
    rw [hD.listen x hx, if_pos hF, ite_self]
  rw [hconnect]
  exact h

/-- A call of a live node ends as its handler does. -/
theorem Degraded.send_live (hD : Degraded ids b addr F name C) (hx : x ∈ ids) (hF : x ∉ F)
    (h : (handle x).Ensures exec Arrives Q C) : (send (addr x) handle).Ensures exec Arrives Q C :=
  send_ensures ((hD.listen x hx).trans (if_neg hF)) h

end degraded

/-! ### Calls -/

/-- A call of `Map.Put` or `Map.Remove` on one key. -/
inductive MapCall where
  | put (value : Bytes)
  | remove
deriving DecidableEq, Repr

namespace MapCall

/-- The data the call is to leave. -/
def data : MapCall → Option Bytes
  | put value => some value
  | remove => none

/-- The copy the call leaves on a node. -/
def left : MapCall → Option Value
  | put value => some ⟨value, 0⟩
  | remove => none

/-- What a backup is asked to do. -/
def message (r : Ref) : MapCall → Replica
  | put value => .put r.1 r.2 value 0
  | remove => .remove r.1 r.2

/-- The call on node `n`. -/
def prog (n : Bytes) (r : Ref) : MapCall → Prog (Except ServiceError Unit)
  | put value => Map.putWithTTL n r.1 r.2 value 0
  | remove => do return (← Map.remove n r.1 r.2).map (fun _ => ())

/-- What the owner does on a call. -/
def asOwner (r : Ref) (n : Bytes) : MapCall → Prog (Except ServiceError Bool)
  | put value => Service.applyPut n r.1 r.2 value 0 false
  | remove => Service.applyRemove n r.1 r.2 false

end MapCall

/-- The call succeeded, and the copies of `r` on the nodes of `touched` became `d`. -/
def Landed {α : Type} (r : Ref) (touched : List Bytes) (d : Option Value) (C : Cluster)
    (out : Except ServiceError α) (C' : Cluster) : Prop :=
  (∃ o, out = .ok o) ∧ Later r touched d C C'

theorem Landed.trans {α : Type} {r : Ref} {t t' : List Bytes} {d : Option Value}
    {C C' C'' : Cluster} {out : Except ServiceError α} (h : Later r t d C C')
    (h' : Landed r t' d C' out C'') : Landed r (t ++ t') d C out C'' := ⟨h'.1, h.trans h'.2⟩

theorem Landed.congr {α : Type} {r : Ref} {t t' : List Bytes} {d : Option Value} {C C' : Cluster}
    {out : Except ServiceError α} (h : Landed r t d C out C') (ht : ∀ n, n ∈ t ↔ n ∈ t') :
    Landed r t' d C out C' := ⟨h.1, h.2.congr ht⟩

section calls
variable {ids : List Bytes} {b : ℕ} {addr : Bytes → Bytes} {F : List Bytes} {r : Ref}
  {C : Cluster} {n : Bytes}

theorem storePut_later (r : Ref) (x value : Bytes) (C : Cluster) :
    (storePut x r.1 r.2 value 0).Ensures exec Arrives
      (fun _ C' => Later r [x] (some ⟨value, 0⟩) C C') C := by
  intro c hc c' hc'
  refine (Action.Quiet.later (e := .on x .nowNano) (Or.inl trivial) r _ c C).trans ?_
  exact Later.of_calm (e := .on x (.put r.1 r.2 value _)) trivial
    (fun n => copyOf_put r x n value _ c' _)

theorem remove_later (r : Ref) (x : Bytes) (C : Cluster) :
    (Prog.on x (.remove r.1 r.2)).Ensures exec Arrives (fun _ C' => Later r [x] none C C') C :=
  fun c _ => Later.of_calm (e := .on x (.remove r.1 r.2)) trivial
    (fun n => copyOf_remove r x n c C)

/-- A node that applies the message of a call has the call's copy. -/
theorem message_lands (op : MapCall) (r : Ref) (x : Bytes) (C : Cluster) :
    ((op.message r).apply x).Ensures exec Arrives (Landed r [x] op.left C) C := by
  cases op with
  | put value =>
    exact Prog.Ensures.bind ((storePut_later r x value C).mono
      (fun _ _ h => ⟨⟨_, rfl⟩, h⟩))
  | remove =>
    exact Prog.Ensures.bind ((remove_later r x C).mono (fun _ _ h => ⟨⟨_, rfl⟩, h⟩))

/-- The live nodes of a list other than `n`. -/
abbrev liveOthers (F : List Bytes) (n : Bytes) (bs : List Bytes) : List Bytes :=
  bs.filter (fun x => decide (x ≠ n ∧ x ∉ F))

theorem replicateTo_later (hD : Degraded ids b addr F r.1 C) (hn : n ∈ ids) (op : MapCall)
    {bs : List Bytes} (hbs : bs ⊆ ids) :
    (replicateTo n (op.message r) bs).Ensures exec Arrives
      (fun _ C' => Later r (liveOthers F n bs) op.left C C') C := by
  induction bs generalizing C with
  | nil => exact Later.refl r _ C
  | cons x bs ih =>
    have hx : x ∈ ids := hbs List.mem_cons_self
    have hrest : bs ⊆ ids := fun y hy => hbs (List.mem_cons_of_mem _ hy)
    unfold replicateTo
    split
    · next hxn =>
      refine (ih hD hrest).mono (fun _ C' h => ?_)
      rwa [liveOthers, List.filter_cons_of_neg (by simp [hxn])]
    · next hxn =>
      refine hD.addrOf_step hn hx (r := r) (d := op.left) (fun C₁ h₁ => ?_)
      have hD₁ := hD.later h₁
      refine Prog.Ensures.bind ?_
      by_cases hF : x ∈ F
      · refine hD₁.send_crashed hx hF ((ih hD₁ hrest).mono (fun _ C' h => ?_))
        rw [liveOthers, List.filter_cons_of_neg (by simp [hF])]
        exact h₁.trans h
      · refine hD₁.send_live hx hF ((message_lands op r x C₁).mono (fun _ C₂ h₂ => ?_))
        refine (ih (hD₁.later h₂.2) hrest).mono (fun _ C' h => ?_)
        rw [liveOthers, List.filter_cons_of_pos (by simp [hxn, hF])]
        exact (h₁.trans h₂.2).trans h

/-- A program that only reads and emits, followed by one that lands. -/
theorem lands_after {α β : Type} {p : Prog β} (hp : p.All Action.Quiet) {t : List Bytes}
    {d : Option Value} {f : β → Prog (Except ServiceError α)}
    (h : ∀ a C', Later r [] d C C' → (f a).Ensures exec Arrives (Landed r t d C') C') :
    (p >>= f).Ensures exec Arrives (Landed r t d C) C :=
  Prog.Ensures.bind ((quiet_later hp r d C).mono
    (fun a C' h₁ => (h a C' h₁).mono (fun _ _ h₂ => h₂.trans h₁)))

theorem emit_quiet (n : Bytes) (type : EventType) (name key value : Bytes) :
    (emit n type name key value).All Action.Quiet := by
  unfold emit
  split
  · trivial
  · exact ⟨Or.inl trivial, fun _ => trivial⟩

theorem emitRemoved_quiet (n : Bytes) (existed : Bool) (name key : Bytes) :
    (emitRemoved n existed name key).All Action.Quiet := by
  unfold emitRemoved
  split
  · exact emit_quiet _ _ _ _ _
  · trivial

/-- Without a `MapStore` nothing is written through. -/
theorem callThrough_lands {α : Type} (hn : (C.nodes n).loaders r.1 = .none) (call : Prog Bool)
    (out : α) (d : Option Value) :
    (callThrough n r.1 call out).Ensures exec Arrives (Landed r [] d C) C := by
  intro c hc
  change Prog.Ensures exec Arrives _ (if (C.nodes n).loaders r.1 = MapSource.store then _
    else _) _
  rw [hn]
  exact ⟨⟨out, rfl⟩, Action.Quiet.later (e := .on n (.source r.1)) (Or.inl trivial) r d c C⟩

/-- The owner's store change, then the messages to the live backups. -/
theorem asOwner_lands (hD : Degraded ids b addr F r.1 C) (hn : n ∈ ids) (op : MapCall)
    (hbs : (newTable ids b).backupsOf (routedPartition r.1 r.2) ⊆ ids) :
    (op.asOwner r n).Ensures exec Arrives (Landed r
      (n :: liveOthers F n ((newTable ids b).backupsOf (routedPartition r.1 r.2))) op.left C) C := by
  have hreplicate : ∀ {C₁ : Cluster}, Later r [n] op.left C C₁ →
      (replicate n (routedPartition r.1 r.2) (op.message r)).Ensures exec Arrives
        (fun _ C₂ => Later r (n :: liveOthers F n ((newTable ids b).backupsOf
          (routedPartition r.1 r.2))) op.left C C₂) C₁ := by
    intro C₁ h₁
    refine (hD.later h₁).table_step hn (r := r) (d := op.left) (fun C₂ h₂ => ?_)
    exact (replicateTo_later ((hD.later h₁).later h₂) hn op hbs).mono
      (fun _ _ h₃ => (h₁.trans h₂).trans h₃)
  cases op with
  | put value =>
    refine Prog.Ensures.bind ((storePut_later r n value C).mono (fun created C₁ h₁ => ?_))
    refine Prog.Ensures.bind ((hreplicate h₁).mono (fun _ C₂ h₂ => ?_))
    refine Prog.Ensures.mono (Q := Landed r [] (MapCall.put value).left C₂)
      (lands_after (emit_quiet _ _ _ _ _) (fun _ C₃ h₃ => ?_))
      (fun _ _ h => (h.trans h₂).congr (fun _ => by simp))
    exact callThrough_lands (((hD.later h₂).later h₃).loaders n hn) _ _ _
  | remove =>
    refine Prog.Ensures.bind ((remove_later r n C).mono (fun existed C₁ h₁ => ?_))
    refine Prog.Ensures.bind ((hreplicate h₁).mono (fun _ C₂ h₂ => ?_))
    refine Prog.Ensures.mono (Q := Landed r [] MapCall.remove.left C₂)
      (lands_after (emitRemoved_quiet _ _ _ _) (fun _ C₃ h₃ => ?_))
      (fun _ _ h => (h.trans h₂).congr (fun _ => by simp))
    exact callThrough_lands (((hD.later h₂).later h₃).loaders n hn) _ _ _

/-- The live holders when the owner is one of them, otherwise the first live backup. -/
def landing (ids : List Bytes) (b : ℕ) (F : List Bytes) (p : PartitionId) : List Bytes :=
  if (newTable ids b).ownerOf p ∈ F then
    (((newTable ids b).backupsOf p).find? (fun x => decide (x ∉ F))).toList
  else (holders ids b p).filter (fun x => decide (x ∉ F))

section serve
variable {α : Type} {serve : Option Bytes → Prog (Except ServiceError α)}
  {asOwner backup : Bytes → Prog (Except ServiceError α)} {d : Option Value}

/-- The loop over the backups ends at the first live one. -/
theorem tryEach_lands (hD : Degraded ids b addr F r.1 C) (hn : n ∈ ids) (hnF : n ∉ F)
    (hlocal : serve none = backup n) (hremote : ∀ a, serve (some a) = send a backup)
    (hbackup : ∀ x C, (backup x).Ensures exec Arrives (Landed r [x] d C) C)
    {bs : List Bytes} (hbs : bs ⊆ ids) {x : Bytes}
    (hx : bs.find? (fun x => decide (x ∉ F)) = some x) (s : Except ServiceError α) :
    (Map.tryEach n (Map.firstTaken serve) bs s).Ensures exec Arrives (Landed r [x] d C) C := by
  induction bs generalizing C s with
  | nil => cases hx
  | cons y bs ih =>
    have hy : y ∈ ids := hbs List.mem_cons_self
    have hrest : bs ⊆ ids := fun z hz => hbs (List.mem_cons_of_mem _ hz)
    unfold Map.tryEach
    split
    · next hyn =>
      subst hyn
      rw [List.find?_cons_of_pos (by simpa using hnF)] at hx
      obtain rfl := Option.some.inj hx
      refine Prog.Ensures.bind ?_
      unfold Map.firstTaken
      rw [hlocal]
      refine Prog.Ensures.bind ((hbackup y C).mono ?_)
      rintro _ C' ⟨⟨o, rfl⟩, h⟩
      exact ⟨⟨o, rfl⟩, h⟩
    · next hyn =>
      refine hD.addrOf_step hn hy (r := r) (d := d) (fun C₁ h₁ => ?_)
      have hD₁ := hD.later h₁
      refine Prog.Ensures.bind ?_
      unfold Map.firstTaken
      rw [hremote]
      refine Prog.Ensures.bind ?_
      by_cases hF : y ∈ F
      · rw [List.find?_cons_of_neg (by simpa using hF)] at hx
        exact hD₁.send_crashed hy hF ((ih hD₁ hrest hx _).mono (fun _ _ h => h.trans h₁))
      · rw [List.find?_cons_of_pos (by simpa using hF)] at hx
        obtain rfl := Option.some.inj hx
        refine hD₁.send_live hy hF ((hbackup y C₁).mono ?_)
        rintro _ C' ⟨⟨o, rfl⟩, h⟩
        exact ⟨⟨o, rfl⟩, h₁.trans h⟩

/-- The path of a write lands on the live holders, or on the first live backup. -/
theorem viaOwner_lands (hD : Degraded ids b addr F r.1 C) (hn : n ∈ ids) (hnF : n ∉ F)
    (halive : ∃ x ∈ holders ids b (forKey r.2), x ∉ F)
    (hlocal : serve none = backup n) (hremote : ∀ a, serve (some a) = send a backup)
    (hbackup : ∀ x C, (backup x).Ensures exec Arrives (Landed r [x] d C) C)
    (howner : ∀ x ∈ ids, ∀ C, Degraded ids b addr F r.1 C → (asOwner x).Ensures exec Arrives
      (Landed r (x :: liveOthers F x ((newTable ids b).backupsOf (forKey r.2))) d C) C) :
    (Map.viaOwner n r.2 (asOwner n) (fun a => send a asOwner) serve).Ensures exec Arrives
      (Landed r (landing ids b F (forKey r.2)) d C) C := by
  have hids : ids ≠ [] := List.ne_nil_of_mem hn
  have hcons := holders_eq_cons hids b (forKey r.2)
  have howner_mem : (newTable ids b).ownerOf (forKey r.2) ∈ ids :=
    mem_of_mem_holders (ownerOf_holder hids b _)
  have hlive : (newTable ids b).ownerOf (forKey r.2) ∉ F → ∀ m,
      m ∈ (newTable ids b).ownerOf (forKey r.2) :: liveOthers F
        ((newTable ids b).ownerOf (forKey r.2)) ((newTable ids b).backupsOf (forKey r.2)) ↔
      m ∈ landing ids b F (forKey r.2) := by
    intro hF m
    rw [landing, if_neg hF, hcons]
    simp only [liveOthers, List.mem_cons, List.mem_filter, decide_eq_true_eq]
    by_cases hm : m = (newTable ids b).ownerOf (forKey r.2)
    · simp [hm, hF]
    · simp [hm]
  refine Prog.Ensures.bind ?_
  refine hD.table_step hn (r := r) (d := d) (fun C₁ h₁ => ?_)
  have hD₁ := hD.later h₁
  by_cases hown : (newTable ids b).ownerOf (forKey r.2) = n
  · rw [if_pos hown]
    refine (howner n hn C₁ hD₁).mono (fun _ _ h => (h.trans h₁).congr (fun m => ?_))
    rw [← hlive (hown ▸ hnF), hown]
    rfl
  · rw [if_neg hown]
    refine hD₁.addrOf_step hn howner_mem (r := r) (d := d) (fun C₂ h₂ => ?_)
    have hD₂ := hD₁.later h₂
    refine Prog.Ensures.bind ?_
    by_cases hF : (newTable ids b).ownerOf (forKey r.2) ∈ F
    · refine hD₂.send_crashed howner_mem hF ?_
      refine hD₂.table_step hn (r := r) (d := d) (fun C₃ h₃ => ?_)
      have hfind : ∃ x, ((newTable ids b).backupsOf (forKey r.2)).find?
          (fun x => decide (x ∉ F)) = some x := by
        obtain ⟨x, hx, hxF⟩ := halive
        rw [hcons, List.mem_cons] at hx
        rcases hx with rfl | hx
        · exact absurd hF hxF
        · exact Option.isSome_iff_exists.mp (List.find?_isSome.mpr ⟨x, hx, by simpa using hxF⟩)
      obtain ⟨x, hx⟩ := hfind
      refine (tryEach_lands (hD₂.later h₃) hn hnF hlocal hremote hbackup ?_ hx _).mono
        (fun _ _ h => ?_)
      · intro y hy
        exact mem_of_mem_holders (hcons ▸ List.mem_cons_of_mem _ hy)
      · rw [landing, if_pos hF, hx]
        exact h.trans ((h₁.trans h₂).trans h₃)
    · refine hD₂.send_live howner_mem hF ((howner _ howner_mem C₂ hD₂).mono ?_)
      rintro _ C' ⟨⟨o, rfl⟩, h⟩
      exact ⟨⟨o, rfl⟩, ((h₁.trans h₂).trans h).congr (fun m => hlive hF m)⟩

end serve

/-- **A call is acknowledged, and lands on the live holders or on the first live backup.** -/
theorem call_lands (hD : Degraded ids b addr F r.1 C) (hn : n ∈ ids) (hnF : n ∉ F)
    (hr : isReservedMap r.1 = false) (halive : ∃ x ∈ holders ids b (forKey r.2), x ∉ F)
    (op : MapCall) : (op.prog n r).Ensures exec Arrives
      (Landed r (landing ids b F (forKey r.2)) op.left C) C := by
  have hroute := routedPartition_ordinary hr r.2
  have hbs : (newTable ids b).backupsOf (routedPartition r.1 r.2) ⊆ ids := by
    intro y hy
    exact mem_of_mem_holders ((holders_eq_cons (List.ne_nil_of_mem hn) b _) ▸
      List.mem_cons_of_mem _ hy)
  have howner : ∀ x ∈ ids, ∀ C, Degraded ids b addr F r.1 C → (op.asOwner r x).Ensures exec Arrives
      (Landed r (x :: liveOthers F x ((newTable ids b).backupsOf (forKey r.2))) op.left C) C :=
    fun x hx C hD => hroute ▸ asOwner_lands hD hx op hbs
  have hvia : ∀ serve, serve none = (op.message r).apply n →
      (∀ a, serve (some a) = send a (op.message r).apply) →
      (Map.viaOwner n r.2 (op.asOwner r n) (fun a => send a (fun x => op.asOwner r x)) serve).Ensures
        exec Arrives (Landed r (landing ids b F (forKey r.2)) op.left C) C :=
    fun serve hlocal hremote => viaOwner_lands hD hn hnF halive hlocal hremote
      (fun x C => message_lands op r x C) howner
  have hdone : ∀ {out : Except ServiceError Bool} {C' : Cluster},
      Landed r (landing ids b F (forKey r.2)) op.left C out C' →
      Landed r (landing ids b F (forKey r.2)) op.left C (out.map (fun _ => ())) C' := by
    rintro _ C' ⟨⟨o, rfl⟩, h⟩
    exact ⟨⟨(), rfl⟩, h⟩
  cases op with
  | put value =>
    unfold MapCall.prog Map.putWithTTL
    rw [hr]
    exact Prog.Ensures.bind ((hvia (Map.putBackup n r.1 r.2 value 0) rfl
      (fun _ => rfl)).mono (fun _ _ h => hdone h))
  | remove =>
    unfold MapCall.prog Map.remove
    rw [hr]
    exact Prog.Ensures.bind ((hvia (Map.removeBackup n r.1 r.2) rfl
      (fun _ => rfl)).mono (fun _ _ h => hdone h))

end calls

/-! ### Reads -/

/-- From now on node `x` reads `d` under `r`. -/
def Reads (r : Ref) (C : Cluster) (x : Bytes) (d : Option Bytes) : Prop :=
  ∀ t ≥ (C.nodes x).clock, ((copyOf r x C).filter (fun v => !v.expired t)).map Value.data = d

/-- How a read walks a list of replicas, those of `F` being unreachable: the first copy ends it, and
without one the last replica decides between absence and an error. -/
inductive Walk (F : List Bytes) (reads : Bytes → Option Bytes → Prop) :
    List Bytes → Except ServiceError (Option Bytes) → Except ServiceError (Option Bytes) → Prop
  | nil {s} : Walk F reads [] s s
  | crashed {x bs s out} (hx : x ∈ F) (h : Walk F reads bs (.error .unreachable) out) :
      Walk F reads (x :: bs) s out
  | hit {x bs s v} (hx : x ∉ F) (hv : reads x (some v)) : Walk F reads (x :: bs) s (.ok (some v))
  | miss {x bs s out} (hx : x ∉ F) (hv : reads x none) (h : Walk F reads bs (.ok none) out) :
      Walk F reads (x :: bs) s out

section walk
variable {F : List Bytes} {reads reads' : Bytes → Option Bytes → Prop} {bs : List Bytes}
  {s out : Except ServiceError (Option Bytes)}

theorem Walk.mono (h : Walk F reads bs s out) (hr : ∀ x d, reads x d → reads' x d) :
    Walk F reads' bs s out := by
  induction h with
  | nil => exact .nil
  | crashed hx _ ih => exact .crashed hx ih
  | hit hx hv => exact .hit hx (hr _ _ hv)
  | miss hx hv _ ih => exact .miss hx (hr _ _ hv) ih

/-- Only an empty walk returns what it started with. -/
theorem Walk.restart (h : Walk F reads bs s out) (hbs : bs ≠ [])
    (s' : Except ServiceError (Option Bytes)) : Walk F reads bs s' out := by
  cases h with
  | nil => exact absurd rfl hbs
  | crashed hx h => exact .crashed hx h
  | hit hx hv => exact .hit hx hv
  | miss hx hv h => exact .miss hx hv h

/-- A copy on the first live replica is found. -/
theorem Walk.first {x : Bytes} {v : Bytes} (hx : bs.find? (fun x => decide (x ∉ F)) = some x)
    (hv : reads x (some v)) (s : Except ServiceError (Option Bytes)) :
    Walk F reads bs s (.ok (some v)) := by
  induction bs generalizing s with
  | nil => cases hx
  | cons y bs ih =>
    by_cases hF : y ∈ F
    · rw [List.find?_cons_of_neg (by simpa using hF)] at hx
      exact .crashed hF (ih hx _)
    · rw [List.find?_cons_of_pos (by simpa using hF)] at hx
      obtain rfl := Option.some.inj hx
      exact .hit hF hv

/-- Without copies the last replica, if live, reports absence. -/
theorem Walk.absent {x : Bytes} (hlast : bs.getLast? = some x) (hx : x ∉ F)
    (hnone : ∀ y ∈ bs, y ∉ F → reads y none) (s : Except ServiceError (Option Bytes)) :
    Walk F reads bs s (.ok none) := by
  induction bs generalizing s with
  | nil => cases hlast
  | cons y bs ih =>
    have hrest : ∀ z ∈ bs, z ∉ F → reads z none := fun z hz => hnone z (List.mem_cons_of_mem _ hz)
    cases bs with
    | nil =>
      obtain rfl := Option.some.inj hlast
      exact .miss hx (hnone y List.mem_cons_self hx) .nil
    | cons z bs =>
      rw [List.getLast?_cons_cons] at hlast
      by_cases hF : y ∈ F
      · exact .crashed hF (ih hlast hrest _)
      · exact .miss hF (hnone y List.mem_cons_self hF) (ih hlast hrest _)

/-- Every walk ends; when it reports absence no live replica has a copy and the last one is live. -/
theorem Walk.exists_result (hreads : ∀ x ∈ bs, x ∉ F → ∃ d, reads x d)
    (s : Except ServiceError (Option Bytes)) :
    ∃ out, Walk F reads bs s out ∧ (out = .ok none → (∀ x ∈ bs, x ∉ F → reads x none) ∧
      ∀ x ∈ bs.getLast?, x ∉ F) := by
  induction bs generalizing s with
  | nil => exact ⟨s, .nil, fun _ => ⟨fun x hx => by simp at hx, fun x hx => by simp at hx⟩⟩
  | cons y bs ih =>
    have hrest : ∀ z ∈ bs, z ∉ F → ∃ d, reads z d :=
      fun z hz => hreads z (List.mem_cons_of_mem _ hz)
    have hlast : ∀ {x : Bytes}, bs ≠ [] → x ∈ (y :: bs).getLast? → x ∈ bs.getLast? := by
      intro x hne hx
      obtain ⟨z, bs, rfl⟩ := List.exists_cons_of_ne_nil hne
      rwa [List.getLast?_cons_cons] at hx
    by_cases hF : y ∈ F
    · obtain ⟨out, hw, hout⟩ := ih hrest (.error .unreachable)
      refine ⟨out, .crashed hF hw, fun h0 => ?_⟩
      have hne : bs ≠ [] := by
        rintro rfl
        cases hw
        cases h0
      obtain ⟨hnone, hlive⟩ := hout h0
      refine ⟨fun x hx hxF => ?_, fun x hx => hlive x (hlast hne hx)⟩
      rcases List.mem_cons.mp hx with rfl | hx
      · exact absurd hF hxF
      · exact hnone x hx hxF
    · obtain ⟨d, hd⟩ := hreads y List.mem_cons_self hF
      cases d with
      | some v => exact ⟨.ok (some v), .hit hF hd, fun h0 => by cases h0⟩
      | none =>
        obtain ⟨out, hw, hout⟩ := ih hrest (.ok none)
        refine ⟨out, .miss hF hd hw, fun h0 => ?_⟩
        obtain ⟨hnone, hlive⟩ := hout h0
        refine ⟨fun x hx hxF => ?_, fun x hx => ?_⟩
        · rcases List.mem_cons.mp hx with rfl | hx
          · exact hd
          · exact hnone x hx hxF
        · by_cases hne : bs = []
          · subst hne
            obtain rfl := Option.some.inj hx
            exact hF
          · exact hlive x (hlast hne hx)

end walk

section reads
variable {ids : List Bytes} {b : ℕ} {addr : Bytes → Bytes} {F : List Bytes} {r : Ref}
  {C C' : Cluster} {n x : Bytes} {d : Option Bytes}

theorem Reads.later (h : Reads r C x d) (hl : Later r [] none C C') : Reads r C' x d := by
  intro t ht
  rw [hl.copy, if_neg List.not_mem_nil]
  exact h t ((hl.clock x).trans ht)

/-- The read succeeded with `d`, and nothing changed. -/
def Answered (r : Ref) (C : Cluster) (out : Except ServiceError (Option Bytes))
    (got : Except ServiceError (Option Bytes)) (C' : Cluster) : Prop :=
  got = out ∧ Later r [] none C C'

/-- A node reads its own copy. -/
theorem read_answered (hx : Reads r C x d) {α : Type} {f : Option Bytes → Prog α}
    {Q : α → Cluster → Prop}
    (h : ∀ C', Later r [] none C C' → (f d).Ensures exec Arrives Q C') :
    (Prog.on x (.get (routedPartition r.1 r.2) r.1 r.2) >>= f).Ensures exec Arrives Q C := by
  intro c hc
  have hget : (exec (.on x (.get (routedPartition r.1 r.2) r.1 r.2)) c C).1 = d :=
    hx _ (Nat.le_add_right _ _)
  rw [hget]
  exact h _ (Action.Quiet.later (e := .on x (.get _ r.1 r.2)) (Or.inr ⟨_, _, _, rfl⟩) r none c C)

/-- Without a loader `getThrough` reads the copy. -/
theorem getThrough_answered (hD : Degraded ids b addr F r.1 C) (hx : x ∈ ids) (hr : Reads r C x d) :
    (getThrough x r.1 r.2).Ensures exec Arrives (Answered r C (.ok d)) C := by
  refine read_answered hr (fun C₁ h₁ => ?_)
  cases d with
  | some v => exact ⟨rfl, h₁⟩
  | none =>
    intro c hc
    change Prog.Ensures exec Arrives _
      (if (C₁.nodes x).loaders r.1 = MapSource.none then _ else _) _
    rw [(hD.later h₁).loaders x hx]
    exact ⟨rfl, h₁.trans (Action.Quiet.later (e := .on x (.source r.1)) (Or.inl trivial) r none c C₁)⟩

/-- The search among the backups is a walk. -/
theorem tryEach_answered (hD : Degraded ids b addr F r.1 C) (hn : n ∈ ids) (hnF : n ∉ F)
    (hr : isReservedMap r.1 = false) {bs : List Bytes} (hbs : bs ⊆ ids)
    {s out : Except ServiceError (Option Bytes)} (hw : Walk F (Reads r C) bs s out) :
    (Map.tryEach n (Map.getBackup n (forKey r.2) r.1 r.2) bs s).Ensures exec Arrives
      (Answered r C out) C := by
  induction bs generalizing C s with
  | nil =>
    cases hw
    exact ⟨rfl, Later.refl r none C⟩
  | cons x bs ih =>
    have hx : x ∈ ids := hbs List.mem_cons_self
    have hrest : bs ⊆ ids := fun y hy => hbs (List.mem_cons_of_mem _ hy)
    have hnext : ∀ {C₁ : Cluster} {s₁}, Later r [] none C C₁ → Walk F (Reads r C) bs s₁ out →
        (Map.tryEach n (Map.getBackup n (forKey r.2) r.1 r.2) bs s₁).Ensures exec Arrives
          (Answered r C out) C₁ := fun h₁ hw₁ =>
      (ih (hD.later h₁) hrest (hw₁.mono (fun _ _ h => h.later h₁))).mono
        (fun _ _ h => ⟨h.1, h₁.trans h.2⟩)
    unfold Map.tryEach
    split
    · next hxn =>
      -- this node is the backup, so it is live and reads its own store
      subst hxn
      refine Prog.Ensures.bind ?_
      unfold Map.getBackup
      rw [← routedPartition_ordinary hr r.2]
      cases hw with
      | crashed hF => exact absurd hF hnF
      | hit _ hv => exact read_answered hv (fun C₁ h₁ => ⟨rfl, h₁⟩)
      | miss _ hv hw =>
        refine read_answered hv (fun C₁ h₁ => ?_)
        rw [routedPartition_ordinary hr r.2]
        exact hnext h₁ hw
    · next hxn =>
      refine hD.addrOf_step hn hx (r := r) (d := none) (fun C₁ h₁ => ?_)
      have hD₁ := hD.later h₁
      refine Prog.Ensures.bind (Prog.Ensures.bind ?_)
      cases hw with
      | crashed hF hw => exact hD₁.send_crashed hx hF (hnext h₁ hw)
      | hit hF hv =>
        refine hD₁.send_live hx hF ((getThrough_answered hD₁ hx (hv.later h₁)).mono ?_)
        rintro _ C₂ ⟨rfl, h₂⟩
        exact ⟨rfl, h₁.trans h₂⟩
      | miss hF hv hw =>
        refine hD₁.send_live hx hF ((getThrough_answered hD₁ hx (hv.later h₁)).mono ?_)
        rintro _ C₂ ⟨rfl, h₂⟩
        exact hnext (h₁.trans h₂) hw

/-- **`Map.Get` is a walk over the holders.** -/
theorem get_answered (hD : Degraded ids b addr F r.1 C) (hn : n ∈ ids) (hnF : n ∉ F)
    (hr : isReservedMap r.1 = false) (halive : ∃ x ∈ holders ids b (forKey r.2), x ∉ F)
    {out : Except ServiceError (Option Bytes)}
    (hw : Walk F (Reads r C) (holders ids b (forKey r.2)) (.ok none) out) :
    (Map.get n r.1 r.2).Ensures exec Arrives (Answered r C out) C := by
  have hids : ids ≠ [] := List.ne_nil_of_mem hn
  have hcons := holders_eq_cons hids b (forKey r.2)
  have howner : (newTable ids b).ownerOf (forKey r.2) ∈ ids :=
    mem_of_mem_holders (ownerOf_holder hids b _)
  have hbackups : ∀ {C₁ : Cluster}, Later r [] none C C₁ →
      Walk F (Reads r C) ((newTable ids b).backupsOf (forKey r.2)) (.ok none) out →
      (Map.tryBackups n (forKey r.2) (Map.getBackup n (forKey r.2) r.1 r.2) (.ok none)).Ensures
        exec Arrives (Answered r C out) C₁ := by
    intro C₁ h₁ hw₁
    refine (hD.later h₁).table_step hn (r := r) (d := none) (fun C₂ h₂ => ?_)
    have h₁₂ := h₁.trans h₂
    refine (tryEach_answered (hD.later h₁₂) hn hnF hr (fun y hy => ?_)
      (hw₁.mono (fun _ _ h => h.later h₁₂))).mono (fun _ _ h => ⟨h.1, h₁₂.trans h.2⟩)
    exact mem_of_mem_holders (hcons ▸ List.mem_cons_of_mem _ hy)
  rw [hcons] at hw
  refine Prog.Ensures.bind (hD.table_step hn (r := r) (d := none) (fun C₁ h₁ => ?_))
  have hD₁ := hD.later h₁
  by_cases hown : (newTable ids b).ownerOf (forKey r.2) = n
  · rw [if_pos hown]
    rw [hown] at hw
    refine Prog.Ensures.bind ?_
    cases hw with
    | crashed hF => exact absurd hF hnF
    | hit _ hv =>
      refine (getThrough_answered hD₁ hn (hv.later h₁)).mono ?_
      rintro _ C₂ ⟨rfl, h₂⟩
      exact ⟨rfl, h₁.trans h₂⟩
    | miss _ hv hw =>
      refine (getThrough_answered hD₁ hn (hv.later h₁)).mono ?_
      rintro _ C₂ ⟨rfl, h₂⟩
      exact hbackups (h₁.trans h₂) hw
  · rw [if_neg hown]
    refine hD₁.addrOf_step hn howner (r := r) (d := none) (fun C₂ h₂ => ?_)
    have h₁₂ := h₁.trans h₂
    have hD₂ := hD₁.later h₂
    refine Prog.Ensures.bind ?_
    cases hw with
    | crashed hF hw =>
      refine hD₂.send_crashed howner hF (hbackups h₁₂ (hw.restart ?_ _))
      rintro h0
      obtain ⟨x, hx, hxF⟩ := halive
      rw [hcons, h0, List.mem_singleton] at hx
      exact hxF (hx ▸ hF)
    | hit hF hv =>
      refine hD₂.send_live howner hF ((getThrough_answered hD₂ howner (hv.later h₁₂)).mono ?_)
      rintro _ C₃ ⟨rfl, h₃⟩
      exact ⟨rfl, h₁₂.trans h₃⟩
    | miss hF hv hw =>
      refine hD₂.send_live howner hF ((getThrough_answered hD₂ howner (hv.later h₁₂)).mono ?_)
      rintro _ C₃ ⟨rfl, h₃⟩
      exact hbackups (h₁₂.trans h₃) hw

end reads

/-! ### Sessions -/

/-- Calls one after another, from the nodes named with them. -/
def runCalls (r : Ref) : List (Bytes × MapCall) → Prog (List (Except ServiceError Unit))
  | [] => return []
  | (n, op) :: rest => do
      let out ← op.prog n r
      let outs ← runCalls r rest
      return out :: outs

/-- Calls on a key, and then a read on node `reader`. -/
def session (r : Ref) (calls : List (Bytes × MapCall)) (reader : Bytes) :
    Prog (List (Except ServiceError Unit) × Except ServiceError (Option Bytes)) := do
  let outs ← runCalls r calls
  let got ← Map.get reader r.1 r.2
  return (outs, got)

section session
variable {ids : List Bytes} {b : ℕ} {addr : Bytes → Bytes} {F : List Bytes} {r : Ref}
  {C C' C'' : Cluster} {t : List Bytes} {d d' : Option Value}

/-- The later of two changes of the same copies stands. -/
theorem Later.overwrite (h : Later r t d C C') (h' : Later r t d' C' C'') : Later r t d' C C'' where
  listen := h'.listen.trans h.listen
  mem n := (h'.mem n).trans (h.mem n)
  loaders n := (h'.loaders n).trans (h.loaders n)
  clock n := (h.clock n).trans (h'.clock n)
  copy n := by
    rw [h'.copy, h.copy]
    by_cases hn : n ∈ t <;> simp [hn]

/-- All calls are acknowledged, and the copies where they land are the last call's. -/
theorem runCalls_lands (hD : Degraded ids b addr F r.1 C) (hr : isReservedMap r.1 = false)
    (halive : ∃ x ∈ holders ids b (forKey r.2), x ∉ F) {calls : List (Bytes × MapCall)}
    (hcalls : ∀ c ∈ calls, c.1 ∈ ids ∧ c.1 ∉ F) (hne : calls ≠ []) :
    (runCalls r calls).Ensures exec Arrives (fun outs C' => outs = calls.map (fun _ => .ok ()) ∧
      Later r (landing ids b F (forKey r.2)) (calls.getLast hne).2.left C C') C := by
  induction calls generalizing C with
  | nil => exact absurd rfl hne
  | cons call rest ih =>
    obtain ⟨n, op⟩ := call
    obtain ⟨hn, hnF⟩ := hcalls (n, op) List.mem_cons_self
    refine Prog.Ensures.bind ((call_lands hD hn hnF hr halive op).mono ?_)
    rintro _ C₁ ⟨⟨o, rfl⟩, h₁⟩
    by_cases hrest : rest = []
    · subst hrest
      exact ⟨rfl, h₁⟩
    · refine Prog.Ensures.bind ((ih (hD.later h₁)
        (fun c hc => hcalls c (List.mem_cons_of_mem _ hc)) hrest).mono ?_)
      rintro _ C₂ ⟨rfl, h₂⟩
      rw [List.getLast_cons hrest]
      exact ⟨rfl, h₁.overwrite h₂⟩

/-- The condition on the crashed nodes and on the copies at the start: the last call is a put, or the
last backup is live and no live holder out of the calls' reach has a live copy. -/
def ReadsBack (ids : List Bytes) (b : ℕ) (F : List Bytes) (r : Ref) (C : Cluster)
    (last : MapCall) : Prop :=
  (∃ value, last = .put value) ∨
    ((∀ x ∈ ((newTable ids b).backupsOf (forKey r.2)).getLast?, x ∉ F) ∧
      ∀ x ∈ holders ids b (forKey r.2), x ∉ F → x ∉ landing ids b F (forKey r.2) →
        (C.nodes x).content r = none)

/-- The first live holder is one on which calls land. -/
theorem exists_first_live {ids : List Bytes} (hids : ids ≠ []) {b : ℕ} {F : List Bytes}
    {p : PartitionId} (halive : ∃ x ∈ holders ids b p, x ∉ F) :
    ∃ x ∈ landing ids b F p, (holders ids b p).find? (fun x => decide (x ∉ F)) = some x := by
  obtain ⟨y, hy, hyF⟩ := halive
  obtain ⟨x, hx⟩ : ∃ x, (holders ids b p).find? (fun x => decide (x ∉ F)) = some x :=
    Option.isSome_iff_exists.mp (List.find?_isSome.mpr ⟨y, hy, by simpa using hyF⟩)
  refine ⟨x, ?_, hx⟩
  unfold landing
  split
  · next hF =>
    rw [holders_eq_cons hids, List.find?_cons_of_neg (by simpa using hF)] at hx
    rw [hx]
    exact List.mem_singleton.mpr rfl
  · have hxF := List.find?_some hx
    exact List.mem_filter.mpr ⟨List.mem_of_find?_eq_some hx, hxF⟩

theorem Later.reads_touched (h : Later r t d C C') {x : Bytes} (hx : x ∈ t) (op : MapCall)
    (hd : d = op.left) : Reads r C' x op.data := by
  intro now _
  rw [h.copy, if_pos hx, hd]
  cases op with
  | put value => simp [MapCall.left, MapCall.data, Option.filter, Value.expired]
  | remove => rfl

/-- An absent copy stays absent. -/
theorem Later.reads_absent (h : Later r t d C C') {x : Bytes} (hx : x ∉ t)
    (hnone : (C.nodes x).content r = none) : Reads r C' x none := by
  intro now hnow
  rw [h.copy, if_neg hx]
  have hclock := (h.clock x).trans hnow
  change ((copyOf r x C).filter (fun v => !v.expired (C.nodes x).clock)).map Value.data = none
    at hnone
  cases hc : copyOf r x C with
  | none => rfl
  | some v =>
    rw [hc, Option.map_eq_none_iff, Option.filter_eq_none_iff] at hnone
    have hexp : v.expired (C.nodes x).clock = true := by simpa using hnone v rfl
    simp [Option.filter, Value.expired_mono hexp hclock]

/-- A copy without an expiry is read as it is. -/
theorem Later.reads_lasting (h : Later r t d C C') {x : Bytes} (hx : x ∉ t)
    (hexp : ∀ v, copyOf r x C = some v → v.expireAt = 0) :
    Reads r C' x ((copyOf r x C).map Value.data) := by
  intro now _
  rw [h.copy, if_neg hx]
  cases hc : copyOf r x C with
  | none => rfl
  | some v => simp [Option.filter, Value.expired, hexp v hc]

theorem session_acks (hD : Degraded ids b addr F r.1 C) (hr : isReservedMap r.1 = false)
    (halive : ∃ x ∈ holders ids b (forKey r.2), x ∉ F) {calls : List (Bytes × MapCall)}
    (hcalls : ∀ c ∈ calls, c.1 ∈ ids ∧ c.1 ∉ F) (hne : calls ≠ []) (reader : Bytes) :
    (session r calls reader).Ensures exec Arrives
      (fun out _ => out.1 = calls.map (fun _ => .ok ())) C := by
  refine Prog.Ensures.bind ((runCalls_lands hD hr halive hcalls hne).mono ?_)
  rintro _ C₁ ⟨rfl, -⟩
  exact Prog.Ensures.bind (Prog.Ensures.of_forall (fun _ _ => rfl) _ _)

/-- The read of a session returns what a walk after the calls gives. -/
theorem session_ensures (hD : Degraded ids b addr F r.1 C) (hr : isReservedMap r.1 = false)
    (halive : ∃ x ∈ holders ids b (forKey r.2), x ∉ F) {calls : List (Bytes × MapCall)}
    (hcalls : ∀ c ∈ calls, c.1 ∈ ids ∧ c.1 ∉ F) (hne : calls ≠ []) {reader : Bytes}
    (hreader : reader ∈ ids ∧ reader ∉ F) {P : Except ServiceError (Option Bytes) → Prop}
    (hw : ∀ C₁, Later r (landing ids b F (forKey r.2)) (calls.getLast hne).2.left C C₁ →
      ∃ out, Walk F (Reads r C₁) (holders ids b (forKey r.2)) (.ok none) out ∧ P out) :
    (session r calls reader).Ensures exec Arrives (fun out _ => P out.2) C := by
  refine Prog.Ensures.bind ((runCalls_lands hD hr halive hcalls hne).mono ?_)
  rintro _ C₁ ⟨rfl, h₁⟩
  obtain ⟨out, hwalk, hP⟩ := hw C₁ h₁
  refine Prog.Ensures.bind ((get_answered (hD.later h₁) hreader.1 hreader.2 hr halive
    hwalk).mono ?_)
  rintro _ C₂ ⟨rfl, -⟩
  exact hP

/-- **Failover reads**: calls of `Put` and `Remove` from any live nodes are acknowledged, and a
`Get` on any live node returns what the last one left when `ReadsBack` holds.  When no copy has an
expiry, only then. -/
theorem failover_reads_iff (hV : SharedView ids b addr C) (hr : isReservedMap r.1 = false)
    (hloaders : ∀ n ∈ ids, (C.nodes n).loaders r.1 = .none)
    (halive : ∃ x ∈ holders ids b (forKey r.2), x ∉ F) (calls : List (Bytes × MapCall))
    (hcalls : ∀ c ∈ calls, c.1 ∈ ids ∧ c.1 ∉ F) (hne : calls ≠ []) {reader : Bytes}
    (hreader : reader ∈ ids ∧ reader ∉ F) {cs : ℕ → Choice} (hcs : ∀ k, (cs k).lost = false) :
    let out := ((session r calls reader).eval exec cs (C.without F)).1
    out.1 = calls.map (fun _ => .ok ()) ∧
    (ReadsBack ids b F r C (calls.getLast hne).2 → out.2 = .ok (calls.getLast hne).2.data) ∧
    ((∀ x ∈ holders ids b (forKey r.2), ∀ v, copyOf r x C = some v → v.expireAt = 0) →
      out.2 = .ok (calls.getLast hne).2.data → ReadsBack ids b F r C (calls.getLast hne).2) := by
  have hids : ids ≠ [] := List.ne_nil_of_mem hreader.1
  have hD := Degraded.mk (hV.linked_without F) hloaders
  have hlast? : (holders ids b (forKey r.2)).getLast? =
      some (((newTable ids b).backupsOf (forKey r.2)).getLast?.getD
        ((newTable ids b).ownerOf (forKey r.2))) := by
    rw [holders_eq_cons hids, List.getLast?_cons]
  generalize hlast : (calls.getLast hne).2 = last
  refine ⟨(session_acks hD hr halive hcalls hne reader).eval hcs, fun hback => ?_,
    fun hexp hgot => ?_⟩
  · refine (session_ensures (P := fun got => got = .ok last.data) hD hr halive hcalls hne hreader
      (fun C₁ h₁ => ⟨_, ?_, rfl⟩)).eval hcs
    rw [hlast] at h₁
    cases last with
    | put value =>
      obtain ⟨x, hx, hfind⟩ := exists_first_live hids halive
      exact Walk.first hfind (h₁.reads_touched hx (.put value) rfl) _
    | remove =>
      obtain ⟨hlive, hnone⟩ := hback.resolve_left (fun ⟨_, h0⟩ => by cases h0)
      refine Walk.absent hlast? ?_ (fun y hy hyF => ?_) _
      · cases hb : ((newTable ids b).backupsOf (forKey r.2)).getLast? with
        | some x => exact hlive x hb
        | none =>
          -- the owner is the only holder
          obtain ⟨x, hx, hxF⟩ := halive
          rw [holders_eq_cons hids, List.getLast?_eq_none_iff.mp hb, List.mem_singleton] at hx
          exact hx ▸ hxF
      · by_cases hland : y ∈ landing ids b F (forKey r.2)
        · exact h₁.reads_touched hland .remove rfl
        · exact h₁.reads_absent hland (hnone y hy hyF hland)
  · by_contra hback
    refine (session_ensures (P := fun got => got ≠ .ok last.data) hD hr halive hcalls hne hreader
      (fun C₁ h₁ => ?_)).eval hcs hgot
    rw [hlast] at h₁
    cases last with
    | put value => exact absurd (Or.inl ⟨value, rfl⟩) hback
    | remove =>
      have hreads : ∀ x ∈ holders ids b (forKey r.2), x ∉ landing ids b F (forKey r.2) →
          Reads r C₁ x ((copyOf r x C).map Value.data) :=
        fun x hx hland => h₁.reads_lasting hland (hexp x hx)
      have hall : ∀ x ∈ holders ids b (forKey r.2), x ∉ F → ∃ d, Reads r C₁ x d := by
        intro x hx _
        by_cases hland : x ∈ landing ids b F (forKey r.2)
        · exact ⟨_, h₁.reads_touched hland .remove rfl⟩
        · exact ⟨_, hreads x hx hland⟩
      obtain ⟨out, hwalk, hout⟩ := Walk.exists_result hall (.ok none)
      refine ⟨out, hwalk, fun h0 => hback (Or.inr ?_)⟩
      obtain ⟨hnone, hlive⟩ := hout h0
      refine ⟨fun x hx => hlive x ?_, fun x hx hxF hland => ?_⟩
      · rw [hlast?, Option.mem_def.mp hx]
        rfl
      · have hcopy : copyOf r x C = none := Option.map_eq_none_iff.mp
          ((hreads x hx hland _ le_rfl).symm.trans (hnone x hx hxF _ le_rfl))
        change ((copyOf r x C).filter _).map Value.data = none
        rw [hcopy]
        rfl

end session

/-! ### Two backups -/

/-- Three nodes hold one entry; `a` owns it, and `c` and `b` are its backups. -/
def trio : Cluster := oneEntry [[97], [98], [99]] 2 [[97], [99], [98]] ([109], [114]) [118]

theorem trio_holders : holders [[97], [98], [99]] 2 (forKey [114]) = [[97], [99], [98]] := by
  decide +kernel

theorem trio_sharedView : SharedView [[97], [98], [99]] 2 id trio :=
  oneEntry_sharedView 2 _ _ _ (by decide) (by decide) (by decide +kernel)

theorem trio_replicated : Replicated [[97], [98], [99]] 2 trio :=
  oneEntry_replicated _ [118] trio_holders

/-- The owner has crashed; a put lands on `c`, and a read on `b` returns it. -/
theorem failover_reads_put :
    ((session ([109], [114]) [([98], .put [119])] [98]).eval exec (fun _ => .still)
      (trio.without [[97]])).1.2 = .ok (some [119]) := by
  refine (failover_reads_iff trio_sharedView (r := ([109], [114])) rfl (fun _ _ => rfl) ?_
    [([98], .put [119])] (by decide) (List.cons_ne_nil _ _) (by decide)
    (fun _ => rfl)).2.1 (Or.inl ⟨_, rfl⟩)
  rw [trio_holders]
  decide

/-- **A removed key is read again**: the owner has crashed and two backups are live.  The removal is
acknowledged by the first backup only; the read misses there and finds the old value on the second
one.  And with a live owner and the last backup crashed, the read of a removed key is an error. -/
theorem removed_key_reads_old_value :
    SharedView [[97], [98], [99]] 2 id trio ∧ Replicated [[97], [98], [99]] 2 trio ∧
    holders [[97], [98], [99]] 2 (forKey [114]) = [[97], [99], [98]] ∧
    ((session ([109], [114]) [([99], .remove)] [99]).eval exec (fun _ => .still)
      (trio.without [[97]])).1 = ([.ok ()], .ok (some [118])) ∧
    ((session ([109], [114]) [([97], .remove)] [97]).eval exec (fun _ => .still)
      (trio.without [[98]])).1 = ([.ok ()], .error .unreachable) := by
  refine ⟨trio_sharedView, trio_replicated, trio_holders, ?_⟩
  decide +kernel

end Medusa
