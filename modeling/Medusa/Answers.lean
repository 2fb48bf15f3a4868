import Medusa.Failover

/-! # What a `Get` makes of its answers

A `Map.Get` asks the owner of a key and then its backups, until one has a live value.  `Asked` says what
became of each: the address was not known, nobody listens there, or a node answered with its value at
some instant of the call.  The result is a function of these outcomes alone (`get_asked`): the search
among the backups starts afresh after the owner, keeps what the last one asked left, and skips those
without an address.

So the result is right (`Right`: an error when nobody answered, and otherwise the first live value)
exactly when a live value was found, the last backup asked has answered, no backup was asked and the
owner has answered, or nobody has answered a search that asked a backup (`get_right_iff`).
`get_wrong_answers` shows the two ways in which it is not. -/

namespace Medusa

open Medusa.Partition Store Interleave Service

/-! ### Outcomes -/

/-- What became of asking a holder. -/
inductive Outcome where
  | unknown
  | down
  | answered (v : Option Bytes)
deriving DecidableEq, Repr

namespace Outcome

/-- The answer, if there was one. -/
def answer : Outcome → Option (Option Bytes)
  | answered v => some v
  | _ => none

/-- The live value, if one was found. -/
def live (o : Outcome) : Option Bytes := o.answer.join

/-- What the call returned. -/
def result : Outcome → Except ServiceError (Option Bytes)
  | answered v => .ok v
  | _ => .error .unreachable

end Outcome

/-- The search among the backups, from what was found before. -/
def walk : List Outcome → Except ServiceError (Option Bytes) → Except ServiceError (Option Bytes)
  | [], s => s
  | .unknown :: os, s => walk os s
  | .down :: os, _ => walk os (.error .unreachable)
  | .answered none :: os, _ => walk os (.ok none)
  | .answered (some v) :: _, _ => .ok (some v)

/-- The result of a `Get`. -/
def getResult (owner : Outcome) (backups : List Outcome) : Except ServiceError (Option Bytes) :=
  match owner.live with
  | some v => .ok (some v)
  | none => walk backups (.ok none)

/-- An error when nobody answered, and otherwise the first live value. -/
def Right (os : List Outcome) (out : Except ServiceError (Option Bytes)) : Prop :=
  ((∃ e, out = .error e) ↔ ∀ o ∈ os, o.answer = none) ∧
  ((∃ o ∈ os, o.answer ≠ none) → out = .ok (os.findSome? Outcome.live))

/-- When the result is right. -/
def Fits (owner : Outcome) (backups : List Outcome) : Prop :=
  (∃ o ∈ owner :: backups, o.live ≠ none) ∨
  match (backups.filter (· ≠ .unknown)).getLast? with
  | none => owner.answer ≠ none
  | some last => last.answer ≠ none ∨ ∀ o ∈ owner :: backups, o.answer = none

section outcomes
variable {owner : Outcome} {backups os : List Outcome}

theorem live_of_answer_none {o : Outcome} (h : o.answer = none) : o.live = none := by
  rw [Outcome.live, h]
  rfl

/-- A walk that finds a live value. -/
theorem walk_live {v : Bytes} (h : os.findSome? Outcome.live = some v)
    (s : Except ServiceError (Option Bytes)) : walk os s = .ok (some v) := by
  induction os generalizing s with
  | nil => cases h
  | cons o os ih =>
    rw [List.findSome?_cons] at h
    match o with
    | .unknown => exact ih h s
    | .down => exact ih h _
    | .answered none => exact ih h _
    | .answered (some w) => exact congrArg (fun x => Except.ok x) h

/-- A walk without a live value ends with what the last one asked left. -/
theorem walk_not_live (h : ∀ o ∈ os, o.live = none) (s : Except ServiceError (Option Bytes)) :
    walk os s = ((os.filter (· ≠ .unknown)).getLast?.map Outcome.result).getD s := by
  induction os generalizing s with
  | nil => rfl
  | cons o os ih =>
    have hrest := fun x hx => h x (List.mem_cons_of_mem o hx)
    have hlast : ∀ o : Outcome, o ≠ .unknown → walk os o.result =
        (((o :: os).filter (· ≠ .unknown)).getLast?.map Outcome.result).getD s := by
      intro o ho
      rw [ih hrest, List.filter_cons_of_pos (by simpa using ho), List.getLast?_cons]
      cases (os.filter (· ≠ .unknown)).getLast? <;> rfl
    match o with
    | .unknown => exact ih hrest s
    | .down => exact hlast .down (by simp)
    | .answered none => exact hlast (.answered none) (by simp)
    | .answered (some v) => exact absurd (h _ List.mem_cons_self) (by simp [Outcome.live, Outcome.answer])

/-- The value of a result that is right for a live value found. -/
theorem right_of_live {v : Bytes} (h : os.findSome? Outcome.live = some v) : Right os (.ok (some v)) := by
  obtain ⟨o, ho, hv⟩ := List.exists_of_findSome?_eq_some h
  have hans : o.answer ≠ none := fun h0 => by
    rw [live_of_answer_none h0] at hv
    cases hv
  refine ⟨⟨fun ⟨e, he⟩ => (by cases he), fun hall => absurd (hall o ho) hans⟩, fun _ => ?_⟩
  rw [h]

/-- Without a live value absence is right when someone answered. -/
theorem right_absent_iff (h : os.findSome? Outcome.live = none) :
    Right os (.ok none) ↔ ∃ o ∈ os, o.answer ≠ none := by
  rw [Right, h]
  constructor
  · rintro ⟨hiff, -⟩
    by_contra hno
    push Not at hno
    obtain ⟨e, he⟩ := hiff.mpr hno
    cases he
  · rintro ⟨o, ho, hans⟩
    exact ⟨⟨fun ⟨e, he⟩ => (by cases he), fun hall => absurd (hall o ho) hans⟩, fun _ => rfl⟩

/-- An error is right when nobody answered. -/
theorem right_error_iff {e : ServiceError} : Right os (.error e) ↔ ∀ o ∈ os, o.answer = none := by
  constructor
  · exact fun h => h.1.mp ⟨e, rfl⟩
  · intro hall
    exact ⟨⟨fun _ => hall, fun _ => ⟨e, rfl⟩⟩, fun ⟨o, ho, hans⟩ => absurd (hall o ho) hans⟩

/-- **The result is right exactly when the outcomes fit.** -/
theorem right_iff_fits : Right (owner :: backups) (getResult owner backups) ↔ Fits owner backups := by
  cases hlive : (owner :: backups).findSome? Outcome.live with
  | some v =>
    have hres : getResult owner backups = .ok (some v) := by
      rw [List.findSome?_cons] at hlive
      unfold getResult
      cases ho : owner.live with
      | some w =>
        rw [ho] at hlive
        exact congrArg (fun x => Except.ok x) hlive
      | none =>
        rw [ho] at hlive
        exact walk_live hlive _
    rw [hres]
    obtain ⟨o, ho, hv⟩ := List.exists_of_findSome?_eq_some hlive
    exact iff_of_true (right_of_live hlive) (Or.inl ⟨o, ho, by rw [hv]; simp⟩)
  | none =>
    have hnone : ∀ o ∈ owner :: backups, o.live = none := List.findSome?_eq_none_iff.mp hlive
    have hbackups : ∀ o ∈ backups, o.live = none := fun o ho => hnone o (List.mem_cons_of_mem _ ho)
    have hfits : Fits owner backups ↔ _ := or_iff_right (fun ⟨o, ho, h⟩ => h (hnone o ho))
    rw [hfits, getResult, hnone owner List.mem_cons_self]
    dsimp only
    rw [walk_not_live hbackups]
    cases hlast : (backups.filter (· ≠ .unknown)).getLast? with
    | none =>
      -- no backup was asked
      have hskipped : ∀ o ∈ backups, o.answer = none := by
        intro o ho
        rw [List.getLast?_eq_none_iff, List.filter_eq_nil_iff] at hlast
        obtain rfl : o = .unknown := by simpa using hlast o ho
        rfl
      refine (right_absent_iff hlive).trans ⟨?_, fun h => ⟨owner, List.mem_cons_self, h⟩⟩
      rintro ⟨o, ho, hans⟩
      rcases List.mem_cons.mp ho with rfl | ho
      · exact hans
      · exact absurd (hskipped o ho) hans
    | some last =>
      have hmem : last ∈ backups := List.mem_of_mem_filter (List.mem_of_getLast? hlast)
      have hl := hbackups last hmem
      match last with
      | .answered none =>
        refine iff_of_true ((right_absent_iff hlive).mpr ⟨_, List.mem_cons_of_mem _ hmem, ?_⟩)
          (Or.inl ?_) <;> simp [Outcome.answer]
      | .answered (some v) => cases hl
      | .down => exact right_error_iff.trans (or_iff_right (by simp [Outcome.answer])).symm
      | .unknown => simpa using List.of_mem_filter (List.mem_of_getLast? hlast)

end outcomes

/-! ### Asking -/

/-- The live data under `r` on node `x` at the instant `t`. -/
def valueAt (r : Ref) (x : Bytes) (C : Cluster) (t : ℕ) : Option Bytes :=
  ((copyOf r x C).filter (fun v => !v.expired t)).map Value.data

/-- Node `x` answers with its value at some instant of the call. -/
def AnswersAs (r : Ref) (C C' : Cluster) (x : Bytes) (o : Outcome) : Prop :=
  ∃ t, (C.nodes x).clock ≤ t ∧ t ≤ (C'.nodes x).clock ∧ o = .answered (valueAt r x C t)

/-- What becomes of asking at an address. -/
def AskedAt (r : Ref) (C C' : Cluster) (addr : Bytes) (o : Outcome) : Prop :=
  match C.listen addr with
  | none => o = .down
  | some x => AnswersAs r C C' x o

/-- What becomes of asking the owner; the address of an unknown owner is empty. -/
def AskedOwner (n : Bytes) (r : Ref) (C C' : Cluster) (id : Bytes) (o : Outcome) : Prop :=
  if id = n then AnswersAs r C C' n o else AskedAt r C C' (((C.nodes n).mem.addrOf id).getD []) o

/-- What becomes of asking a backup; one without an address is skipped. -/
def AskedBackup (n : Bytes) (r : Ref) (C C' : Cluster) (id : Bytes) (o : Outcome) : Prop :=
  if id = n then AnswersAs r C C' n o
  else match (C.nodes n).mem.addrOf id with
    | none => o = .unknown
    | some addr => AskedAt r C C' addr o

section asking
variable {r : Ref} {C C₁ C₂ C' : Cluster} {n x addr id : Bytes} {o : Outcome}

theorem Later.valueAt (h : Later r [] none C C₁) (x : Bytes) (t : ℕ) :
    valueAt r x C₁ t = valueAt r x C t := by
  rw [Medusa.valueAt, Medusa.valueAt, h.copy, if_neg List.not_mem_nil]

/-- What was asked of a part of the call was asked of the call. -/
theorem AnswersAs.widen (h : AnswersAs r C₁ C₂ x o) (h₁ : Later r [] none C C₁)
    (h₂ : Later r [] none C₂ C') : AnswersAs r C C' x o := by
  obtain ⟨t, hle, hge, ho⟩ := h
  exact ⟨t, (h₁.clock x).trans hle, hge.trans (h₂.clock x), by rw [ho, h₁.valueAt]⟩

theorem AskedAt.widen (h : AskedAt r C₁ C₂ addr o) (h₁ : Later r [] none C C₁)
    (h₂ : Later r [] none C₂ C') : AskedAt r C C' addr o := by
  unfold AskedAt at *
  rw [h₁.listen] at h
  split at h
  · exact h
  · exact h.widen h₁ h₂

theorem AskedBackup.widen (h : AskedBackup n r C₁ C₂ id o) (h₁ : Later r [] none C C₁)
    (h₂ : Later r [] none C₂ C') : AskedBackup n r C C' id o := by
  unfold AskedBackup at *
  rw [h₁.mem] at h
  split at h
  · next hid =>
    rw [if_pos hid]
    exact h.widen h₁ h₂
  · next hid =>
    rw [if_neg hid]
    split at h
    · exact h
    · exact h.widen h₁ h₂

/-- Whoever is not asked any more would have answered so. -/
theorem exists_askedBackup (n : Bytes) (h : Later r [] none C C') (id : Bytes) :
    ∃ o, AskedBackup n r C C' id o := by
  unfold AskedBackup AskedAt
  split
  · exact ⟨_, _, le_rfl, h.clock n, rfl⟩
  · split
    · exact ⟨_, rfl⟩
    · split
      · exact ⟨_, rfl⟩
      · exact ⟨_, _, le_rfl, h.clock _, rfl⟩

theorem exists_askedBackups (n : Bytes) (h : Later r [] none C C') (ids : List Bytes) :
    ∃ os, List.Forall₂ (AskedBackup n r C C') ids os := by
  induction ids with
  | nil => exact ⟨[], .nil⟩
  | cons id ids ih =>
    obtain ⟨os, hos⟩ := ih
    obtain ⟨o, ho⟩ := exists_askedBackup n h id
    exact ⟨o :: os, .cons ho hos⟩

end asking

section programs
variable {r : Ref} {C : Cluster} {n x : Bytes}

/-- A node reads its own copy. -/
theorem read_asked {α : Type} {f : Option Bytes → Prog α} {Q : α → Cluster → Prop}
    (h : ∀ C' v, Later r [] none C C' → AnswersAs r C C' x (.answered v) →
      (f v).Ensures exec Arrives Q C') :
    (Prog.on x (.get (routedPartition r.1 r.2) r.1 r.2) >>= f).Ensures exec Arrives Q C := by
  intro c hc
  have hlater : Later r [] none C (exec (.on x (.get (routedPartition r.1 r.2) r.1 r.2)) c C).2 :=
    Action.Quiet.later (e := .on x (.get _ r.1 r.2)) (Or.inr ⟨_, _, _, rfl⟩) r none c C
  have hclock := exec_on_clock x (.get (routedPartition r.1 r.2) r.1 r.2) c C
  exact h _ _ hlater ⟨(C.nodes x).clock + c.tick, Nat.le_add_right _ _, hclock.ge, rfl⟩

/-- Without a loader `getThrough` reads the copy. -/
theorem getThrough_asked (hload : ∀ x, (C.nodes x).loaders r.1 = .none) (x : Bytes) :
    (getThrough x r.1 r.2).Ensures exec Arrives (fun out C' => Later r [] none C C' ∧
      ∃ v, out = .ok v ∧ AnswersAs r C C' x (.answered v)) C := by
  refine read_asked (fun C₁ v h₁ hv => ?_)
  cases v with
  | some v => exact ⟨h₁, some v, rfl, hv⟩
  | none =>
    intro c hc
    change Prog.Ensures exec Arrives _
      (if (C₁.nodes x).loaders r.1 = MapSource.none then _ else _) _
    rw [if_pos ((congrFun (h₁.loaders x) r.1).trans (hload x))]
    have h₂ := Action.Quiet.later (e := .on x (.source r.1)) (Or.inl trivial) r none c C₁
    exact ⟨h₁.trans h₂, none, rfl, hv.widen (Later.refl r none C) h₂⟩

/-- A `Get` message gets the answer of whoever listens. -/
theorem sendGet_asked (hload : ∀ x, (C.nodes x).loaders r.1 = .none) (addr : Bytes) :
    (sendGet addr r.1 r.2).Ensures exec Arrives (fun out C' => Later r [] none C C' ∧
      ∃ o, o ≠ .unknown ∧ out = o.result ∧ AskedAt r C C' addr o) C := by
  cases hlisten : C.listen addr with
  | none =>
    intro c hc
    have hconnect : (exec (.connect addr) c C).1 = none := by
      change (if c.lost then none else C.listen addr) = none
      rw [hlisten]
      split <;> rfl
    rw [hconnect]
    refine ⟨Later.refl r none C, .down, by simp, rfl, ?_⟩
    unfold AskedAt
    rw [hlisten]
  | some x =>
    refine send_ensures hlisten ((getThrough_asked hload x).mono ?_)
    rintro _ C' ⟨hl, v, rfl, hv⟩
    refine ⟨hl, .answered v, by simp, rfl, ?_⟩
    unfold AskedAt
    rw [hlisten]
    exact hv

/-- The search among the backups. -/
theorem tryEach_asked (hname : r.1 ≠ queueSegMap) (ids : List Bytes) {C : Cluster}
    (hload : ∀ x, (C.nodes x).loaders r.1 = .none) (s : Except ServiceError (Option Bytes)) :
    (Map.tryEach n (Map.getBackup n (forKey r.2) r.1 r.2) ids s).Ensures exec Arrives
      (fun out C' => Later r [] none C C' ∧
        ∃ os, List.Forall₂ (AskedBackup n r C C') ids os ∧ out = walk os s) C := by
  induction ids generalizing C s with
  | nil => exact ⟨Later.refl r none C, [], .nil, rfl⟩
  | cons id ids ih =>
    have hload' : ∀ {C₁ : Cluster}, Later r [] none C C₁ → ∀ x, (C₁.nodes x).loaders r.1 = .none :=
      fun h₁ x => (congrFun (h₁.loaders x) r.1).trans (hload x)
    -- the rest of the search, after `id` was asked
    have hnext : ∀ {C₁ : Cluster} {s₁ : Except ServiceError (Option Bytes)} {o : Outcome},
        Later r [] none C C₁ → AskedBackup n r C C₁ id o →
        (∀ os, walk (o :: os) s = walk os s₁) →
        (Map.tryEach n (Map.getBackup n (forKey r.2) r.1 r.2) ids s₁).Ensures exec Arrives
          (fun out C' => Later r [] none C C' ∧
            ∃ os, List.Forall₂ (AskedBackup n r C C') (id :: ids) os ∧ out = walk os s) C₁ := by
      intro C₁ s₁ o h₁ ho hwalk
      refine (ih (hload' h₁) s₁).mono ?_
      rintro _ C' ⟨h₂, os, hos, rfl⟩
      refine ⟨h₁.trans h₂, o :: os, .cons (ho.widen (Later.refl r none C) h₂) ?_, (hwalk os).symm⟩
      exact hos.imp fun _ _ h => h.widen h₁ (Later.refl r none C')
    -- a live value ends it
    have hstop : ∀ {C₁ : Cluster} {v : Bytes}, Later r [] none C C₁ →
        AskedBackup n r C C₁ id (.answered (some v)) →
        Later r [] none C C₁ ∧ ∃ os, List.Forall₂ (AskedBackup n r C C₁) (id :: ids) os ∧
          (.ok (some v) : Except ServiceError (Option Bytes)) = walk os s := by
      intro C₁ v h₁ ho
      obtain ⟨os, hos⟩ := exists_askedBackups n h₁ ids
      exact ⟨h₁, _, .cons ho hos, rfl⟩
    unfold Map.tryEach
    split
    · next hid =>
      refine Prog.Ensures.bind ?_
      unfold Map.getBackup
      rw [← routedPartition_of_ne hname r.2]
      refine read_asked (fun C₁ v h₁ hv => ?_)
      have hasked : AskedBackup n r C C₁ id (.answered v) := by
        unfold AskedBackup
        rw [if_pos hid]
        exact hv
      rw [routedPartition_of_ne hname r.2]
      cases v with
      | some v => exact hstop h₁ hasked
      | none => exact hnext h₁ hasked fun os => rfl
    · next hid =>
      intro c hc
      have h₁ := Action.Quiet.later (e := .on n (.addrOf id)) (Or.inl trivial) r none c C
      have hview : (exec (.on n (.addrOf id)) c C).1 = (C.nodes n).mem.addrOf id := rfl
      rw [hview]
      cases haddr : (C.nodes n).mem.addrOf id with
      | none =>
        refine hnext h₁ (o := .unknown) ?_ fun os => rfl
        unfold AskedBackup
        rw [if_neg hid, haddr]
      | some addr =>
        refine Prog.Ensures.bind
          (p := Map.getBackup n (forKey r.2) r.1 r.2 (some addr) s) ?_
        refine Prog.Ensures.bind (p := sendGet addr r.1 r.2)
          ((sendGet_asked (hload' h₁) addr).mono ?_)
        rintro _ C₂ ⟨h₂, o, hne, rfl, ho⟩
        have h₁₂ := h₁.trans h₂
        have hasked : AskedBackup n r C C₂ id o := by
          unfold AskedBackup
          rw [if_neg hid, haddr]
          exact ho.widen h₁ (Later.refl r none C₂)
        cases o with
        | unknown => exact absurd rfl hne
        | down => exact hnext h₁₂ hasked fun os => rfl
        | answered v =>
          cases v with
          | none => exact hnext h₁₂ hasked fun os => rfl
          | some v => exact hstop h₁₂ hasked

/-- The backups are asked after the owner, and none of its error is kept. -/
theorem tryBackups_asked (hname : r.1 ≠ queueSegMap) {C₁ : Cluster}
    (hload : ∀ x, (C.nodes x).loaders r.1 = .none) (h₁ : Later r [] none C C₁) {owner : Outcome}
    (ho : AskedOwner n r C C₁ ((C.nodes n).mem.table.ownerOf (forKey r.2)) owner)
    (hlive : owner.live = none) :
    (Map.tryBackups n (forKey r.2) (Map.getBackup n (forKey r.2) r.1 r.2) (.ok none)).Ensures exec
      Arrives (fun out C' => ∃ owner backups,
        AskedOwner n r C C' ((C.nodes n).mem.table.ownerOf (forKey r.2)) owner ∧
        List.Forall₂ (AskedBackup n r C C') ((C.nodes n).mem.table.backupsOf (forKey r.2)) backups ∧
        out = getResult owner backups) C₁ := by
  intro c hc
  have h₂ := h₁.trans (Action.Quiet.later (e := .on n .table) (Or.inl trivial) r none c C₁)
  have htable : (exec (.on n .table) c C₁).1 = (C.nodes n).mem.table :=
    congrArg Membership.table (h₁.mem n)
  rw [htable]
  refine (tryEach_asked hname _ (fun x => (congrFun (h₂.loaders x) r.1).trans (hload x)) _).mono ?_
  rintro _ C' ⟨h₃, os, hos, rfl⟩
  have hfrom₁ : Later r [] none C₁ C' :=
    (Action.Quiet.later (e := .on n .table) (Or.inl trivial) r none c C₁).trans h₃
  refine ⟨owner, os, ?_, hos.imp fun _ _ h => h.widen h₂ (Later.refl r none C'), ?_⟩
  · unfold AskedOwner at *
    split at ho
    · next hid =>
      rw [if_pos hid]
      exact ho.widen (Later.refl r none C) hfrom₁
    · next hid =>
      rw [if_neg hid]
      exact ho.widen (Later.refl r none C) hfrom₁
  · rw [getResult, hlive]

/-- A live value of the owner ends the call. -/
theorem owner_live {C' : Cluster} (h : Later r [] none C C') {v : Bytes}
    (ho : AskedOwner n r C C' ((C.nodes n).mem.table.ownerOf (forKey r.2)) (.answered (some v))) :
    ∃ owner backups, AskedOwner n r C C' ((C.nodes n).mem.table.ownerOf (forKey r.2)) owner ∧
      List.Forall₂ (AskedBackup n r C C') ((C.nodes n).mem.table.backupsOf (forKey r.2)) backups ∧
      (.ok (some v) : Except ServiceError (Option Bytes)) = getResult owner backups := by
  obtain ⟨os, hos⟩ := exists_askedBackups n h ((C.nodes n).mem.table.backupsOf (forKey r.2))
  exact ⟨_, os, ho, hos, rfl⟩

/-- **The result of a `Get` is a function of what became of asking the holders.** -/
theorem get_asked (hname : r.1 ≠ queueSegMap) (hload : ∀ x, (C.nodes x).loaders r.1 = .none) :
    (Map.get n r.1 r.2).Ensures exec Arrives (fun out C' => ∃ owner backups,
      AskedOwner n r C C' ((C.nodes n).mem.table.ownerOf (forKey r.2)) owner ∧
      List.Forall₂ (AskedBackup n r C C') ((C.nodes n).mem.table.backupsOf (forKey r.2)) backups ∧
      out = getResult owner backups) C := by
  have hload' : ∀ {C₁ : Cluster}, Later r [] none C C₁ → ∀ x, (C₁.nodes x).loaders r.1 = .none :=
    fun h₁ x => (congrFun (h₁.loaders x) r.1).trans (hload x)
  refine Prog.Ensures.bind fun c hc => ?_
  have h₁ := Action.Quiet.later (e := .on n .table) (Or.inl trivial) r none c C
  by_cases hown : (C.nodes n).mem.table.ownerOf (forKey r.2) = n
  · change Prog.Ensures exec Arrives _ (if (C.nodes n).mem.table.ownerOf (forKey r.2) = n
      then _ else _) _
    rw [if_pos hown]
    refine Prog.Ensures.bind (p := getThrough n r.1 r.2)
      ((getThrough_asked (hload' h₁) n).mono ?_)
    rintro _ C₂ ⟨h₂, v, rfl, hv⟩
    have ho : AskedOwner n r C C₂ ((C.nodes n).mem.table.ownerOf (forKey r.2)) (.answered v) := by
      unfold AskedOwner
      rw [if_pos hown]
      exact hv.widen h₁ (Later.refl r none C₂)
    cases v with
    | some v => exact owner_live (h₁.trans h₂) ho
    | none => exact tryBackups_asked hname hload (h₁.trans h₂) ho rfl
  · change Prog.Ensures exec Arrives _ (if (C.nodes n).mem.table.ownerOf (forKey r.2) = n
      then _ else _) _
    rw [if_neg hown]
    intro c' hc'
    have h₂ := h₁.trans (Action.Quiet.later (e := .on n (.addrOf
      ((C.nodes n).mem.table.ownerOf (forKey r.2)))) (Or.inl trivial) r none c' _)
    have hview : (exec (.on n (.addrOf ((C.nodes n).mem.table.ownerOf (forKey r.2)))) c'
        (exec (.on n .table) c C).2).1 =
        (C.nodes n).mem.addrOf ((C.nodes n).mem.table.ownerOf (forKey r.2)) :=
      congrArg (fun m : Membership => m.addrOf _) (h₁.mem n)
    refine Prog.Ensures.bind (p := sendGet (Option.getD (exec (.on n (.addrOf
      ((C.nodes n).mem.table.ownerOf (forKey r.2)))) c' (exec (.on n .table) c C).2).1 []) r.1 r.2) ?_
    rw [hview]
    refine (sendGet_asked (hload' h₂) _).mono ?_
    rintro _ C₃ ⟨h₃, o, hne, rfl, ho⟩
    have hasked : AskedOwner n r C C₃ ((C.nodes n).mem.table.ownerOf (forKey r.2)) o := by
      unfold AskedOwner
      rw [if_neg hown]
      exact ho.widen h₂ (Later.refl r none C₃)
    match o with
    | .unknown => exact absurd rfl hne
    | .down => exact tryBackups_asked hname hload (h₂.trans h₃) hasked rfl
    | .answered none => exact tryBackups_asked hname hload (h₂.trans h₃) hasked rfl
    | .answered (some v) => exact owner_live (h₂.trans h₃) hasked

end programs

/-! ### When a `Get` is right -/

/-- **A `Get` errs exactly when nobody answered, and otherwise returns the first live value, if and only
if the outcomes fit**: on any node, whatever its table and view say and whoever listens, with any
content of the stores and without a loader. -/
theorem get_right_iff {r : Ref} (hname : r.1 ≠ queueSegMap) {C : Cluster}
    (hload : ∀ x, (C.nodes x).loaders r.1 = .none) (n : Bytes) :
    (Map.get n r.1 r.2).Ensures exec Arrives (fun out C' => ∃ owner backups,
      AskedOwner n r C C' ((C.nodes n).mem.table.ownerOf (forKey r.2)) owner ∧
      List.Forall₂ (AskedBackup n r C C') ((C.nodes n).mem.table.backupsOf (forKey r.2)) backups ∧
      (Right (owner :: backups) out ↔ Fits owner backups)) C := by
  refine (get_asked hname hload).mono ?_
  rintro _ C' ⟨owner, backups, ho, hb, rfl⟩
  exact ⟨owner, backups, ho, hb, right_iff_fits⟩

/-- Two nodes with the entry and without a backup, and two nodes without the entry and with one. -/
def lonelyOwner : Cluster := oneEntry [[97], [98]] 0 [[97], [98]] ([109], [114]) [118]

@[inherit_doc lonelyOwner] def emptyPair : Cluster := oneEntry [[97], [98]] 1 [] ([109], [114]) []

/-- A live owner without the key, and a live backup without it: the answers fit. -/
theorem get_right_emptyPair :
    (Map.get [98] [109] [114]).Ensures exec Arrives (fun out C' => ∃ owner backups,
      AskedOwner [98] ([109], [114]) emptyPair C' [97] owner ∧
      List.Forall₂ (AskedBackup [98] ([109], [114]) emptyPair C') [[98]] backups ∧
      (Right (owner :: backups) out ↔ Fits owner backups)) emptyPair ∧
    Fits (.answered none) [.answered none] := by
  have htable : (emptyPair.nodes [98]).mem.table.ownerOf (forKey [114]) = [97] ∧
      (emptyPair.nodes [98]).mem.table.backupsOf (forKey [114]) = [[98]] := by
    decide +kernel
  have hget := get_right_iff (r := ([109], [114])) (by decide) (C := emptyPair) (fun _ => rfl) [98]
  rw [htable.1, htable.2] at hget
  exact ⟨hget, Or.inr (Or.inl (by simp [Outcome.answer]))⟩

/-- **Wrong answers**: with the only holder down a `Get` reports absence, and with the last backup down
it reports an error although the owner has answered. -/
theorem get_wrong_answers :
    let down := lonelyOwner.without [[97]]
    let partly := emptyPair.without [[98]]
    ((down.nodes [98]).mem.table.ownerOf (forKey [114]) = [97] ∧
      (down.nodes [98]).mem.table.backupsOf (forKey [114]) = [] ∧
      down.listen [97] = none ∧
      ((Map.get [98] [109] [114]).eval exec (fun _ => .still) down).1 = .ok none) ∧
    ((partly.nodes [97]).mem.table.ownerOf (forKey [114]) = [97] ∧
      (partly.nodes [97]).mem.table.backupsOf (forKey [114]) = [[98]] ∧
      ((Map.get [97] [109] [114]).eval exec (fun _ => .still) partly).1 = .error .unreachable) := by
  refine ⟨⟨by decide +kernel, by decide +kernel, by decide +kernel, by rfl⟩,
    by decide +kernel, by decide +kernel, by rfl⟩

end Medusa
