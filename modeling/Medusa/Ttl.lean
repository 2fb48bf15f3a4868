import Medusa.Calls
import Medusa.Replicas

/-! # Time to live

`PutTTL` cuts its duration to milliseconds, and the owner turns them into an expiry by its clock, in
64-bit arithmetic (`expireFromTTL`).  For a duration of at least a millisecond whose end the clock can
represent the expiry is the one meant (`toInt_expireFromTTL_duration`).  A shorter duration never ends
(`expired_short`), and one beyond the clock has ended at once (`expired_beyond`).  So a reader on the owner
sees the value until the last millisecond and not after the end exactly for the former (`ttl_contract`;
`ttl_extremes` has the two ends of the range). -/

namespace Medusa

open Medusa.Partition Store Interleave Service Contract

/-! ### The expiry of a duration -/

/-- The milliseconds of a positive duration. -/
theorem toInt_milliseconds {ttl : Int64} (hpos : 0 < ttl) :
    (ttl / 1000000).toInt = ttl.toInt / 1000000 := by
  have h0 : 0 < ttl.toInt := Int64.lt_iff_toInt_lt.mp hpos
  have hc : (1000000 : Int64).toInt = 1000000 := by decide
  rw [Int64.toInt_div_of_ne_right _ _ (by decide), hc, Int.tdiv_eq_ediv_of_nonneg h0.le]

/-- The end of a duration, to the millisecond. -/
theorem toInt_expireFromTTL_duration {t0 : ℕ} {ttl : Int64} (hms : 1000000 ≤ ttl.toInt)
    (hend : (t0 : ℤ) + ttl.toInt / 1000000 * 1000000 < 2 ^ 63) :
    (expireFromTTL t0 (ttl / 1000000)).toInt = t0 + ttl.toInt / 1000000 * 1000000 := by
  have hpos : 0 < ttl := Int64.lt_iff_toInt_lt.mpr (by rw [Int64.toInt_zero]; omega)
  have hcut := toInt_milliseconds hpos
  rw [toInt_expireFromTTL (Int64.lt_iff_toInt_lt.mpr ?_), hcut]
  · exact Int.bmod_eq_of_le (by omega) (by omega)
  · rw [Int64.toInt_zero, hcut]
    omega

/-- When the value of a duration has expired. -/
theorem expired_duration {t0 : ℕ} {ttl : Int64} (hms : 1000000 ≤ ttl.toInt)
    (hend : (t0 : ℤ) + ttl.toInt / 1000000 * 1000000 < 2 ^ 63) (data : Bytes) (t : ℕ) :
    (Value.mk data (expireFromTTL t0 (ttl / 1000000))).expired t = true ↔
      (t0 : ℤ) + ttl.toInt / 1000000 * 1000000 < t := by
  have he := toInt_expireFromTTL_duration hms hend
  have hne : expireFromTTL t0 (ttl / 1000000) ≠ 0 := by
    intro h0
    rw [h0, Int64.toInt_zero] at he
    omega
  simp [Value.expired, hne, he]

/-- A duration under a millisecond never ends. -/
theorem expired_short {t0 : ℕ} {ttl : Int64} (hpos : 0 < ttl) (hms : ttl.toInt < 1000000) (data : Bytes)
    (t : ℕ) : (Value.mk data (expireFromTTL t0 (ttl / 1000000))).expired t = false := by
  have h0 : 0 < ttl.toInt := Int64.lt_iff_toInt_lt.mp hpos
  have hcut : (ttl / 1000000).toInt = 0 := by
    rw [toInt_milliseconds hpos]
    omega
  have hle : ttl / 1000000 ≤ 0 := Int64.le_iff_toInt_le.mpr (by rw [hcut, Int64.toInt_zero])
  simp [Value.expired, expireFromTTL, hle]

/-- A duration that ends beyond the clock has ended. -/
theorem expired_beyond {t0 : ℕ} {ttl : Int64} (ht0 : t0 < 2 ^ 63) (hms : 1000000 ≤ ttl.toInt)
    (hend : 2 ^ 63 ≤ (t0 : ℤ) + ttl.toInt / 1000000 * 1000000) (data : Bytes) (t : ℕ) :
    (Value.mk data (expireFromTTL t0 (ttl / 1000000))).expired t = true := by
  have hpos : 0 < ttl := Int64.lt_iff_toInt_lt.mpr (by rw [Int64.toInt_zero]; omega)
  have hcut := toInt_milliseconds hpos
  have hmax : ttl.toInt < 2 ^ 63 := ttl.toInt_lt
  have he : (expireFromTTL t0 (ttl / 1000000)).toInt =
      t0 + ttl.toInt / 1000000 * 1000000 - 2 ^ 64 := by
    rw [toInt_expireFromTTL (Int64.lt_iff_toInt_lt.mpr ?_), hcut]
    · rw [Int.bmod_def]
      omega
    · rw [Int64.toInt_zero, hcut]
      omega
  have hne : expireFromTTL t0 (ttl / 1000000) ≠ 0 := by
    intro h0
    rw [h0, Int64.toInt_zero] at he
    omega
  have hlt : (expireFromTTL t0 (ttl / 1000000)).toInt < t := by omega
  simp [Value.expired, hne, hlt]

/-! ### The entry between the put and a read -/

/-- Thread `i` has put `value` under `r` on `n`, after reading `t0` off the clock. -/
def PutAt (i : ℕ) (n : Bytes) (r : Ref) (value : Bytes) (h : List Event) (t0 : ℕ) : Prop :=
  ∃ (expireAt : Int64) (created : Bool),
    [(⟨i, .on n (.put r.1 r.2 value expireAt), created⟩ : Event), ⟨i, .on n .nowNano, t0⟩] <:+: h

/-- Node `n` holds `v` under `r`, or had it and it has expired. -/
def Held (n : Bytes) (r : Ref) (v : Value) (C : Cluster) : Prop :=
  (C.nodes n).store.find (routedPartition r.1 r.2) r = some v ∨
    ((C.nodes n).store.find (routedPartition r.1 r.2) r = none ∧ v.expired (C.nodes n).clock = true)

section held
variable {n : Bytes} {r : Ref} {v : Value} {C : Cluster}

theorem Held.of_same {C' : Cluster} (h : Held n r v C) (hn : C'.nodes n = C.nodes n) :
    Held n r v C' := by
  unfold Held at *
  rwa [hn]

/-- An action that leaves the entry alone. -/
theorem Held.exec {e : Action} (h : Held n r v C) (he : ¬ e.Touches n r) (c : Choice) :
    Held n r v (Medusa.exec e c C).2 := by
  cases e with
  | on m a =>
    by_cases hm : n = m
    · subst hm
      have hclock := exec_clock_mono n c C (.on n a)
      have hlater : v.expired (C.nodes n).clock = true →
          v.expired ((Medusa.exec (.on n a) c C).2.nodes n).clock = true :=
        fun hv => Value.expired_mono hv hclock
      have hnow := exec_on_clock n a c C
      unfold Held at *
      rw [exec_on_self] at *
      rcases NodeAction.find_of_not_touches (fun ha => he ⟨rfl, ha⟩) ((C.nodes n).tick c.tick) c
        (routedPartition r.1 r.2) with hf | hf
      · rw [hf]
        exact h.imp id (fun hx => ⟨hx.1, hlater hx.2⟩)
      · rw [hf, hnow]
        rcases h with hx | hx
        · change ((C.nodes n).tick c.tick).store.find _ _ = some v at hx
          rw [hx, Option.filter_some]
          cases hexp : v.expired ((C.nodes n).tick c.tick).clock with
          | false => exact Or.inl rfl
          | true => exact Or.inr ⟨rfl, hexp⟩
        · right
          refine ⟨?_, by rw [← hnow]; exact hlater hx.2⟩
          change (Option.filter _ ((C.nodes n).store.find _ _)) = none
          rw [hx.1]
          rfl
    · exact h.of_same (exec_on_ne _ _ _ _ hm)
  | start m => exact h.of_same (exec_start_ne _ _ _ fun hm => he hm.symm)
  | crash m => exact h.of_same (exec_crash_ne _ _ _ fun hm => he hm.symm)
  | storeThrough | deleteThrough =>
    refine h.of_same ?_
    simp only [Medusa.exec]
    split <;> rfl
  | _ => exact h

/-- What a reader on `n` finds. -/
theorem Held.get (h : Held n r v C) (c : Choice) :
    (Medusa.exec (.on n (.get (routedPartition r.1 r.2) r.1 r.2)) c C).1 =
      if v.expired ((C.nodes n).clock + c.tick) = true then none else some v.data := by
  change ((C.nodes n).store.lookup _ r.1 r.2 ((C.nodes n).clock + c.tick)).map Value.data = _
  rw [Store.lookup]
  rcases h with hf | ⟨hf, hexp⟩
  · rw [hf, Option.filter_some]
    cases v.expired ((C.nodes n).clock + c.tick) <;> rfl
  · rw [hf, if_pos (Value.expired_mono hexp (Nat.le_add_right _ _))]
    rfl

end held

/-! ### The call among others -/

/-- No other operation on the entry: what works on it is thread `0`, for the first time. -/
def Undisturbed (n : Bytes) (r : Ref) (i : ℕ) (e : Action) (_ : Choice) (w : World) : Prop :=
  e.Touches n r → i = 0 ∧ ∀ ev ∈ w.own 0, ¬ ev.act.Touches n r

/-- Thread `0` begins when `n` is the owner of the key. -/
def OnOwner (n key : Bytes) (i : ℕ) (_ : Action) (_ : Choice) (w : World) : Prop :=
  i = 0 → w.own 0 = [] → (w.state.nodes n).mem.table.ownerOf (forKey key) = n

instance (n : Bytes) (r : Ref) (i : ℕ) (e : Action) (c : Choice) (w : World) :
    Decidable (Undisturbed n r i e c w) :=
  inferInstanceAs (Decidable (e.Touches n r → i = 0 ∧ ∀ ev ∈ w.own 0, ¬ ev.act.Touches n r))

instance (n key : Bytes) (i : ℕ) (e : Action) (c : Choice) (w : World) :
    Decidable (OnOwner n key i e c w) :=
  decidable_of_iff (i = 0 → (w.own 0).isEmpty = true →
    (w.state.nodes n).mem.table.ownerOf (forKey key) = n) (by simp [OnOwner])

/-- Thread `0` works on the entry only by a put with a TTL counted from the reading before it, and is
told that it began on the owner. -/
def ttlContract (n : Bytes) (r : Ref) (value : Bytes) (ttlMs : Int64) : Contract Action.Resp where
  pre i h e := i = 0 → e.Touches n r → ∃ t0 h', h = ⟨0, .on n .nowNano, t0⟩ :: h' ∧
    e = .on n (.put r.1 r.2 value (expireFromTTL t0 ttlMs))
  post i h e resp :=
    match e, resp with
    | .on m .table, tbl => i = 0 → h = [] → m = n → tbl.ownerOf (forKey r.2) = n
    | _, _ => True

section call
variable {n : Bytes} {r : Ref} {value : Bytes} {ttlMs : Int64}

/-- The entry is as the put left it. -/
def Kept (n : Bytes) (r : Ref) (value : Bytes) (ttlMs : Int64) (w : World) : Prop :=
  ∀ t0, PutAt 0 n r value (w.own 0) t0 → Held n r ⟨value, expireFromTTL t0 ttlMs⟩ w.state

/-- A put in the history works on the entry. -/
theorem PutAt.touches {i : ℕ} {h : List Event} {t0 : ℕ} (hp : PutAt i n r value h t0) :
    ∃ ev ∈ h, ev.act.Touches n r := by
  obtain ⟨expireAt, created, hin⟩ := hp
  exact ⟨_, hin.subset List.mem_cons_self, rfl, rfl⟩

theorem PutAt.mono {i : ℕ} {h h' : List Event} {t0 : ℕ} (hp : PutAt i n r value h t0) (hs : h <:+ h') :
    PutAt i n r value h' t0 := by
  obtain ⟨expireAt, created, hin⟩ := hp
  exact ⟨expireAt, created, hin.trans hs.isInfix⟩

/-- One more event is the put, or the put was before. -/
theorem PutAt.cons {i : ℕ} {h : List Event} {ev : Event} {t0 : ℕ}
    (hp : PutAt i n r value (ev :: h) t0) :
    (∃ expireAt created h', ev = ⟨i, .on n (.put r.1 r.2 value expireAt), created⟩ ∧
      h = ⟨i, .on n .nowNano, t0⟩ :: h') ∨ PutAt i n r value h t0 := by
  obtain ⟨expireAt, created, hin⟩ := hp
  rcases List.infix_cons_iff.mp hin with ⟨h', hh⟩ | hin
  · obtain ⟨hev, hh⟩ := List.cons.inj hh
    exact Or.inl ⟨expireAt, created, h', hev.symm, hh.symm⟩
  · exact Or.inr ⟨expireAt, created, hin⟩

theorem ttl_sound : Contract.Sound exec (ttlContract n r value ttlMs) (Kept n r value ttlMs)
    (fun i e c w => Undisturbed n r i e c w ∧ OnOwner n r.2 i e c w) := by
  rintro i e c w hI ⟨hfree, howner⟩ hpre
  refine ⟨fun t0 hput => ?_, ?_⟩
  · by_cases htouch : e.Touches n r
    · -- the put of thread 0, the first action on the entry
      obtain ⟨rfl, hnone⟩ := hfree htouch
      obtain ⟨t1, h', hown, rfl⟩ := hpre rfl htouch
      rw [World.next_own_self] at hput
      rcases hput.cons with ⟨_, _, h'', -, hh⟩ | hput
      · obtain rfl : t1 = t0 := by
          rw [hown] at hh
          injection (List.cons.inj hh).1
        left
        rw [World.next_state, find_exec_put, if_pos ⟨rfl, rfl, rfl⟩]
      · obtain ⟨ev, hev, hx⟩ := hput.touches
        exact absurd hx (hnone ev hev)
    · refine (hI t0 ?_).exec htouch c
      by_cases hi : i = 0
      · subst hi
        rw [World.next_own_self] at hput
        rcases hput.cons with ⟨_, _, _, hev, -⟩ | hput
        · injection hev with _ he _
          exact absurd (by rw [he]; exact ⟨rfl, rfl⟩) htouch
        · exact hput
      · rwa [World.next_own_ne exec w i e c hi] at hput
  · dsimp only [ttlContract]
    split
    · rintro hi hnil rfl
      subst hi
      exact howner rfl hnil
    · trivial

theorem plumbing_ttl : Plumbing (fun e => ∀ h, (ttlContract n r value ttlMs).pre 0 h e) where
  on m a ha h _ ht := by
    have hnone : ¬ NodeAction.Touches r a := by cases a <;> first | exact ha.elim | exact id
    exact absurd ht.2 hnone
  connect _ _ _ ht := ht.elim
  reply _ _ _ ht := ht.elim
  toStore _ _ _ _ _ ht := ht.elim
  toDelete _ _ _ _ ht := ht.elim

/-- A put anywhere follows a reading of the same clock. -/
theorem storePut_ttl (x : Bytes) (h : List Event) :
    (ttlContract n r value ttlMs).Obeys 0 (fun _ h' => ∃ t0, PutAt 0 x r value h' t0)
      (storePut x r.1 r.2 value ttlMs) h := by
  refine Obeys.step (plumbing_ttl.on x (a := .nowNano) trivial h) (fun t0 _ => ?_)
  refine ⟨fun _ ht => ⟨t0, h, ?_, ?_⟩, fun created _ => ⟨t0, _, created, List.infix_append' [] _ h⟩⟩
  · rw [ht.1]
  · rw [ht.1]

/-- **A `PutTTL` on the owner puts there before it returns**, and nothing else works on the entry. -/
theorem putTTL_obeys (hr : isReservedMap r.1 = false) (ttl : Int64) :
    (ttlContract n r value (ttl / 1000000)).Obeys 0 (fun _ h => ∃ t0, PutAt 0 n r value h t0)
      (Map.putTTL n r.1 r.2 value ttl) [] := by
  unfold Map.putTTL Map.putWithTTL
  rw [if_neg (by rw [hr]; simp)]
  refine Obeys.bind ?_
  unfold Map.viaOwner Map.route
  refine Obeys.bind (Obeys.step (plumbing_ttl.on n (a := .table) trivial [])
    (fun tbl htbl => ?_))
  rw [if_pos (htbl rfl rfl rfl)]
  change Contract.Obeys _ 0 _ (Service.applyPut n r.1 r.2 value (ttl / 1000000) false) _
  unfold Service.applyPut
  rw [if_neg (by simp)]
  refine Obeys.bind ((storePut_ttl n _).mono fun created h' ⟨t0, hput⟩ => ?_)
  have hreplica : ∀ x h, (ttlContract n r value (ttl / 1000000)).Obeys 0 (fun _ _ => True)
      ((Replica.put r.1 r.2 value (ttl / 1000000)).apply x) h :=
    fun x h => Obeys.bind ((storePut_ttl x h).mono fun _ _ _ => trivial)
  exact (plumbing_ttl.afterPut_obeys n _ _ created hreplica h').suffix.mono
    fun _ _ hs => ⟨t0, hput.mono hs.2⟩

end call

/-- What a copy with the expiry of a duration gives a reader at `t`, against what the duration asks. -/
theorem read_duration_iff {t0 : ℕ} (ht0 : t0 < 2 ^ 63) {ttl : Int64} (hpos : 0 < ttl) (value : Bytes)
    (t : ℕ) :
    let read := if (Value.mk value (expireFromTTL t0 (ttl / 1000000))).expired t = true then none
      else some value
    ((t0 + ttl.toInt < t → read = none) ∧ (t ≤ t0 + ttl.toInt - 1000000 → read = some value)) ↔
      if ttl.toInt < 1000000 then t ≤ t0 + ttl.toInt
      else t0 + ttl.toInt / 1000000 * 1000000 < 2 ^ 63 ∨ t0 + ttl.toInt - 1000000 < t := by
  intro read
  by_cases hms : ttl.toInt < 1000000
  · have hread : read = some value := if_neg (by simp [expired_short hpos hms])
    simp [hread, hms]
  · rw [if_neg hms]
    by_cases hend : (t0 : ℤ) + ttl.toInt / 1000000 * 1000000 < 2 ^ 63
    · have hexp := expired_duration (by omega) hend value t
      refine iff_of_true ⟨fun hlate => if_pos (hexp.mpr ?_), fun hearly => if_neg fun h => ?_⟩
        (Or.inl hend)
      · omega
      · have := hexp.mp h
        omega
    · have hread : read = none := if_pos (expired_beyond ht0 (by omega) (by omega) value t)
      rw [or_iff_right hend, hread]
      simp

/-- **When the value of a TTL is read until the last millisecond and not after the end**: a `PutTTL`
begins on the owner, among any other threads, and no other operation works on the entry.  Before it
returns it has put the value, at a clock reading `t0`.  From then on a read at `t` finds nothing after
`t0 + ttl` and the value up to a millisecond before, exactly if the duration has at least a millisecond
and its end is on the clock, or the read comes at a time when that asks nothing: before the end of a
shorter one, or after the last millisecond of one beyond the clock has begun.  All reads from `t0` on are
right exactly in the first case. -/
theorem ttl_contract {n : Bytes} {r : Ref} (hr : isReservedMap r.1 = false) {value : Bytes} {ttl : Int64}
    (hpos : 0 < ttl) {C : Cluster} {pool : ℕ → Prog (Except ServiceError Unit)}
    (hpool : pool 0 = Map.putTTL n r.1 r.2 value ttl) {sched : List (ℕ × Choice)}
    (hok : Meets exec (fun i e c w => Undisturbed n r i e c w ∧ OnOwner n r.2 i e c w) sched
      (Conf.init C pool)) :
    let f := Conf.run exec sched (Conf.init C pool)
    let time (c : Choice) : ℕ := (f.world.state.nodes n).clock + c.tick
    let read (c : Choice) := (exec (.on n (.get (routedPartition r.1 r.2) r.1 r.2)) c f.world.state).1
    let right (t0 : ℕ) (c : Choice) := (t0 + ttl.toInt < time c → read c = none) ∧
      (time c ≤ t0 + ttl.toInt - 1000000 → read c = some value)
    ((f.pool 0).returned = true → ∃ t0, PutAt 0 n r value (f.world.own 0) t0) ∧
    ∀ t0, PutAt 0 n r value (f.world.own 0) t0 → t0 < 2 ^ 63 →
      (∀ c, right t0 c ↔ if ttl.toInt < 1000000 then time c ≤ t0 + ttl.toInt
        else t0 + ttl.toInt / 1000000 * 1000000 < 2 ^ 63 ∨ t0 + ttl.toInt - 1000000 < time c) ∧
      ((f.world.state.nodes n).clock = t0 → ((∀ c, right t0 c) ↔
        1000000 ≤ ttl.toInt ∧ t0 + ttl.toInt / 1000000 * 1000000 < 2 ^ 63)) := by
  intro f time read right
  have hobeys : ∀ j, (ttlContract n r value (ttl / 1000000)).Obeys j
      (fun _ h => j = 0 → ∃ t0, PutAt 0 n r value h t0) (pool j) [] := by
    intro j
    by_cases hj : j = 0
    · subst hj
      rw [hpool]
      exact (putTTL_obeys hr ttl).mono fun _ _ h _ => h
    · exact (Obeys.of_pre (fun _ _ h0 => absurd h0 hj) _ _).mono fun _ _ _ h0 => absurd h0 hj
  obtain ⟨hkept, -, hdone⟩ := ttl_sound.run (f := Conf.init C pool)
    (fun t0 hput => by obtain ⟨_, hev, -⟩ := hput.touches; cases hev) hobeys hok
  refine ⟨fun hret => ?_, fun t0 hput ht0 => ?_⟩
  · obtain ⟨a, ha⟩ := Prog.returned_iff.mp hret
    exact (hdone 0).returned ha rfl
  · have hright : ∀ c, right t0 c ↔ if ttl.toInt < 1000000 then time c ≤ t0 + ttl.toInt
        else t0 + ttl.toInt / 1000000 * 1000000 < 2 ^ 63 ∨ t0 + ttl.toInt - 1000000 < time c := by
      intro c
      have hread : read c = _ := (hkept t0 hput).get c
      simp only [right, hread]
      exact read_duration_iff ht0 hpos value (time c)
    refine ⟨hright, fun hclock => ⟨fun hall => ?_, fun ⟨hms, hend⟩ c => ?_⟩⟩
    · -- a short duration fails after its end, one beyond the clock fails at once
      have h0 : 0 < ttl.toInt := Int64.lt_iff_toInt_lt.mp hpos
      have hnow := (hright .still).mp (hall .still)
      have hlate := (hright { tick := ttl.toInt.toNat + 1 }).mp (hall _)
      simp only [time, hclock, Choice.still] at hnow hlate
      split at hlate
      · omega
      · next hms =>
        rw [if_neg hms] at hnow
        omega
    · rw [hright c, if_neg (by omega)]
      exact Or.inl hend

/-- A cluster of one node. -/
def loneNode : Cluster := oneEntry [[97]] 0 [[97]] ([109], [114]) [118]

/-- A single put with a TTL. -/
def ttlPool (ttl : Int64) : ℕ → Prog (Except ServiceError Unit)
  | 0 => Map.putTTL [97] [109] [107] [1] ttl
  | _ => return .ok ()

/-- The put, alone, at the instant `t0`. -/
def putAlone (t0 : ℕ) (ttl : Int64) : Conf (Except ServiceError Unit) :=
  Conf.run exec ((0, { tick := t0 }) :: List.replicate 5 (0, .still)) (Conf.init loneNode (ttlPool ttl))

/-- A second: the value is there after 999 milliseconds, and gone a nanosecond after the second. -/
theorem ttl_contract_second :
    let f := putAlone 1700000000000000000 1000000000
    let readAt (d : ℕ) := (exec (.on [97] (.get (routedPartition [109] [107]) [109] [107]))
      { tick := d } f.world.state).1
    (f.pool 0).returned = true ∧
    PutAt 0 [97] ([109], [107]) [1] (f.world.own 0) 1700000000000000000 ∧
    readAt 999000000 = some [1] ∧ readAt 1000000001 = none := by
  intro f readAt
  have hput : PutAt 0 [97] ([109], [107]) [1] (f.world.own 0) 1700000000000000000 :=
    ⟨1700000001000000000, true, (f.world.own 0).take 3, (f.world.own 0).drop 5, by rfl⟩
  have hcheck : Conf.check exec (fun i e c w => decide (Undisturbed [97] ([109], [107]) i e c w) &&
      decide (OnOwner [97] [107] i e c w))
      ((0, { tick := 1700000000000000000 }) :: List.replicate 5 (0, .still))
      (Conf.init loneNode (ttlPool 1000000000)) = true := by
    decide +kernel
  obtain ⟨-, hread⟩ := ttl_contract (r := ([109], [107])) (by decide) (by decide)
    (show ttlPool 1000000000 0 = Map.putTTL [97] [109] [107] [1] 1000000000 from rfl)
    ((Meets.of_check hcheck).mono (fun _ _ _ _ h => by simpa using h))
  have hright := (hread _ hput (by decide)).1
  refine ⟨by decide +kernel, hput, ?_, ?_⟩
  · exact ((hright _).mpr (by decide)).2 (by decide +kernel)
  · exact ((hright _).mpr (by decide)).1 (by decide +kernel)

/-- **The two ends of the range**: a TTL just below a millisecond has not ended after an hour, and the
longest one has ended at once. -/
theorem ttl_extremes :
    let readAt (f : Conf (Except ServiceError Unit)) (d : ℕ) :=
      (exec (.on [97] (.get (routedPartition [109] [107]) [109] [107])) { tick := d } f.world.state).1
    let short := putAlone 1700000000000000000 999999
    let long := putAlone 1700000000000000000 9223372036854775807
    (loneNode.nodes [97]).mem.table.ownerOf (forKey [107]) = [97] ∧
    (short.world.state.nodes [97]).clock = 1700000000000000000 ∧
    (long.world.state.nodes [97]).clock = 1700000000000000000 ∧
    short.pool 0 = .done (.ok ()) ∧ readAt short 3600000000000 = some [1] ∧
    long.pool 0 = .done (.ok ()) ∧ readAt long 0 = none := by
  refine ⟨by decide +kernel, by decide +kernel, by decide +kernel, by rfl, by decide +kernel, by rfl,
    by decide +kernel⟩

end Medusa
