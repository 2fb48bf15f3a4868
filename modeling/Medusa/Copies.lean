import Medusa.Ttl

/-! # Copies of expiring entries

A copy is sent with the time its entry has left, in milliseconds, and the receiver counts them from its
own clock (`storePut`).  Four programs send copies: `applyPut`, `applyExecute`, `Migrate` and
`SyncBackups` (`Sending`).  What a copy was made from is in the history of the sending thread: the
expiry it took from the entry (`captured`) and the reading of its clock (`sampled`), both outside the
handlers of its own calls (`senderEvents`).

`copies_expire`: the copy expires, and within the time that was left, when the expiry of a put is one
the clock can represent and a processor's result is sent while a millisecond is left.  `Migrate` and
`SyncBackups` do not send what has less left (`lapses`); `applyExecute` does, and the copy never expires
(`execute_copy_immortal`). -/

namespace Medusa

open Medusa.Partition Store Interleave Service Contract

/-! ### What a sender knows -/

/-- Whether the history ends inside a call: a request has arrived and is not answered yet. -/
def inCall : List Event → Bool
  | [] => false
  | ⟨_, .connect _, x⟩ :: _ => x.isSome
  | ⟨_, .reply _, _⟩ :: _ => false
  | _ :: h => inCall h

/-- The events of the sender, without those of the handlers it called. -/
def senderEvents : List Event → List Event
  | [] => []
  | ev :: h => if inCall h then senderEvents h else ev :: senderEvents h

/-- A reading of the clock of node `n`. -/
def readingOf (n : Bytes) : Event → Option ℕ
  | ⟨_, .on m .nowNano, t⟩ => if m = n then some t else none
  | _ => none

/-- The expiry of the entry under `r` of node `n`, as an event shows it. -/
def expiryOf (n : Bytes) (r : Ref) : Event → Option Int64
  | ⟨_, .on m (.put name key _ expireAt), _⟩ => if m = n ∧ r = (name, key) then some expireAt else none
  | ⟨_, .on m (.execute name key _ _), x⟩ => if m = n ∧ r = (name, key) then some x.expireAt else none
  | ⟨_, .on m (.lookup _ name key), v⟩ =>
    if m = n ∧ r = (name, key) then v.map Value.expireAt else none
  | ⟨_, .on m (.snapshot _), es⟩ =>
    if m = n then (es.find? (fun d => d.ref == r)).map Entry.expireAt else none
  | _ => none

/-- The sender's last reading of the clock of `n`. -/
def sampled (n : Bytes) (h : List Event) : Option ℕ := lastEffect (readingOf n) (senderEvents h)

/-- The expiry the sender last saw of the entry under `r` of `n`. -/
def captured (n : Bytes) (r : Ref) (h : List Event) : Option Int64 :=
  lastEffect (expiryOf n r) (senderEvents h)

/-- The event tells nothing of a clock or an expiry. -/
def Mute (ev : Event) : Prop := (∀ n, readingOf n ev = none) ∧ ∀ n r, expiryOf n r ev = none

/-- Between the two histories there are calls and mute events only. -/
structure Calls (h h' : List Event) : Prop where
  idle : inCall h' = false
  sampled : ∀ n, sampled n h' = sampled n h
  captured : ∀ n r, captured n r h' = captured n r h

section calls
variable {h h' h'' : List Event} {n : Bytes} {r : Ref} {ev : Event}

theorem Calls.refl (hc : inCall h = false) : Calls h h := ⟨hc, fun _ => rfl, fun _ _ => rfl⟩

theorem Calls.trans (hc : Calls h h') (hc' : Calls h' h'') : Calls h h'' :=
  ⟨hc'.idle, fun n => (hc'.sampled n).trans (hc.sampled n),
    fun n r => (hc'.captured n r).trans (hc.captured n r)⟩

theorem senderEvents_cons (hc : inCall h = false) : senderEvents (ev :: h) = ev :: senderEvents h := by
  rw [senderEvents, if_neg (by rw [hc]; simp)]

theorem sampled_cons (hc : inCall h = false) :
    sampled n (ev :: h) = (readingOf n ev).or (sampled n h) := by
  rw [sampled, senderEvents_cons hc, lastEffect_cons]
  rfl

theorem captured_cons (hc : inCall h = false) :
    captured n r (ev :: h) = (expiryOf n r ev).or (captured n r h) := by
  rw [captured, senderEvents_cons hc, lastEffect_cons]
  rfl

theorem Calls.mute (hc : inCall h = false) (hev : Mute ev) (hidle : inCall (ev :: h) = false) :
    Calls h (ev :: h) where
  idle := hidle
  sampled n := by rw [sampled_cons hc, hev.1, Option.none_or]
  captured n r := by rw [captured_cons hc, hev.2, Option.none_or]

/-- Inside a call that began at `h`: what happens is not the sender's. -/
structure Inside (h h' : List Event) : Prop where
  open_ : inCall h' = true
  sampled : ∀ n, sampled n h' = sampled n h
  captured : ∀ n r, captured n r h' = captured n r h

theorem Inside.connect (hc : inCall h = false) (i : ℕ) (addr x : Bytes) :
    Inside h (⟨i, .connect addr, some x⟩ :: h) where
  open_ := rfl
  sampled n := by rw [sampled_cons hc]; rfl
  captured n r := by rw [captured_cons hc]; rfl

theorem Inside.on (hin : Inside h h') (i : ℕ) (m : Bytes) {a : NodeAction} (x : a.Resp) :
    Inside h (⟨i, .on m a, x⟩ :: h') where
  open_ := hin.open_
  sampled n := by rw [Medusa.sampled, senderEvents, if_pos hin.open_]; exact hin.sampled n
  captured n r := by rw [Medusa.captured, senderEvents, if_pos hin.open_]; exact hin.captured n r

theorem Inside.reply (hin : Inside h h') (i : ℕ) (y : Bytes) (arrived : Bool) :
    Calls h (⟨i, .reply y, arrived⟩ :: h') where
  idle := rfl
  sampled n := by rw [Medusa.sampled, senderEvents, if_pos hin.open_]; exact hin.sampled n
  captured n r := by rw [Medusa.captured, senderEvents, if_pos hin.open_]; exact hin.captured n r

end calls

/-! ### The time a copy has -/

/-- Sent with `ttlMs`, a copy of the entry has no more than what was left of it. -/
def Bounded (n : Bytes) (h : List Event) (r : Ref) (ttlMs : Int64) : Prop :=
  ∀ e₀ now, captured n r h = some e₀ → e₀ ≠ 0 → sampled n h = some now →
    0 < ttlMs ∧ ttlMs.toInt * 1000000 ≤ e₀.toInt - now

/-- The expiry `expireAt`, about to be stored on `y` right after reading its clock, is one, and within
the time that was left of the entry. -/
def WithinLife (n : Bytes) (h : List Event) (y : Bytes) (r : Ref) (expireAt : Int64) : Prop :=
  ∀ e₀ now t, captured n r h = some e₀ → e₀ ≠ 0 → sampled n h = some now →
    (∃ i h', h = ⟨i, .on y .nowNano, t⟩ :: h') →
    expireAt ≠ 0 ∧ expireAt.toInt - t ≤ e₀.toInt - now

section bounded
variable {h h' : List Event} {n : Bytes} {r : Ref} {ttlMs : Int64}

theorem Bounded.of_calls (hb : Bounded n h r ttlMs) (hc : Calls h h') : Bounded n h' r ttlMs := by
  intro e₀ now he hne hnow
  rw [hc.captured] at he
  rw [hc.sampled] at hnow
  exact hb e₀ now he hne hnow

/-- Counted from a clock reading, the milliseconds end where they should or, when the sum overflows,
in the past; never at the value that stands for no expiry. -/
theorem expireFromTTL_bounds {t : ℕ} (ht : t < 2 ^ 63) (hpos : 0 < ttlMs) {life : ℤ}
    (hlife : life < 2 ^ 63) (hms : ttlMs.toInt * 1000000 ≤ life) :
    expireFromTTL t ttlMs ≠ 0 ∧ (expireFromTTL t ttlMs).toInt - t ≤ life := by
  have h0 : 0 < ttlMs.toInt := Int64.lt_iff_toInt_lt.mp hpos
  have he : (expireFromTTL t ttlMs).toInt = ((t : ℤ) + ttlMs.toInt * 1000000).bmod (2 ^ 64) :=
    toInt_expireFromTTL hpos
  by_cases hend : (t : ℤ) + ttlMs.toInt * 1000000 < 2 ^ 63
  · rw [Int.bmod_eq_of_le (by omega) (by omega)] at he
    refine ⟨fun hz => ?_, by omega⟩
    rw [hz, Int64.toInt_zero] at he
    omega
  · have hwrap : ((t : ℤ) + ttlMs.toInt * 1000000).bmod (2 ^ 64) =
        (t : ℤ) + ttlMs.toInt * 1000000 - 2 ^ 64 := by
      refine (Int.bmod_eq_iff (by norm_num)).mpr ⟨by omega, by omega, -1, by ring⟩
    rw [hwrap] at he
    refine ⟨fun hz => ?_, by omega⟩
    rw [hz, Int64.toInt_zero] at he
    omega

/-- What is left of an entry that is not skipped. -/
theorem remaining_bounds {e : Int64} {now : ℕ} (he : e ≠ 0) (hnow : now < 2 ^ 63) (h0 : 0 ≤ e.toInt)
    (hpos : 0 < remainingTTLms e now) : (remainingTTLms e now).toInt * 1000000 ≤ e.toInt - now := by
  have hlt := e.toInt_lt
  have hrem := toInt_remaining e now
  rw [Int.bmod_eq_of_le (n := (now : ℤ)) (by omega) (by omega),
    Int.bmod_eq_of_le (by omega) (by omega)] at hrem
  have hp : 0 < (remainingTTLms e now).toInt := Int64.lt_iff_toInt_lt.mp hpos
  rw [remainingTTLms, if_neg he] at hp ⊢
  rw [hrem] at hp ⊢
  by_cases hlate : e.toInt < now
  · -- nothing is left, and the quotient is not positive
    have hneg : e.toInt - now = -(now - e.toInt) := by omega
    rw [hneg, Int.neg_tdiv] at hp
    have := Int.tdiv_nonneg (show 0 ≤ now - e.toInt by omega) (show (0 : ℤ) ≤ 1000000 by omega)
    omega
  · rw [Int.tdiv_eq_ediv_of_nonneg (by omega)]
    omega

end bounded

/-! ### The senders -/

/-- A program that sends copies from a node: a put with a TTL, a processor, a `Migrate` pass or a
`SyncBackups` pass. -/
inductive Sending where
  | idle
  | put (n name key value : Bytes) (ttl : Int64)
  | execute (n name key procName arg : Bytes)
  | migrate (n : Bytes) (tbl : Table)
  | sync (n : Bytes) (tbl : Table) (start : ℤ) (batch : ℕ)

namespace Sending

/-- The node that sends. -/
def node : Sending → Bytes
  | idle => []
  | put n _ _ _ _ => n
  | execute n _ _ _ _ => n
  | migrate n _ => n
  | sync n _ _ _ => n

/-- The program; the duration of a put is cut as by `PutTTL`. -/
def prog (procs : Registry) : Sending → Prog Unit
  | idle => return ()
  | put n name key value ttl => do
      let _ ← Service.applyPut n name key value (ttl / 1000000) false
      return ()
  | execute n name key procName arg => do
      let _ ← Service.applyExecute procs n name key procName arg
      return ()
  | migrate n tbl => do
      let _ ← Service.migrate n tbl
      return ()
  | sync n tbl start batch => do
      let _ ← syncBackups n tbl start batch
      return ()

/-- The sender reads `now` off its clock in time: the expiry of a put is one the clock can represent,
and of an entry that a processor set at least a millisecond is left. -/
def Timely (h : List Event) (now : ℕ) : Sending → Prop
  | put _ _ _ _ ttl => (now : ℤ) + (ttl / 1000000).toInt * 1000000 < 2 ^ 63
  | execute n name key _ _ =>
    ∀ e₀ ∈ captured n (name, key) h, e₀ ≠ 0 → (now : ℤ) + 1000000 ≤ e₀.toInt
  | _ => True

instance (h : List Event) (now : ℕ) : (op : Sending) → Decidable (op.Timely h now)
  | put _ _ _ _ ttl =>
    inferInstanceAs (Decidable ((now : ℤ) + (ttl / 1000000).toInt * 1000000 < 2 ^ 63))
  | execute n name key _ _ =>
    -- over the captured expiry, not over every number of 64 bits
    have : DecidablePred fun e₀ : Int64 => e₀ ≠ 0 → (now : ℤ) + 1000000 ≤ e₀.toInt :=
      fun _ => inferInstance
    Option.decidableForallMem (captured n (name, key) h)
  | idle | migrate _ _ | sync _ _ _ _ => inferInstanceAs (Decidable True)

end Sending

/-- A clock reading is an `int64`, and that of a sender is in time. -/
def ReadsInTime (ops : ℕ → Sending) (i : ℕ) (e : Action) (c : Choice) (w : World) : Prop :=
  match e with
  | .on m .nowNano =>
    (w.state.nodes m).clock + c.tick < 2 ^ 63 ∧
      (inCall (w.own i) = false → (ops i).Timely (w.own i) ((w.state.nodes m).clock + c.tick))
  | _ => True

instance (ops : ℕ → Sending) (i : ℕ) (e : Action) (c : Choice) (w : World) :
    Decidable (ReadsInTime ops i e c w) := by
  cases e with
  | on m a => cases a <;> dsimp only [ReadsInTime] <;> infer_instance
  | _ => exact inferInstanceAs (Decidable True)

/-- A copy that arrives is within the life of its entry. -/
def copyContract (ops : ℕ → Sending) : Contract Action.Resp where
  pre i h e :=
    match e with
    | .on y (.put name key _ expireAt) =>
      inCall h = true → WithinLife (ops i).node h y (name, key) expireAt
    | _ => True
  post i h e resp :=
    match e, resp with
    | .on _ .nowNano, now => now < 2 ^ 63 ∧ (inCall h = false → (ops i).Timely h now)
    | .on _ (.lookup _ _ _), v => ∀ x ∈ v, 0 ≤ x.expireAt.toInt
    | .on _ (.snapshot _), es => (es.map Entry.ref).Nodup ∧ ∀ d ∈ es, 0 ≤ d.expireAt.toInt
    | _, _ => True

section sound
variable {ops : ℕ → Sending}

/-- The expiry of a live entry is none, or not before the clock. -/
theorem live_nonneg {v : Value} {now : ℕ} (h : v.expired now = false) : 0 ≤ v.expireAt.toInt := by
  by_cases h0 : v.expireAt = 0
  · rw [h0, Int64.toInt_zero]
  · have hlate : (now : ℤ) ≤ v.expireAt.toInt := by simpa [Value.expired, h0] using h
    omega

theorem copy_sound : Contract.Sound exec (copyContract ops) (fun _ => True) (ReadsInTime ops) := by
  intro i e c w _ hok _
  refine ⟨trivial, ?_⟩
  cases e with
  | on m a =>
    cases a with
    | nowNano => exact hok
    | lookup p name key =>
      intro v hv
      exact live_nonneg (lookup_eq_some.mp hv).2
    | snapshot p =>
      have hperm := exec_snapshot_perm m c w.state p
      refine ⟨((hperm.map Entry.ref).nodup_iff).mpr (nodup_ref_snapshotPartition _ _ _),
        fun d hd => ?_⟩
      exact live_nonneg (mem_snapshotPartition.mp (hperm.mem_iff.mp hd)).2
    | _ => trivial
  | _ => trivial

end sound

/-! ### The sends -/

section sends
variable {ops : ℕ → Sending} {i : ℕ} {h h' : List Event} {α : Type}

theorem plumbing_copy : Plumbing (fun e => ∀ h, (copyContract ops).pre i h e) where
  on m a ha _ := by cases a <;> first | exact ha.elim | trivial
  connect _ _ := trivial
  reply _ _ := trivial
  toStore _ _ _ _ := trivial
  toDelete _ _ _ := trivial

/-- A call whose handler stays inside it. -/
theorem send_calls {addr : Bytes} {handle : Bytes → Prog (Except ServiceError α)}
    (hc : inCall h = false) (hhandle : ∀ x h', Inside h h' →
      (copyContract ops).Obeys i (fun _ h'' => Inside h h'') (handle x) h') :
    (copyContract ops).Obeys i (fun _ h' => Calls h h') (send addr handle) h := by
  refine Obeys.step trivial (fun r _ => ?_)
  cases r with
  | none => exact Calls.mute hc ⟨fun _ => rfl, fun _ _ => rfl⟩ rfl
  | some x =>
    refine Obeys.bind ((hhandle x _ (Inside.connect hc i addr x)).mono fun out h'' hin => ?_)
    exact ⟨trivial, fun arrived _ => hin.reply i x arrived⟩

/-- The receiver stores a copy. -/
theorem storePut_inside {x name key value : Bytes} {ttlMs : Int64}
    (hb : Bounded (ops i).node h (name, key) ttlMs) (hin : Inside h h') :
    (copyContract ops).Obeys i (fun _ h'' => Inside h h'') (storePut x name key value ttlMs) h' := by
  refine Obeys.step (plumbing_copy.on x (a := .nowNano) trivial h') (fun t ht => ?_)
  have hstamp : Inside h (⟨i, .on x .nowNano, t⟩ :: h') := hin.on i x (a := .nowNano) t
  refine ⟨fun _ e₀ now t' he hne hnow hhead => ?_,
    fun created _ => hstamp.on i x (a := .put name key value (expireFromTTL t ttlMs)) created⟩
  obtain ⟨_, _, hhead⟩ := hhead
  obtain rfl : t = t' := by
    injection (List.cons.inj hhead).1
  rw [hstamp.captured] at he
  rw [hstamp.sampled] at hnow
  obtain ⟨hpos, hms⟩ := hb e₀ now he hne hnow
  have hlt := e₀.toInt_lt
  exact expireFromTTL_bounds ht.1 hpos (by omega) hms

theorem sendPut_calls {addr name key value : Bytes} {ttlMs : Int64} (hc : inCall h = false)
    (hb : Bounded (ops i).node h (name, key) ttlMs) :
    (copyContract ops).Obeys i (fun _ h' => Calls h h') (sendPut addr name key value ttlMs true) h :=
  send_calls hc fun _ _ hin =>
    Obeys.bind ((storePut_inside hb hin).mono fun _ _ hin' => hin')

/-- What a replication message has to keep to. -/
def Carries (n : Bytes) (h : List Event) : Replica → Prop
  | .put name key _ ttlMs => Bounded n h (name, key) ttlMs
  | .remove _ _ => True

theorem Carries.of_calls {n : Bytes} {msg : Replica} (hb : Carries n h msg) (hc : Calls h h') :
    Carries n h' msg := by
  cases msg with
  | put => exact Bounded.of_calls hb hc
  | remove => trivial

theorem replicateTo_calls {n : Bytes} {msg : Replica} (l : List Bytes) (hc : inCall h = false)
    (hb : Carries (ops i).node h msg) :
    (copyContract ops).Obeys i (fun _ h' => Calls h h') (replicateTo n msg l) h := by
  induction l generalizing h with
  | nil => exact Calls.refl hc
  | cons b l ih =>
    unfold Service.replicateTo
    split
    · exact ih hc hb
    · refine Obeys.step trivial (fun r _ => ?_)
      have haddr : Calls h (⟨i, .on n (.addrOf b), r⟩ :: h) :=
        Calls.mute hc ⟨fun _ => rfl, fun _ _ => rfl⟩ hc
      cases r with
      | none => exact (ih haddr.idle (hb.of_calls haddr)).mono fun _ _ hd => haddr.trans hd
      | some addr =>
        refine Obeys.bind (Obeys.mono (send_calls haddr.idle ?_) ?_)
        · intro x h' hin
          cases msg with
          | put name key value ttlMs =>
            exact Obeys.bind ((storePut_inside (Bounded.of_calls hb haddr) hin).mono
              fun _ _ hin' => hin')
          | remove name key => exact ⟨trivial, fun r _ => hin.on i x (a := .remove _ _) r⟩
        · intro _ h' hsent
          have hd := haddr.trans hsent
          exact (ih hd.idle (hb.of_calls hd)).mono fun _ _ hd' => hd.trans hd'

theorem replicate_calls {n : Bytes} {msg : Replica} (p : PartitionId) (hc : inCall h = false)
    (hb : Carries (ops i).node h msg) :
    (copyContract ops).Obeys i (fun _ h' => Calls h h') (replicate n p msg) h := by
  refine Obeys.step trivial (fun tbl _ => ?_)
  have htbl : Calls h (⟨i, .on n .table, tbl⟩ :: h) :=
    Calls.mute hc ⟨fun _ => rfl, fun _ _ => rfl⟩ hc
  exact (replicateTo_calls _ htbl.idle (hb.of_calls htbl)).mono fun _ _ hd => htbl.trans hd

end sends

/-! ### Puts and processors -/

section writes
variable {ops : ℕ → Sending} {i : ℕ} {h : List Event} {n name key value : Bytes}

/-- What follows the replication of a put. -/
theorem emitted_copies {α : Type} {type : EventType} {out : α} :
    (copyContract ops).Obeys i (fun _ _ => True) (do
      emit n type name key value
      writeThrough n name key value out : Prog (Except ServiceError α)) h :=
  Obeys.of_all ((plumbing_copy.emit _ _ _ _ _).bind fun _ => plumbing_copy.writeThrough _ _ _ _ _)
    (fun h _ he => he h) h

/-- The expiry of a put, when the clock can represent it. -/
theorem bounded_put {now : ℕ} {ttl : Int64} {created : Bool}
    (hend : (now : ℤ) + (ttl / 1000000).toInt * 1000000 < 2 ^ 63) :
    Bounded n [⟨i, .on n (.put name key value (expireFromTTL now (ttl / 1000000))), created⟩,
      ⟨i, .on n .nowNano, now⟩] (name, key) (ttl / 1000000) := by
  intro e₀ now' he hne hnow
  rw [captured_cons rfl] at he
  rw [sampled_cons rfl, sampled_cons rfl] at hnow
  obtain rfl : expireFromTTL now (ttl / 1000000) = e₀ := by simpa [expiryOf] using he
  obtain rfl : now = now' := by simpa [readingOf] using hnow
  have hpos : 0 < ttl / 1000000 := by
    by_contra hle
    exact hne (if_pos (Int64.not_lt.mp hle))
  have h0 : 0 < (ttl / 1000000).toInt := Int64.lt_iff_toInt_lt.mp hpos
  rw [toInt_expireFromTTL hpos, Int.bmod_eq_of_le (by omega) (by omega)]
  exact ⟨hpos, by omega⟩

theorem put_copies {ttl : Int64} (hop : ops i = .put n name key value ttl) :
    (copyContract ops).Obeys i (fun _ _ => True)
      (Service.applyPut n name key value (ttl / 1000000) false) [] := by
  unfold Service.applyPut
  rw [if_neg (by simp)]
  refine Obeys.bind (Obeys.step trivial (fun now hnow => ?_))
  have hpre : (copyContract ops).pre i [⟨i, .on n .nowNano, now⟩]
      (.on n (.put name key value (expireFromTTL now (ttl / 1000000)))) := fun hin => by cases hin
  refine ⟨hpre, fun created _ => ?_⟩
  have hend := hnow.2 rfl
  rw [hop] at hend
  have hb : Carries (ops i).node [⟨i, .on n (.put name key value
      (expireFromTTL now (ttl / 1000000))), created⟩, ⟨i, .on n .nowNano, now⟩]
      (.put name key value (ttl / 1000000)) := by
    rw [hop]
    exact bounded_put hend
  exact Obeys.bind ((replicate_calls _ rfl hb).mono fun _ _ _ => emitted_copies)

theorem replicateAll_calls {p : PartitionId} {l : List Replica} (hc : inCall h = false)
    (hb : ∀ msg ∈ l, Carries (ops i).node h msg) :
    (copyContract ops).Obeys i (fun _ h' => Calls h h') (replicateAll n p l) h := by
  induction l generalizing h with
  | nil => exact Calls.refl hc
  | cons msg l ih =>
    refine Obeys.bind ((replicate_calls p hc (hb msg List.mem_cons_self)).mono fun _ h' hd => ?_)
    refine (ih hd.idle fun x hx => ?_).mono fun _ _ hd' => hd.trans hd'
    exact (hb x (List.mem_cons_of_mem _ hx)).of_calls hd

/-- What is left of an entry that a processor set, when it is a millisecond at least. -/
theorem bounded_execute {now : ℕ} {proc : Processor} {arg : Bytes} {x : Executed} (hnow : now < 2 ^ 63)
    (htime : x.expireAt ≠ 0 → (now : ℤ) + 1000000 ≤ x.expireAt.toInt) :
    Bounded n [⟨i, .on n .nowNano, now⟩, ⟨i, .on n (.execute name key proc arg), x⟩] (name, key)
      (remainingTTLms x.expireAt now) := by
  intro e₀ now' he hne hs
  rw [captured_cons rfl, captured_cons rfl] at he
  rw [sampled_cons rfl] at hs
  obtain rfl : x.expireAt = e₀ := by simpa [expiryOf] using he
  obtain rfl : now = now' := by simpa [readingOf] using hs
  have hleft := htime hne
  have hpos := remainingTTLms_pos hne hleft
  exact ⟨hpos, remaining_bounds hne hnow (by omega) hpos⟩

theorem execute_copies {procName arg : Bytes} (procs : Registry)
    (hop : ops i = .execute n name key procName arg) :
    (copyContract ops).Obeys i (fun _ _ => True)
      (Service.applyExecute procs n name key procName arg) [] := by
  unfold Service.applyExecute
  split
  · -- queue entries have no expiry
    refine Obeys.step trivial (fun r _ => ?_)
    split
    · trivial
    · refine Obeys.bind (Obeys.mono (replicateAll_calls rfl fun msg _ => ?_)
        fun _ _ _ => trivial)
      cases msg with
      | put name key value ttlMs => exact fun e₀ now he => by cases he
      | remove => trivial
  · split
    · trivial
    · split
      · trivial
      · next proc _ =>
        refine Obeys.step trivial (fun x _ => ?_)
        unfold Service.finishExecute
        split
        · trivial
        · refine Obeys.step trivial (fun now hnow => ?_)
          have hleft := hnow.2 rfl
          rw [hop] at hleft
          have hb : Carries (ops i).node [⟨i, .on n .nowNano, now⟩,
              ⟨i, .on n (.execute name key proc arg), x⟩]
              (.put name key x.newVal (remainingTTLms x.expireAt now)) := by
            rw [hop]
            refine bounded_execute hnow.1 (hleft _ ?_)
            rw [captured_cons rfl]
            simp [expiryOf]
          exact Obeys.bind ((replicate_calls _ rfl hb).mono fun _ _ _ => emitted_copies)
        · refine Obeys.bind (Obeys.mono (replicate_calls _ rfl trivial) fun _ h' _ => ?_)
          exact Obeys.of_all ((plumbing_copy.emitRemoved _ _ _ _).bind fun _ =>
            plumbing_copy.deleteThrough _ _ _ _) (fun h _ he => he h) h'

end writes

/-! ### Migrate -/

section migrate
variable {ops : ℕ → Sending} {i : ℕ} {h h' : List Event} {es : List Entry}

/-- The sender saw the expiries of these entries. -/
def Seen (n : Bytes) (h : List Event) (es : List Entry) : Prop :=
  ∀ d ∈ es, captured n d.ref h = some d.expireAt ∧ 0 ≤ d.expireAt.toInt

theorem Seen.mono {n : Bytes} (hs : Seen n h es) (hc : ∀ r, captured n r h' = captured n r h) :
    Seen n h' es := fun d hd => by
  rw [hc]
  exact hs d hd

/-- An entry that does not lapse. -/
theorem bounded_seen {n : Bytes} {r : Ref} {e : Int64} {now : ℕ} (he : captured n r h = some e)
    (h0 : 0 ≤ e.toInt) (hs : sampled n h = some now) (hnow : now < 2 ^ 63)
    (hlapse : lapses e now = false) : Bounded n h r (remainingTTLms e now) := by
  intro e₀ now' he' hne hs'
  obtain rfl : e = e₀ := by rw [he] at he'; exact Option.some.inj he'
  obtain rfl : now = now' := by rw [hs] at hs'; exact Option.some.inj hs'
  have hpos : 0 < remainingTTLms e now := by
    rw [← Int64.not_le]
    simpa [lapses, hne] using hlapse
  exact ⟨hpos, remaining_bounds hne hnow h0 hpos⟩

theorem pushEntries_calls {addr : Bytes} {now : ℕ} (ok : Bool) (hes : Seen (ops i).node h es)
    (hc : inCall h = false) (hs : sampled (ops i).node h = some now) (hnow : now < 2 ^ 63) :
    (copyContract ops).Obeys i (fun _ h' => Calls h h') (pushEntries addr now es ok) h := by
  induction es generalizing h ok with
  | nil => exact Calls.refl hc
  | cons d es ih =>
    have hrest : Seen (ops i).node h es := fun x hx => hes x (List.mem_cons_of_mem _ hx)
    obtain ⟨hd, h0⟩ := hes d List.mem_cons_self
    unfold Service.pushEntries
    split
    · exact ih ok hrest hc hs
    · next hlapse =>
      have hb : Bounded (ops i).node h d.ref (remainingTTLms d.expireAt now) :=
        bounded_seen hd h0 hs hnow (by simpa using hlapse)
      refine Obeys.bind ((sendPut_calls hc hb).mono fun out h' hsent => ?_)
      have hnext : ∀ ok, (copyContract ops).Obeys i (fun _ h'' => Calls h h'')
          (pushEntries addr now es ok) h' := fun ok =>
        (ih ok (hrest.mono (hsent.captured _)) hsent.idle ((hsent.sampled _).trans hs)).mono
          fun _ _ hd => hsent.trans hd
      cases out with
      | ok _ => exact hnext ok
      | error _ => exact hnext false

theorem pushTargets_seen (ids : List Bytes) (ok : Bool) (hes : Seen (ops i).node h es)
    (hc : inCall h = false) :
    (copyContract ops).Obeys i (fun _ h' => inCall h' = false)
      (pushTargets (ops i).node es ids ok) h := by
  induction ids generalizing h ok with
  | nil => exact hc
  | cons id ids ih =>
    refine Obeys.step trivial (fun addr _ => ?_)
    have haddr : Calls h (⟨i, .on (ops i).node (.addrOf id), addr⟩ :: h) :=
      Calls.mute hc ⟨fun _ => rfl, fun _ _ => rfl⟩ hc
    cases addr with
    | none => exact ih false (hes.mono (haddr.captured _)) haddr.idle
    | some addr =>
      refine Obeys.step trivial (fun now hnow => ?_)
      have hseen : Seen (ops i).node (⟨i, .on (ops i).node .nowNano, now⟩ ::
          ⟨i, .on (ops i).node (.addrOf id), some addr⟩ :: h) es := by
        refine hes.mono fun r => ?_
        rw [captured_cons haddr.idle, haddr.captured]
        rfl
      refine Obeys.bind ((pushEntries_calls ok hseen haddr.idle ?_ hnow.1).mono
        fun ok' h' hd => ih ok' (hseen.mono (hd.captured _)) hd.idle)
      rw [sampled_cons haddr.idle]
      simp [readingOf]

/-- The entries of a snapshot have been seen. -/
theorem seen_snapshot {n : Bytes} {p : PartitionId} {snap : List Entry} (hc : inCall h = false)
    (hnodup : (snap.map Entry.ref).Nodup) (h0 : ∀ d ∈ snap, 0 ≤ d.expireAt.toInt) :
    Seen n (⟨i, .on n (.snapshot p), snap⟩ :: h) snap := by
  intro d hd
  refine ⟨?_, h0 d hd⟩
  rw [captured_cons hc]
  have hfind : snap.find? (fun x => x.ref == d.ref) = some d := by
    cases hx : snap.find? (fun x => x.ref == d.ref) with
    | none => exact absurd (List.find?_eq_none.mp hx d hd) (by simp)
    | some x =>
      have href : x.ref = d.ref := by simpa using List.find?_some hx
      rw [List.inj_on_of_nodup_map hnodup (List.mem_of_find?_eq_some hx) hd href]
  simp [expiryOf, hfind]

theorem migrateLoop_copies {tbl : Table} (ps : List PartitionId) (hc : inCall h = false) :
    (copyContract ops).Obeys i (fun _ _ => True) (migrateLoop (ops i).node tbl ps) h := by
  induction ps generalizing h with
  | nil => trivial
  | cons p ps ih =>
    refine Obeys.step trivial (fun stop _ => ?_)
    cases stop with
    | true => trivial
    | false =>
      refine Obeys.bind (Obeys.mono (Q := fun _ h' => inCall h' = false)
        (Obeys.step trivial (fun snap hsnap => ?_)) fun _ h' hc' => ih hc')
      unfold Service.handOver
      split
      · exact hc
      · have hseen := seen_snapshot (i := i) (n := (ops i).node) (p := p)
          (h := ⟨i, .ctxErr, false⟩ :: h) hc hsnap.1 hsnap.2
        have hordered : Seen _ _ (orderQueueMetaLast snap) := fun d hd =>
          hseen d (mem_orderQueueMetaLast.mp hd)
        refine Obeys.bind ((pushTargets_seen _ true hordered hc).mono fun ok h' hc' => ?_)
        split
        · exact ⟨trivial, fun _ _ => hc'⟩
        · exact hc'

end migrate

/-! ### SyncBackups -/

section sync
variable {ops : ℕ → Sending} {i : ℕ} {h : List Event} {now : ℕ}

theorem probe_calls {n : Bytes} {p : PartitionId} {digest : UInt64} (bs : List Bytes)
    (hc : inCall h = false) :
    (copyContract ops).Obeys i (fun _ h' => Calls h h') (probe n p digest bs) h := by
  induction bs generalizing h with
  | nil => exact Calls.refl hc
  | cons b bs ih =>
    unfold Service.probe
    split
    · exact ih hc
    · refine Obeys.step trivial (fun addr _ => ?_)
      have haddr : Calls h (⟨i, .on n (.addrOf b), addr⟩ :: h) :=
        Calls.mute hc ⟨fun _ => rfl, fun _ _ => rfl⟩ hc
      cases addr with
      | none => exact (ih haddr.idle).mono fun _ _ hd => haddr.trans hd
      | some addr =>
        refine Obeys.bind (Obeys.mono (send_calls haddr.idle fun x h' hin => ?_)
          fun _ h' hsent => ?_)
        · exact ⟨trivial, fun d _ => hin.on i x (a := .digest p) d⟩
        · exact Obeys.bind ((ih hsent.idle).mono fun _ _ hd => haddr.trans (hsent.trans hd))

theorem pushStale_calls {name key value : Bytes} {ttlMs : Int64} (addrs : List Bytes) (sent : Bool)
    (hc : inCall h = false) (hb : Bounded (ops i).node h (name, key) ttlMs) :
    (copyContract ops).Obeys i (fun _ h' => Calls h h') (pushStale name key value ttlMs addrs sent) h := by
  induction addrs generalizing h sent with
  | nil => exact Calls.refl hc
  | cons addr addrs ih =>
    refine Obeys.bind ((sendPut_calls hc hb).mono fun out h' hsent => ?_)
    have hnext : ∀ sent, (copyContract ops).Obeys i (fun _ h'' => Calls h h'')
        (pushStale name key value ttlMs addrs sent) h' := fun sent =>
      (ih sent hsent.idle (hb.of_calls hsent)).mono fun _ _ hd => hsent.trans hd
    cases out with
    | ok _ => exact hnext true
    | error _ => exact hnext sent

/-- The sender is outside its calls, and its last clock reading is `now`. -/
def SampledAt (n : Bytes) (now : ℕ) (h : List Event) : Prop :=
  inCall h = false ∧ sampled n h = some now

theorem SampledAt.of_calls {n : Bytes} {h' : List Event} (hs : SampledAt n now h) (hc : Calls h h') :
    SampledAt n now h' := ⟨hc.idle, (hc.sampled n).trans hs.2⟩

theorem syncEntries_sampled {p : PartitionId} {stale : List Bytes} (es : List Entry) (keyset : List Ref)
    (pushed : ℕ) (hnow : now < 2 ^ 63) (hs : SampledAt (ops i).node now h) :
    (copyContract ops).Obeys i (fun _ h' => SampledAt (ops i).node now h')
      (syncEntries (ops i).node p now stale es keyset pushed) h := by
  induction es generalizing h keyset pushed with
  | nil => exact hs
  | cons d es ih =>
    refine Obeys.step trivial (fun v hv => ?_)
    have hs' : SampledAt (ops i).node now (⟨i, .on (ops i).node (.lookup p d.mapName d.key), v⟩ :: h) :=
      ⟨hs.1, by rw [sampled_cons hs.1]; exact hs.2⟩
    cases v with
    | none => exact ih keyset pushed hs'
    | some v =>
      dsimp only
      split
      · exact ih keyset pushed hs'
      · next hlapse =>
        have hseen : captured (ops i).node (d.mapName, d.key)
            (⟨i, .on (ops i).node (.lookup p d.mapName d.key), some v⟩ :: h) = some v.expireAt := by
          rw [captured_cons hs.1]
          simp [expiryOf]
        have hb := bounded_seen hseen (hv v rfl) hs'.2 hnow (by simpa using hlapse)
        exact Obeys.bind ((pushStale_calls stale false hs'.1 hb).mono
          fun sent h' hd => ih _ _ (hs'.of_calls hd))

theorem reconcileAll_calls {p : PartitionId} {keyset : List Ref} (addrs : List Bytes)
    (hc : inCall h = false) :
    (copyContract ops).Obeys i (fun _ h' => Calls h h') (reconcileAll p keyset addrs) h := by
  induction addrs generalizing h with
  | nil => exact Calls.refl hc
  | cons addr addrs ih =>
    refine Obeys.bind (Obeys.mono (send_calls hc fun x h' hin => ?_)
      fun _ h' hsent => (ih hsent.idle).mono fun _ _ hd => hsent.trans hd)
    refine Obeys.step trivial (fun tbl _ => ?_)
    have hin' : Inside h (⟨i, .on x .table, tbl⟩ :: h') := hin.on i x (a := .table) tbl
    split
    · exact hin'
    · exact ⟨trivial, fun pruned _ => hin'.on i x (a := .prune p keyset) pruned⟩

theorem syncPartition_sampled {tbl : Table} (p : PartitionId) (hnow : now < 2 ^ 63)
    (hs : SampledAt (ops i).node now h) :
    (copyContract ops).Obeys i (fun _ h' => SampledAt (ops i).node now h')
      (syncPartition (ops i).node tbl now p) h := by
  unfold Service.syncPartition
  split
  · exact hs
  · refine Obeys.step trivial (fun digest _ => ?_)
    have hdigest : SampledAt (ops i).node now (⟨i, .on (ops i).node (.digest p), digest⟩ :: h) :=
      ⟨hs.1, by rw [sampled_cons hs.1]; exact hs.2⟩
    refine Obeys.bind ((probe_calls (tbl.backupsOf p) hdigest.1).mono fun stale h' hd => ?_)
    have hprobed := hdigest.of_calls hd
    split
    · exact hprobed
    · refine Obeys.step trivial (fun snap _ => ?_)
      have hsnap : SampledAt (ops i).node now (⟨i, .on (ops i).node (.snapshot p), snap⟩ :: h') :=
        ⟨hprobed.1, by rw [sampled_cons hprobed.1]; exact hprobed.2⟩
      refine Obeys.bind ((syncEntries_sampled _ [] 0 hnow hsnap).mono fun r h'' hr => ?_)
      exact Obeys.bind ((reconcileAll_calls stale hr.1).mono fun _ _ hd' => hr.of_calls hd')

theorem syncLoop_copies {tbl : Table} (k : ℕ) (p : PartitionId) (pushed : ℕ) (hnow : now < 2 ^ 63)
    (hs : SampledAt (ops i).node now h) :
    (copyContract ops).Obeys i (fun _ _ => True) (syncLoop (ops i).node tbl now k p pushed) h := by
  induction k generalizing h p pushed with
  | zero => trivial
  | succ k ih =>
    exact Obeys.bind ((syncPartition_sampled p hnow hs).mono fun d h' hs' => ih _ _ hs')

end sync

/-! ### Runs -/

/-- Every sender keeps to the lives of its entries. -/
theorem Sending.copies (procs : Registry) (ops : ℕ → Sending) (i : ℕ) :
    (copyContract ops).Obeys i (fun _ _ => True) ((ops i).prog procs) [] := by
  cases hop : ops i with
  | idle => trivial
  | put n name key value ttl => exact Obeys.bind ((put_copies hop).mono fun _ _ _ => trivial)
  | execute n name key procName arg =>
    exact Obeys.bind ((execute_copies procs hop).mono fun _ _ _ => trivial)
  | migrate n tbl =>
    have hpass : (copyContract ops).Obeys i (fun _ _ => True)
        (migrateLoop (ops i).node tbl (List.finRange Count)) [] := migrateLoop_copies _ rfl
    rw [hop] at hpass
    exact Obeys.bind (hpass.mono fun _ _ _ => trivial)
  | sync n tbl start batch =>
    refine Obeys.bind (Obeys.step trivial (fun now hnow => ?_))
    have hs : SampledAt (ops i).node now [⟨i, .on n .nowNano, now⟩] := by
      refine ⟨rfl, ?_⟩
      rw [hop, sampled_cons rfl]
      simp [readingOf, Sending.node]
    have hpass : (copyContract ops).Obeys i (fun _ _ => True) (syncLoop (ops i).node tbl now batch
        (Fin.ofNat Count (start.emod Count).toNat) 0) _ := syncLoop_copies _ _ _ hnow.1 hs
    rw [hop] at hpass
    exact hpass.mono fun _ _ _ => trivial

/-- **A copy of an entry with an expiry expires, within the time its entry had left**: puts, processors,
`Migrate` and `SyncBackups` passes run from any nodes, in any interleaving, with any messages lost.
When a copy is stored, right after the receiver read its clock, its expiry is not zero and exceeds that
reading by no more than the entry's expiry exceeded the sender's reading. -/
theorem copies_expire (procs : Registry) (ops : ℕ → Sending) {C : Cluster} {sched : List (ℕ × Choice)}
    (hok : Meets exec (ReadsInTime ops) sched (Conf.init C (fun i => (ops i).prog procs))) :
    Meets exec (fun i e _ w => ∀ y name key value expireAt, e = .on y (.put name key value expireAt) →
      inCall (w.own i) = true → WithinLife (ops i).node (w.own i) y (name, key) expireAt) sched
      (Conf.init C (fun i => (ops i).prog procs)) := by
  have hrun := copy_sound.run (f := Conf.init C (fun i => (ops i).prog procs)) trivial
    (Sending.copies procs ops) hok
  refine hrun.2.1.mono fun i e c w hw y name key value expireAt he => ?_
  obtain ⟨-, -, hpre⟩ := hw
  subst he
  exact hpre

/-- Two nodes, of which `a` owns the entry and `b` keeps its copy; it expires after 5 ms. -/
def expiringPair : Cluster where
  nodes n := { (oneEntry [[97], [98]] 1 [] ([109], [114]) []).nodes n with
    store := Store.empty.set (routedPartition [109] [114]) ([109], [114]) ⟨[118], 5000000⟩ }
  listen := (oneEntry [[97], [98]] 1 [] ([109], [114]) []).listen
  backing _ := none

/-- The processor that sets its argument. -/
def setArg : Registry := fun _ => some fun _ arg => (arg, .set, [])

/-- A put in another map with a TTL of a second, and a processor on the entry. -/
def putAndExecute : ℕ → Sending
  | 0 => .put [97] [110] [114] [1] 1000000000
  | 1 => .execute [97] [109] [114] [112] [2]
  | _ => .idle

/-- One after the other, the processor with 4 ms left: both copies expire. -/
theorem copies_expire_pair :
    let sched := List.replicate 20 (0, Choice.still) ++
      (1, { tick := 1000000 }) :: List.replicate 20 (1, Choice.still)
    let f := Conf.init expiringPair (fun i => (putAndExecute i).prog setArg)
    Meets exec (fun i e _ w => ∀ y name key value expireAt, e = .on y (.put name key value expireAt) →
      inCall (w.own i) = true → WithinLife (putAndExecute i).node (w.own i) y (name, key) expireAt) sched f ∧
    ((Conf.run exec sched f).world.state.nodes [98]).store.find (forKey [114]) ([109], [114]) =
      some ⟨[2], 4000000⟩ := by
  intro sched f
  have hcheck : Conf.check exec (fun i e c w => decide (ReadsInTime putAndExecute i e c w)) sched f =
      true := by
    decide +kernel
  exact ⟨copies_expire setArg putAndExecute ((Meets.of_check hcheck).mono fun _ _ _ _ h =>
    of_decide_eq_true h), by decide +kernel⟩

/-- **Less than a millisecond before the end, a processor makes the copy immortal**: the owner's entry
expires, the copy it sends does not.  And a put whose end the owner's clock cannot represent, but that of
the backup can, is over on the owner and not on the backup. -/
theorem execute_copy_immortal :
    let late := Conf.run exec ((1, { tick := 4500000 }) :: List.replicate 20 (1, .still))
      (Conf.init expiringPair (fun i => (putAndExecute i).prog setArg))
    let far := Conf.run exec ((0, { tick := 1000000 }) :: List.replicate 20 (0, .still))
      (Conf.init expiringPair (fun i =>
        (if i = 0 then .put [97] [110] [114] [1] 9223372036854775807 else .idle : Sending).prog setArg))
    (late.pool 1).returned = true ∧ (far.pool 0).returned = true ∧
    (late.world.state.nodes [97]).store.find (forKey [114]) ([109], [114]) = some ⟨[2], 5000000⟩ ∧
    (late.world.state.nodes [98]).store.find (forKey [114]) ([109], [114]) = some ⟨[2], 0⟩ ∧
    (far.world.state.nodes [97]).store.get (forKey [114]) [110] [114] 1000000 = none ∧
    (far.world.state.nodes [98]).store.get (forKey [114]) [110] [114] 1000000 = some [1] := by
  decide +kernel

end Medusa
