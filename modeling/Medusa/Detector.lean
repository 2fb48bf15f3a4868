import Medusa.MembershipRuns

/-! # The failure detector, peer by peer

What a membership knows of one peer (`Peer`): whether it is a member, its missed heartbeats, its heartbeat
history and its tombstone.

* `peer_step`: **a membership is a product of peers**: what a step does to the part of one peer depends on
  this part alone (`Peer.step`).  So pings of the others leave it as it is (`peer_run_filter`).
* `Track`: the failed pings of a peer since it last answered or joined, and the times it answered since it
  joined.  `Tracked` compares them with the counters of the peer, along a run.
* `cold_peer_evicted_iff`: **a peer with fewer than three recorded intervals is evicted exactly at the
  threshold**, which no counter has passed. -/

namespace Medusa

/-- An interval is added to the window, unless it is full: then it takes the place of another one. -/
theorem PhiHistory.length_record {h : PhiHistory} (now : ℤ) (hlen : h.intervals.length ≤ phiWindow) :
    (h.record now).intervals.length =
      if h.last ≠ 0 ∧ h.last < now then min phiWindow (h.intervals.length + 1) else h.intervals.length := by
  unfold record
  split
  · by_cases hfull : h.intervals.length < phiWindow
    · rw [if_pos hfull, Nat.min_eq_right hfull]
      exact List.length_append
    · rw [if_neg hfull, Nat.min_eq_left (by omega)]
      exact List.length_set.trans (by omega)
  · rfl

namespace Membership

/-! ### The part of one peer -/

/-- What a membership knows of one id. -/
structure Peer where
  member : Bool
  misses : Option UInt8
  phi : Option PhiHistory
  tombstone : Option ℕ
deriving DecidableEq, Repr

/-- The part of `id` in a membership. -/
def peer (m : Membership) (id : Bytes) : Peer :=
  ⟨(m.members.lookup id).isSome, m.misses.lookup id, m.phi.lookup id, m.removed.lookup id⟩

theorem peer_member {m : Membership} {id : Bytes} : (m.peer id).member = true ↔ id ∈ m.members := by
  rw [peer, AList.lookup_isSome]

namespace Peer
variable (p : Peer)

/-- Nothing is known of the id. -/
def unknown : Peer := ⟨false, none, none, none⟩

/-- `Membership.history`. -/
def history : PhiHistory := p.phi.getD PhiHistory.empty

/-- `misses[id]++`. -/
def missed : Peer := { p with misses := some (p.misses.getD 0 + 1), phi := some p.history }

/-- Whether a ping that failed evicts the peer. -/
def suspects (threshold : UInt8) (suspicious : Bool) : Bool :=
  if p.history.warm then suspicious else decide (threshold ≤ p.misses.getD 0 + 1)

/-- `removeLocked`. -/
def remove (now : ℕ) : Peer := if p.member then ⟨false, none, none, some now⟩ else p

/-- The critical section of `DetectFailures`. -/
def detect (failed : Bool) (threshold : UInt8) (now : ℕ) (suspicious : Bool) : Peer :=
  if p.member then
    if failed then
      if p.suspects threshold suspicious then p.remove now else p.missed
    else { p with misses := none, phi := some (p.history.record now) }
  else p

/-- One step of the membership, for the part of `id`. -/
def step (id : Bytes) (p : Peer) : ℕ × Step → Peer
  | (_, .handle (.joinRequest (some candidate))) => if candidate.id = id then ⟨true, none, none, none⟩ else p
  | (_, .handle (.joinRequest none)) => p
  | (_, .handle (.memberList ms)) | (_, .joined ms) =>
    if id ∈ ms.map Member.id ∧ p.tombstone = none then { p with member := true } else p
  | (_, .handle (.heartbeat _)) => p
  | (now, .handle (.leave id')) | (now, .remove id') => if id' = id then p.remove now else p
  | (now, .checkLiveness id' failed) => if failed ∧ id' = id then p.remove now else p
  | (now, .detect id' failed threshold suspicious) =>
    if id' = id then p.detect failed threshold now suspicious else p
  | (now, .pruneTombstones ttl) =>
    { p with tombstone := if ttl ≤ 0 then none
        else p.tombstone.filter fun t => decide ((now : ℤ) - ttl ≤ t) }

end Peer

theorem suspects_missed (m : Membership) (id : Bytes) (threshold : UInt8) (suspicious : Bool) :
    (m.missed id).suspects id threshold suspicious = (m.peer id).suspects threshold suspicious := by
  have hhistory : (m.missed id).history id = (m.peer id).history := by
    simp [history, Peer.history, peer, missed]
  have hcount : ((m.missed id).misses.lookup id).getD 0 = (m.peer id).misses.getD 0 + 1 := by
    simp [peer, missed]
  rw [suspects, Peer.suspects, hhistory, hcount]

section parts
variable {m : Membership} {id : Bytes} (hself : id ≠ m.self.id)
include hself

theorem peer_merge (hid : id ≠ []) (ms : List Member) : (m.merge ms).2.peer id =
    if id ∈ ms.map Member.id ∧ (m.peer id).tombstone = none then { m.peer id with member := true }
    else m.peer id := by
  have hmem : ((m.merge ms).2.peer id).member = true ↔
      (m.peer id).member = true ∨ (id ∈ ms.map Member.id ∧ (m.peer id).tombstone = none) := by
    rw [peer_member, peer_member, m.mem_merge ms id, List.mem_map]
    simp only [hid, hself, ne_eq, not_false_eq_true, true_and]
    rfl
  have hparts : (m.merge ms).2.peer id = { m.peer id with member := ((m.merge ms).2.peer id).member } := by
    simp only [peer, merge_misses, merge_phi, merge_removed]
  by_cases h : id ∈ ms.map Member.id ∧ (m.peer id).tombstone = none
  · rw [if_pos h, hparts, hmem.mpr (Or.inr h)]
  · rw [if_neg h, hparts, Bool.eq_iff_iff.mpr (hmem.trans (or_iff_left h))]

theorem peer_removeLocked (id' : Bytes) (now : ℕ) : (m.removeLocked id' now).2.peer id =
    if id' = id then (m.peer id).remove now else m.peer id := by
  by_cases hid : id' = id
  · subst hid
    rw [if_pos rfl, removeLocked, dif_neg hself, Peer.remove]
    cases hl : m.members.lookup id' with
    | none =>
      have hnot : id' ∉ m.members := AList.lookup_eq_none.mp hl
      rw [if_neg (by rwa [peer_member])]
    | some mem =>
      have hmem : id' ∈ m.members := AList.lookup_isSome.mp (by rw [hl]; rfl)
      rw [if_pos (peer_member.mpr hmem)]
      simp [peer, rebuildLocked]
  · rw [if_neg hid, removeLocked]
    split
    · rfl
    · split
      · rfl
      · have hne : id ≠ id' := Ne.symm hid
        simp [peer, rebuildLocked, hne]

theorem peer_rejoin (hid : id ≠ []) (candidate : Member) : (m.rejoin candidate).peer id =
    if candidate.id = id then ⟨true, none, none, none⟩ else m.peer id := by
  by_cases hc : candidate.id = id
  · subst hc
    have hnot : ¬ (candidate.id = [] ∨ candidate.id = m.self.id) := not_or.mpr ⟨hid, hself⟩
    have hin := peer_member.mpr ((m.mem_rejoin candidate candidate.id).mpr (Or.inr ⟨rfl, hid⟩))
    rw [if_pos rfl, ← hin, rejoin, dif_neg hnot]
    split <;> simp [peer, forgive, rebuildLocked]
  · have hne : id ≠ candidate.id := Ne.symm hc
    rw [if_neg hc, rejoin]
    split
    · rfl
    · split <;> simp [peer, forgive, rebuildLocked, hne]

theorem peer_detect (id' : Bytes) (failed : Bool) (threshold : UInt8) (now : ℕ) (suspicious : Bool) :
    (m.detect id' failed threshold now suspicious).2.peer id =
      if id' = id then (m.peer id).detect failed threshold now suspicious else m.peer id := by
  have hmissed : (m.missed id').self = m.self := rfl
  cases hl : m.members.lookup id' with
  | none =>
    have hnot : id' ∉ m.members := AList.lookup_eq_none.mp hl
    have hsame : m.detect id' failed threshold now suspicious = (false, m) := by
      rw [detect, hl]
    rw [hsame]
    split
    · next h => rw [Peer.detect, if_neg (by rw [peer_member, ← h]; exact hnot)]
    · rfl
  | some mem =>
    have hmem : id' ∈ m.members := AList.lookup_isSome.mp (by rw [hl]; rfl)
    by_cases hid : id' = id
    · subst hid
      have hmissedPeer : (m.missed id').peer id' = (m.peer id').missed := by
        simp [peer, missed, Peer.missed, Peer.history, history]
      have hmember : (m.peer id').missed.member = true := peer_member.mpr hmem
      have hremoved : (m.peer id').missed.remove now = (m.peer id').remove now := by
        rw [Peer.remove, if_pos hmember, Peer.remove, if_pos (peer_member.mpr hmem)]
      simp only [detect, hl, suspects_missed, Peer.detect, if_pos (peer_member.mpr hmem)]
      cases failed with
      | false => simp [peer, Peer.history, history]
      | true =>
        simp only [if_true]
        split
        · rw [peer_removeLocked (hmissed ▸ hself), if_pos rfl, hmissedPeer, hremoved]
        · exact hmissedPeer
    · have hne : id ≠ id' := Ne.symm hid
      have hmissedPeer : (m.missed id').peer id = m.peer id := by
        simp [peer, missed, hne]
      rw [if_neg hid]
      simp only [detect, hl]
      split
      · split
        · rw [peer_removeLocked (hmissed ▸ hself), if_neg hid, hmissedPeer]
        · exact hmissedPeer
      · simp [peer, hne]

/-- **A membership is a product of peers.** -/
theorem peer_step (hid : id ≠ []) (e : ℕ × Step) : (m.step e).2.peer id = (m.peer id).step id e := by
  match e with
  | (_, .handle (.joinRequest (some candidate))) => exact peer_rejoin hself hid candidate
  | (_, .handle (.joinRequest none)) => rfl
  | (_, .handle (.memberList ms)) => exact peer_merge hself hid ms
  | (_, .handle (.heartbeat _)) => rfl
  | (now, .handle (.leave id')) => exact peer_removeLocked hself id' now
  | (_, .joined ms) => exact peer_merge hself hid ms
  | (now, .remove id') => exact peer_removeLocked hself id' now
  | (now, .checkLiveness id' true) =>
    refine (peer_removeLocked hself id' now).trans ?_
    simp [Peer.step]
  | (_, .checkLiveness id' false) => simp [step, Peer.step]
  | (now, .detect id' failed threshold suspicious) => exact peer_detect hself id' failed threshold now suspicious
  | (now, .pruneTombstones ttl) =>
    simp only [step, pruneTombstones, Peer.step]
    split <;> simp [peer]

end parts

/-! ### Failures and answers of a peer -/

/-- What happened to a peer: the failed pings since it last answered or (re)joined, and the times it answered
since it (re)joined. -/
structure Track where
  failures : ℕ
  beats : List ℕ
deriving DecidableEq, Repr

/-- A peer that was just added. -/
def Track.fresh : Track := ⟨0, []⟩

/-- One step, for a peer that is a member. -/
def Track.next (id : Bytes) (t : Track) : ℕ × Step → Track
  | (now, .detect id' failed _ _) =>
    if id' = id then if failed then { t with failures := t.failures + 1 } else ⟨0, t.beats ++ [now]⟩ else t
  | (_, .handle (.joinRequest (some candidate))) => if candidate.id = id then .fresh else t
  | _ => t

/-- What happened to the peer `id` along a run. -/
def track (id : Bytes) : List (ℕ × Step) → Membership → Track → Track
  | [], _, t => t
  | e :: steps, m, t => track id steps (m.step e).2 (if id ∈ m.members then t.next id e else .fresh)

/-- The pings of the step have the threshold `T`. -/
def Step.At (T : UInt8) : Step → Prop
  | .detect _ _ threshold _ => threshold = T
  | _ => True

/-- The intervals between answers that are recorded: the clock has to advance, and zero stands for no
answer. -/
def recorded : List ℕ → ℕ
  | a :: b :: beats => (if a ≠ 0 ∧ a < b then 1 else 0) + recorded (b :: beats)
  | _ => 0

theorem recorded_concat (beats : List ℕ) (now : ℕ) : recorded (beats ++ [now]) =
    recorded beats + if beats.getLast?.getD 0 ≠ 0 ∧ beats.getLast?.getD 0 < now then 1 else 0 := by
  induction beats with
  | nil => rfl
  | cons a beats ih =>
    cases beats with
    | nil =>
      change (if a ≠ 0 ∧ a < now then 1 else 0) + 0 = 0 + if a ≠ 0 ∧ a < now then 1 else 0
      omega
    | cons b beats =>
      simp only [List.cons_append, recorded, List.getLast?_cons_cons] at ih ⊢
      rw [ih]
      omega

/-- The counters of a peer say what happened to it.  While its history is short, the failures are below the
threshold, so that the count of misses has not wrapped around. -/
structure Tracked (T : UInt8) (p : Peer) (t : Track) : Prop where
  absent : p.member = false → p.misses = none ∧ p.phi = none
  misses : p.member = true → p.misses.getD 0 = UInt8.ofNat t.failures
  last : p.member = true → p.history.last = (t.beats.getLast?.getD 0 : ℕ)
  intervals : p.member = true → p.history.intervals.length = min PhiHistory.phiWindow (recorded t.beats)
  below : p.member = true → recorded t.beats < PhiHistory.phiMinSamples → t.failures < T.toNat

namespace Tracked
variable {T : UInt8} {p : Peer} {t : Track}

/-- A peer without a history, just added or not. -/
theorem start (hT : T ≠ 0) (hmisses : p.misses = none) (hphi : p.phi = none) : Tracked T p .fresh where
  absent _ := ⟨hmisses, hphi⟩
  misses _ := by rw [hmisses]; rfl
  last _ := by rw [Peer.history, hphi]; rfl
  intervals _ := by rw [Peer.history, hphi]; rfl
  below _ _ := by
    have : T.toNat ≠ 0 := fun h => hT (UInt8.toNat_inj.mp h)
    simp only [Track.fresh]
    omega

/-- The other fields of the peer change. -/
theorem congr {p' : Peer} (h : Tracked T p t) (hmember : p'.member = p.member) (hmisses : p'.misses = p.misses)
    (hphi : p'.phi = p.phi) : Tracked T p' t := by
  have hhistory : p'.history = p.history := by rw [Peer.history, Peer.history, hphi]
  refine ⟨?_, ?_, ?_, ?_, ?_⟩
  · rw [hmember, hmisses, hphi]
    exact h.absent
  · rw [hmember, hmisses]
    exact h.misses
  · rw [hmember, hhistory]
    exact h.last
  · rw [hmember, hhistory]
    exact h.intervals
  · rw [hmember]
    exact h.below

theorem gone (hmember : p.member = false) (hmisses : p.misses = none) (hphi : p.phi = none) :
    Tracked T p t where
  absent _ := ⟨hmisses, hphi⟩
  misses h := absurd h (by simp [hmember])
  last h := absurd h (by simp [hmember])
  intervals h := absurd h (by simp [hmember])
  below h := absurd h (by simp [hmember])

theorem removeIf (h : Tracked T p t) (now : ℕ) (c : Prop) [Decidable c] :
    Tracked T (if c then p.remove now else p) t := by
  unfold Peer.remove
  split
  · split
    · exact gone rfl rfl rfl
    · exact h
  · exact h

/-- The peer has fewer than three recorded intervals. -/
theorem warm_iff (h : Tracked T p t) (hmember : p.member = true) :
    p.history.warm = true ↔ PhiHistory.phiMinSamples ≤ recorded t.beats := by
  rw [PhiHistory.warm, decide_eq_true_iff, h.intervals hmember]
  simp only [PhiHistory.phiMinSamples, PhiHistory.phiWindow]
  omega

/-- **A failed ping of a peer with a short history evicts it at the threshold.** -/
theorem suspects_iff (h : Tracked T p t) (hmember : p.member = true)
    (hcold : recorded t.beats < PhiHistory.phiMinSamples) (suspicious : Bool) :
    p.suspects T suspicious = true ↔ t.failures + 1 = T.toNat := by
  have hwarm : p.history.warm ≠ true := fun hw => by
    have := (h.warm_iff hmember).mp hw
    omega
  have hbelow := h.below hmember hcold
  have hT : T.toNat < 256 := T.toNat_lt
  have hcount : (p.misses.getD 0 + 1).toNat = t.failures + 1 := by
    rw [h.misses hmember, UInt8.toNat_add, UInt8.toNat_ofNat']
    change (t.failures % 256 + 1) % 256 = _
    omega
  rw [Peer.suspects, if_neg hwarm, decide_eq_true_iff, UInt8.le_iff_toNat_le, hcount]
  omega

theorem missed (h : Tracked T p t) (hmember : p.member = true)
    (hsuspects : p.history.warm = true ∨ t.failures + 1 ≠ T.toNat) :
    Tracked T p.missed { t with failures := t.failures + 1 } where
  absent hm := absurd hmember (by simp [show p.member = false from hm])
  misses _ := by
    change p.misses.getD 0 + 1 = UInt8.ofNat (t.failures + 1)
    rw [h.misses hmember, UInt8.ofNat_add]
    rfl
  last _ := h.last hmember
  intervals _ := h.intervals hmember
  below _ hcold := by
    have hbelow := h.below hmember hcold
    rcases hsuspects with hw | hne
    · have := (h.warm_iff hmember).mp hw
      dsimp only at hcold
      omega
    · dsimp only
      omega

theorem answered (hT : T ≠ 0) (h : Tracked T p t) (hmember : p.member = true) (now : ℕ) :
    Tracked T { p with misses := none, phi := some (p.history.record now) } ⟨0, t.beats ++ [now]⟩ where
  absent hm := absurd hmember (by simp [show p.member = false from hm])
  misses _ := rfl
  last _ := by
    change (p.history.record now).last = _
    simp only [PhiHistory.record]
    split
    · split <;> simp
    · simp
  intervals _ := by
    change (p.history.record now).intervals.length = _
    have hlen := h.intervals hmember
    rw [PhiHistory.length_record _ (by omega), hlen, h.last hmember, recorded_concat]
    simp only [Nat.cast_ne_zero, Nat.cast_lt, ne_eq]
    split <;> omega
  below _ _ := Nat.pos_of_ne_zero fun h0 => hT (UInt8.toNat_inj.mp h0)

theorem detect (hT : T ≠ 0) (h : Tracked T p t) (hmember : p.member = true) (failed : Bool) (now : ℕ)
    (suspicious : Bool) : Tracked T (p.detect failed T now suspicious)
      (if failed then { t with failures := t.failures + 1 } else ⟨0, t.beats ++ [now]⟩) := by
  rw [Peer.detect, if_pos hmember]
  cases failed with
  | false => exact h.answered hT hmember now
  | true =>
    simp only [if_true]
    split
    · rw [Peer.remove, if_pos hmember]
      exact gone rfl rfl rfl
    · next hs =>
      refine h.missed hmember ?_
      by_cases hw : p.history.warm = true
      · exact Or.inl hw
      · refine Or.inr fun heq => hs ?_
        have hcold := mt (h.warm_iff hmember).mpr hw
        exact (h.suspects_iff hmember (by omega) suspicious).mpr heq

/-- One step; the pings of the peer have the threshold. -/
theorem step (hT : T ≠ 0) (h : Tracked T p t) (id : Bytes) {e : ℕ × Step} (he : e.2.At T) :
    Tracked T (p.step id e) (if p.member then t.next id e else .fresh) := by
  cases hmember : p.member with
  | false =>
    -- whatever adds the peer finds nothing of an earlier history
    obtain ⟨hmisses, hphi⟩ := h.absent hmember
    have hpart : (p.step id e).misses = none ∧ (p.step id e).phi = none := by
      match e with
      | (_, .handle (.joinRequest (some candidate))) => simp only [Peer.step]; split <;> simp [hmisses, hphi]
      | (_, .handle (.joinRequest none)) => exact ⟨hmisses, hphi⟩
      | (_, .handle (.memberList ms)) => simp only [Peer.step]; split <;> exact ⟨hmisses, hphi⟩
      | (_, .handle (.heartbeat _)) => exact ⟨hmisses, hphi⟩
      | (now, .handle (.leave id')) => simp [Peer.step, Peer.remove, hmember, hmisses, hphi]
      | (_, .joined ms) => simp only [Peer.step]; split <;> exact ⟨hmisses, hphi⟩
      | (now, .remove id') => simp [Peer.step, Peer.remove, hmember, hmisses, hphi]
      | (now, .checkLiveness id' failed) => simp [Peer.step, Peer.remove, hmember, hmisses, hphi]
      | (now, .detect id' failed threshold suspicious) =>
        simp [Peer.step, Peer.detect, hmember, hmisses, hphi]
      | (now, .pruneTombstones ttl) => exact ⟨hmisses, hphi⟩
    exact start hT hpart.1 hpart.2
  | true =>
    have hadded : { p with member := true } = p := by rw [← hmember]
    simp only [if_true]
    match e with
    | (_, .handle (.joinRequest (some candidate))) =>
      simp only [Peer.step, Track.next]
      split
      · exact start hT rfl rfl
      · exact h
    | (_, .handle (.joinRequest none)) => exact h
    | (_, .handle (.memberList ms)) =>
      simp only [Peer.step, hadded, ite_self]
      exact h
    | (_, .handle (.heartbeat _)) => exact h
    | (now, .handle (.leave id')) => exact h.removeIf now _
    | (_, .joined ms) =>
      simp only [Peer.step, hadded, ite_self]
      exact h
    | (now, .remove id') => exact h.removeIf now _
    | (now, .checkLiveness id' failed) => exact h.removeIf now _
    | (now, .detect id' failed threshold suspicious) =>
      cases (show threshold = T from he)
      simp only [Peer.step, Track.next]
      split
      · exact h.detect hT hmember failed now suspicious
      · exact h
    | (now, .pruneTombstones ttl) => exact h.congr rfl rfl rfl

end Tracked

theorem tracked_run {T : UInt8} (hT : T ≠ 0) {id : Bytes} (hid : id ≠ []) {steps : List (ℕ × Step)}
    (hsteps : ∀ e ∈ steps, e.2.At T) {m : Membership} (hself : id ≠ m.self.id) {t : Track}
    (h : Tracked T (m.peer id) t) : Tracked T ((run steps m).peer id) (track id steps m t) := by
  induction steps generalizing m t with
  | nil => exact h
  | cons e steps ih =>
    have hfixed : (m.step e).2.self = m.self := (run_fixed [e] m).1
    refine ih (fun d hd => hsteps d (List.mem_cons_of_mem _ hd)) (hfixed ▸ hself) ?_
    rw [peer_step hself hid]
    have hnext := h.step hT id (hsteps e List.mem_cons_self)
    simp only [peer_member] at hnext
    exact hnext

/-- Not a ping of another peer. -/
def concerns (id : Bytes) : ℕ × Step → Bool
  | (_, .detect id' _ _ _) => decide (id' = id)
  | _ => true

/-- The pings of the other peers do not matter. -/
theorem peer_run_filter {id : Bytes} (hid : id ≠ []) (steps : List (ℕ × Step)) {m m' : Membership}
    (hself : id ≠ m.self.id) (hself' : id ≠ m'.self.id) (h : m.peer id = m'.peer id) :
    (run steps m).peer id = (run (steps.filter (concerns id)) m').peer id := by
  induction steps generalizing m m' with
  | nil => exact h
  | cons e steps ih =>
    have hfixed : (m.step e).2.self = m.self := (run_fixed [e] m).1
    have hfixed' : (m'.step e).2.self = m'.self := (run_fixed [e] m').1
    cases he : concerns id e with
    | true =>
      have hnext : (m.step e).2.peer id = (m'.step e).2.peer id := by
        rw [peer_step hself hid, peer_step hself' hid, h]
      rw [List.filter_cons_of_pos he]
      exact ih (by rwa [hfixed]) (by rwa [hfixed']) hnext
    | false =>
      have hnext : (m.step e).2.peer id = m'.peer id := by
        rw [peer_step hself hid, ← h]
        match e, he with
        | (now, .detect id' failed threshold suspicious), he => exact if_neg (of_decide_eq_false he)
      rw [List.filter_cons_of_neg (by simp [he])]
      exact ih (by rwa [hfixed]) hself' hnext

/-- What a critical section returns, by the part of its peer. -/
theorem detect_evicts {m : Membership} {id : Bytes} (hself : id ≠ m.self.id) (failed : Bool)
    (threshold : UInt8) (now : ℕ) (suspicious : Bool) :
    (m.detect id failed threshold now suspicious).1 =
      ((m.peer id).member && failed && (m.peer id).suspects threshold suspicious) := by
  cases hl : m.members.lookup id with
  | none => simp [detect, peer, hl]
  | some mem =>
    simp only [detect, hl, suspects_missed]
    have hmember : (m.peer id).member = true := by simp [peer, hl]
    cases failed with
    | false => simp
    | true =>
      rw [hmember]
      simp only [if_true, Bool.true_and]
      split
      · next hs =>
        have hlm : (m.missed id).members.lookup id = some mem := hl
        rw [removeLocked, dif_neg (show id ≠ (m.missed id).self.id from hself), hlm, hs]
      · next hs => simpa using hs

/-- The peer is a member afterwards, unless it was evicted. -/
theorem Peer.detect_member {p : Peer} (hmember : p.member = true) (failed : Bool) (threshold : UInt8) (now : ℕ)
    (suspicious : Bool) : (p.detect failed threshold now suspicious).member =
      !(failed && p.suspects threshold suspicious) := by
  rw [Peer.detect, if_pos hmember]
  cases failed with
  | false => exact hmember
  | true =>
    simp only [if_true, Bool.true_and]
    split
    · next hs =>
      rw [Peer.remove, if_pos hmember, hs]
      rfl
    · next hs =>
      rw [Bool.eq_false_iff.mpr hs]
      exact hmember

theorem peer_new {self : Member} {id : Bytes} (hself : id ≠ self.id) (b : ℤ) : (new self b).peer id = .unknown := by
  have hlookup : (new self b).members.lookup id = none := by
    change ((∅ : Assoc Bytes Member).insert self.id self).lookup id = none
    rw [Assoc.lookup_insert_if, if_neg hself]
    rfl
  rw [peer, hlookup]
  rfl

/-- **Cold peers are evicted exactly at the threshold.**  After any run of a membership whose pings have the
threshold `T`: a ping of a peer with fewer than three intervals recorded since it was last added or rejoined
evicts the peer if and only if it fails and is the `T`-th failure since the peer last answered or (re)joined.
A ping that succeeds does not evict.  And what becomes of a peer is the same in all runs with the same steps
other than pings of other peers. -/
theorem cold_peer_evicted_iff {T : UInt8} (hT : T ≠ 0) (self : Member) (b : ℤ) (steps : List (ℕ × Step))
    (hsteps : ∀ e ∈ steps, e.2.At T) (id : Bytes) (hid : id ≠ []) (hself : id ≠ self.id) :
    let m := run steps (new self b)
    let t := track id steps (new self b) .fresh
    (id ∈ m.members → recorded t.beats < 3 → ∀ failed now suspicious,
      ((m.detect id failed T now suspicious).1 = true ↔ failed = true ∧ t.failures + 1 = T.toNat)) ∧
    (∀ failed now suspicious, id ∈ m.members →
      ((m.detect id failed T now suspicious).1 = true ↔ id ∉ (m.detect id failed T now suspicious).2.members)) ∧
    (∀ now suspicious, (m.detect id false T now suspicious).1 = false) ∧
    ∀ steps', steps'.filter (concerns id) = steps.filter (concerns id) →
      (id ∈ (run steps' (new self b)).members ↔ id ∈ m.members) ∧ ∀ failed now suspicious,
        ((run steps' (new self b)).detect id failed T now suspicious).1 =
          (m.detect id failed T now suspicious).1 := by
  intro m t
  have hfixed : ∀ steps', id ≠ (run steps' (new self b)).self.id := fun steps' => by
    rwa [(run_fixed steps' (new self b)).1]
  have hm : id ≠ m.self.id := hfixed steps
  have htracked : Tracked T (m.peer id) t := by
    refine tracked_run hT hid hsteps hself ?_
    rw [peer_new hself]
    exact Tracked.start hT rfl rfl
  refine ⟨fun hmem hcold failed now suspicious => ?_, fun failed now suspicious hmem => ?_,
    fun now suspicious => ?_, fun steps' hfilter => ?_⟩
  · have hmember := peer_member.mpr hmem
    rw [detect_evicts hm, hmember, Bool.true_and, Bool.and_eq_true,
      htracked.suspects_iff hmember hcold]
  · have hmember := peer_member.mpr hmem
    rw [detect_evicts hm, ← peer_member, peer_detect hm, if_pos rfl, Peer.detect_member hmember, hmember,
      Bool.true_and, Bool.not_eq_true', Bool.not_eq_false]
  · rw [detect_evicts hm, Bool.and_false, Bool.false_and]
  · have hpeer : (run steps' (new self b)).peer id = m.peer id :=
      (peer_run_filter hid steps' hself hself rfl).trans
        (hfilter ▸ (peer_run_filter hid steps hself hself rfl).symm)
    refine ⟨by rw [← peer_member, ← peer_member, hpeer], fun failed now suspicious => ?_⟩
    rw [detect_evicts (hfixed steps'), detect_evicts hm, hpeer]

/-- A peer joins, answers once, misses a ping, rejoins and misses two more; another peer joins and misses all
of its pings.  The threshold is three. -/
theorem cold_peer_evicted_iff_rejoined :
    let steps : List (ℕ × Step) := [(1, .handle (.joinRequest (some ⟨[98], [2]⟩))), (2, .detect [98] false 3 true),
      (3, .handle (.joinRequest (some ⟨[99], [3]⟩))), (4, .detect [98] true 3 true), (5, .detect [99] true 3 true),
      (6, .handle (.joinRequest (some ⟨[98], [2]⟩))), (7, .detect [98] true 3 true), (8, .detect [98] true 3 true)]
    ((run steps (new ⟨[97], [1]⟩ 1)).detect [98] true 3 9 false).1 = true := by
  intro steps
  have h := cold_peer_evicted_iff (T := 3) (by decide) ⟨[97], [1]⟩ 1 steps
    (by simp [steps, Step.At]) [98] (by decide) (by decide)
  have hmem : [98] ∈ (run steps (new ⟨[97], [1]⟩ 1)).members := by decide +kernel
  exact ((h.1 hmem (by decide +kernel)) true 9 false).mpr ⟨rfl, by decide +kernel⟩

end Membership

end Medusa
