import Medusa.Lib.Mealy
import Medusa.Cluster

/-! # The membership state over runs

What happens to the membership of one node: an inbound message (`Membership.Handle`), the answer to
a join, `Remove`, the critical sections of `CheckLiveness` and `DetectFailures` after one ping, and
`PruneTombstones`.  A round of one of the detectors is a sequence of its critical sections, between
which anything else may happen, so that a run of these steps covers the rounds as well.

* `Consistent`: no member has an empty id or a tombstone, and there is failure history of members
  only.  Every step keeps it (`Consistent.step`).
* `Tombstoned`: a removed id stays out of the view until it is readmitted (`tombstoned_run`).
* `exec_mem`: whatever a cluster does, it changes a membership by these steps, or starts it anew. -/

namespace Medusa

open Medusa.Partition

namespace Membership

/-! ### Which ids a mutation leaves in the view -/

section keys
variable (m : Membership)

/-- One round of the loop of `merge` admits one id. -/
theorem mem_mergeOne (self : Bytes) (removed : Assoc Bytes ℕ) (acc : Merging) (mem : Member)
    (id : Bytes) :
    id ∈ (mergeOne self removed acc mem).members ↔ id ∈ acc.members ∨
      (mem.id = id ∧ id ≠ [] ∧ id ≠ self ∧ removed.lookup id = none) := by
  rw [mergeOne_eq]
  by_cases hadmits : mem.id ≠ [] ∧ mem.id ≠ self ∧ removed.lookup mem.id = none
  · have hins : id ∈ acc.members.insert mem.id mem ↔ id ∈ acc.members ∨
        (mem.id = id ∧ id ≠ [] ∧ id ≠ self ∧ removed.lookup id = none) := by
      rw [AList.mem_insert, or_comm]
      refine or_congr_right ⟨?_, fun h => h.1.symm⟩
      rintro rfl
      exact ⟨rfl, hadmits⟩
    rw [if_pos hadmits]
    split_ifs with hin
    · exact hins
    · refine (or_iff_left_of_imp ?_).symm
      rintro ⟨rfl, -⟩
      exact hin
    · exact hins
  · rw [if_neg hadmits]
    refine (or_iff_left ?_).symm
    rintro ⟨rfl, h⟩
    exact hadmits h

theorem mem_foldl_mergeOne (self : Bytes) (removed : Assoc Bytes ℕ) (ms : List Member)
    (acc : Merging) (id : Bytes) :
    id ∈ (ms.foldl (mergeOne self removed) acc).members ↔ id ∈ acc.members ∨
      ((∃ mem ∈ ms, mem.id = id) ∧ id ≠ [] ∧ id ≠ self ∧ removed.lookup id = none) := by
  induction ms generalizing acc with
  | nil => simp
  | cons mem ms ih =>
    rw [List.foldl_cons, ih, mem_mergeOne, or_assoc]
    simp only [List.exists_mem_cons_iff, or_and_right]

/-- The loop of `merge` changes nothing unless it says so. -/
theorem foldl_mergeOne_eq (self : Bytes) (removed : Assoc Bytes ℕ) (ms : List Member)
    (acc : Merging) :
    ms.foldl (mergeOne self removed) acc = acc ∨
      (ms.foldl (mergeOne self removed) acc).changed = true := by
  have hone : ∀ (acc : Merging) (mem : Member), mergeOne self removed acc mem = acc ∨
      (mergeOne self removed acc mem).changed = true := by
    intro acc mem
    rw [mergeOne_eq]
    split_ifs <;> simp
  induction ms generalizing acc with
  | nil => exact Or.inl rfl
  | cons mem ms ih =>
    rw [List.foldl_cons]
    rcases ih (mergeOne self removed acc mem) with h | h
    · rw [h]
      exact hone acc mem
    · exact Or.inr h

theorem merge_members (ms : List Member) :
    (m.merge ms).2.members = (m.mergeAll ms).members := by
  unfold merge
  split
  · split <;> rfl
  · next h =>
    rcases foldl_mergeOne_eq m.self.id m.removed ms ⟨m.members, false, false⟩ with e | e
    · exact (congrArg Merging.members e).symm
    · exact absurd e h

/-- **What `merge` admits**: the new ids of the list, except the empty one and those with a
tombstone. -/
theorem mem_merge (ms : List Member) (id : Bytes) :
    id ∈ (m.merge ms).2.members ↔ id ∈ m.members ∨
      ((∃ mem ∈ ms, mem.id = id) ∧ id ≠ [] ∧ id ≠ m.self.id ∧ m.removed.lookup id = none) := by
  rw [merge_members]
  exact mem_foldl_mergeOne _ _ _ _ _

/-- A list of members of the view teaches nothing. -/
theorem merge_of_known {ms : List Member}
    (h : ∀ mem ∈ ms, mem.id ≠ [] → m.members.lookup mem.id = some mem) : m.merge ms = (false, m) := by
  have hfold : ms.foldl (mergeOne m.self.id m.removed) ⟨m.members, false, false⟩ =
      ⟨m.members, false, false⟩ := by
    induction ms with
    | nil => rfl
    | cons mem ms ih =>
      rw [List.foldl_cons]
      have hone : mergeOne m.self.id m.removed ⟨m.members, false, false⟩ mem =
          ⟨m.members, false, false⟩ := by
        unfold mergeOne
        split
        · rfl
        · next hid =>
          have hmem := h mem List.mem_cons_self (fun e => hid (Or.inl e))
          simp [hmem]
      rw [hone]
      exact ih fun x hx => h x (List.mem_cons_of_mem _ hx)
  unfold merge
  have hch : (m.mergeAll ms).changed = false := congrArg Merging.changed hfold
  rw [if_neg (by simp [hch])]

@[simp] theorem merge_removed (ms : List Member) : (m.merge ms).2.removed = m.removed := by
  unfold merge
  split
  · split <;> rfl
  · rfl

@[simp] theorem merge_misses (ms : List Member) : (m.merge ms).2.misses = m.misses := by
  unfold merge
  split
  · split <;> rfl
  · rfl

@[simp] theorem merge_phi (ms : List Member) : (m.merge ms).2.phi = m.phi := by
  unfold merge
  split
  · split <;> rfl
  · rfl

theorem mem_removeLocked (id : Bytes) (now : ℕ) (id' : Bytes) :
    id' ∈ (m.removeLocked id now).2.members ↔ id' ∈ m.members ∧ (id' = id → id = m.self.id) := by
  unfold removeLocked
  split
  · next h => simp [h]
  · next h =>
    split
    · next hl =>
      refine ⟨fun hm => ⟨hm, ?_⟩, And.left⟩
      rintro rfl
      exact absurd hm (AList.lookup_eq_none.mp hl)
    · change id' ∈ m.members.erase id ↔ _
      rw [AList.mem_erase]
      tauto

theorem mem_rejoin (mem : Member) (id : Bytes) :
    id ∈ (m.rejoin mem).members ↔ id ∈ m.members ∨ (mem.id = id ∧ id ≠ []) := by
  unfold rejoin
  split
  · next h =>
    refine (or_iff_left_of_imp ?_).symm
    rintro ⟨rfl, hne⟩
    exact h.resolve_left hne ▸ m.self_mem_keys
  · next h =>
    split
    · next ha =>
      refine (or_iff_left_of_imp ?_).symm
      rintro ⟨rfl, -⟩
      obtain ⟨x, hx, -⟩ := Option.map_eq_some_iff.mp ha
      have hmem : mem.id ∈ m.members := AList.lookup_isSome.mp (by rw [hx]; rfl)
      exact hmem
    · change id ∈ m.members.insert mem.id mem ↔ _
      rw [AList.mem_insert, or_comm]
      refine or_congr_right ⟨?_, fun e => e.1.symm⟩
      rintro rfl
      exact ⟨rfl, fun e => h (Or.inl e)⟩

/-- A critical section of `DetectFailures` keeps the members, or removes the one it is about. -/
theorem detect_members (id : Bytes) (failed : Bool) (threshold : UInt8) (now : ℕ)
    (suspicious : Bool) :
    (m.detect id failed threshold now suspicious).2.members = m.members ∨
    ((m.missed id).removeLocked id now).2 = (m.detect id failed threshold now suspicious).2 := by
  unfold detect
  split
  · exact Or.inl rfl
  · split
    · split
      · exact Or.inr rfl
      · exact Or.inl rfl
    · exact Or.inl rfl

end keys

/-! ### Messages and steps -/

/-- The messages of `Membership.Handle`.  A join request may come without its candidate. -/
inductive Message where
  | joinRequest (candidate : Option Member)
  | memberList (ms : List Member)
  | heartbeat (id : Bytes)
  | leave (id : Bytes)
deriving DecidableEq, Repr

/-- The responses of `Membership.Handle`. -/
inductive Reply where
  | joinResponse (ms : List Member)
  | memberList
  | heartbeat
  | leave
deriving DecidableEq, Repr

/-- `Membership.Handle`. -/
def handle (m : Membership) (now : ℕ) : Message → Reply × Membership
  | .joinRequest (some candidate) =>
    (.joinResponse (m.rejoin candidate).snapshotProto, m.rejoin candidate)
  | .joinRequest none => (.joinResponse m.snapshotProto, m)
  | .memberList ms => (.memberList, (m.merge ms).2)
  | .heartbeat _ => (.heartbeat, m)
  | .leave id => (.leave, (m.removeLocked id now).2)

/-- What happens to a membership. -/
inductive Step where
  | handle (msg : Message)
  | joined (ms : List Member)
  | remove (id : Bytes)
  | checkLiveness (id : Bytes) (failed : Bool)
  | detect (id : Bytes) (failed : Bool) (threshold : UInt8) (suspicious : Bool)
  | pruneTombstones (ttl : ℤ)
deriving DecidableEq, Repr

/-- What a step returns: the response to a message, or whether the view changed. -/
inductive Outcome where
  | reply (r : Reply)
  | changed (b : Bool)
  | done
deriving DecidableEq, Repr

/-- One step at a time `now`. -/
def step (m : Membership) : ℕ × Step → Outcome × Membership
  | (now, .handle msg) => (.reply (m.handle now msg).1, (m.handle now msg).2)
  | (_, .joined ms) => (.changed (m.merge ms).1, (m.merge ms).2)
  | (now, .remove id) => (.changed (m.removeLocked id now).1, (m.removeLocked id now).2)
  | (now, .checkLiveness id failed) =>
    if failed then (.changed (m.removeLocked id now).1, (m.removeLocked id now).2)
    else (.changed false, m)
  | (now, .detect id failed threshold suspicious) =>
    (.changed (m.detect id failed threshold now suspicious).1,
      (m.detect id failed threshold now suspicious).2)
  | (now, .pruneTombstones ttl) => (.done, m.pruneTombstones ttl now)

/-- The state after a run of steps. -/
def run (steps : List (ℕ × Step)) (m : Membership) : Membership := (Mealy.run step steps m).2

theorem run_append (steps steps' : List (ℕ × Step)) (m : Membership) :
    run (steps ++ steps') m = run steps' (run steps m) := by
  rw [run, Mealy.run_append]
  rfl

/-! ### The invariant -/

/-- No member has an empty id or a tombstone, and there is failure history of members only. -/
structure Consistent (m : Membership) : Prop where
  named : ∀ id ∈ m.members, id ≠ []
  alive : ∀ id ∈ m.members, m.removed.lookup id = none
  misses : ∀ id ∈ m.misses, id ∈ m.members
  phi : ∀ id ∈ m.phi, id ∈ m.members

namespace Consistent
variable {m : Membership}

theorem new {self : Member} (h : self.id ≠ []) (b : ℤ) : (new self b).Consistent where
  named := by
    intro id hid
    rcases (AList.mem_insert _).mp hid with rfl | hid
    · exact h
    · exact absurd hid (AList.notMem_empty id)
  alive := fun id _ => AList.lookup_empty id
  misses := fun id h => absurd h (AList.notMem_empty id)
  phi := fun id h => absurd h (AList.notMem_empty id)

/-- A larger view of the same history, without tombstones among the new ids. -/
theorem grow {m' : Membership} (h : m.Consistent) (hsub : ∀ id ∈ m.members, id ∈ m'.members)
    (hnew : ∀ id ∈ m'.members, id ∈ m.members ∨ (id ≠ [] ∧ m.removed.lookup id = none))
    (hr : m'.removed = m.removed) (hm : m'.misses = m.misses) (hp : m'.phi = m.phi) :
    m'.Consistent where
  named := fun id hid => (hnew id hid).elim (h.named id) And.left
  alive := by
    intro id hid
    rw [hr]
    exact (hnew id hid).elim (h.alive id) And.right
  misses := fun id hid => hsub id (h.misses id (hm ▸ hid))
  phi := fun id hid => hsub id (h.phi id (hp ▸ hid))

theorem merge (h : m.Consistent) (ms : List Member) : (m.merge ms).2.Consistent := by
  refine h.grow (fun id hid => (m.mem_merge ms id).mpr (Or.inl hid)) (fun id hid => ?_) (by simp)
    (by simp) (by simp)
  exact ((m.mem_merge ms id).mp hid).imp_right fun hid => ⟨hid.2.1, hid.2.2.2⟩

theorem removeLocked (h : m.Consistent) (id : Bytes) (now : ℕ) :
    (m.removeLocked id now).2.Consistent := by
  unfold Membership.removeLocked
  split
  · exact h
  · split
    · exact h
    · refine ⟨?_, ?_, ?_, ?_⟩
      · exact fun id' hid => h.named id' (AList.mem_erase.mp hid).2
      · intro id' hid
        obtain ⟨hne, hid⟩ := AList.mem_erase.mp hid
        change (m.removed.insert id now).lookup id' = none
        rw [Assoc.lookup_insert_if, if_neg hne]
        exact h.alive id' hid
      · intro id' hid
        obtain ⟨hne, hid⟩ := AList.mem_erase.mp hid
        exact AList.mem_erase.mpr ⟨hne, h.misses id' hid⟩
      · intro id' hid
        obtain ⟨hne, hid⟩ := AList.mem_erase.mp hid
        exact AList.mem_erase.mpr ⟨hne, h.phi id' hid⟩

theorem forgive (h : m.Consistent) (id : Bytes) : (m.forgive id).Consistent where
  named := h.named
  alive := by
    intro id' hid
    change (m.removed.erase id).lookup id' = none
    rw [Assoc.lookup_erase_if]
    split
    · rfl
    · exact h.alive id' hid
  misses := fun id' hid => h.misses id' (AList.mem_erase.mp hid).2
  phi := fun id' hid => h.phi id' (AList.mem_erase.mp hid).2

theorem rejoin (h : m.Consistent) (mem : Member) : (m.rejoin mem).Consistent := by
  have hmem := m.mem_rejoin mem
  unfold Membership.rejoin at hmem ⊢
  split
  · exact h
  · next hne =>
    rw [dif_neg hne] at hmem
    split
    · exact h.forgive mem.id
    · next ha =>
      rw [if_neg ha] at hmem
      refine (h.forgive mem.id).grow (fun id hid => (hmem id).mpr (Or.inl hid)) ?_ rfl rfl rfl
      intro id hid
      rcases (hmem id).mp hid with hid | ⟨rfl, hid⟩
      · exact Or.inl hid
      · exact Or.inr ⟨hid, AList.lookup_erase _ _⟩

theorem missed (h : m.Consistent) {id : Bytes} (hid : id ∈ m.members) :
    (m.missed id).Consistent where
  named := h.named
  alive := h.alive
  misses := fun id' hid' => ((AList.mem_insert _).mp hid').elim (· ▸ hid) (h.misses id')
  phi := fun id' hid' => ((AList.mem_insert _).mp hid').elim (· ▸ hid) (h.phi id')

theorem detect (h : m.Consistent) (id : Bytes) (failed : Bool) (threshold : UInt8) (now : ℕ)
    (suspicious : Bool) : (m.detect id failed threshold now suspicious).2.Consistent := by
  unfold Membership.detect
  split
  · exact h
  · next mem hmem =>
    have hid : id ∈ m.members := AList.lookup_isSome.mp (by rw [hmem]; rfl)
    split
    · split
      · exact (h.missed hid).removeLocked id now
      · exact h.missed hid
    · exact ⟨h.named, h.alive, fun id' hid' => h.misses id' (AList.mem_erase.mp hid').2,
        fun id' hid' => ((AList.mem_insert _).mp hid').elim (· ▸ hid) (h.phi id')⟩

theorem pruneTombstones (h : m.Consistent) (ttl : ℤ) (now : ℕ) :
    (m.pruneTombstones ttl now).Consistent := by
  unfold Membership.pruneTombstones
  split
  · exact ⟨h.named, fun id _ => AList.lookup_empty id, h.misses, h.phi⟩
  · refine ⟨h.named, fun id hid => ?_, h.misses, h.phi⟩
    rw [Assoc.lookup_restrict, h.alive id hid]
    rfl

theorem step (h : m.Consistent) : ∀ e : ℕ × Step, (m.step e).2.Consistent
  | (_, .handle (.joinRequest (some candidate))) => h.rejoin candidate
  | (_, .handle (.joinRequest none)) => h
  | (_, .handle (.memberList ms)) => h.merge ms
  | (_, .handle (.heartbeat _)) => h
  | (now, .handle (.leave id)) => h.removeLocked id now
  | (_, .joined ms) => h.merge ms
  | (now, .remove id) => h.removeLocked id now
  | (now, .checkLiveness id true) => h.removeLocked id now
  | (_, .checkLiveness _ false) => h
  | (now, .detect id failed threshold suspicious) => h.detect id failed threshold now suspicious
  | (now, .pruneTombstones ttl) => h.pruneTombstones ttl now

theorem run (h : m.Consistent) (steps : List (ℕ × Step)) : (run steps m).Consistent := by
  induction steps generalizing m with
  | nil => exact h
  | cons e steps ih => exact ih (h.step e)

end Consistent

/-! ### Removed ids stay removed -/

/-- The id has a tombstone. -/
def Tombstoned (id : Bytes) (m : Membership) : Prop := (m.removed.lookup id).isSome = true

/-- The step is a JOIN that names the id, or prunes its tombstone. -/
def Readmits (id : Bytes) (m : Membership) : ℕ × Step → Prop
  | (_, .handle (.joinRequest (some candidate))) => candidate.id = id
  | (now, .pruneTombstones ttl) => m.Tombstoned id ∧ ¬ (m.pruneTombstones ttl now).Tombstoned id
  | _ => False

section tombstones
variable {m : Membership} {id : Bytes}

theorem Tombstoned.merge (h : m.Tombstoned id) (ms : List Member) :
    (m.merge ms).2.Tombstoned id := by
  rwa [Tombstoned, merge_removed]

theorem Tombstoned.removeLocked (h : m.Tombstoned id) (id' : Bytes) (now : ℕ) :
    (m.removeLocked id' now).2.Tombstoned id := by
  unfold Membership.removeLocked
  split
  · exact h
  · split
    · exact h
    · change ((m.removed.insert id' now).lookup id).isSome = true
      rw [Assoc.lookup_insert_if]
      split
      · rfl
      · exact h

theorem Tombstoned.rejoin (h : m.Tombstoned id) {mem : Member} (hne : mem.id ≠ id) :
    (m.rejoin mem).Tombstoned id := by
  have herase : ((m.removed.erase mem.id).lookup id).isSome = true := by
    rw [Assoc.lookup_erase_if, if_neg (Ne.symm hne)]
    exact h
  unfold Membership.rejoin
  split
  · exact h
  · split
    · exact herase
    · exact herase

/-- A JOIN leaves no new tombstone. -/
theorem Tombstoned.of_rejoin {mem : Member} (h : (m.rejoin mem).Tombstoned id) :
    m.Tombstoned id := by
  have herase : ((m.removed.erase mem.id).lookup id).isSome = true → m.Tombstoned id := by
    rw [Assoc.lookup_erase_if]
    split
    · exact fun h => by cases h
    · exact fun h => h
  unfold Membership.rejoin at h
  split at h
  · exact h
  · split at h
    · exact herase h
    · exact herase h

theorem Tombstoned.detect (h : m.Tombstoned id) (id' : Bytes) (failed : Bool) (threshold : UInt8)
    (now : ℕ) (suspicious : Bool) :
    (m.detect id' failed threshold now suspicious).2.Tombstoned id := by
  unfold Membership.detect
  split
  · exact h
  · split
    · split
      · exact Tombstoned.removeLocked (m := m.missed id') h id' now
      · exact h
    · exact h

/-- A tombstone stays until the id is readmitted. -/
theorem Tombstoned.step (h : m.Tombstoned id) {e : ℕ × Step} (he : ¬ Readmits id m e) :
    (m.step e).2.Tombstoned id := by
  match e with
  | (_, .handle (.joinRequest (some candidate))) => exact h.rejoin he
  | (_, .handle (.joinRequest none)) => exact h
  | (_, .handle (.memberList ms)) => exact h.merge ms
  | (_, .handle (.heartbeat _)) => exact h
  | (now, .handle (.leave id')) => exact h.removeLocked id' now
  | (_, .joined ms) => exact h.merge ms
  | (now, .remove id') => exact h.removeLocked id' now
  | (now, .checkLiveness id' true) => exact h.removeLocked id' now
  | (_, .checkLiveness _ false) => exact h
  | (now, .detect id' failed threshold suspicious) =>
    exact h.detect id' failed threshold now suspicious
  | (now, .pruneTombstones ttl) => exact not_not.mp (not_and.mp he h)

theorem tombstoned_run (h : m.Tombstoned id) {steps : List (ℕ × Step)}
    (hsteps : Mealy.Allowed step (fun m e => ¬ Readmits id m e) steps m) :
    (run steps m).Tombstoned id := by
  induction steps generalizing m with
  | nil => exact h
  | cons e steps ih => exact ih (h.step hsteps.1) hsteps.2

/-- A removal leaves a tombstone. -/
theorem tombstoned_of_removeLocked {id' : Bytes} {now : ℕ} (hid : id ∈ m.members)
    (hgone : id ∉ (m.removeLocked id' now).2.members) : (m.removeLocked id' now).2.Tombstoned id := by
  have hne : ¬ (id = id' → id' = m.self.id) := by
    rw [mem_removeLocked] at hgone
    exact not_and.mp hgone hid
  obtain ⟨rfl, hself⟩ := Classical.not_imp.mp hne
  obtain ⟨mem, hmem⟩ := Option.isSome_iff_exists.mp (AList.lookup_isSome.mpr hid)
  unfold Membership.removeLocked
  rw [dif_neg hself]
  split
  · next hnone => rw [hmem] at hnone; cases hnone
  · change ((m.removed.insert id now).lookup id).isSome = true
    rw [AList.lookup_insert]
    rfl

/-- Whatever makes a member disappear leaves a tombstone. -/
theorem tombstoned_of_gone (hid : id ∈ m.members) {e : ℕ × Step} (hgone : id ∉ (m.step e).2.members) :
    (m.step e).2.Tombstoned id := by
  match e with
  | (_, .handle (.joinRequest (some candidate))) =>
    exact absurd ((m.mem_rejoin candidate id).mpr (Or.inl hid)) hgone
  | (_, .handle (.joinRequest none)) => exact absurd hid hgone
  | (_, .handle (.memberList ms)) => exact absurd ((m.mem_merge ms id).mpr (Or.inl hid)) hgone
  | (_, .handle (.heartbeat _)) => exact absurd hid hgone
  | (now, .handle (.leave id')) => exact tombstoned_of_removeLocked hid hgone
  | (_, .joined ms) => exact absurd ((m.mem_merge ms id).mpr (Or.inl hid)) hgone
  | (now, .remove id') => exact tombstoned_of_removeLocked hid hgone
  | (now, .checkLiveness id' true) => exact tombstoned_of_removeLocked hid hgone
  | (_, .checkLiveness _ false) => exact absurd hid hgone
  | (now, .detect id' failed threshold suspicious) =>
    rcases m.detect_members id' failed threshold now suspicious with h | h
    · exact absurd (h ▸ hid) hgone
    · exact h ▸ tombstoned_of_removeLocked (m := m.missed id') hid (h ▸ hgone)
  | (now, .pruneTombstones ttl) =>
    exact absurd (show id ∈ (m.pruneTombstones ttl now).members by simpa using hid) hgone

/-- What a run never changes. -/
theorem run_fixed (steps : List (ℕ × Step)) (m : Membership) :
    (run steps m).self = m.self ∧ (run steps m).backups = m.backups := by
  have hstep : ∀ (m : Membership) (e : ℕ × Step),
      (m.step e).2.self = m.self ∧ (m.step e).2.backups = m.backups := by
    intro m e
    match e with
    | (_, .handle (.joinRequest (some candidate))) => exact ⟨rejoin_self _ _, rejoin_backups _ _⟩
    | (_, .handle (.joinRequest none)) => exact ⟨rfl, rfl⟩
    | (_, .handle (.memberList ms)) => exact ⟨merge_self _ _, merge_backups _ _⟩
    | (_, .handle (.heartbeat _)) => exact ⟨rfl, rfl⟩
    | (now, .handle (.leave id)) => exact ⟨removeLocked_self _ _ _, removeLocked_backups _ _ _⟩
    | (_, .joined ms) => exact ⟨merge_self _ _, merge_backups _ _⟩
    | (now, .remove id) => exact ⟨removeLocked_self _ _ _, removeLocked_backups _ _ _⟩
    | (now, .checkLiveness id true) =>
      exact ⟨removeLocked_self _ _ _, removeLocked_backups _ _ _⟩
    | (_, .checkLiveness _ false) => exact ⟨rfl, rfl⟩
    | (now, .detect id failed threshold suspicious) =>
      exact ⟨detect_self _ _ _ _ _ _, detect_backups _ _ _ _ _ _⟩
    | (now, .pruneTombstones ttl) =>
      exact ⟨pruneTombstones_self _ _ _, pruneTombstones_backups _ _ _⟩
  induction steps generalizing m with
  | nil => exact ⟨rfl, rfl⟩
  | cons e steps ih =>
    obtain ⟨hs, hb⟩ := ih (m.step e).2
    exact ⟨hs.trans (hstep m e).1, hb.trans (hstep m e).2⟩

end tombstones

/-- **The membership invariant**, in every state a node reaches from its start: it is a member itself,
at its address; members have non-empty ids and no tombstones; there is failure history of members
only; the table is the one of the current ids.  And an id that was removed stays out of the view until
a JOIN names it or its tombstone is pruned. -/
theorem membership_invariant (self : Member) (hself : self.id ≠ []) (b : ℤ)
    (steps : List (ℕ × Step)) :
    let m := run steps (new self b)
    m.members.lookup self.id = some self ∧
    (∀ id mem, m.members.lookup id = some mem → mem.id = id ∧ id ≠ [] ∧ m.removed.lookup id = none) ∧
    (∀ id, id ∈ m.misses ∨ id ∈ m.phi → id ∈ m.members) ∧
    m.table = newTable m.members.keys b ∧
    (∀ id pre e post, steps = pre ++ e :: post →
      id ∈ (run pre (new self b)).members → id ∉ (run (pre ++ [e]) (new self b)).members →
      Mealy.Allowed step (fun m e => ¬ Readmits id m e) post (run (pre ++ [e]) (new self b)) →
      id ∉ m.members) := by
  intro m
  have hm : m.Consistent := (Consistent.new hself b).run steps
  obtain ⟨hms, hmb⟩ := run_fixed steps (new self b)
  refine ⟨?_, ?_, fun id h => h.elim (hm.misses id) (hm.phi id), ?_, ?_⟩
  · have h := m.view.self_mem
    rwa [show m.self = self from hms] at h
  · intro id mem hmem
    have hid : id ∈ m.members := AList.lookup_isSome.mp (by rw [hmem]; rfl)
    exact ⟨m.view.filed id mem hmem, hm.named id hid, hm.alive id hid⟩
  · have h := m.table_eq
    rwa [show m.backups = b from hmb] at h
  · intro id pre e post heq hid hgone hpost hmem
    -- the removal left a tombstone, which is still there
    have htomb : (run (pre ++ [e]) (new self b)).Tombstoned id := by
      rw [run_append] at hgone ⊢
      exact tombstoned_of_gone hid hgone
    have hend : m.Tombstoned id := by
      have h := tombstoned_run htomb hpost
      rwa [← run_append, List.append_assoc, List.singleton_append, ← heq] at h
    have hnone := hm.alive id hmem
    rw [Tombstoned, hnone] at hend
    cases hend

/-- Node `a` learns of `b` by a JOIN and removes it when it leaves; gossip that still names `b` adds
only `c`. -/
theorem membership_invariant_leave :
    [98] ∉ (run [(1, .handle (.joinRequest (some ⟨[98], [2]⟩))), (2, .handle (.leave [98])),
      (3, .handle (.memberList [⟨[98], [2]⟩, ⟨[], [7]⟩, ⟨[99], [3]⟩]))]
      (new ⟨[97], [1]⟩ 1)).members := by
  refine (membership_invariant ⟨[97], [1]⟩ (by decide) 1 _).2.2.2.2 [98]
    [(1, .handle (.joinRequest (some ⟨[98], [2]⟩)))] (2, .handle (.leave [98]))
    [(3, .handle (.memberList [⟨[98], [2]⟩, ⟨[], [7]⟩, ⟨[99], [3]⟩]))] rfl (by decide +kernel)
    (by decide +kernel) ⟨fun h => h, trivial⟩

end Membership

/-! ### The memberships of a cluster -/

/-- Whatever a cluster does, the membership of a node stays as it is, makes a step, or starts anew. -/
theorem exec_mem (a : Action) (c : Choice) (C : Cluster) (n : Bytes) :
    let m := (C.nodes n).mem
    let m' := ((exec a c C).2.nodes n).mem
    m' = m ∨ (∃ e, m' = (m.step e).2) ∨ m' = Membership.new m.self m.backups := by
  intro m m'
  cases a with
  | on k a =>
    by_cases h : n = k
    · subst h
      have hm' : m' = ((((C.nodes n).tick c.tick).exec c a).2).mem :=
        congrArg Node.mem (exec_on_self n a c C)
      rw [hm']
      cases a with
      | merge ms => exact Or.inr (Or.inl ⟨(0, .joined ms), rfl⟩)
      | rejoin mem => exact Or.inr (Or.inl ⟨(0, .handle (.joinRequest (some mem))), rfl⟩)
      | removeMember id => exact Or.inr (Or.inl ⟨(_, .remove id), rfl⟩)
      | detect id failed threshold =>
        exact Or.inr (Or.inl ⟨(_, .detect id failed threshold c.suspicious), rfl⟩)
      | pruneTombstones ttl => exact Or.inr (Or.inl ⟨(_, .pruneTombstones ttl), rfl⟩)
      | emit ev =>
        refine Or.inl ?_
        simp only [Node.exec]
        split <;> rfl
      | _ => exact Or.inl rfl
    · exact Or.inl (congrArg Node.mem (exec_on_ne k a c C h))
  | start k =>
    by_cases h : n = k
    · subst h
      exact Or.inr (Or.inr (congrArg Node.mem (exec_start_self n c C)))
    · exact Or.inl (congrArg Node.mem (exec_start_ne k c C h))
  | crash k =>
    by_cases h : n = k
    · subst h
      exact Or.inr (Or.inr (congrArg Node.mem (exec_crash_self n c C)))
    · exact Or.inl (congrArg Node.mem (exec_crash_ne k c C h))
  | storeThrough | deleteThrough =>
    refine Or.inl ?_
    simp only [m', exec]
    split <;> rfl
  | _ => exact Or.inl rfl

/-- **The invariant across a cluster**: in every interleaving of any programs a node keeps a
consistent membership. -/
theorem consistent_run {α : Type} (sched : List (ℕ × Choice)) (f : Conf α) {n : Bytes}
    (hf : (f.world.state.nodes n).mem.Consistent) :
    ((Interleave.Conf.run exec sched f).world.state.nodes n).mem.Consistent := by
  refine Interleave.Conf.run_state (I := fun C => (C.nodes n).mem.Consistent) ?_ sched f hf
  intro a c C h
  rcases exec_mem a c C n with hm | ⟨e, hm⟩ | hm
  · rw [hm]
    exact h
  · rw [hm]
    exact h.step e
  · rw [hm]
    exact Membership.Consistent.new (h.named _ (C.nodes n).mem.self_mem_keys) _

end Medusa
