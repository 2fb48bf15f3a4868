import Medusa.Partition
import Medusa.Lib.AssocList

/-! # Membership

`cluster/membership.go`: the view one node has of the cluster.  A `Membership` carries its own
invariant: it always contains its node, members are filed under their ids, and the table is the
one of the current set of ids.  The operations are the critical sections of the source; the
programs that send messages between them (`Join`, `Gossip`, `DetectFailures`, `AnnounceLeave`)
are built from them in `Medusa.Node`.

* `merge`, `rejoin`, `removeLocked`, `detect`, `pruneTombstones`: the mutations.
* `table`, `tableWithout`, `addrOf`, `listMembers`, `snapshotProto`: the reads.
* `Over U addr`: the view knows only ids of `U`, at their addresses.  Every mutation keeps it.

The Go maps are iterated in no particular order; nothing here depends on it, because a table is a
function of the set of ids (`newTable_perm`) and members are listed in sorted order. -/

namespace Medusa

open Medusa.Partition

/-- `cluster.Member`. -/
structure Member where
  id : Bytes
  addr : Bytes
deriving DecidableEq, Repr

/-! ### Heartbeat history -/

/-- `phiHistory`: the window of heartbeat intervals.  The running sums only feed the estimate
`phi`, which is left to the environment. -/
structure PhiHistory where
  intervals : List ℤ
  next : ℕ
  last : ℤ
deriving DecidableEq, Repr

namespace PhiHistory

def phiWindow : ℕ := 200

def phiMinSamples : ℕ := 3

/-- `newPhiHistory`. -/
def empty : PhiHistory := ⟨[], 0, 0⟩

/-- `phiHistory.record`. -/
def record (h : PhiHistory) (now : ℤ) : PhiHistory :=
  if h.last ≠ 0 ∧ h.last < now then
    if h.intervals.length < phiWindow then
      ⟨h.intervals ++ [now - h.last], h.next, now⟩
    else
      ⟨h.intervals.set h.next (now - h.last), (h.next + 1) % phiWindow, now⟩
  else { h with last := now }

/-- `phiHistory.warm`. -/
def warm (h : PhiHistory) : Bool := decide (phiMinSamples ≤ h.intervals.length)

end PhiHistory

/-! ### The view -/

/-- A map of members that contains `me` and files every member under its id. -/
structure IsView (me : Member) (members : Assoc Bytes Member) : Prop where
  self_mem : members.lookup me.id = some me
  filed : ∀ id mem, members.lookup id = some mem → mem.id = id

/-- `cluster.Membership`. -/
structure Membership where
  self : Member
  backups : ℤ
  members : Assoc Bytes Member
  version : UInt64
  tableVer : UInt64
  table : Table
  misses : Assoc Bytes UInt8
  phi : Assoc Bytes PhiHistory
  removed : Assoc Bytes ℕ
  view : IsView self members
  table_eq : table = newTable members.keys backups

theorem IsView.single (self : Member) : IsView self ((∅ : Assoc Bytes Member).insert self.id self) := by
  refine ⟨AList.lookup_insert _, fun id mem h => ?_⟩
  rw [Assoc.lookup_insert_if] at h
  split at h
  · next hid => rw [← Option.some.inj h, hid]
  · simp at h

/-- Another member's entry changes, appears or goes. -/
theorem IsView.insert {self mem : Member} {members : Assoc Bytes Member} (h : IsView self members)
    (hne : mem.id ≠ self.id) : IsView self (members.insert mem.id mem) := by
  refine ⟨by rw [Assoc.lookup_insert_if, if_neg (Ne.symm hne)]; exact h.self_mem, ?_⟩
  intro id m hm
  rw [Assoc.lookup_insert_if] at hm
  split at hm
  · next hid => rw [← Option.some.inj hm, hid]
  · exact h.filed id m hm

theorem IsView.erase {self : Member} {members : Assoc Bytes Member} (h : IsView self members)
    {id : Bytes} (hne : id ≠ self.id) : IsView self (members.erase id) := by
  refine ⟨by rw [Assoc.lookup_erase_if, if_neg (Ne.symm hne)]; exact h.self_mem, ?_⟩
  intro id' m hm
  rw [Assoc.lookup_erase_if] at hm
  split at hm
  · simp at hm
  · exact h.filed id' m hm

namespace Membership

/-- `cluster.New`: a view of the node alone. -/
def new (self : Member) (backups : ℤ) : Membership where
  self := self
  backups := backups
  members := (∅ : Assoc Bytes Member).insert self.id self
  version := 0
  tableVer := 1
  table := newTable ((∅ : Assoc Bytes Member).insert self.id self).keys backups
  misses := ∅
  phi := ∅
  removed := ∅
  view := IsView.single self
  table_eq := rfl

/-- `rebuildLocked`: adopt a new set of members, with the table that belongs to it. -/
def rebuildLocked (m : Membership) (members : Assoc Bytes Member) (h : IsView m.self members) :
    Membership :=
  { m with
    members := members
    version := m.version + 1
    tableVer := m.tableVer + 1
    table := newTable members.keys m.backups
    view := h
    table_eq := rfl }

/-- `Membership.AddrOf`. -/
def addrOf (m : Membership) (id : Bytes) : Option Bytes := (m.members.lookup id).map Member.addr

/-- The members, in the order of the Go map. -/
def snapshotProto (m : Membership) : List Member := m.members.pairs.map Prod.snd

/-- The members are filed under their ids. -/
theorem map_id_snapshotProto (m : Membership) : m.snapshotProto.map Member.id = m.members.keys := by
  rw [snapshotProto, List.map_map, ← Assoc.map_fst_pairs]
  refine List.map_congr_left fun x hx => ?_
  exact m.view.filed x.1 x.2 (Assoc.mem_pairs.mp hx)

/-- `Membership.Members`: sorted by id. -/
def listMembers (m : Membership) : List Member :=
  m.snapshotProto.insertionSort (fun a b => a.id ≤ b.id)

/-- `Membership.TableWithout`. -/
def tableWithout (m : Membership) (id : Bytes) : Table :=
  newTable (m.members.keys.filter (fun mid => mid ≠ id)) m.backups

/-! ### Merging -/

/-- The state of the loop of `merge`. -/
structure Merging where
  members : Assoc Bytes Member
  changed : Bool
  setChanged : Bool

/-- One round of the loop of `merge`. -/
def mergeOne (self : Bytes) (removed : Assoc Bytes ℕ) (acc : Merging) (mem : Member) : Merging :=
  if mem.id = [] ∨ mem.id = self then acc
  else if (removed.lookup mem.id).isSome then acc
  else match acc.members.lookup mem.id with
    | none => ⟨acc.members.insert mem.id mem, true, true⟩
    | some existing =>
      if mem.addr ≠ [] ∧ existing.addr ≠ mem.addr then
        ⟨acc.members.insert mem.id mem, true, acc.setChanged⟩
      else acc

/-- What one round of the loop of `merge` does. -/
theorem mergeOne_eq (self : Bytes) (removed : Assoc Bytes ℕ) (acc : Merging) (x : Member) :
    mergeOne self removed acc x =
      if x.id ≠ [] ∧ x.id ≠ self ∧ removed.lookup x.id = none then
        if x.id ∉ acc.members then ⟨acc.members.insert x.id x, true, true⟩
        else if x.addr ≠ [] ∧ (acc.members.lookup x.id).map Member.addr ≠ some x.addr then
          ⟨acc.members.insert x.id x, true, acc.setChanged⟩
        else acc
      else acc := by
  unfold mergeOne
  by_cases hid : x.id = [] ∨ x.id = self
  · rw [if_pos hid, if_neg fun h => hid.elim h.1 h.2.1]
  · obtain ⟨hne, hself⟩ := not_or.mp hid
    rw [if_neg hid]
    cases hr : removed.lookup x.id with
    | some t => simp
    | none =>
      cases hx : acc.members.lookup x.id with
      | none =>
        have hout : x.id ∉ acc.members := AList.lookup_eq_none.mp hx
        simp [hne, hself, hout]
      | some old =>
        have hin : x.id ∈ acc.members := AList.lookup_isSome.mp (by rw [hx]; rfl)
        simp [hne, hself, hin]

/-- What the loop of `merge` keeps: a view, and the set of ids unless `setChanged`. -/
structure Merging.Ok (me : Member) (old : Assoc Bytes Member) (acc : Merging) : Prop where
  view : IsView me acc.members
  keys : acc.setChanged = false → acc.members.keys.Perm old.keys

theorem Merging.Ok.mergeOne {self : Member} {old : Assoc Bytes Member} {acc : Merging}
    (h : acc.Ok self old) (removed : Assoc Bytes ℕ) (mem : Member) :
    (mergeOne self.id removed acc mem).Ok self old := by
  rw [mergeOne_eq]
  split_ifs with hadmits hin
  · refine ⟨h.view.insert hadmits.2.1, fun hs => ?_⟩
    have hp := (List.perm_cons_erase hin).symm.trans (h.keys hs)
    rw [AList.keys_insert]
    convert hp
  · exact h
  · exact ⟨h.view.insert hadmits.2.1, by simp⟩
  · exact h

theorem Merging.Ok.foldl {self : Member} {old : Assoc Bytes Member} (removed : Assoc Bytes ℕ)
    (ms : List Member) {acc : Merging} (h : acc.Ok self old) :
    (ms.foldl (Membership.mergeOne self.id removed) acc).Ok self old := by
  induction ms generalizing acc with
  | nil => exact h
  | cons mem ms ih => exact ih (h.mergeOne removed mem)

/-- The loop of `merge`. -/
def mergeAll (m : Membership) (ms : List Member) : Merging :=
  ms.foldl (mergeOne m.self.id m.removed) ⟨m.members, false, false⟩

theorem mergeAll_ok (m : Membership) (ms : List Member) :
    (m.mergeAll ms).Ok m.self m.members :=
  Merging.Ok.foldl m.removed ms ⟨m.view, fun _ => List.Perm.refl _⟩

/-- `Membership.merge`: new ids are added, known ids adopt a new address; tombstoned ids and the
node itself are skipped. -/
def merge (m : Membership) (ms : List Member) : Bool × Membership :=
  if (m.mergeAll ms).changed then
    if h : (m.mergeAll ms).setChanged = false then
      (true, { m with
        members := (m.mergeAll ms).members
        version := m.version + 1
        view := (m.mergeAll_ok ms).view
        table_eq := m.table_eq.trans (newTable_perm ((m.mergeAll_ok ms).keys h).symm _) })
    else (true, m.rebuildLocked (m.mergeAll ms).members (m.mergeAll_ok ms).view)
  else (false, m)

/-! ### Joining, leaving, failing -/

/-- `removeLocked`: the node itself is never removed. -/
def removeLocked (m : Membership) (id : Bytes) (now : ℕ) : Bool × Membership :=
  if h : id = m.self.id then (false, m)
  else match m.members.lookup id with
    | none => (false, m)
    | some _ =>
      (true, { m.rebuildLocked (m.members.erase id) (m.view.erase h) with
        misses := m.misses.erase id
        phi := m.phi.erase id
        removed := m.removed.insert id now })

/-- The member has no tombstone and no failure history. -/
def forgive (m : Membership) (id : Bytes) : Membership :=
  { m with removed := m.removed.erase id, misses := m.misses.erase id, phi := m.phi.erase id }

/-- `rejoin`: an explicit JOIN clears the tombstone.  The table is rebuilt only when the id is new
or its address changed. -/
def rejoin (m : Membership) (mem : Member) : Membership :=
  if h : mem.id = [] ∨ mem.id = m.self.id then m
  else if (m.members.lookup mem.id).map Member.addr = some mem.addr then m.forgive mem.id
  else (m.forgive mem.id).rebuildLocked (m.members.insert mem.id mem)
    (m.view.insert (fun e => h (Or.inr e)))

/-- The heartbeat history of a peer. -/
def history (m : Membership) (id : Bytes) : PhiHistory := (m.phi.lookup id).getD PhiHistory.empty

/-- `misses[id]++`. -/
def missed (m : Membership) (id : Bytes) : Membership :=
  { m with
    misses := m.misses.insert id ((m.misses.lookup id).getD 0 + 1)
    phi := m.phi.insert id (m.history id) }

/-- Whether a peer that just missed a heartbeat is judged dead.  `suspicious` is what the phi
estimate says about a peer with enough history. -/
def suspects (m : Membership) (id : Bytes) (threshold : UInt8) (suspicious : Bool) : Bool :=
  if (m.history id).warm then suspicious
  else decide (threshold ≤ (m.misses.lookup id).getD 0)

/-- The critical section of `DetectFailures` after one ping. -/
def detect (m : Membership) (id : Bytes) (failed : Bool) (threshold : UInt8) (now : ℕ)
    (suspicious : Bool) : Bool × Membership :=
  match m.members.lookup id with
  | none => (false, m)
  | some _ =>
    if failed then
      if (m.missed id).suspects id threshold suspicious then (m.missed id).removeLocked id now
      else (false, m.missed id)
    else
      (false, { m with
        misses := m.misses.erase id, phi := m.phi.insert id ((m.history id).record now) })

/-- `PruneTombstones`. -/
def pruneTombstones (m : Membership) (ttl : ℤ) (now : ℕ) : Membership :=
  if ttl ≤ 0 then { m with removed := ∅ }
  else { m with removed := m.removed.restrict (fun _ t => decide ((now : ℤ) - ttl ≤ t)) }

/-! ### Views over a set of ids -/

/-- The members all have ids of `U`, and the addresses that belong to them. -/
def OverMap (U : List Bytes) (addr : Bytes → Bytes) (members : Assoc Bytes Member) : Prop :=
  ∀ id mem, members.lookup id = some mem → id ∈ U ∧ mem.addr = addr id

/-- The view knows only ids of `U`, at their addresses. -/
def Over (U : List Bytes) (addr : Bytes → Bytes) (m : Membership) : Prop :=
  OverMap U addr m.members

section known
variable {U : List Bytes} {addr : Bytes → Bytes} {m : Membership}

theorem OverMap.insert {members : Assoc Bytes Member} (h : OverMap U addr members) {mem : Member}
    (hU : mem.id ∈ U) (ha : mem.addr = addr mem.id) :
    OverMap U addr (members.insert mem.id mem) := by
  intro id x hx
  rw [Assoc.lookup_insert_if] at hx
  split at hx
  · next hid =>
    subst hid
    rw [← Option.some.inj hx]
    exact ⟨hU, ha⟩
  · exact h id x hx

theorem OverMap.erase {members : Assoc Bytes Member} (h : OverMap U addr members) (id : Bytes) :
    OverMap U addr (members.erase id) := by
  intro id' x hx
  rw [Assoc.lookup_erase_if] at hx
  split at hx
  · simp at hx
  · exact h id' x hx

theorem Over.new {self : Member} (hU : self.id ∈ U) (ha : self.addr = addr self.id) (b : ℤ) :
    (new self b).Over U addr :=
  OverMap.insert (fun _ _ h => by simp at h) hU ha

theorem Over.mergeAll (h : m.Over U addr) {ms : List Member}
    (hms : ∀ mem ∈ ms, mem.id ∈ U ∧ mem.addr = addr mem.id) :
    OverMap U addr (m.mergeAll ms).members := by
  unfold Membership.mergeAll
  generalize hacc : (⟨m.members, false, false⟩ : Merging) = acc
  have hm : OverMap U addr acc.members := hacc ▸ h
  clear hacc
  induction ms generalizing acc with
  | nil => exact hm
  | cons mem ms ih =>
    refine ih (fun x hx => hms x (List.mem_cons_of_mem _ hx)) _ ?_
    obtain ⟨hU, ha⟩ := hms mem (List.mem_cons_self)
    rw [mergeOne_eq]
    split_ifs
    · exact hm.insert hU ha
    · exact hm
    · exact hm.insert hU ha
    · exact hm

theorem Over.merge (h : m.Over U addr) {ms : List Member}
    (hms : ∀ mem ∈ ms, mem.id ∈ U ∧ mem.addr = addr mem.id) : (m.merge ms).2.Over U addr := by
  unfold Membership.merge
  split
  · split
    · exact h.mergeAll hms
    · exact h.mergeAll hms
  · exact h

theorem Over.removeLocked (h : m.Over U addr) (id : Bytes) (now : ℕ) :
    (m.removeLocked id now).2.Over U addr := by
  unfold Membership.removeLocked
  split
  · exact h
  · split
    · exact h
    · exact OverMap.erase h id

theorem Over.rejoin (h : m.Over U addr) {mem : Member} (hU : mem.id ∈ U)
    (ha : mem.addr = addr mem.id) : (m.rejoin mem).Over U addr := by
  unfold Membership.rejoin
  split
  · exact h
  · split
    · exact h
    · exact OverMap.insert h hU ha

theorem Over.detect (h : m.Over U addr) (id : Bytes) (failed : Bool) (threshold : UInt8)
    (now : ℕ) (suspicious : Bool) : (m.detect id failed threshold now suspicious).2.Over U addr := by
  unfold Membership.detect
  split
  · exact h
  · split
    · split
      · exact Over.removeLocked (m := m.missed id) h id now
      · exact h
    · exact h

theorem Over.pruneTombstones (h : m.Over U addr) (ttl : ℤ) (now : ℕ) :
    (m.pruneTombstones ttl now).Over U addr := by
  unfold Membership.pruneTombstones
  split
  · exact h
  · exact h

theorem Over.mem_snapshotProto (h : m.Over U addr) {mem : Member} (hm : mem ∈ m.snapshotProto) :
    mem.id ∈ U ∧ mem.addr = addr mem.id := by
  obtain ⟨⟨id, x⟩, hx, rfl⟩ := List.mem_map.mp hm
  have hl := Assoc.mem_pairs.mp hx
  rw [m.view.filed id x hl]
  exact h id x hl

theorem Over.mem_keys (h : m.Over U addr) {id : Bytes} (hid : id ∈ m.members.keys) : id ∈ U := by
  obtain ⟨x, hx⟩ := Option.isSome_iff_exists.mp (AList.lookup_isSome.mpr hid)
  exact (h id x hx).1

theorem Over.addrOf (h : m.Over U addr) {id a : Bytes} (ha : m.addrOf id = some a) :
    id ∈ U ∧ a = addr id := by
  obtain ⟨x, hx, rfl⟩ := Option.map_eq_some_iff.mp ha
  exact h id x hx

end known

theorem self_mem_keys (m : Membership) : m.self.id ∈ m.members.keys :=
  AList.lookup_isSome.mp (by rw [m.view.self_mem]; rfl)

theorem mergeAll_keys_subset (m : Membership) (ms : List Member) :
    m.members.keys ⊆ (m.mergeAll ms).members.keys := by
  have h : ∀ acc : Merging, acc.members.keys ⊆
      (ms.foldl (mergeOne m.self.id m.removed) acc).members.keys := by
    induction ms with
    | nil => exact fun acc => List.Subset.refl _
    | cons mem ms ih =>
      refine fun acc => List.Subset.trans ?_ (ih _)
      intro id hid
      have hins : id ∈ (acc.members.insert mem.id mem).keys :=
        AList.mem_keys.mp (AList.mem_insert _ |>.mpr (Or.inr (AList.mem_keys.mpr hid)))
      rw [mergeOne_eq]
      split_ifs
      · exact hins
      · exact hid
      · exact hins
      · exact hid
  exact h ⟨m.members, false, false⟩

/-- Merging forgets no member. -/
theorem merge_keys_subset (m : Membership) (ms : List Member) :
    m.members.keys ⊆ (m.merge ms).2.members.keys := by
  unfold merge
  split
  · split
    · exact m.mergeAll_keys_subset ms
    · exact m.mergeAll_keys_subset ms
  · exact List.Subset.refl _

theorem rejoin_keys_subset (m : Membership) (mem : Member) :
    m.members.keys ⊆ (m.rejoin mem).members.keys := by
  unfold rejoin
  split
  · exact List.Subset.refl _
  · split
    · exact List.Subset.refl _
    · intro id hid
      exact AList.mem_keys.mp (AList.mem_insert _ |>.mpr (Or.inr (AList.mem_keys.mpr hid)))

/-! ### What the mutations leave alone -/

section fixed
variable (m : Membership)

@[simp] theorem new_self (self : Member) (b : ℤ) : (new self b).self = self := rfl

@[simp] theorem new_backups (self : Member) (b : ℤ) : (new self b).backups = b := rfl

@[simp] theorem merge_self (ms : List Member) : (m.merge ms).2.self = m.self := by
  unfold merge
  split
  · split <;> rfl
  · rfl

@[simp] theorem merge_backups (ms : List Member) : (m.merge ms).2.backups = m.backups := by
  unfold merge
  split
  · split <;> rfl
  · rfl

@[simp] theorem removeLocked_self (id : Bytes) (now : ℕ) : (m.removeLocked id now).2.self = m.self := by
  unfold removeLocked
  split
  · rfl
  · split <;> rfl

@[simp] theorem removeLocked_backups (id : Bytes) (now : ℕ) :
    (m.removeLocked id now).2.backups = m.backups := by
  unfold removeLocked
  split
  · rfl
  · split <;> rfl

@[simp] theorem rejoin_self (mem : Member) : (m.rejoin mem).self = m.self := by
  unfold rejoin
  split
  · rfl
  · split <;> rfl

@[simp] theorem rejoin_backups (mem : Member) : (m.rejoin mem).backups = m.backups := by
  unfold rejoin
  split
  · rfl
  · split <;> rfl

@[simp] theorem detect_self (id : Bytes) (failed : Bool) (t : UInt8) (now : ℕ) (s : Bool) :
    (m.detect id failed t now s).2.self = m.self := by
  unfold detect
  split
  · rfl
  · split
    · split
      · exact removeLocked_self _ _ _
      · rfl
    · rfl

@[simp] theorem detect_backups (id : Bytes) (failed : Bool) (t : UInt8) (now : ℕ) (s : Bool) :
    (m.detect id failed t now s).2.backups = m.backups := by
  unfold detect
  split
  · rfl
  · split
    · split
      · exact removeLocked_backups _ _ _
      · rfl
    · rfl

@[simp] theorem pruneTombstones_self (ttl : ℤ) (now : ℕ) :
    (m.pruneTombstones ttl now).self = m.self := by
  unfold pruneTombstones
  split <;> rfl

@[simp] theorem pruneTombstones_members (ttl : ℤ) (now : ℕ) :
    (m.pruneTombstones ttl now).members = m.members := by
  unfold pruneTombstones
  split <;> rfl

@[simp] theorem pruneTombstones_backups (ttl : ℤ) (now : ℕ) :
    (m.pruneTombstones ttl now).backups = m.backups := by
  unfold pruneTombstones
  split <;> rfl

end fixed

end Membership

end Medusa
