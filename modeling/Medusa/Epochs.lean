import Mathlib.Data.List.Induction
import Medusa.MembershipRuns
import Medusa.Node

/-! # Epochs of a membership

A membership counts its changes twice: `version` for any change of an id or an address, `tableVer` for a
change of the set of ids, which is what the maintenance loop migrates data for.

How often an operation moves each counter is a function of its input and the state before it (`rebuilds`,
`changes`).  The counters move with what they stand for (`epochs_track`), except in two cases: a JOIN from a
known id at a new address rebuilds the table of the same ids, and a member list that names one id at two
addresses may end where it began (`epochs_drift`).  Being `uint64`s, they must not wrap (`Fits`). -/

namespace Medusa

open Medusa.Partition Interleave

namespace Membership

/-! ### What the epochs stand for -/

/-- The same member ids. -/
def SameIds (m m' : Membership) : Prop := ∀ id, id ∈ m'.members ↔ id ∈ m.members

/-- The same ids at the same addresses. -/
def SameAddrs (m m' : Membership) : Prop := ∀ id, m'.addrOf id = m.addrOf id

/-- Neither epoch goes back. -/
structure Onward (m m' : Membership) : Prop where
  tableVer : m.tableVer ≤ m'.tableVer
  version : m.version ≤ m'.version

/-- Each epoch moves exactly when what it stands for changes. -/
structure Tracks (m m' : Membership) : Prop where
  tableVer : m.tableVer < m'.tableVer ↔ ¬ m.SameIds m'
  version : m.version < m'.version ↔ ¬ m.SameAddrs m'

/-- How often the table was rebuilt and the membership changed; only a round of the failure detector does so
more than once. -/
structure Moves (m m' : Membership) (rebuilds changes : ℕ) : Prop where
  tableVer : m'.tableVer = m.tableVer + UInt64.ofNat rebuilds
  version : m'.version = m.version + UInt64.ofNat changes
  ids : rebuilds = 0 → m.SameIds m'
  addrs : changes = 0 → m.SameAddrs m'
  once : (rebuilds ≤ 1 ∧ changes ≤ 1) ∨ ¬ m.SameIds m'

section tracks
variable {m m' : Membership}

theorem addrOf_isSome {id : Bytes} : (m.addrOf id).isSome = true ↔ id ∈ m.members := by
  rw [addrOf, Option.isSome_map]
  exact AList.lookup_isSome

theorem SameAddrs.sameIds (h : m.SameAddrs m') : m.SameIds m' := fun id => by
  rw [← addrOf_isSome, ← addrOf_isSome, h id]

/-- A counter that is moved `k` times tracks a change when every move is for one and it does not wrap. -/
theorem counter_tracks (v : UInt64) {k : ℕ} {changed : Prop} (hnone : k = 0 → ¬ changed)
    (honce : k ≤ 1 ∨ changed) :
    (v ≤ v + UInt64.ofNat k ∧ (v < v + UInt64.ofNat k ↔ changed)) ↔
      (k ≠ 0 → changed ∧ v < v + UInt64.ofNat k) := by
  constructor
  · rintro ⟨hle, hiff⟩ hk
    rcases honce with hone | hchanged
    · obtain rfl : k = 1 := by omega
      have hne : v ≠ v + UInt64.ofNat 1 := by
        intro heq
        have hzero : UInt64.ofNat 1 = 0 := by
          simpa using heq.symm
        exact absurd hzero (by decide)
      have hlt := UInt64.lt_of_le_of_ne hle hne
      exact ⟨hiff.mp hlt, hlt⟩
    · exact ⟨hchanged, hiff.mpr hchanged⟩
  · intro h
    by_cases hk : k = 0
    · subst hk
      simp [hnone rfl]
    · obtain ⟨hchanged, hlt⟩ := h hk
      exact ⟨UInt64.le_of_lt hlt, iff_of_true hlt hchanged⟩

/-- The epochs track the view when every move is for a change and no counter wraps. -/
theorem Moves.tracks_iff {rebuilds changes : ℕ} (h : m.Moves m' rebuilds changes) :
    (m.Onward m' ∧ m.Tracks m') ↔ ((rebuilds ≠ 0 → ¬ m.SameIds m') ∧ (changes ≠ 0 → ¬ m.SameAddrs m')) ∧
      (rebuilds ≠ 0 → m.tableVer < m.tableVer + UInt64.ofNat rebuilds) ∧
      (changes ≠ 0 → m.version < m.version + UInt64.ofNat changes) := by
  have haddrs : ¬ m.SameIds m' → ¬ m.SameAddrs m' := fun hids hsame => hids hsame.sameIds
  have htable := counter_tracks m.tableVer (fun hk => not_not.mpr (h.ids hk)) (h.once.imp_left And.left)
  have hversion := counter_tracks m.version (fun hk => not_not.mpr (h.addrs hk)) (h.once.imp And.right haddrs)
  rw [← h.tableVer] at htable ⊢
  rw [← h.version] at hversion ⊢
  constructor
  · rintro ⟨hon, htr⟩
    have ht := htable.mp ⟨hon.tableVer, htr.tableVer⟩
    have hv := hversion.mp ⟨hon.version, htr.version⟩
    exact ⟨⟨fun hk => (ht hk).1, fun hk => (hv hk).1⟩, fun hk => (ht hk).2, fun hk => (hv hk).2⟩
  · rintro ⟨⟨hids, hadr⟩, ht, hv⟩
    obtain ⟨hle, htr⟩ := htable.mpr fun hk => ⟨hids hk, ht hk⟩
    obtain ⟨hle', htr'⟩ := hversion.mpr fun hk => ⟨hadr hk, hv hk⟩
    exact ⟨⟨hle, hle'⟩, htr, htr'⟩

/-- Nothing changed. -/
theorem Moves.of_same (hm : m'.members = m.members) (ht : m'.tableVer = m.tableVer)
    (hv : m'.version = m.version) : m.Moves m' 0 0 where
  tableVer := by simp [ht]
  version := by simp [hv]
  ids _ id := by rw [hm]
  addrs _ id := by rw [addrOf, addrOf, hm]
  once := Or.inl ⟨Nat.zero_le _, Nat.zero_le _⟩

end tracks

/-! ### Merging a list -/

/-- `merge` takes note of the member: its id is neither empty nor the node's own and has no tombstone, and a
known id comes with an address. -/
def Heeds (m : Membership) (x : Member) : Prop :=
  (x.id ≠ [] ∧ x.id ≠ m.self.id ∧ m.removed.lookup x.id = none) ∧ (x.id ∈ m.members → x.addr ≠ [])

instance (m : Membership) (x : Member) : Decidable (m.Heeds x) :=
  inferInstanceAs (Decidable ((_ ∧ _ ∧ _) ∧ (_ → _)))

/-- The member is new, or the view has it at another address. -/
def News (m : Membership) (x : Member) : Prop := m.Heeds x ∧ m.addrOf x.id ≠ some x.addr

instance (m : Membership) (x : Member) : Decidable (m.News x) := inferInstanceAs (Decidable (_ ∧ _))

/-- The last mention of an id in the list that `merge` takes note of. -/
def lastMention (m : Membership) (ms : List Member) (id : Bytes) : Option Member :=
  (ms.filter fun x => m.Heeds x ∧ x.id = id).getLast?

section merging
variable {m : Membership} {ms : List Member}

theorem mergeOne_flags (self : Bytes) (removed : Assoc Bytes ℕ) (acc : Merging) (x : Member) :
    (acc.changed = true → (mergeOne self removed acc x).changed = true) ∧
    (acc.setChanged = true → (mergeOne self removed acc x).setChanged = true) := by
  rw [mergeOne_eq]
  split_ifs <;> simp

theorem foldl_mergeOne_flags (self : Bytes) (removed : Assoc Bytes ℕ) (l : List Member) (acc : Merging) :
    (acc.changed = true → (l.foldl (mergeOne self removed) acc).changed = true) ∧
    (acc.setChanged = true → (l.foldl (mergeOne self removed) acc).setChanged = true) := by
  induction l generalizing acc with
  | nil => exact ⟨id, id⟩
  | cons x l ih =>
    obtain ⟨hc, hs⟩ := mergeOne_flags self removed acc x
    exact ⟨fun h => (ih _).1 (hc h), fun h => (ih _).2 (hs h)⟩

/-- The loop changes the view exactly when the list has news of it: until the first news the view is the old
one. -/
theorem changed_mergeAll (m : Membership) (ms : List Member) :
    (m.mergeAll ms).changed = true ↔ ∃ x ∈ ms, m.News x := by
  unfold mergeAll
  induction ms with
  | nil => simp
  | cons x ms ih =>
    rw [List.foldl_cons, List.exists_mem_cons_iff]
    by_cases hnews : m.News x
    · refine iff_of_true ((foldl_mergeOne_flags _ _ ms _).1 ?_) (Or.inl hnews)
      obtain ⟨⟨hadmits, haddr⟩, hother⟩ := hnews
      rw [mergeOne_eq, if_pos hadmits]
      split
      · rfl
      · next hin => rw [if_pos ⟨haddr (not_not.mp hin), hother⟩]
    · have hsame : mergeOne m.self.id m.removed ⟨m.members, false, false⟩ x = ⟨m.members, false, false⟩ := by
        rw [mergeOne_eq]
        split
        · next hadmits =>
          have hin : x.id ∈ m.members := by
            by_contra hout
            refine hnews ⟨⟨hadmits, fun hin => absurd hin hout⟩, fun hsome => hout ?_⟩
            exact addrOf_isSome.mp (by rw [hsome]; rfl)
          rw [if_neg (not_not.mpr hin), if_neg]
          exact fun h => hnews ⟨⟨hadmits, fun _ => h.1⟩, h.2⟩
        · rfl
      rw [hsame, ih, or_iff_right hnews]

/-- The loop says that the set of ids changed exactly when the list has a new id. -/
theorem setChanged_mergeAll (m : Membership) (ms : List Member) :
    (m.mergeAll ms).setChanged = true ↔ ∃ x ∈ ms, m.Heeds x ∧ x.id ∉ m.members := by
  have hfold : ∀ (l : List Member) (acc : Merging),
      (l.foldl (mergeOne m.self.id m.removed) acc).setChanged = true ↔ acc.setChanged = true ∨ ∃ x ∈ l,
        (x.id ≠ [] ∧ x.id ≠ m.self.id ∧ m.removed.lookup x.id = none) ∧ x.id ∉ acc.members := by
    intro l
    induction l with
    | nil => simp
    | cons x l ih =>
      intro acc
      rw [List.foldl_cons, List.exists_mem_cons_iff]
      by_cases hnew : (x.id ≠ [] ∧ x.id ≠ m.self.id ∧ m.removed.lookup x.id = none) ∧ x.id ∉ acc.members
      · refine iff_of_true ((foldl_mergeOne_flags _ _ l _).2 ?_) (Or.inr (Or.inl hnew))
        rw [mergeOne_eq, if_pos hnew.1, if_pos hnew.2]
      · have hset : (mergeOne m.self.id m.removed acc x).setChanged = acc.setChanged := by
          rw [mergeOne_eq]
          split
          · next hadmits =>
            rw [if_neg fun hout => hnew ⟨hadmits, hout⟩]
            split <;> rfl
          · rfl
        have hids : ∀ id, id ∈ (mergeOne m.self.id m.removed acc x).members ↔ id ∈ acc.members := by
          intro id
          rw [mem_mergeOne]
          refine or_iff_left_of_imp ?_
          rintro ⟨rfl, hadmits⟩
          exact not_not.mp fun hout => hnew ⟨hadmits, hout⟩
        simp only [ih, hset, hids, or_iff_right hnew]
  rw [mergeAll, hfold]
  simp only [Bool.false_eq_true, false_or]
  refine exists_congr fun x => and_congr_right fun _ => and_congr_left fun hout => ?_
  exact (and_iff_left fun hin => absurd hin hout).symm

/-- A known member ends at the address of its last mention. -/
theorem addr_mergeAll {id : Bytes} (hid : id ∈ m.members) :
    ((m.mergeAll ms).members.lookup id).map Member.addr =
      ((m.lastMention ms id).map Member.addr).or (m.addrOf id) := by
  induction ms using List.reverseRecOn with
  | nil => rfl
  | append_singleton ms x ih =>
    have hin : id ∈ (m.mergeAll ms).members := (mem_foldl_mergeOne _ _ _ _ _).mpr (Or.inl hid)
    have hstep : m.mergeAll (ms ++ [x]) = mergeOne m.self.id m.removed (m.mergeAll ms) x := by
      rw [mergeAll, List.foldl_concat]
      rfl
    rw [hstep, mergeOne_eq, lastMention, List.filter_append]
    by_cases hx : x.id = id
    · subst hx
      by_cases hheeds : m.Heeds x
      · have hlast : [x].filter (fun y => m.Heeds y ∧ y.id = x.id) = [x] := by simp [hheeds]
        rw [hlast, List.getLast?_concat, if_pos hheeds.1, if_neg (not_not.mpr hin)]
        split
        · rw [AList.lookup_insert]
          rfl
        · next hsame => exact not_not.mp fun hne => hsame ⟨hheeds.2 hid, hne⟩
      · have hlast : [x].filter (fun y => m.Heeds y ∧ y.id = x.id) = [] := by simp [hheeds]
        rw [hlast, List.append_nil, ← lastMention, ← ih, if_neg (not_not.mpr hin)]
        split
        · next hadmits =>
          rw [if_neg fun h => hheeds ⟨hadmits, fun _ => h.1⟩]
        · rfl
    · have hlast : [x].filter (fun y => m.Heeds y ∧ y.id = id) = [] := by simp [hx]
      have hother : ((m.mergeAll ms).members.insert x.id x).lookup id = (m.mergeAll ms).members.lookup id := by
        rw [Assoc.lookup_insert_if, if_neg (Ne.symm hx)]
      rw [hlast, List.append_nil, ← lastMention, ← ih]
      split_ifs
      all_goals first | rfl | exact congrArg _ hother

theorem lastMention_some {id : Bytes} {x : Member} (h : m.lastMention ms id = some x) :
    x ∈ ms ∧ m.Heeds x ∧ x.id = id := by
  simpa using List.mem_of_getLast? h

theorem lastMention_isSome {x : Member} (hx : x ∈ ms) (hheeds : m.Heeds x) :
    ∃ y, m.lastMention ms x.id = some y := by
  refine Option.ne_none_iff_exists'.mp fun hnone => ?_
  have hmem : x ∈ ms.filter fun y => m.Heeds y ∧ y.id = x.id := by simp [hx, hheeds]
  rw [List.getLast?_eq_none_iff.mp hnone] at hmem
  cases hmem

/-- The view is another one after the loop exactly when the last mention of some member is news. -/
theorem not_sameAddrs_merge :
    ¬ m.SameAddrs (m.merge ms).2 ↔ ∃ x, m.News x ∧ m.lastMention ms x.id = some x := by
  have haddr : ∀ id, (m.merge ms).2.addrOf id = ((m.mergeAll ms).members.lookup id).map Member.addr := by
    intro id
    rw [addrOf, merge_members]
  constructor
  · intro hne
    obtain ⟨id, hid⟩ := not_forall.mp hne
    by_cases hin : id ∈ m.members
    · rw [haddr, addr_mergeAll hin] at hid
      cases hlast : m.lastMention ms id with
      | none =>
        rw [hlast] at hid
        exact absurd rfl hid
      | some x =>
        obtain ⟨-, hheeds, rfl⟩ := lastMention_some hlast
        rw [hlast] at hid
        exact ⟨x, ⟨hheeds, Ne.symm hid⟩, hlast⟩
    · -- the id is new: any mention of it is news
      have hnone : m.addrOf id = none := by
        rw [addrOf, AList.lookup_eq_none.mpr hin, Option.map_none]
      have hadded : id ∈ (m.merge ms).2.members := by
        rw [hnone] at hid
        exact addrOf_isSome.mp (Option.isSome_iff_ne_none.mpr hid)
      obtain ⟨⟨x, hx, rfl⟩, hadmits⟩ := ((mem_merge m ms id).mp hadded).resolve_left hin
      obtain ⟨y, hy⟩ := lastMention_isSome hx ⟨hadmits, fun h => absurd h hin⟩
      obtain ⟨-, hheeds, hyx⟩ := lastMention_some hy
      rw [← hyx] at hy hnone
      exact ⟨y, ⟨hheeds, by rw [hnone]; simp⟩, hy⟩
  · rintro ⟨x, ⟨hheeds, hother⟩, hlast⟩ hsame
    have hx := hsame x.id
    by_cases hin : x.id ∈ m.members
    · rw [haddr, addr_mergeAll hin, hlast] at hx
      exact hother hx.symm
    · have hadded := (mem_merge m ms x.id).mpr (Or.inr ⟨⟨x, (lastMention_some hlast).1, rfl⟩, hheeds.1⟩)
      exact hin ((hsame.sameIds x.id).mp hadded)

theorem moves_merge (m : Membership) (ms : List Member) : m.Moves (m.merge ms).2
    (if ∃ x ∈ ms, m.Heeds x ∧ x.id ∉ m.members then 1 else 0) (if ∃ x ∈ ms, m.News x then 1 else 0) := by
  have hset := setChanged_mergeAll m ms
  have hchanged := changed_mergeAll m ms
  have hnew : (∃ x ∈ ms, m.Heeds x ∧ x.id ∉ m.members) → ∃ x ∈ ms, m.News x := by
    rintro ⟨x, hx, hheeds, hout⟩
    exact ⟨x, hx, hheeds, fun hsome => hout (addrOf_isSome.mp (by rw [hsome]; rfl))⟩
  have hkept : ¬ (∃ x ∈ ms, m.Heeds x ∧ x.id ∉ m.members) → m.SameIds (m.merge ms).2 := by
    intro hno id
    rw [merge_members]
    have hkeys := (m.mergeAll_ok ms).keys (by simpa using mt hset.mp hno)
    exact hkeys.mem_iff
  refine ⟨?_, ?_, fun h => hkept (by simpa using h), fun h => ?_, Or.inl ⟨by split <;> simp, by split <;> simp⟩⟩
  · split
    · next hadded =>
      unfold merge
      rw [if_pos (hchanged.mpr (hnew hadded)), dif_neg (by simp [hset.mpr hadded])]
      rfl
    · next hadded =>
      unfold merge
      split
      · rw [dif_pos (by simpa using mt hset.mp hadded)]
        simp
      · simp
  · split
    · next hmoved =>
      unfold merge
      rw [if_pos (hchanged.mpr hmoved)]
      split <;> rfl
    · next hmoved =>
      unfold merge
      rw [if_neg (mt hchanged.mp hmoved)]
      simp
  · refine not_not.mp (mt not_sameAddrs_merge.mp ?_)
    rintro ⟨x, hnews, hlast⟩
    have hno : ¬ ∃ x ∈ ms, m.News x := by simpa using h
    exact hno ⟨x, (lastMention_some hlast).1, hnews⟩

end merging

/-! ### Joining -/

/-- `rejoin` takes note of the member, which is new or known at another address. -/
def Readmitted (m : Membership) (x : Member) : Prop :=
  (x.id ≠ [] ∧ x.id ≠ m.self.id) ∧ m.addrOf x.id ≠ some x.addr

instance (m : Membership) (x : Member) : Decidable (m.Readmitted x) := inferInstanceAs (Decidable ((_ ∧ _) ∧ _))

theorem rejoin_of_readmitted {m : Membership} {x : Member} (h : m.Readmitted x) :
    (m.rejoin x).members = m.members.insert x.id x ∧ (m.rejoin x).tableVer = m.tableVer + 1 ∧
      (m.rejoin x).version = m.version + 1 := by
  unfold rejoin
  split
  · next hid => exact (hid.elim h.1.1 h.1.2).elim
  · split
    · next hsame => exact absurd hsame h.2
    · exact ⟨rfl, rfl, rfl⟩

theorem moves_rejoin (m : Membership) (x : Member) :
    m.Moves (m.rejoin x) (if m.Readmitted x then 1 else 0) (if m.Readmitted x then 1 else 0) := by
  split
  · next h =>
    obtain ⟨-, htable, hversion⟩ := rejoin_of_readmitted h
    exact ⟨htable, hversion, by simp, by simp, Or.inl ⟨le_rfl, le_rfl⟩⟩
  · next h =>
    unfold rejoin
    split
    · exact Moves.of_same rfl rfl rfl
    · next hid =>
      split
      · exact Moves.of_same rfl rfl rfl
      · next hother => exact absurd ⟨not_or.mp hid, hother⟩ h

/-! ### Removing -/

/-- Members may be gone: nothing happened, or an id is gone and both epochs moved `k` times. -/
structure Shrinks (m m' : Membership) (k : ℕ) : Prop where
  tableVer : m'.tableVer = m.tableVer + UInt64.ofNat k
  version : m'.version = m.version + UInt64.ofNat k
  sub : ∀ id ∈ m'.members, id ∈ m.members
  kept : k = 0 → m'.members = m.members
  gone : k ≠ 0 → ∃ id ∈ m.members, id ∉ m'.members

section shrinks
variable {m m' m'' : Membership} {k k' : ℕ}

theorem Shrinks.of_same (hm : m'.members = m.members) (ht : m'.tableVer = m.tableVer)
    (hv : m'.version = m.version) : m.Shrinks m' 0 :=
  ⟨by simp [ht], by simp [hv], fun _ hid => hm ▸ hid, fun _ => hm, fun h => absurd rfl h⟩

theorem Shrinks.trans (h : m.Shrinks m' k) (h' : m'.Shrinks m'' k') : m.Shrinks m'' (k + k') where
  tableVer := by rw [h'.tableVer, h.tableVer, UInt64.ofNat_add, UInt64.add_assoc]
  version := by rw [h'.version, h.version, UInt64.ofNat_add, UInt64.add_assoc]
  sub id hid := h.sub id (h'.sub id hid)
  kept hk := (h'.kept (by omega)).trans (h.kept (by omega))
  gone hk := by
    by_cases hzero : k = 0
    · obtain ⟨id, hin, hout⟩ := h'.gone (by omega)
      exact ⟨id, h.sub id hin, hout⟩
    · obtain ⟨id, hin, hout⟩ := h.gone hzero
      exact ⟨id, hin, fun hid => hout (h'.sub id hid)⟩

theorem Shrinks.not_sameIds (h : m.Shrinks m' k) (hk : k ≠ 0) : ¬ m.SameIds m' := by
  obtain ⟨id, hin, hout⟩ := h.gone hk
  exact fun hids => hout ((hids id).mpr hin)

theorem Shrinks.moves (h : m.Shrinks m' k) : m.Moves m' k k where
  tableVer := h.tableVer
  version := h.version
  ids hk id := by rw [h.kept hk]
  addrs hk id := by rw [addrOf, addrOf, h.kept hk]
  once := by
    by_cases hk : k = 0
    · exact Or.inl (by omega)
    · exact Or.inr (h.not_sameIds hk)

theorem shrinks_removeLocked (m : Membership) (id : Bytes) (now : ℕ) :
    m.Shrinks (m.removeLocked id now).2 (if id ≠ m.self.id ∧ id ∈ m.members then 1 else 0) := by
  unfold removeLocked
  split
  · next hself =>
    rw [if_neg fun h => h.1 hself]
    exact Shrinks.of_same rfl rfl rfl
  · next hself =>
    split
    · next hnone =>
      rw [if_neg fun h => AList.lookup_eq_none.mp hnone h.2]
      exact Shrinks.of_same rfl rfl rfl
    · next mem hmem =>
      have hin : id ∈ m.members := AList.lookup_isSome.mp (by rw [hmem]; rfl)
      have herase : ∀ x, x ∈ m.members.erase id ↔ x ≠ id ∧ x ∈ m.members := fun x => AList.mem_erase
      rw [if_pos ⟨hself, hin⟩]
      refine ⟨rfl, rfl, fun x hx => ((herase x).mp hx).2, fun h => absurd h one_ne_zero, fun _ => ⟨id, hin, ?_⟩⟩
      exact fun hx => ((herase id).mp hx).1 rfl

/-- The failure detector evicts the peer. -/
def Condemned (m : Membership) (threshold : UInt8) (id : Bytes) (failed suspicious : Bool) : Prop :=
  id ≠ m.self.id ∧ id ∈ m.members ∧ failed = true ∧ (m.missed id).suspects id threshold suspicious = true

instance (m : Membership) (threshold : UInt8) (id : Bytes) (failed suspicious : Bool) :
    Decidable (m.Condemned threshold id failed suspicious) := inferInstanceAs (Decidable (_ ∧ _ ∧ _ ∧ _))

theorem shrinks_detect (m : Membership) (id : Bytes) (failed : Bool) (threshold : UInt8) (now : ℕ)
    (suspicious : Bool) : m.Shrinks (m.detect id failed threshold now suspicious).2
      (if m.Condemned threshold id failed suspicious then 1 else 0) := by
  have hmissed : m.Shrinks (m.missed id) 0 := Shrinks.of_same rfl rfl rfl
  unfold detect
  split
  · next hnone =>
    rw [if_neg fun h => AList.lookup_eq_none.mp hnone h.2.1]
    exact Shrinks.of_same rfl rfl rfl
  · next mem hmem =>
    have hin : id ∈ m.members := AList.lookup_isSome.mp (by rw [hmem]; rfl)
    split
    · next hfailed =>
      split
      · next hsuspect =>
        have hremove := hmissed.trans (shrinks_removeLocked (m.missed id) id now)
        rw [Nat.zero_add] at hremove
        have hiff : m.Condemned threshold id failed suspicious ↔
            id ≠ (m.missed id).self.id ∧ id ∈ (m.missed id).members :=
          ⟨fun h => ⟨h.1, h.2.1⟩, fun h => ⟨h.1, h.2, hfailed, hsuspect⟩⟩
        simpa only [hiff] using hremove
      · next hsuspect =>
        rw [if_neg fun h => hsuspect h.2.2.2]
        exact hmissed
    · next hfailed =>
      rw [if_neg fun h => hfailed h.2.2.1]
      exact Shrinks.of_same rfl rfl rfl

end shrinks

/-! ### Rounds of the failure detector -/

/-- What a round learns about a peer: the instant after its ping, whether the ping failed, and what the
estimate says. -/
structure Ping where
  now : ℕ
  failed : Bool
  suspicious : Bool

/-- The loop of `DetectFailures`, with nothing else running. -/
def detectLoop (threshold : UInt8) : List (Member × Ping) → Membership → Membership
  | [], m => m
  | (peer, r) :: rest, m =>
    if peer.id = m.self.id then detectLoop threshold rest m
    else detectLoop threshold rest (m.detect peer.id r.failed threshold r.now r.suspicious).2

/-- `DetectFailures`, with nothing else running: one ping a member. -/
def detectRound (m : Membership) (threshold : UInt8) (pings : List Ping) : Membership :=
  detectLoop (if threshold = 0 then 1 else threshold) (m.listMembers.zip pings) m

/-- What is known of a peer is not touched by the ping of another one. -/
theorem condemned_detect {m : Membership} {id other : Bytes} (hne : other ≠ id) (failed failed' : Bool)
    (threshold : UInt8) (now : ℕ) (suspicious suspicious' : Bool) :
    (m.detect id failed threshold now suspicious).2.Condemned threshold other failed' suspicious' ↔
      m.Condemned threshold other failed' suspicious' := by
  have hlookup : ∀ {β : Type} (l : Assoc Bytes β) (v : β), (l.insert id v).lookup other = l.lookup other ∧
      (l.erase id).lookup other = l.lookup other := by
    intro β l v
    rw [Assoc.lookup_insert_if, Assoc.lookup_erase_if, if_neg hne, if_neg hne]
    exact ⟨rfl, rfl⟩
  have hsame : ∀ m' : Membership, m'.self = m.self → m'.members.lookup other = m.members.lookup other →
      m'.misses.lookup other = m.misses.lookup other → m'.phi.lookup other = m.phi.lookup other →
      (m'.Condemned threshold other failed' suspicious' ↔ m.Condemned threshold other failed' suspicious') := by
    intro m' hself hmembers hmisses hphi
    have hmem : other ∈ m'.members ↔ other ∈ m.members := by
      rw [← AList.lookup_isSome, ← AList.lookup_isSome, hmembers]
    simp [Condemned, suspects, missed, history, hself, hmem, hmisses, hphi]
  unfold detect
  split
  · exact Iff.rfl
  · split
    · split
      · unfold removeLocked
        split
        · exact hsame _ rfl rfl (hlookup _ _).1 (hlookup _ _).1
        · split
          · exact hsame _ rfl rfl (hlookup _ _).1 (hlookup _ _).1
          · next mem _ =>
            refine hsame _ rfl (hlookup m.members mem).2 ?_ ?_
            · exact (hlookup _ 0).2.trans (hlookup _ _).1
            · exact (hlookup _ PhiHistory.empty).2.trans (hlookup _ _).1
      · exact hsame _ rfl rfl (hlookup _ _).1 (hlookup _ _).1
    · exact hsame _ rfl rfl (hlookup _ 0).2 (hlookup _ _).1

/-- The peers a round evicts, as the state before it has them: pings of different peers do not interfere. -/
theorem shrinks_detectLoop (threshold : UInt8) (peers : List Member) (hpeers : (peers.map Member.id).Nodup)
    (pings : List Ping) (m : Membership) :
    m.Shrinks (detectLoop threshold (peers.zip pings) m) ((peers.zip pings).countP fun x =>
      m.Condemned threshold x.1.id x.2.failed x.2.suspicious) := by
  induction peers generalizing pings m with
  | nil => exact Shrinks.of_same rfl rfl rfl
  | cons peer peers ih =>
    cases pings with
    | nil => exact Shrinks.of_same rfl rfl rfl
    | cons r pings =>
      obtain ⟨hout, hpeers⟩ := List.nodup_cons.mp hpeers
      rw [List.zip_cons_cons, List.countP_cons]
      unfold detectLoop
      split
      · next hself =>
        have hkept : ¬ m.Condemned threshold peer.id r.failed r.suspicious := fun h => h.1 hself
        simpa [hkept] using ih hpeers pings m
      · have hstep := (shrinks_detect m peer.id r.failed threshold r.now r.suspicious).trans (ih hpeers pings _)
        have hrest : (peers.zip pings).countP (fun x =>
            decide ((m.detect peer.id r.failed threshold r.now r.suspicious).2.Condemned threshold x.1.id x.2.failed
              x.2.suspicious)) =
            (peers.zip pings).countP fun x => decide (m.Condemned threshold x.1.id x.2.failed x.2.suspicious) := by
          refine List.countP_congr fun x hx => ?_
          have hne : x.1.id ≠ peer.id := fun h =>
            hout (h ▸ List.mem_map_of_mem (List.of_mem_zip (a := x.1) (b := x.2) hx).1)
          simp only [decide_eq_true_eq, condemned_detect hne]
        rw [hrest, Nat.add_comm] at hstep
        simpa using hstep

theorem nodup_listMembers (m : Membership) : (m.listMembers.map Member.id).Nodup := by
  have hperm : (m.listMembers.map Member.id).Perm m.members.keys := by
    rw [← map_id_snapshotProto]
    exact (List.perm_insertionSort _ _).map _
  exact hperm.nodup_iff.mpr m.members.nodupKeys

/-- A ping changes nothing. -/
theorem ping_ensures (addr : Bytes) (C : Cluster) :
    (ping addr).Ensures exec (fun _ => True) (fun _ C' => C' = C) C := by
  intro c _
  cases (exec (.connect addr) c C).1 with
  | none => rfl
  | some x => exact fun _ _ => rfl

theorem detectPeers_ensures (n : Bytes) (threshold : UInt8) (peers : List Member) {C : Cluster}
    (hself : (C.nodes n).mem.self.id = n) :
    (detectPeers n threshold peers).Ensures exec (fun _ => True) (fun _ C' =>
      ∃ pings, pings.length = peers.length ∧
        (C'.nodes n).mem = detectLoop threshold (peers.zip pings) (C.nodes n).mem) C := by
  induction peers generalizing C with
  | nil => exact ⟨[], rfl, rfl⟩
  | cons peer peers ih =>
    unfold detectPeers
    split
    · next hpeer =>
      refine (ih hself).mono ?_
      rintro _ C' ⟨pings, hlen, hmem⟩
      refine ⟨⟨0, false, false⟩ :: pings, by simp [hlen], ?_⟩
      rw [hmem, List.zip_cons_cons, detectLoop, if_pos (hpeer.trans hself.symm)]
    · next hpeer =>
      refine Prog.Ensures.bind ((ping_ensures peer.addr C).mono fun r C₁ hC₁ => ?_)
      subst hC₁
      -- what is done with the outcome of the ping
      have hround : ∀ failed : Bool, (Prog.on n (.detect peer.id failed threshold) >>= fun _ =>
          detectPeers n threshold peers).Ensures exec (fun _ => True) (fun _ C' =>
            ∃ pings, pings.length = (peer :: peers).length ∧ (C'.nodes n).mem =
              detectLoop threshold ((peer :: peers).zip pings) (C₁.nodes n).mem) C₁ := by
        intro failed c _
        have hstep : ((exec (.on n (.detect peer.id failed threshold)) c C₁).2.nodes n).mem =
            ((C₁.nodes n).mem.detect peer.id failed threshold ((C₁.nodes n).clock + c.tick)
              c.suspicious).2 := by
          rw [exec_on_self]
          rfl
        have hself' : ((exec (.on n (.detect peer.id failed threshold)) c C₁).2.nodes n).mem.self.id =
            n := by
          rw [hstep, detect_self, hself]
        refine (ih hself').mono ?_
        rintro _ C' ⟨pings, hlen, hmem⟩
        refine ⟨⟨(C₁.nodes n).clock + c.tick, failed, c.suspicious⟩ :: pings, by simp [hlen], ?_⟩
        rw [hmem, hstep, List.zip_cons_cons, detectLoop, if_neg (fun h => hpeer (h.trans hself))]
      cases r with
      | ok _ => exact hround false
      | error _ => exact hround true

/-- The program of a round, run alone, does to the node's membership what `detectRound` says. -/
theorem detectFailures_ensures (n : Bytes) (threshold : UInt8) {C : Cluster}
    (hself : (C.nodes n).mem.self.id = n) :
    (detectFailures n threshold).Ensures exec (fun _ => True) (fun _ C' =>
      ∃ pings, pings.length = (C.nodes n).mem.listMembers.length ∧
        (C'.nodes n).mem = (C.nodes n).mem.detectRound threshold pings) C := by
  intro c _
  have hmem : ((exec (.on n .members) c C).2.nodes n).mem = (C.nodes n).mem := by
    rw [exec_on_self]
    rfl
  refine (detectPeers_ensures n _ _ (by rw [hmem, hself])).mono fun _ C' ⟨pings, hlen, h⟩ =>
    ⟨pings, hlen, ?_⟩
  rw [h, hmem]
  rfl

/-! ### Every operation -/

/-- An operation on a membership: one of its critical sections, or a round of the failure detector. -/
inductive ViewOp where
  | step (now : ℕ) (s : Step)
  | detectFailures (threshold : UInt8) (pings : List Ping)

/-- The membership after an operation. -/
def ViewOp.apply (m : Membership) : ViewOp → Membership
  | step now s => (m.step (now, s)).2
  | detectFailures threshold pings => m.detectRound threshold pings

/-- How often an operation rebuilds the table. -/
def ViewOp.rebuilds (m : Membership) : ViewOp → ℕ
  | step _ (.handle (.joinRequest (some x))) => if m.Readmitted x then 1 else 0
  | step _ (.handle (.memberList ms)) => if ∃ x ∈ ms, m.Heeds x ∧ x.id ∉ m.members then 1 else 0
  | step _ (.joined ms) => if ∃ x ∈ ms, m.Heeds x ∧ x.id ∉ m.members then 1 else 0
  | step _ (.handle (.leave id)) => if id ≠ m.self.id ∧ id ∈ m.members then 1 else 0
  | step _ (.remove id) => if id ≠ m.self.id ∧ id ∈ m.members then 1 else 0
  | step _ (.checkLiveness id failed) => if failed = true ∧ id ≠ m.self.id ∧ id ∈ m.members then 1 else 0
  | step _ (.detect id failed threshold suspicious) => if m.Condemned threshold id failed suspicious then 1 else 0
  | step _ _ => 0
  | detectFailures threshold pings => (m.listMembers.zip pings).countP fun x =>
    m.Condemned (if threshold = 0 then 1 else threshold) x.1.id x.2.failed x.2.suspicious

/-- How often an operation moves the membership epoch: with every rebuild, and a merge also for an address. -/
def ViewOp.changes (m : Membership) : ViewOp → ℕ
  | step _ (.handle (.memberList ms)) => if ∃ x ∈ ms, m.News x then 1 else 0
  | step _ (.joined ms) => if ∃ x ∈ ms, m.News x then 1 else 0
  | op => op.rebuilds m

/-- A JOIN does not come from a known member at another address, and a member list with news does not end
where it began: the last mention of some member is news. -/
def ViewOp.Settled (m : Membership) : ViewOp → Prop
  | step _ (.handle (.joinRequest (some x))) => m.Readmitted x → x.id ∉ m.members
  | step _ (.handle (.memberList ms)) => (∃ x ∈ ms, m.News x) → ∃ x, m.News x ∧ m.lastMention ms x.id = some x
  | step _ (.joined ms) => (∃ x ∈ ms, m.News x) → ∃ x, m.News x ∧ m.lastMention ms x.id = some x
  | _ => True

/-- The epochs that move have room left. -/
def ViewOp.Fits (m : Membership) (op : ViewOp) : Prop :=
  (op.rebuilds m ≠ 0 → m.tableVer < m.tableVer + UInt64.ofNat (op.rebuilds m)) ∧
  (op.changes m ≠ 0 → m.version < m.version + UInt64.ofNat (op.changes m))

/-- What an operation does to the epochs, and whether every move is for a change. -/
structure ViewOp.Accounts (m m' : Membership) (op : ViewOp) : Prop where
  moves : m.Moves m' (op.rebuilds m) (op.changes m)
  settled : op.Settled m ↔
    (op.rebuilds m ≠ 0 → ¬ m.SameIds m') ∧ (op.changes m ≠ 0 → ¬ m.SameAddrs m')

section accounts
variable {m m' : Membership} {op : ViewOp}

/-- Removals are always accounted for. -/
theorem Shrinks.accounts {k : ℕ} (h : m.Shrinks m' k) (hr : op.rebuilds m = k) (hc : op.changes m = k)
    (hs : op.Settled m) : op.Accounts m m' where
  moves := by rw [hr, hc]; exact h.moves
  settled := by
    rw [hr, hc]
    exact iff_of_true hs ⟨h.not_sameIds, fun hk hsame => h.not_sameIds hk hsame.sameIds⟩

theorem accounts_merge (ms : List Member)
    (hr : op.rebuilds m = if ∃ x ∈ ms, m.Heeds x ∧ x.id ∉ m.members then 1 else 0)
    (hc : op.changes m = if ∃ x ∈ ms, m.News x then 1 else 0)
    (hs : op.Settled m ↔ ((∃ x ∈ ms, m.News x) → ∃ x, m.News x ∧ m.lastMention ms x.id = some x)) :
    op.Accounts m (m.merge ms).2 where
  moves := by rw [hr, hc]; exact moves_merge m ms
  settled := by
    have hgrown : (∃ x ∈ ms, m.Heeds x ∧ x.id ∉ m.members) → ¬ m.SameIds (m.merge ms).2 := by
      rintro ⟨x, hx, hheeds, hout⟩ hids
      exact hout ((hids x.id).mp ((mem_merge m ms x.id).mpr (Or.inr ⟨⟨x, hx, rfl⟩, hheeds.1⟩)))
    rw [hs, hr, hc, ← not_sameAddrs_merge]
    constructor
    · exact fun h => ⟨fun hk => hgrown (by simpa using hk), fun hk => h (by simpa using hk)⟩
    · exact fun h hnews => h.2 (by simpa using hnews)

theorem accounts_rejoin (now : ℕ) (x : Member) :
    (ViewOp.step now (.handle (.joinRequest (some x)))).Accounts m (m.rejoin x) where
  moves := moves_rejoin m x
  settled := by
    have hsettled : (ViewOp.step now (.handle (.joinRequest (some x)))).Settled m ↔
        (m.Readmitted x → x.id ∉ m.members) := Iff.rfl
    have hrebuilds : (ViewOp.step now (.handle (.joinRequest (some x)))).rebuilds m =
        if m.Readmitted x then 1 else 0 := rfl
    have hchanges : (ViewOp.step now (.handle (.joinRequest (some x)))).changes m =
        if m.Readmitted x then 1 else 0 := rfl
    rw [hsettled, hrebuilds, hchanges]
    by_cases h : m.Readmitted x
    · have haddr : (m.rejoin x).addrOf x.id = some x.addr := by
        rw [addrOf, (rejoin_of_readmitted h).1, AList.lookup_insert]
        rfl
      have hmoved : ¬ m.SameAddrs (m.rejoin x) := fun hsame => h.2 ((hsame x.id).symm.trans haddr)
      simp only [h, if_true, ne_eq, one_ne_zero, not_false_eq_true, forall_const, hmoved, and_true]
      constructor
      · exact fun hout hids => hout ((hids x.id).mp ((mem_rejoin m x x.id).mpr (Or.inr ⟨rfl, h.1.1⟩)))
      · refine fun hids hin => hids fun id => ?_
        rw [mem_rejoin]
        refine or_iff_left_of_imp ?_
        rintro ⟨rfl, -⟩
        exact hin
    · simp [h]

theorem accounts_apply (m : Membership) (op : ViewOp) : op.Accounts m (op.apply m) := by
  cases op with
  | step now s =>
    cases s with
    | handle msg =>
      cases msg with
      | joinRequest candidate =>
        cases candidate with
        | none => exact (Shrinks.of_same rfl rfl rfl).accounts rfl rfl trivial
        | some x => exact accounts_rejoin now x
      | memberList ms => exact accounts_merge ms rfl rfl Iff.rfl
      | heartbeat id => exact (Shrinks.of_same rfl rfl rfl).accounts rfl rfl trivial
      | leave id => exact (shrinks_removeLocked m id now).accounts rfl rfl trivial
    | joined ms => exact accounts_merge ms rfl rfl Iff.rfl
    | remove id => exact (shrinks_removeLocked m id now).accounts rfl rfl trivial
    | checkLiveness id failed =>
      cases failed with
      | true =>
        refine (shrinks_removeLocked m id now).accounts ?_ ?_ trivial
        · simp [ViewOp.rebuilds]
        · simp [ViewOp.changes, ViewOp.rebuilds]
      | false =>
        refine (Shrinks.of_same rfl rfl rfl).accounts ?_ ?_ trivial
        · simp [ViewOp.rebuilds]
        · simp [ViewOp.changes, ViewOp.rebuilds]
    | detect id failed threshold suspicious =>
      exact (shrinks_detect m id failed threshold now suspicious).accounts rfl rfl trivial
    | pruneTombstones ttl =>
      refine (Shrinks.of_same (pruneTombstones_members m ttl now) ?_ ?_).accounts rfl rfl trivial
      · unfold Membership.pruneTombstones
        split <;> rfl
      · unfold Membership.pruneTombstones
        split <;> rfl
  | detectFailures threshold pings =>
    exact (shrinks_detectLoop _ m.listMembers m.nodup_listMembers pings m).accounts rfl rfl trivial

end accounts

/-- **Epochs move with what they stand for**, in every state of a membership and for every operation, exactly
when the operation settles on one address an id and the epochs it moves have room left: then no epoch goes
back, `tableVer` moves exactly when the set of ids changes, and `version` exactly when the addresses by id
change. -/
theorem epochs_track (m : Membership) (op : ViewOp) :
    (m.Onward (op.apply m) ∧ m.Tracks (op.apply m)) ↔ (op.Settled m ∧ op.Fits m) := by
  have h := accounts_apply m op
  rw [h.moves.tracks_iff, h.settled]
  exact Iff.rfl

/-- Node `a` that knows `b` at address 2. -/
def knowsB : Membership := run [(1, .handle (.joinRequest (some ⟨[98], [2]⟩)))] (new ⟨[97], [1]⟩ 1)

/-- `b` joins again from address 3: the ids are the same, and the table epoch moves.  And a list that names
`b` at address 3 and then at 2 changes no address, and the membership epoch moves. -/
theorem epochs_drift :
    (knowsB.SameIds (knowsB.rejoin ⟨[98], [3]⟩) ∧
      knowsB.tableVer < (knowsB.rejoin ⟨[98], [3]⟩).tableVer) ∧
    (knowsB.SameAddrs (knowsB.merge [⟨[98], [3]⟩, ⟨[98], [2]⟩]).2 ∧
      knowsB.version < (knowsB.merge [⟨[98], [3]⟩, ⟨[98], [2]⟩]).2.version) := by
  have hb : [98] ∈ knowsB.members := by decide +kernel
  refine ⟨⟨fun id => ?_, by decide +kernel⟩, ⟨fun id => ?_, by decide +kernel⟩⟩
  · rw [mem_rejoin]
    constructor
    · rintro (hid | ⟨hid, -⟩)
      · exact hid
      · exact hid ▸ hb
    · exact Or.inl
  · have hmembers : (knowsB.merge [⟨[98], [3]⟩, ⟨[98], [2]⟩]).2.members = knowsB.members :=
      AList.ext (by decide +kernel)
    rw [addrOf, addrOf, hmembers]

end Membership

end Medusa
