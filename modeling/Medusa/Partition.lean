import Mathlib.Algebra.GroupWithZero.Nat
import Mathlib.Data.List.Sort
import Mathlib.Data.List.GetD
import Medusa.Lib.Ranking

/-! # Partitions and the partition table

`partition/hash.go` and `partition/table.go`.  Keys are folded to one of `Count = 271` partitions
by FNV-1a (`forKey`).  A `Table` assigns each partition an owner and backups, as indices into the
sorted member list with `-1` for an empty slot; `newTable` ranks the members of every partition
by rendezvous weight (`hrwWeight`), ties broken by the member index.

The abstract reading of the table is `replicaIds ids p`: the members in order of decreasing
weight, ties broken by smaller id, a `Ranking.ranked` list.  `newTable_ownerOf` and
`newTable_backupsOf` connect the two: the owner is the first of that list and the backups are the
next `backupCount` of it. -/

namespace Medusa

/-- Go's `[]byte` and `string`. -/
abbrev Bytes := List UInt8

instance : LawfulBEq Bytes := inferInstance

namespace Partition

/-- The fixed number of partitions. -/
def Count : ℕ := 271

end Partition

/-- Partition ids in the range `[0, Count)`. -/
abbrev PartitionId := Fin Partition.Count

instance : NeZero Partition.Count := ⟨by decide⟩

namespace Partition

/-- The FNV-1a fold of `partition.For`. -/
def fnv32 (key : Bytes) : UInt32 :=
  key.foldl (fun h b => (h ^^^ b.toUInt32) * 16777619) 2166136261

/-- `partition.For`: the partition of a key. -/
def forKey (key : Bytes) : PartitionId :=
  ⟨(fnv32 key).toNat % Count, Nat.mod_lt _ (by decide)⟩

/-- One byte of a 64-bit FNV-1a hash. -/
def fnvStep (h : UInt64) (b : UInt8) : UInt64 := (h ^^^ b.toUInt64) * 1099511628211

/-- The rendezvous weight of member `id` for partition `p`: FNV-1a over the id bytes and the four
little-endian bytes of the partition number, then the splitmix64 finalizer. -/
def hrwWeight (id : Bytes) (p : PartitionId) : UInt64 :=
  let h := id.foldl fnvStep 14695981039346656037
  let u : UInt32 := UInt32.ofNat p.val
  let h := [0, 1, 2, 3].foldl (fun h (i : UInt32) => fnvStep h (u >>> (8 * i)).toUInt8) h
  let h := (h ^^^ (h >>> 30)) * 0xbf58476d1ce4e5b9
  let h := (h ^^^ (h >>> 27)) * 0x94d049bb133111eb
  h ^^^ (h >>> 31)

end Partition

open Medusa.Partition

/-- `partition.Table`: indices into `members`, `-1` for none; `backups p` is row `p` of the source's
row-major slice.  The indices are below the number of members (`mem_scratch`), so they are the source's
`int32`s for at most `2^31` members (`TableLayout` has the table as it is stored). -/
structure Table where
  members : List Bytes
  owners : PartitionId → ℤ
  backups : PartitionId → List ℤ
  backupCount : ℕ

/-- The scratch element of `NewTable`; an `idx` below `2^31` is the source's `int32`. -/
structure Ranked where
  weight : UInt64
  idx : ℕ
deriving DecidableEq, Repr

/-- The comparison handed to `sort.Slice`: descending weight, the member index breaks ties. -/
def Ranked.less (a b : Ranked) : Bool :=
  if a.weight ≠ b.weight then decide (a.weight > b.weight) else decide (a.idx < b.idx)

/-- `a` may stand before `b` in the sorted scratch slice. -/
def Ranked.le (a b : Ranked) : Prop := Ranked.less b a = false

instance : DecidableRel Ranked.le := fun a b => inferInstanceAs (Decidable (Ranked.less b a = false))

/-- The scratch slice of partition `p`, sorted. -/
def scratch (members : List Bytes) (p : PartitionId) : List Ranked :=
  (members.zipIdx.map (fun m => ⟨hrwWeight m.1 p, m.2⟩)).insertionSort Ranked.le

/-- The index in slot `j` of the sorted scratch slice, `-1` when there are not enough members. -/
def slot (members : List Bytes) (p : PartitionId) (j : ℕ) : ℤ :=
  match (scratch members p)[j]? with
  | some a => a.idx
  | none => -1

/-- `partition.NewTable`. -/
def newTable (memberIDs : List Bytes) (backupCount : ℤ) : Table :=
  let members := memberIDs.insertionSort (· ≤ ·)
  let count := if backupCount < 0 then 0 else backupCount.toNat
  { members := members
    owners := fun p => slot members p 0
    backups := fun p => (List.range count).map (fun j => slot members p (j + 1))
    backupCount := count }

namespace Table

/-- The member id that owns partition `p`, or `""` if the table has no members. -/
def ownerOf (t : Table) (p : PartitionId) : Bytes :=
  if t.owners p < 0 then [] else t.members.getD (t.owners p).toNat []

/-- How many actual backup members partition `p` has. -/
def numBackups (t : Table) (p : PartitionId) : ℕ := (t.backups p).countP (fun m => decide (0 ≤ m))

/-- The `i`-th backup member id for partition `p`. -/
def backupAt (t : Table) (p : PartitionId) (i : ℤ) : Option Bytes :=
  if i < 0 ∨ t.backupCount ≤ i then none
  else match (t.backups p)[i.toNat]? with
    | none => none
    | some m => if m < 0 then none else some (t.members.getD m.toNat [])

/-- The ids met by the loop `for i, n := 0, NumBackups(p); i < n; i++ { BackupAt(p, i) }`, in
order, with the empty slots skipped as every caller does. -/
def backupsOf (t : Table) (p : PartitionId) : List Bytes :=
  (List.range (t.numBackups p)).filterMap (fun i : ℕ => t.backupAt p i)

end Table

/-! ### The order of the replicas -/

/-- Member `a` ranks before member `b` in partition `p`: larger weight, then smaller id. -/
def outranks (p : PartitionId) (a b : Bytes) : Prop :=
  hrwWeight b p < hrwWeight a p ∨ (hrwWeight a p = hrwWeight b p ∧ a ≤ b)

instance (p : PartitionId) : DecidableRel (outranks p) :=
  fun _ _ => inferInstanceAs (Decidable (_ ∨ (_ ∧ _)))

instance (p : PartitionId) : Std.Total (outranks p) where
  total a b := by
    rcases lt_trichotomy (hrwWeight a p).toNat (hrwWeight b p).toNat with h | h | h
    · exact Or.inr (Or.inl (UInt64.lt_iff_toNat_lt.mpr h))
    · have h' := UInt64.toNat_inj.mp h
      rcases List.le_total a b with hab | hab
      · exact Or.inl (Or.inr ⟨h', hab⟩)
      · exact Or.inr (Or.inr ⟨h'.symm, hab⟩)
    · exact Or.inl (Or.inl (UInt64.lt_iff_toNat_lt.mpr h))

instance (p : PartitionId) : IsTrans Bytes (outranks p) where
  trans a b c hab hbc := by
    simp only [outranks, UInt64.lt_iff_toNat_lt, ← UInt64.toNat_inj] at *
    rcases hab with hab | ⟨hab, lab⟩ <;> rcases hbc with hbc | ⟨hbc, lbc⟩
    · exact Or.inl (by omega)
    · exact Or.inl (by omega)
    · exact Or.inl (by omega)
    · exact Or.inr ⟨by omega, List.le_trans lab lbc⟩

instance (p : PartitionId) : Std.Antisymm (outranks p) where
  antisymm a b hab hba := by
    simp only [outranks, UInt64.lt_iff_toNat_lt, ← UInt64.toNat_inj] at *
    rcases hab with hab | ⟨hab, lab⟩ <;> rcases hba with hba | ⟨hba, lba⟩
    · omega
    · omega
    · omega
    · exact List.le_antisymm lab lba

/-- The members of `ids` in replica order for partition `p`. -/
def replicaIds (ids : List Bytes) (p : PartitionId) : List Bytes := Ranking.ranked (outranks p) ids

/-- The holders of partition `p` when `b` backups are configured: the owner, then the backups. -/
def holders (ids : List Bytes) (b : ℕ) (p : PartitionId) : List Bytes :=
  Ranking.top (outranks p) (b + 1) ids

theorem Ranked.le_iff {a b : Ranked} :
    a.le b ↔ b.weight < a.weight ∨ (a.weight = b.weight ∧ a.idx ≤ b.idx) := by
  simp only [Ranked.le, Ranked.less, UInt64.lt_iff_toNat_lt, ← UInt64.toNat_inj, gt_iff_lt, ne_eq]
  split <;> simp <;> omega

instance : Std.Total Ranked.le where
  total a b := by
    simp only [Ranked.le_iff, UInt64.lt_iff_toNat_lt, ← UInt64.toNat_inj]
    omega

instance : IsTrans Ranked Ranked.le where
  trans a b c := by
    simp only [Ranked.le_iff, UInt64.lt_iff_toNat_lt, ← UInt64.toNat_inj]
    omega

instance : Std.Antisymm Ranked.le where
  antisymm a b hab hba := by
    simp only [Ranked.le_iff, UInt64.lt_iff_toNat_lt, ← UInt64.toNat_inj] at hab hba
    have hweight : a.weight = b.weight := UInt64.toNat_inj.mp (by omega)
    have hidx : a.idx = b.idx := by omega
    cases a
    cases b
    simp_all

theorem getD_le_getD {l : List Bytes} (h : l.Pairwise (· ≤ ·)) {i j : ℕ} (hij : i ≤ j)
    (hj : j < l.length) : l.getD i [] ≤ l.getD j [] := by
  rcases Nat.lt_or_eq_of_le hij with hlt | rfl
  · rw [List.getD_eq_getElem _ _ (hlt.trans hj), List.getD_eq_getElem _ _ hj]
    exact List.pairwise_iff_getElem.mp h i j _ _ hlt
  · exact List.le_refl _

/-- Elements of the scratch slice pair a member index with that member's weight. -/
theorem mem_scratch {members : List Bytes} {p : PartitionId} {a : Ranked}
    (h : a ∈ scratch members p) :
    a.idx < members.length ∧ a.weight = hrwWeight (members.getD a.idx []) p := by
  rw [scratch, List.mem_insertionSort, List.mem_map] at h
  obtain ⟨m, hm, rfl⟩ := h
  obtain ⟨h1, h2, h3⟩ := List.mem_zipIdx hm
  simp only [Nat.zero_add, Nat.sub_zero] at h2 h3
  exact ⟨h2, by rw [List.getD_eq_getElem _ _ h2, ← h3]⟩

/-- Reading the sorted scratch slice back as ids gives the ranking of the members. -/
theorem scratch_ids {members : List Bytes} (hs : members.Pairwise (· ≤ ·)) (p : PartitionId) :
    (scratch members p).map (fun a => members.getD a.idx []) = replicaIds members p := by
  refine List.Perm.eq_of_pairwise (fun a b _ _ (h₁ : outranks p a b) h₂ => ?_) ?_ ?_ ?_
  · exact Std.Antisymm.antisymm a b h₁ h₂
  · rw [List.pairwise_map]
    refine (List.pairwise_insertionSort Ranked.le _).imp_of_mem ?_
    intro a b ha hb hab
    obtain ⟨hai, haw⟩ := mem_scratch ha
    obtain ⟨hbi, hbw⟩ := mem_scratch hb
    rcases Ranked.le_iff.mp hab with h | ⟨h, hi⟩
    · exact Or.inl (by rwa [← haw, ← hbw])
    · exact Or.inr ⟨by rw [← haw, ← hbw, h], getD_le_getD hs hi hbi⟩
  · exact Ranking.ranked_pairwise (outranks p) members
  · refine List.Perm.trans ?_ (Ranking.ranked_perm (outranks p) members).symm
    refine ((List.perm_insertionSort Ranked.le _).map _).trans ?_
    rw [List.map_map]
    refine List.Perm.of_eq ?_
    apply List.ext_getElem
    · simp
    · intro i h1 h2
      simp [List.getElem?_eq_getElem h2]

theorem members_perm (ids : List Bytes) : (ids.insertionSort (· ≤ ·)).Perm ids :=
  List.perm_insertionSort _ ids

theorem scratch_newTable (ids : List Bytes) (p : PartitionId) :
    (scratch (ids.insertionSort (· ≤ ·)) p).map
        (fun a => (ids.insertionSort (· ≤ ·)).getD a.idx []) = replicaIds ids p := by
  rw [scratch_ids (List.pairwise_insertionSort _ _) p]
  exact Ranking.ranked_eq_of_perm _ (members_perm ids)

/-- The table is a function of the set of members. -/
theorem newTable_perm {ids ids' : List Bytes} (h : ids.Perm ids') (b : ℤ) :
    newTable ids b = newTable ids' b := by
  have e : ids.insertionSort (· ≤ ·) = ids'.insertionSort (· ≤ ·) :=
    List.Perm.eq_of_pairwise (fun _ _ _ _ h₁ h₂ => List.le_antisymm h₁ h₂)
      (List.pairwise_insertionSort _ _) (List.pairwise_insertionSort _ _)
      (((members_perm ids).trans h).trans (members_perm ids').symm)
  simp only [newTable, e]

/-- A slot of the table read back as an id. -/
theorem slot_newTable (ids : List Bytes) (p : PartitionId) (j : ℕ) :
    (if slot (ids.insertionSort (· ≤ ·)) p j < 0 then none
      else some ((ids.insertionSort (· ≤ ·)).getD (slot (ids.insertionSort (· ≤ ·)) p j).toNat [])) =
    (replicaIds ids p)[j]? := by
  rw [← scratch_newTable, List.getElem?_map, slot]
  cases (scratch (ids.insertionSort (· ≤ ·)) p)[j]? with
  | none => simp
  | some a =>
    have h : ¬ ((a.idx : ℤ) < 0) := by omega
    simp [h]

theorem slot_nonneg_iff (ids : List Bytes) (p : PartitionId) (j : ℕ) :
    0 ≤ slot (ids.insertionSort (· ≤ ·)) p j ↔ j < ids.length := by
  have h := congrArg Option.isSome (slot_newTable ids p j)
  have hl : (replicaIds ids p).length = ids.length := Ranking.length_ranked _ _
  by_cases hj : j < ids.length
  · rw [List.getElem?_eq_getElem (by omega)] at h
    by_cases hs : slot (ids.insertionSort (· ≤ ·)) p j < 0
    · simp [hs] at h
    · exact ⟨fun _ => hj, fun _ => by omega⟩
  · rw [List.getElem?_eq_none (by omega)] at h
    by_cases hs : slot (ids.insertionSort (· ≤ ·)) p j < 0
    · exact ⟨fun _ => by omega, fun _ => by omega⟩
    · simp [hs] at h

@[simp] theorem newTable_backupCount (ids : List Bytes) (b : ℕ) :
    (newTable ids b).backupCount = b := by simp [newTable]

theorem newTable_backups (ids : List Bytes) (b : ℕ) (p : PartitionId) :
    (newTable ids b).backups p =
      (List.range b).map (fun j => slot (ids.insertionSort (· ≤ ·)) p (j + 1)) := by
  have hb : ¬ ((b : ℤ) < 0) := by omega
  simp only [newTable, if_neg hb, Int.toNat_natCast]

/-- **The owner is the first in replica order**, `""` when there are no members. -/
theorem newTable_ownerOf (ids : List Bytes) (b : ℤ) (p : PartitionId) :
    (newTable ids b).ownerOf p = (replicaIds ids p).headD [] := by
  have h := slot_newTable ids p 0
  have e : (newTable ids b).ownerOf p = ((replicaIds ids p)[0]?).getD [] := by
    rw [← h]
    simp only [Table.ownerOf, newTable]
    by_cases hs : slot (ids.insertionSort (· ≤ ·)) p 0 < 0
    · simp [hs]
    · simp [hs]
  rw [e]
  cases replicaIds ids p <;> rfl

theorem newTable_backupAt (ids : List Bytes) (b i : ℕ) (p : PartitionId) :
    (newTable ids b).backupAt p i = if i < b then (replicaIds ids p)[i + 1]? else none := by
  have h := slot_newTable ids p (i + 1)
  by_cases hi : i < b
  · have hb : ¬ ((i : ℤ) < 0 ∨ (b : ℤ) ≤ i) := by omega
    simp only [Table.backupAt, newTable_backupCount, if_neg hb, if_pos hi, Int.toNat_natCast]
    rw [← h, newTable_backups, List.getElem?_map, List.getElem?_range hi]
    rfl
  · have hb : (b : ℤ) ≤ i := by omega
    simp [Table.backupAt, hi, hb]

theorem newTable_numBackups (ids : List Bytes) (b : ℕ) (p : PartitionId) :
    (newTable ids b).numBackups p = min b (ids.length - 1) := by
  have e : (newTable ids b).numBackups p =
      (List.range b).countP (fun j => decide (j + 1 < ids.length)) := by
    rw [Table.numBackups, newTable_backups, List.countP_map]
    apply List.countP_congr
    intro j _
    simp only [Function.comp_apply, decide_eq_true_eq]
    exact slot_nonneg_iff ids p (j + 1)
  rw [e]
  clear e
  induction b with
  | zero => simp
  | succ b ih =>
    rw [List.range_succ, List.countP_append, ih]
    by_cases h : b + 1 < ids.length
    · simp [h]; omega
    · simp [h]; omega

/-- Only the sign of a negative backup count matters. -/
theorem newTable_toNat (ids : List Bytes) (b : ℤ) : newTable ids b = newTable ids (b.toNat : ℤ) := by
  by_cases hb : b < 0
  · simp [newTable, hb, Int.toNat_of_nonpos hb.le]
  · rw [Int.toNat_of_nonneg (not_lt.mp hb)]

/-- The table of a node alone. -/
theorem newTable_single (id : Bytes) (b : ℤ) (p : PartitionId) :
    (newTable [id] b).ownerOf p = id ∧ (newTable [id] b).backupsOf p = [] := by
  constructor
  · rw [newTable_ownerOf]
    rfl
  · rw [newTable_toNat, Table.backupsOf, newTable_numBackups]
    simp

/-- **The backups are the next `b` in replica order.** -/
theorem newTable_backupsOf (ids : List Bytes) (b : ℕ) (p : PartitionId) :
    (newTable ids b).backupsOf p = (holders ids b p).tail := by
  have hl : (replicaIds ids p).length = ids.length := Ranking.length_ranked _ _
  have e : (newTable ids b).backupsOf p =
      (List.range (min b (ids.length - 1))).filterMap (fun i => (replicaIds ids p)[i + 1]?) := by
    rw [Table.backupsOf, newTable_numBackups]
    apply List.filterMap_congr
    intro i hi
    rw [List.mem_range] at hi
    rw [newTable_backupAt, if_pos (by omega)]
  rw [e]
  apply List.ext_getElem?
  intro i
  have e2 : ∀ n, n + 1 ≤ (replicaIds ids p).length ∨ n = 0 →
      (List.range n).filterMap (fun i => (replicaIds ids p)[i + 1]?) =
        ((replicaIds ids p).drop 1).take n := by
    intro n hn
    induction n with
    | zero => simp
    | succ n ih =>
      have hlt : n + 1 < (replicaIds ids p).length := by omega
      rw [List.range_succ, List.filterMap_append, ih (Or.inl (by omega)), List.take_add_one]
      congr 1
      simp only [List.filterMap_cons, List.getElem?_drop, Nat.add_comm 1 n]
      rw [List.getElem?_eq_getElem hlt]
      rfl
  rw [e2 _ (by omega)]
  have e3 : (holders ids b p).tail = ((replicaIds ids p).drop 1).take b := by
    simp only [holders, Ranking.top, ← List.drop_one, List.drop_take, replicaIds]
    rfl
  rw [e3, List.getElem?_take, List.getElem?_take]
  by_cases h1 : i < min b (ids.length - 1)
  · rw [if_pos h1, if_pos (by omega)]
  · rw [if_neg h1]
    split
    · rw [List.getElem?_eq_none]
      simp only [List.length_drop]
      omega
    · rfl

/-- The holders are the owner and the backups of the table. -/
theorem holders_eq_cons {ids : List Bytes} (h : ids ≠ []) (b : ℕ) (p : PartitionId) :
    holders ids b p = (newTable ids b).ownerOf p :: (newTable ids b).backupsOf p := by
  have hne : replicaIds ids p ≠ [] := by
    have hl : (replicaIds ids p).length = ids.length := Ranking.length_ranked _ _
    exact fun h0 => h (List.length_eq_zero_iff.mp (by rw [← hl, h0]; rfl))
  obtain ⟨a, l, hal⟩ := List.exists_cons_of_ne_nil hne
  have e : holders ids b p = a :: l.take b := by
    rw [holders, Ranking.top, ← replicaIds, hal, List.take_succ_cons]
  rw [newTable_backupsOf, newTable_ownerOf, hal, e]
  rfl

theorem ownerOf_holder {ids : List Bytes} (h : ids ≠ []) (b : ℕ) (p : PartitionId) :
    (newTable ids b).ownerOf p ∈ holders ids b p := by
  rw [holders_eq_cons h]
  exact List.mem_cons_self

theorem mem_of_mem_holders {ids : List Bytes} {b : ℕ} {p : PartitionId} {x : Bytes}
    (h : x ∈ holders ids b p) : x ∈ ids := Ranking.mem_of_mem_top _ h

/-- With a backup and a second member, every partition has a holder other than a given node. -/
theorem exists_holder_ne {ids : List Bytes} (hids : ids.Nodup) {b : ℕ} (hb : 1 ≤ b)
    (htwo : 2 ≤ ids.length) (p : PartitionId) (n : Bytes) : ∃ x ∈ holders ids b p, x ≠ n := by
  have hlen : (holders ids b p).length = min (b + 1) ids.length := Ranking.length_top _ _ _
  have hnd : (holders ids b p).Nodup := Ranking.top_nodup _ hids
  match hl : holders ids b p with
  | [] | [_] => rw [hl] at hlen; simp at hlen; omega
  | x :: y :: rest =>
    by_cases hx : x = n
    · refine ⟨y, by simp, ?_⟩
      rintro rfl
      simp [hl, hx] at hnd
    · exact ⟨x, by simp, hx⟩

/-- The owner ranks before every member. -/
theorem ownerOf_outranks {ids : List Bytes} (b : ℤ) (p : PartitionId) {x : Bytes} (hx : x ∈ ids) :
    outranks p ((newTable ids b).ownerOf p) x := by
  have hmem : x ∈ replicaIds ids p := (Ranking.mem_ranked _).mpr hx
  rw [newTable_ownerOf]
  have hp : (replicaIds ids p).Pairwise (outranks p) := Ranking.ranked_pairwise _ ids
  cases hr : replicaIds ids p with
  | nil => rw [hr] at hmem; cases hmem
  | cons a l =>
    rw [hr] at hmem hp
    rcases List.mem_cons.mp hmem with rfl | hm
    · exact (Std.Total.total x x).elim id id
    · exact (List.pairwise_cons.mp hp).1 x hm

/-- A holder stays one in the view of any part of the members that it belongs to. -/
theorem mem_holders_of_subset {ids keys : List Bytes} (hids : ids.Nodup) (hkeys : keys.Nodup)
    (hsub : keys ⊆ ids) {b : ℕ} {p : PartitionId} {x : Bytes} (hx : x ∈ keys)
    (hh : x ∈ holders ids b p) : x ∈ holders keys b p :=
  Ranking.mem_top_of_subset _ hids hkeys hsub hx hh

/-- Whoever owns the partition in the view of a part of the members that has a holder in it, is a
holder. -/
theorem ownerOf_mem_holders {ids keys : List Bytes} (hsub : keys ⊆ ids) {b : ℕ} {p : PartitionId}
    {x : Bytes} (hx : x ∈ keys) (hh : x ∈ holders ids b p) :
    (newTable keys b).ownerOf p ∈ holders ids b p := by
  have hne : keys ≠ [] := List.ne_nil_of_mem hx
  refine Ranking.mem_top_of_le _ (hsub ?_) (ownerOf_outranks b p hx) hh
  refine mem_of_mem_holders (b := b) (p := p) ?_
  rw [holders_eq_cons hne]
  exact List.mem_cons_self

end Medusa
