import Medusa.Placement

/-! # The partition table as it is stored

`partition.Table` keeps its indices in `int32`s, the owners in an array and the backups in one row-major
slice, which `NewTable` fills partition after partition from what `sort.Slice` makes of the scratch
slice (`newTable32`).  The indices of `newTable` are unbounded, its backups are a row a partition, and
its sorts are fixed.

* `newTable32_answers`: **the two answer alike for at most 2^31 members**, whatever sorted permutations
  the sorts leave. -/

namespace Medusa

open Medusa.Partition

/-- The scratch element of `NewTable`, with the width of its index. -/
structure Ranked32 where
  weight : UInt64
  idx : Int32

/-- The comparison handed to `sort.Slice`. -/
def Ranked32.less (a b : Ranked32) : Bool :=
  if a.weight ≠ b.weight then decide (a.weight > b.weight) else decide (a.idx < b.idx)

/-- The scratch slice of partition `p` before it is sorted. -/
def fillScratch (members : List Bytes) (p : PartitionId) : List Ranked32 :=
  members.zipIdx.map fun m => ⟨hrwWeight m.1 p, Int32.ofNat m.2⟩

/-- `scratch[j].idx` of the sorted slice, `-1` when there are not enough members. -/
def slot32 (sliced : List Ranked32) (j : ℕ) : Int32 :=
  match sliced[j]? with
  | some a => a.idx
  | none => -1

/-- The slots of a table: an owner a partition, and `Count` rows of `count` backups; `-1` for none. -/
structure Slots (count : ℕ) where
  owners : Vector Int32 Count
  backups : Vector Int32 (Count * count)

namespace Slots
variable {count : ℕ}

/-- The loop body of `NewTable`: the owner of partition `p`, then its row. -/
def fill (s : Slots count) (p : PartitionId) (sliced : List Ranked32) : Slots count where
  owners := s.owners.set p (slot32 sliced 0)
  backups := (List.range count).foldl
    (fun bs j => bs.setIfInBounds (p * count + j) (slot32 sliced (j + 1))) s.backups

/-- The loop of `NewTable`. -/
@[irreducible] def filled (sliced : PartitionId → List Ranked32) : Slots count :=
  (List.finRange Count).foldl (fun s p => s.fill p (sliced p)) ⟨Vector.replicate _ 0, Vector.replicate _ 0⟩

/-- `backups[p*backupCount+j]`. -/
def backup (s : Slots count) (p : PartitionId) (j : ℕ) : Int32 := s.backups.getD (p * count + j) 0

end Slots

/-- `partition.Table`. -/
structure Table32 where
  members : List Bytes
  backupCount : ℕ
  slots : Slots backupCount

/-- `partition.NewTable`, given the sorted members and what `sort.Slice` leaves for every partition. -/
def newTable32 (members : List Bytes) (backupCount : ℤ) (sliced : PartitionId → List Ranked32) : Table32 where
  members := members
  backupCount := if backupCount < 0 then 0 else backupCount.toNat
  slots := Slots.filled sliced

namespace Table32

@[inherit_doc Table.ownerOf] def ownerOf (t : Table32) (p : PartitionId) : Bytes :=
  if t.slots.owners[p] < 0 then [] else t.members.getD t.slots.owners[p].toInt.toNat []

@[inherit_doc Table.numBackups] def numBackups (t : Table32) (p : PartitionId) : ℕ :=
  (List.range t.backupCount).countP fun j => decide (0 ≤ t.slots.backup p j)

@[inherit_doc Table.backupAt] def backupAt (t : Table32) (p : PartitionId) (i : ℤ) : Option Bytes :=
  if i < 0 ∨ t.backupCount ≤ i then none
  else if t.slots.backup p i.toNat < 0 then none
  else some (t.members.getD (t.slots.backup p i.toNat).toInt.toNat [])

end Table32

/-! ### The sorted slices -/

/-- The element with its index read as a number. -/
def Ranked32.widen (a : Ranked32) : Ranked := ⟨a.weight, a.idx.toInt.toNat⟩

theorem Ranked32.less_widen {a b : Ranked32} (ha : 0 ≤ a.idx.toInt) (hb : 0 ≤ b.idx.toInt) :
    a.widen.less b.widen = a.less b := by
  have hidx : a.idx.toInt.toNat < b.idx.toInt.toNat ↔ a.idx < b.idx := by
    rw [Int32.lt_iff_toInt_lt]
    omega
  rw [Ranked.less, Ranked32.less, ← decide_eq_decide.mpr hidx]
  rfl

section slices
variable {members : List Bytes} (hn : members.length ≤ 2 ^ 31) {p : PartitionId} {sliced : List Ranked32}
  (hslice : sliced.Perm (fillScratch members p))
include hn

theorem toInt_ofNat_of_mem_zipIdx {m : Bytes × ℕ} (hm : m ∈ members.zipIdx) :
    (Int32.ofNat m.2).toInt = m.2 := by
  have hlt := (List.mem_zipIdx hm).2.1
  exact Int32.toInt_ofNat_of_lt (by omega)

theorem fillScratch_widen : (fillScratch members p).map Ranked32.widen =
    members.zipIdx.map (fun m => ⟨hrwWeight m.1 p, m.2⟩) := by
  rw [fillScratch, List.map_map]
  refine List.map_congr_left fun m hm => ?_
  simp [Ranked32.widen, toInt_ofNat_of_mem_zipIdx hn hm]

include hslice

theorem idx_nonneg {a : Ranked32} (ha : a ∈ sliced) : 0 ≤ a.idx.toInt := by
  obtain ⟨m, hm, rfl⟩ := List.mem_map.mp (hslice.mem_iff.mp ha)
  rw [toInt_ofNat_of_mem_zipIdx hn hm]
  omega

/-- The order is antisymmetric, so `sort.Slice` has no choice. -/
theorem widen_eq_scratch (hless : sliced.Pairwise fun a b => b.less a = false) :
    sliced.map Ranked32.widen = scratch members p := by
  refine List.Perm.eq_of_pairwise (fun a b _ _ (hab : a.le b) hba => Std.Antisymm.antisymm a b hab hba)
    (List.pairwise_map.mpr ?_) (List.pairwise_insertionSort Ranked.le _) ?_
  · refine hless.imp_of_mem fun {a b} ha hb hab => ?_
    rwa [Ranked.le, Ranked32.less_widen (idx_nonneg hn hslice hb) (idx_nonneg hn hslice ha)]
  · have hwide := hslice.map Ranked32.widen
    rw [fillScratch_widen hn] at hwide
    exact hwide.trans (List.perm_insertionSort Ranked.le _).symm

theorem toInt_slot32 (hless : sliced.Pairwise fun a b => b.less a = false) (j : ℕ) :
    (slot32 sliced j).toInt = slot members p j := by
  rw [slot, ← widen_eq_scratch hn hslice hless, List.getElem?_map, slot32]
  cases hj : sliced[j]? with
  | none => rfl
  | some a => exact (Int.toNat_of_nonneg (idx_nonneg hn hslice (List.mem_of_getElem? hj))).symm

end slices

/-! ### The loops -/

theorem getElem_foldl_set {α : Type} {N : ℕ} (f : ℕ → α) (base k : ℕ) (v : Vector α N) {i : ℕ}
    (hi : i < N) : ((List.range k).foldl (fun v j => v.setIfInBounds (base + j) (f j)) v)[i] =
      if base ≤ i ∧ i < base + k then f (i - base) else v[i] := by
  induction k with
  | zero => simp
  | succ k ih =>
    rw [List.range_succ, List.foldl_append, List.foldl_cons, List.foldl_nil, Vector.getElem_setIfInBounds, ih]
    grind

namespace Slots
variable {count : ℕ}

theorem backup_fill (s : Slots count) (p q : PartitionId) (sliced : List Ranked32) {j : ℕ} (hj : j < count) :
    (s.fill p sliced).backup q j = if q = p then slot32 sliced (j + 1) else s.backup q j := by
  have hi : q * count + j < Count * count := by
    have hrow := Nat.mul_le_mul_right count q.isLt
    rw [Nat.succ_mul] at hrow
    omega
  have hget : ∀ v : Vector Int32 (Count * count), v.getD (q * count + j) 0 = v[(q * count + j : ℕ)] :=
    fun v => by simp [Vector.getD, hi]
  rw [backup, backup, fill, hget, hget, getElem_foldl_set]
  -- rows of different partitions do not meet
  rcases lt_trichotomy (q : ℕ) p with hlt | heq | hlt
  · have hbefore := Nat.mul_le_mul_right count (Nat.succ_le_of_lt hlt)
    rw [Nat.succ_mul] at hbefore
    rw [if_neg (by omega), if_neg (Fin.ne_of_lt hlt)]
  · obtain rfl := Fin.ext heq
    rw [if_pos (by omega), if_pos rfl, Nat.add_sub_cancel_left]
  · have hafter := Nat.mul_le_mul_right count (Nat.succ_le_of_lt hlt)
    rw [Nat.succ_mul] at hafter
    rw [if_neg (by omega), if_neg (Fin.ne_of_gt hlt)]

/-- The slots of partition `p` are what was left in `sliced`. -/
structure Has (s : Slots count) (p : PartitionId) (sliced : List Ranked32) : Prop where
  owner : s.owners[p] = slot32 sliced 0
  backup : ∀ j < count, s.backup p j = slot32 sliced (j + 1)

theorem fill_has (s : Slots count) (p : PartitionId) (sliced : List Ranked32) : (s.fill p sliced).Has p sliced where
  owner := by simp [fill]
  backup j hj := by rw [backup_fill s p p sliced hj, if_pos rfl]

/-- Filling another partition, or the same one again, keeps what was filled. -/
theorem Has.fill {s : Slots count} {q : PartitionId} {sliced : PartitionId → List Ranked32}
    (h : s.Has q (sliced q)) (p : PartitionId) : (s.fill p (sliced p)).Has q (sliced q) := by
  by_cases hpq : q = p
  · subst hpq
    exact fill_has s q (sliced q)
  · constructor
    · rw [← h.owner]
      simp [Slots.fill, Ne.symm (Fin.val_ne_of_ne hpq)]
    · intro j hj
      rw [backup_fill s p q _ hj, if_neg hpq]
      exact h.backup j hj

theorem foldl_fill_has (sliced : PartitionId → List Ranked32) {q : PartitionId} (ps : List PartitionId)
    (s : Slots count) (h : q ∈ ps ∨ s.Has q (sliced q)) :
    (ps.foldl (fun s p => s.fill p (sliced p)) s).Has q (sliced q) := by
  induction ps generalizing s with
  | nil => exact h.resolve_left List.not_mem_nil
  | cons p ps ih =>
    apply ih
    rcases h with hq | hq
    · rcases List.mem_cons.mp hq with rfl | hq
      · exact Or.inr (fill_has s q (sliced q))
      · exact Or.inl hq
    · exact Or.inr (hq.fill p)

theorem filled_has (sliced : PartitionId → List Ranked32) (p : PartitionId) :
    (filled sliced : Slots count).Has p (sliced p) := by
  unfold filled
  exact foldl_fill_has sliced _ _ (Or.inl (List.mem_finRange p))

end Slots

/-- **The stored table answers as the table does**, for at most 2^31 members: the owner, the number of
backups and each of them, in every partition and for all sorted permutations the sorts may leave. -/
theorem newTable32_answers {ids members : List Bytes} (hn : ids.length ≤ 2 ^ 31) (hperm : members.Perm ids)
    (hsorted : members.Pairwise (· ≤ ·)) {sliced : PartitionId → List Ranked32}
    (hslice : ∀ p, (sliced p).Perm (fillScratch members p))
    (hless : ∀ p, (sliced p).Pairwise fun a b => b.less a = false) (b : ℤ) (p : PartitionId) :
    let t := newTable32 members b sliced
    t.members = (newTable ids b).members ∧ t.backupCount = (newTable ids b).backupCount ∧
    t.ownerOf p = (newTable ids b).ownerOf p ∧ t.numBackups p = (newTable ids b).numBackups p ∧
    ∀ i, t.backupAt p i = (newTable ids b).backupAt p i := by
  intro t
  obtain rfl : members = (newTable ids b).members :=
    List.Perm.eq_of_pairwise (fun _ _ _ _ h₁ h₂ => List.le_antisymm h₁ h₂) hsorted
      (List.pairwise_insertionSort _ _) (hperm.trans (members_perm ids).symm)
  have hslot : ∀ j, (slot32 (sliced p) j).toInt = slot (newTable ids b).members p j :=
    toInt_slot32 (by rwa [hperm.length_eq]) (hslice p) (hless p)
  have hhas : t.slots.Has p (sliced p) := Slots.filled_has sliced p
  have howner : (newTable ids b).owners p = t.slots.owners[p].toInt := by
    rw [hhas.owner, hslot]
    rfl
  have hrow : (newTable ids b).backups p =
      (List.range t.backupCount).map fun j => (t.slots.backup p j).toInt := by
    refine List.map_congr_left fun j hj => ?_
    rw [hhas.backup j (List.mem_range.mp hj), hslot]
    rfl
  refine ⟨rfl, rfl, ?_, ?_, fun i => ?_⟩
  · rw [Table32.ownerOf, Table.ownerOf, howner]
    simp only [Int32.lt_iff_toInt_lt, Int32.toInt_zero]
    rfl
  · rw [Table32.numBackups, Table.numBackups, hrow, List.countP_map]
    refine List.countP_congr fun j _ => ?_
    simp [Int32.le_iff_toInt_le]
  · have hcount : (newTable ids b).backupCount = t.backupCount := rfl
    rw [Table32.backupAt, Table.backupAt, hrow, hcount]
    by_cases hi : i < 0 ∨ t.backupCount ≤ i
    · rw [if_pos hi, if_pos hi]
    · rw [if_neg hi, if_neg hi, List.getElem?_map, List.getElem?_range (by omega)]
      simp only [Option.map_some, Int32.lt_iff_toInt_lt, Int32.toInt_zero]
      rfl

/-- A lone member owns every partition and has no backup. -/
theorem newTable32_answers_one :
    let t := newTable32 [[97]] 1 fun p => [⟨hrwWeight [97] p, 0⟩]
    t.ownerOf 1 = [97] ∧ t.numBackups 1 = 0 ∧ t.backupAt 1 0 = none := by
  have h := newTable32_answers (by decide) (List.Perm.refl [[97]]) (List.pairwise_singleton _ _)
    (fun p => List.Perm.refl (fillScratch [[97]] p)) (fun _ => List.pairwise_singleton _ _) 1 1
  exact ⟨h.2.2.1.trans (by decide +kernel), h.2.2.2.1.trans (by decide +kernel),
    (h.2.2.2.2 0).trans (by decide +kernel)⟩

end Medusa
