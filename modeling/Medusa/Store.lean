import Medusa.Entry
import Medusa.Lib.AssocList
import Mathlib.Logic.Function.Basic

/-! # The partitioned store

`imap/store.go`.  A store has one shard a partition, and a shard is a finite map from a map name
and a key to a value (the two nested Go maps, with the buckets that became empty left out).  Every
operation of the source is one critical section under a shard lock; `now` is the clock reading
taken inside it.

* `find` is the raw content, `lookup` and `get` hide expired entries.
* `put`, `remove`, `update`, `cacheLoaded`: single-entry writes.
* `updateMulti`: a transaction on one shard, which also returns its list of mutations.
* `snapshotPartition`, `dropMigrated`: the two ends of a migration.
* `liveEntries`: one shard of a count, a collection of values or an eviction sample.
* `partitionDigest`, `pruneToKeyset`: the two ends of anti-entropy.  `digest_sound`: **equal live data gives
  equal digests**, and what is hashed for an entry determines it.
* `sweepExpired`, `clearMap`, `snapshotAll`, `loadAll`: whole-store operations.

Each operation has one lemma that says what `find` returns after it. -/

namespace Medusa

open BigEndian Medusa.Partition

/-- One shard: map name and key to value. -/
abbrev Shard := Assoc Ref Value

/-- The entry that stores `v` under `r`. -/
def entryOf (r : Ref) (v : Value) : Entry := ⟨r.1, r.2, v.data, v.expireAt⟩

/-- The value an entry carries. -/
def Entry.val (e : Entry) : Value := ⟨e.value, e.expireAt⟩

@[simp] theorem entryOf_ref (r : Ref) (v : Value) : (entryOf r v).ref = r := rfl

@[simp] theorem entryOf_val (r : Ref) (v : Value) : (entryOf r v).val = v := rfl

@[simp] theorem entryOf_ref_val (e : Entry) : entryOf e.ref e.val = e := rfl

/-- `store`: one shard a partition. -/
structure Store where
  shards : PartitionId → Shard

namespace Store
variable {s s' : Store} {p : PartitionId} {e : Entry}

/-- `newStore`. -/
def empty : Store := ⟨fun _ => ∅⟩

/-- What partition `p` stores under `r`, expired or not. -/
def find (s : Store) (p : PartitionId) (r : Ref) : Option Value := (s.shards p).lookup r

@[simp] theorem find_empty (p : PartitionId) (r : Ref) : empty.find p r = none := rfl

/-- Replace the shard of partition `p`. -/
def setShard (s : Store) (p : PartitionId) (m : Shard) : Store :=
  ⟨Function.update s.shards p m⟩

theorem find_setShard (s : Store) (p q : PartitionId) (m : Shard) (r : Ref) :
    (s.setShard p m).find q r = if q = p then m.lookup r else s.find q r := by
  unfold find setShard
  by_cases h : q = p
  · subst h
    simp
  · simp [h]

/-- The live value under `r`. -/
def lookup (s : Store) (p : PartitionId) (name key : Bytes) (now : ℕ) : Option Value :=
  (s.find p (name, key)).filter (fun v => !v.expired now)

/-- The live data under a key. -/
def get (s : Store) (p : PartitionId) (name key : Bytes) (now : ℕ) : Option Bytes :=
  (s.lookup p name key now).map Value.data

theorem lookup_eq_some {name key : Bytes} {now : ℕ} {v : Value} :
    s.lookup p name key now = some v ↔
      s.find p (name, key) = some v ∧ v.expired now = false := by
  rw [lookup, Option.filter_eq_some_iff]
  simp

/-! ### Single-entry writes -/

/-- The store with `v` under `r`. -/
def set (s : Store) (p : PartitionId) (r : Ref) (v : Value) : Store :=
  s.setShard p ((s.shards p).insert r v)

/-- The store without `r`. -/
def erase (s : Store) (p : PartitionId) (r : Ref) : Store :=
  s.setShard p ((s.shards p).erase r)

theorem find_set (s : Store) (p q : PartitionId) (r r' : Ref) (v : Value) :
    (s.set p r v).find q r' = if q = p ∧ r' = r then some v else s.find q r' := by
  rw [set, find_setShard, Assoc.lookup_insert_if]
  by_cases hq : q = p
  · subst hq
    by_cases hr : r' = r <;> simp [hr, find]
  · simp [hq]

theorem find_erase (s : Store) (p q : PartitionId) (r r' : Ref) :
    (s.erase p r).find q r' = if q = p ∧ r' = r then none else s.find q r' := by
  rw [erase, find_setShard, Assoc.lookup_erase_if]
  by_cases hq : q = p
  · subst hq
    by_cases hr : r' = r <;> simp [hr, find]
  · simp [hq]

/-- Entries where they are routed to, after a write of one of them. -/
theorem find_set_routed (s : Store) (r r' : Ref) (v : Value) :
    (s.set (routedPartition r.1 r.2) r v).find (routedPartition r'.1 r'.2) r' =
      if r' = r then some v else s.find (routedPartition r'.1 r'.2) r' := by
  rw [find_set]
  by_cases hr : r' = r
  · rw [if_pos ⟨by rw [hr], hr⟩, if_pos hr]
  · rw [if_neg fun h => hr h.2, if_neg hr]

@[inherit_doc find_set_routed] theorem find_erase_routed (s : Store) (r r' : Ref) :
    (s.erase (routedPartition r.1 r.2) r).find (routedPartition r'.1 r'.2) r' =
      if r' = r then none else s.find (routedPartition r'.1 r'.2) r' := by
  rw [find_erase]
  by_cases hr : r' = r
  · rw [if_pos ⟨by rw [hr], hr⟩, if_pos hr]
  · rw [if_neg fun h => hr h.2, if_neg hr]

/-- `store.put`: whether the key was newly created (overwriting an expired entry counts), and the
new store. -/
def put (s : Store) (p : PartitionId) (name key data : Bytes) (expireAt : Int64) (now : ℕ) :
    Bool × Store :=
  ((s.lookup p name key now).isNone, s.set p (name, key) ⟨data, expireAt⟩)

/-- `store.cacheLoaded`: cache a loaded value unless a write landed first. -/
def cacheLoaded (s : Store) (p : PartitionId) (name key data : Bytes) (now : ℕ) : Bytes × Store :=
  match s.lookup p name key now with
  | some v => (v.data, s)
  | none => (data, s.set p (name, key) ⟨data, 0⟩)

/-- `store.remove`: whether a live entry was present, and the new store. -/
def remove (s : Store) (p : PartitionId) (name key : Bytes) (now : ℕ) : Bool × Store :=
  ((s.lookup p name key now).isSome, s.erase p (name, key))

/-- What a processor decides to do with an entry. -/
inductive Action where
  | keep
  | set
  | delete
deriving DecidableEq, Repr

/-- `store.update`: apply `fn` to the live value.  A `set` keeps the expiry of a live entry. -/
def update (s : Store) (p : PartitionId) (name key : Bytes) (now : ℕ)
    (fn : Option Bytes → Bytes × Action) : (Action × Int64) × Store :=
  let old := s.lookup p name key now
  match fn (old.map Value.data) with
  | (newVal, .set) =>
    let expireAt := (old.map Value.expireAt).getD 0
    ((.set, expireAt), s.set p (name, key) ⟨newVal, expireAt⟩)
  | (_, .delete) => ((.delete, 0), s.erase p (name, key))
  | (_, .keep) => ((.keep, 0), s)

/-! ### Transactions -/

/-- One entry change made inside `updateMulti`. -/
structure Mutation where
  mapName : Bytes
  key : Bytes
  value : Bytes
  del : Bool
deriving DecidableEq, Repr

/-- The locked shard of a transaction, and the mutations made so far. -/
structure Txn where
  shard : Shard
  muts : List Mutation

namespace Txn

/-- The `get` accessor of `updateMulti`. -/
def get (t : Txn) (now : ℕ) (name key : Bytes) : Option Bytes :=
  ((t.shard.lookup (name, key)).filter (fun v => !v.expired now)).map Value.data

/-- The `set` accessor: entries written in a transaction carry no expiry. -/
def set (t : Txn) (name key val : Bytes) : Txn :=
  ⟨t.shard.insert (name, key) ⟨val, 0⟩, t.muts ++ [⟨name, key, val, false⟩]⟩

/-- The `del` accessor. -/
def del (t : Txn) (name key : Bytes) : Txn :=
  ⟨t.shard.erase (name, key), t.muts ++ [⟨name, key, [], true⟩]⟩

end Txn

/-- `store.updateMulti`: run `fn` on the shard of partition `p`. -/
def updateMulti {α : Type} (s : Store) (p : PartitionId) (fn : Txn → α × Txn) :
    α × List Mutation × Store :=
  let r := fn ⟨s.shards p, []⟩
  (r.1, r.2.muts, s.setShard p r.2.shard)

/-- One mutation applied to a shard. -/
def applyMutation (m : Shard) (mu : Mutation) : Shard :=
  if mu.del then m.erase (mu.mapName, mu.key) else m.insert (mu.mapName, mu.key) ⟨mu.value, 0⟩

/-- A transaction that only uses its accessors changes the shard by its mutations. -/
def Txn.Faithful (m : Shard) (t : Txn) : Prop := t.shard = t.muts.foldl applyMutation m

theorem Txn.Faithful.set {m : Shard} {t : Txn} (h : t.Faithful m) (name key val : Bytes) :
    (t.set name key val).Faithful m := by
  simp [Txn.Faithful, Txn.set, applyMutation, h.symm]

theorem Txn.Faithful.del {m : Shard} {t : Txn} (h : t.Faithful m) (name key : Bytes) :
    (t.del name key).Faithful m := by
  simp [Txn.Faithful, Txn.del, applyMutation, h.symm]

theorem find_foldl_applyMutation (s : Store) (p : PartitionId) (muts : List Mutation) :
    s.setShard p (muts.foldl applyMutation (s.shards p)) =
      muts.foldl (fun s mu => if mu.del then s.erase p (mu.mapName, mu.key)
        else s.set p (mu.mapName, mu.key) ⟨mu.value, 0⟩) s := by
  induction muts generalizing s with
  | nil => simp [setShard]
  | cons mu muts ih =>
    rw [List.foldl_cons, List.foldl_cons, ← ih]
    by_cases h : mu.del <;> simp [applyMutation, h, setShard, set, erase]

/-- Mutations of other entries leave an entry as it is. -/
theorem find_foldl_of_ne {p q : PartitionId} {muts : List Mutation} {r : Ref}
    (hr : ∀ mu ∈ muts, r ≠ (mu.mapName, mu.key)) (s : Store) :
    (muts.foldl (fun s mu => if mu.del then s.erase q (mu.mapName, mu.key)
      else s.set q (mu.mapName, mu.key) ⟨mu.value, 0⟩) s).find p r = s.find p r := by
  induction muts generalizing s with
  | nil => rfl
  | cons mu muts ih =>
    have hne := hr mu List.mem_cons_self
    rw [List.foldl_cons, ih fun x hx => hr x (List.mem_cons_of_mem _ hx)]
    split
    · rw [find_erase, if_neg fun h => hne h.2]
    · rw [find_set, if_neg fun h => hne h.2]

/-- What the writes of single entries keep between two stores, the same mutations keep. -/
theorem applyMutations_rel {rel : Store → Store → Prop}
    (hset : ∀ s s' r d, rel s s' → rel (s.set p r ⟨d, 0⟩) (s'.set p r ⟨d, 0⟩))
    (herase : ∀ s s' r, rel s s' → rel (s.erase p r) (s'.erase p r)) (h : rel s s') (muts : List Mutation) :
    rel (s.setShard p (muts.foldl applyMutation (s.shards p)))
      (s'.setShard p (muts.foldl applyMutation (s'.shards p))) := by
  rw [find_foldl_applyMutation, find_foldl_applyMutation]
  induction muts generalizing s s' with
  | nil => exact h
  | cons mu muts ih =>
    rw [List.foldl_cons, List.foldl_cons]
    split
    · exact ih (herase _ _ _ h)
    · exact ih (hset _ _ _ _ h)

/-! ### Migration -/

/-- `store.snapshotPartition`: every live entry of partition `p`. -/
def snapshotPartition (s : Store) (p : PartitionId) (now : ℕ) : List Entry :=
  ((s.shards p).pairs.filter (fun x => !x.2.expired now)).map (fun x => entryOf x.1 x.2)

theorem mem_snapshotPartition {now : ℕ} :
    e ∈ s.snapshotPartition p now ↔ s.find p e.ref = some e.val ∧ e.val.expired now = false := by
  simp only [snapshotPartition, List.mem_map, List.mem_filter]
  constructor
  · rintro ⟨⟨r, v⟩, ⟨hx, hl⟩, rfl⟩
    exact ⟨Assoc.mem_pairs.mp hx, by simpa using hl⟩
  · rintro ⟨hf, hl⟩
    exact ⟨(e.ref, e.val), ⟨Assoc.mem_pairs.mpr hf, by simpa using hl⟩, rfl⟩

/-- Every name and key once. -/
theorem nodup_ref_snapshotPartition (s : Store) (p : PartitionId) (now : ℕ) :
    ((s.snapshotPartition p now).map Entry.ref).Nodup := by
  rw [snapshotPartition, List.map_map]
  exact ((s.shards p).nodup_map_fst_pairs).sublist (List.filter_sublist.map _)

/-- The live entries of partition `p` in the selected maps: what `countMap`, `collectOwnedValues`,
`countOwned` and `sampleOwned` go over in one shard. -/
def liveEntries (s : Store) (p : PartitionId) (now : ℕ) (select : Bytes → Bool) : List Entry :=
  (s.snapshotPartition p now).filter (fun e => select e.mapName)

/-- The live entries of the selected maps in the partitions for which `owned` holds. -/
def ownedLive (s : Store) (owned : PartitionId → Bool) (now : ℕ) (select : Bytes → Bool) : List Entry :=
  ((List.finRange Count).filter owned).flatMap (fun p => s.liveEntries p now select)

/-- `store.countMap`, with nothing else running. -/
def countMap (s : Store) (name : Bytes) (owned : PartitionId → Bool) (now : ℕ) : ℕ :=
  (s.ownedLive owned now (fun m => m == name)).length

/-- `store.countOwned`, with nothing else running. -/
def countOwned (s : Store) (owned : PartitionId → Bool) (now : ℕ) : ℕ :=
  (s.ownedLive owned now (fun m => !isReservedMap m)).length

/-- `store.collectOwnedValues`, with nothing else running. -/
def collectOwnedValues (s : Store) (name : Bytes) (owned : PartitionId → Bool) (now : ℕ) : List Bytes :=
  (s.ownedLive owned now (fun m => m == name)).map Entry.value

/-- The loop of `dropMigrated`: an entry is deleted when the stored value is still the captured
one. -/
def dropLoop : List Entry → Shard → List Entry × Shard
  | [], m => ([], m)
  | e :: es, m =>
    if m.lookup e.ref = some e.val then
      (e :: (dropLoop es (m.erase e.ref)).1, (dropLoop es (m.erase e.ref)).2)
    else dropLoop es m

/-- `store.dropMigrated`: the entries actually dropped, and the new store. -/
def dropMigrated (s : Store) (p : PartitionId) (entries : List Entry) : List Entry × Store :=
  let r := dropLoop entries (s.shards p)
  (r.1, s.setShard p r.2)

theorem lookup_dropLoop (es : List Entry) (m : Shard) (r : Ref) :
    (dropLoop es m).2.lookup r = (m.lookup r).filter (fun v => decide (entryOf r v ∉ es)) := by
  induction es generalizing m with
  | nil => cases h : m.lookup r <;> simp [dropLoop, h, Option.filter_some]
  | cons e es ih =>
    by_cases he : m.lookup e.ref = some e.val
    · rw [dropLoop, if_pos he]
      simp only [ih, Assoc.lookup_erase_if]
      by_cases hr : r = e.ref
      · subst hr
        simp [he, Option.filter_some]
      · cases hm : m.lookup r with
        | none => simp [hr]
        | some v =>
          have : entryOf r v ≠ e := fun h => hr (by rw [← h, entryOf_ref])
          simp [hr, this, Option.filter_some]
    · rw [dropLoop, if_neg he, ih]
      cases hm : m.lookup r with
      | none => simp
      | some v =>
        have : entryOf r v ≠ e := fun h => he (by rw [← h, entryOf_ref, entryOf_val, hm])
        simp [this, Option.filter_some]

theorem find_dropMigrated (s : Store) (p q : PartitionId) (es : List Entry) (r : Ref) :
    (s.dropMigrated p es).2.find q r =
      if q = p then (s.find q r).filter (fun v => decide (entryOf r v ∉ es)) else s.find q r := by
  rw [dropMigrated, find_setShard]
  by_cases hq : q = p
  · subst hq
    simp [lookup_dropLoop, find]
  · simp [hq]

theorem mem_dropLoop {es : List Entry} {m : Shard} :
    e ∈ (dropLoop es m).1 ↔ e ∈ es ∧ m.lookup e.ref = some e.val := by
  induction es generalizing m with
  | nil => simp [dropLoop]
  | cons d es ih =>
    by_cases hd : m.lookup d.ref = some d.val
    · rw [dropLoop, if_pos hd]
      simp only [List.mem_cons, ih, Assoc.lookup_erase_if]
      by_cases hed : e = d
      · subst hed
        simp [hd]
      · by_cases hr : e.ref = d.ref
        · have : m.lookup e.ref ≠ some e.val := by
            rw [hr, hd]
            intro h
            apply hed
            rw [← entryOf_ref_val e, ← entryOf_ref_val d, hr, Option.some.inj h]
          simp [hed, if_pos hr, this]
        · simp [hed, hr]
    · rw [dropLoop, if_neg hd, ih]
      simp only [List.mem_cons, or_and_right]
      constructor
      · exact Or.inr
      · rintro (⟨rfl, h⟩ | h)
        · exact absurd h hd
        · exact h

theorem mem_dropMigrated {es : List Entry} :
    e ∈ (s.dropMigrated p es).1 ↔ e ∈ es ∧ s.find p e.ref = some e.val := mem_dropLoop

/-! ### Anti-entropy -/

/-- The FNV-1a hash of one entry; the map name and the key are length-prefixed. -/
def entryHash (r : Ref) (data : Bytes) : UInt64 :=
  (beBytes 4 r.1.length ++ r.1 ++ beBytes 4 r.2.length ++ r.2 ++ data).foldl fnvStep
    14695981039346656037

/-- `store.partitionDigest`: the XOR of the hashes of the live entries of partition `p`. -/
def partitionDigest (s : Store) (p : PartitionId) (now : ℕ) : UInt64 :=
  (s.snapshotPartition p now).foldl (fun d e => d ^^^ entryHash e.ref e.value) 0

/-- The data under `r` in partition `p`, if it is live at `now`. -/
def Live (s : Store) (p : PartitionId) (now : ℕ) (r : Ref) (d : Bytes) : Prop :=
  ∃ v, s.find p r = some v ∧ v.expired now = false ∧ v.data = d

/-- The fold of `partitionDigest`, over entries in the order they are visited. -/
def digestOf (es : List Entry) : UInt64 := es.foldl (fun d e => d ^^^ entryHash e.ref e.value) 0

/-- The digest depends neither on the order of the entries nor on their expiries. -/
theorem digestOf_eq_of_perm {es es' : List Entry}
    (h : (es.map fun e => (e.ref, e.value)).Perm (es'.map fun e => (e.ref, e.value))) :
    digestOf es = digestOf es' := by
  have hfold : ∀ l : List Entry, digestOf l =
      (l.map fun e => (e.ref, e.value)).foldl (fun d x => d ^^^ entryHash x.1 x.2) 0 := fun l => by
    rw [List.foldl_map]
    rfl
  rw [hfold, hfold]
  refine h.foldl_eq' (fun x _ y _ d => ?_) 0
  rw [UInt64.xor_assoc, UInt64.xor_assoc, UInt64.xor_comm (entryHash x.1 x.2)]

/-- The same live data in two stores, entry by entry. -/
theorem snapshotPartition_perm {now now' : ℕ} (h : ∀ r d, s.Live p now r d ↔ s'.Live p now' r d) :
    ((s.snapshotPartition p now).map fun e => (e.ref, e.value)).Perm
      ((s'.snapshotPartition p now').map fun e => (e.ref, e.value)) := by
  have hmem : ∀ (t : Store) (τ : ℕ) x,
      x ∈ (t.snapshotPartition p τ).map (fun e => (e.ref, e.value)) ↔ t.Live p τ x.1 x.2 := by
    rintro t τ ⟨r, d⟩
    simp only [List.mem_map, mem_snapshotPartition, Prod.mk.injEq]
    constructor
    · rintro ⟨e, ⟨hf, hl⟩, rfl, rfl⟩
      exact ⟨e.val, hf, hl, rfl⟩
    · rintro ⟨v, hf, hl, rfl⟩
      exact ⟨entryOf r v, ⟨hf, hl⟩, rfl, rfl⟩
  have hnodup : ∀ (t : Store) (τ : ℕ),
      ((t.snapshotPartition p τ).map (fun e => (e.ref, e.value))).Nodup := by
    intro t τ
    refine List.Nodup.of_map Prod.fst ?_
    rw [List.map_map]
    exact nodup_ref_snapshotPartition t p τ
  refine (List.perm_ext_iff_of_nodup (hnodup s now) (hnodup s' now')).mpr fun x => ?_
  rw [hmem, hmem]
  exact h x.1 x.2

theorem partitionDigest_congr {now now' : ℕ} (h : ∀ r d, s.Live p now r d ↔ s'.Live p now' r d) :
    s.partitionDigest p now = s'.partitionDigest p now' := digestOf_eq_of_perm (snapshotPartition_perm h)

/-- The bytes of an entry that are hashed. -/
def entryStream (r : Ref) (data : Bytes) : Bytes :=
  beBytes 4 r.1.length ++ (r.1 ++ (beBytes 4 r.2.length ++ (r.2 ++ data)))

/-- `fnv1a`. -/
def fnv1a (h : UInt64) (b : Bytes) : UInt64 := b.foldl fnvStep h

/-- The hash of an entry goes over the fields one after another. -/
theorem entryHash_eq (r : Ref) (data : Bytes) :
    entryHash r data = fnv1a 14695981039346656037 (entryStream r data) ∧
    entryHash r data = fnv1a (fnv1a (fnv1a (fnv1a (fnv1a 14695981039346656037
      (beBytes 4 r.1.length)) r.1) (beBytes 4 r.2.length)) r.2) data := by
  simp only [entryHash, entryStream, fnv1a, List.foldl_append, and_self]

/-- A field with its length in front ends where it ends. -/
theorem prefixed_inj {a b x y : Bytes} (ha : a.length < 2 ^ 32) (hb : b.length < 2 ^ 32)
    (h : beBytes 4 a.length ++ (a ++ x) = beBytes 4 b.length ++ (b ++ y)) : a = b ∧ x = y := by
  obtain ⟨hlen, hrest⟩ := List.append_inj h (by simp)
  exact List.append_inj hrest (beBytes_injective (w := 4) ha hb hlen)

/-- **The digest is sound.**  Where the same data is live it is the same, whatever the expiries and the
expired leftovers are and in whichever order the entries are visited; it combines the hashes of the byte
streams of the live entries, and the stream of an entry determines its map, key and value. -/
theorem digest_sound (s s' : Store) (p : PartitionId) (now now' : ℕ)
    (h : ∀ r d, s.Live p now r d ↔ s'.Live p now' r d) :
    s.partitionDigest p now = s'.partitionDigest p now' ∧
    (∀ es es', es.Perm (s.snapshotPartition p now) → es'.Perm (s'.snapshotPartition p now') →
      digestOf es = digestOf es') ∧
    (∀ r d, entryHash r d = fnv1a 14695981039346656037 (entryStream r d)) ∧
    s.partitionDigest p now = (s.snapshotPartition p now).foldl
      (fun d e => d ^^^ fnv1a 14695981039346656037 (entryStream e.ref e.value)) 0 ∧
    ∀ (r r' : Ref) (d d' : Bytes), r.1.length < 2 ^ 32 → r.2.length < 2 ^ 32 → r'.1.length < 2 ^ 32 →
      r'.2.length < 2 ^ 32 → entryStream r d = entryStream r' d' → r = r' ∧ d = d' := by
  refine ⟨partitionDigest_congr h, fun es es' hes hes' => ?_, fun r d => (entryHash_eq r d).1, ?_, ?_⟩
  · exact digestOf_eq_of_perm ((hes.map _).trans ((snapshotPartition_perm h).trans (hes'.map _).symm))
  · simp only [partitionDigest, (entryHash_eq _ _).1]
  · intro r r' d d' hmap hkey hmap' hkey' hstream
    obtain ⟨hname, hrest⟩ := prefixed_inj hmap hmap' hstream
    obtain ⟨hkey, hdata⟩ := prefixed_inj hkey hkey' hrest
    exact ⟨Prod.ext hname hkey, hdata⟩

/-- The same value, once with an expiry and beside an expired entry, once without. -/
theorem digest_sound_expiries :
    let s := (Store.empty.set 0 ([109], [1]) ⟨[118], 9⟩).set 0 ([109], [2]) ⟨[119], 3⟩
    let s' := Store.empty.set 0 ([109], [1]) ⟨[118], 0⟩
    s.partitionDigest 0 5 = s'.partitionDigest 0 7 := by
  intro s s'
  refine (digest_sound s s' 0 5 7 fun r d => ?_).1
  simp only [Live, s, s', find_set, true_and]
  by_cases h2 : r = ([109], [2])
  · -- the expired entry
    subst h2
    refine ⟨?_, ?_⟩
    · rintro ⟨v, hv, hlive, -⟩
      rw [if_pos rfl] at hv
      cases hv
      exact absurd hlive (by decide)
    · rintro ⟨v, hv, -⟩
      cases hv
  · by_cases h1 : r = ([109], [1])
    · subst h1
      simp [Value.expired]
    · simp [h1, h2]

/-- `store.pruneToKeyset`: the entries dropped because their key is not in `keep`, and the new
store. -/
def pruneToKeyset (s : Store) (p : PartitionId) (keep : List Ref) : List Entry × Store :=
  (((s.shards p).pairs.filter (fun x => decide (x.1 ∉ keep))).map (fun x => entryOf x.1 x.2),
    s.setShard p ((s.shards p).restrict (fun r _ => decide (r ∈ keep))))

theorem find_pruneToKeyset (s : Store) (p q : PartitionId) (keep : List Ref) (r : Ref) :
    (s.pruneToKeyset p keep).2.find q r =
      if q = p ∧ r ∉ keep then none else s.find q r := by
  rw [pruneToKeyset, find_setShard, Assoc.lookup_restrict]
  by_cases hq : q = p
  · subst hq
    by_cases hr : r ∈ keep <;> cases h : (s.shards q).lookup r <;>
      simp [hr, find, h, Option.filter_some]
  · simp [hq]

theorem mem_pruneToKeyset {keep : List Ref} :
    e ∈ (s.pruneToKeyset p keep).1 ↔ s.find p e.ref = some e.val ∧ e.ref ∉ keep := by
  simp only [pruneToKeyset, List.mem_map, List.mem_filter, decide_eq_true_eq]
  constructor
  · rintro ⟨⟨r, v⟩, ⟨hx, hr⟩, rfl⟩
    exact ⟨Assoc.mem_pairs.mp hx, hr⟩
  · rintro ⟨hf, hr⟩
    exact ⟨(e.ref, e.val), ⟨Assoc.mem_pairs.mpr hf, hr⟩, rfl⟩

/-! ### Whole-store operations -/

/-- `store.sweepExpired`: the store without its expired entries. -/
def sweepExpired (s : Store) (now : ℕ) : Store :=
  ⟨fun p => (s.shards p).restrict (fun _ v => !v.expired now)⟩

theorem find_sweepExpired (s : Store) (now : ℕ) (p : PartitionId) (r : Ref) :
    (s.sweepExpired now).find p r = (s.find p r).filter (fun v => !v.expired now) := by
  simp [find, sweepExpired]

/-- `store.clearMap`: the removed entries, and the store without the named map. -/
def clearMap (s : Store) (name : Bytes) : List Entry × Store :=
  ((List.finRange Count).flatMap (fun p =>
      ((s.shards p).pairs.filter (fun x => decide (x.1.1 = name))).map (fun x => entryOf x.1 x.2)),
    ⟨fun p => (s.shards p).restrict (fun r _ => decide (r.1 ≠ name))⟩)

theorem find_clearMap (s : Store) (name : Bytes) (p : PartitionId) (r : Ref) :
    (s.clearMap name).2.find p r = if r.1 = name then none else s.find p r := by
  unfold find clearMap
  rw [Assoc.lookup_restrict]
  by_cases hr : r.1 = name <;> cases h : (s.shards p).lookup r <;> simp [hr, Option.filter_some]

theorem mem_clearMap {name : Bytes} :
    e ∈ (s.clearMap name).1 ↔ e.mapName = name ∧ ∃ p, s.find p e.ref = some e.val := by
  simp only [clearMap, List.mem_flatMap, List.mem_finRange, true_and, List.mem_map,
    List.mem_filter, decide_eq_true_eq]
  constructor
  · rintro ⟨p, ⟨r, v⟩, ⟨hx, hn⟩, rfl⟩
    exact ⟨hn, p, Assoc.mem_pairs.mp hx⟩
  · rintro ⟨hn, p, hf⟩
    exact ⟨p, (e.ref, e.val), ⟨Assoc.mem_pairs.mpr hf, hn⟩, rfl⟩

/-- `store.snapshotAll`: every live entry. -/
def snapshotAll (s : Store) (now : ℕ) : List Entry :=
  (List.finRange Count).flatMap (fun p => s.snapshotPartition p now)

theorem mem_snapshotAll {now : ℕ} :
    e ∈ s.snapshotAll now ↔ ∃ p, s.find p e.ref = some e.val ∧ e.val.expired now = false := by
  simp [snapshotAll, mem_snapshotPartition]

/-- Store one entry in the partition it routes to. -/
def loadEntry (s : Store) (e : Entry) : Store :=
  s.set (routedPartition e.mapName e.key) e.ref e.val

/-- The entries stored for one loaded entry: the entry itself, or the queue a value of the format
before segmentation is converted to. -/
def upgraded (e : Entry) : List Entry :=
  if isLegacyQueue e.mapName e.value then convertLegacyQueue e.key e.value else [e]

/-- A converted queue does not expire, and the entry itself keeps its expiry. -/
theorem upgraded_expireAt {e d : Entry} (he : e.expireAt = 0) (hd : d ∈ upgraded e) :
    d.expireAt = 0 := by
  unfold upgraded at hd
  split at hd
  · exact (isConverted_convertLegacyQueue hd).expireAt
  · rwa [List.mem_singleton.mp hd]

/-- Nothing is stored in the old format. -/
theorem upgraded_not_legacy {e d : Entry} (hd : d ∈ upgraded e) :
    isLegacyQueue d.mapName d.value = false := by
  unfold upgraded at hd
  split at hd
  · exact (isConverted_convertLegacyQueue hd).not_legacy
  · next h =>
    rw [List.mem_singleton.mp hd]
    simpa using h

/-- `store.loadAll`.  The source recurses on the converted entries, which are never converted
again (`upgraded_not_legacy`). -/
def loadAll (s : Store) (entries : List Entry) : Store :=
  entries.foldl (fun s e => (upgraded e).foldl loadEntry s) s

end Store

/-! ### Placement -/

open Store

/-- Every entry lies in the partition it routes to. -/
def Placed (s : Store) : Prop := ∀ p r v, s.find p r = some v → routedPartition r.1 r.2 = p

theorem placed_empty : Placed Store.empty := by
  intro p r v h
  simp at h

theorem Placed.find_ne {s : Store} (hs : Placed s) {p : PartitionId} {r : Ref}
    (hp : p ≠ routedPartition r.1 r.2) : s.find p r = none := by
  cases h : s.find p r with
  | none => rfl
  | some v => exact absurd (hs p r v h).symm hp

theorem Placed.set {s : Store} (hs : Placed s) (r : Ref) (v : Value) :
    Placed (s.set (routedPartition r.1 r.2) r v) := by
  intro p r' w h
  rw [find_set] at h
  split at h
  · next hpr => rw [hpr.1, hpr.2]
  · exact hs p r' w h

/-- Removing entries keeps a store placed. -/
theorem Placed.of_le {s s' : Store} (hs : Placed s)
    (h : ∀ p r v, s'.find p r = some v → s.find p r = some v) : Placed s' :=
  fun p r v hf => hs p r v (h p r v hf)

theorem Placed.erase {s : Store} (hs : Placed s) (r : Ref) :
    Placed (s.erase (routedPartition r.1 r.2) r) := by
  refine hs.of_le fun p r' v h => ?_
  rw [find_erase] at h
  split at h
  · simp at h
  · exact h

end Medusa
