import Mathlib.Data.List.Induction
import Medusa.EntryCodec

/-! # Crash recovery

A run of the logged mutations, sweeps and checkpoints of a service with an open write-ahead log,
with restarts in between (`Durable.run`), and what a restart makes of the last snapshot and the
log (`recovered`).

`Recovers d` says that whenever the node restarts, the recovered store answers every later read as
the store before the crash would have.  `recovery_iff`: a run recovers at each of its crash points
exactly when none of its puts is harmful (`DurableOp.Harmless`).  There are two kinds of harmful
puts.  A put with a TTL over a value that outlives it: replay skips the put once it has expired,
and the older value comes back.  And a put of a value to the queue map that is neither empty nor a
metadata record: replay takes it for a queue of the format before segmentation and converts it.

The proofs go through the *content* of a store, one value a map name and key.  A mutation changes
the content by its records (`mutator_content`), replay by the records that are not dead
(`content_openWAL`). -/

namespace Medusa

open BigEndian Medusa.Partition Store

variable {s : Store} {now : ℕ} {rs : List WalRecord}

/-! ### Runs -/

/-- The logged mutations. -/
inductive Mutator where
  | put (name key value : Bytes) (ttlMs : Int64) (lag : ℕ)
  | remove (name key : Bytes)
  | execute (name key : Bytes) (proc : Processor) (arg : Bytes)
  | queueExecute (qname : Bytes) (op : QueueOp) (arg : Bytes)
  | clear (name : Bytes)
  | dropMigrated (p : PartitionId) (entries : List Entry)
  | prune (p : PartitionId) (keep : List Ref)

/-- The records a mutation logs and the store it leaves.  A put reads the clock for its expiry
`lag` nanoseconds before its critical section; ordinary processors do not run on reserved maps. -/
def Mutator.run (m : Mutator) (s : Store) (now : ℕ) : List WalRecord × Store :=
  match m with
  | put name key value ttlMs lag =>
    let r := applyPut s name key value (expireFromTTL (now - lag) ttlMs) now
    (r.log, r.store)
  | remove name key => ((applyRemove s name key now).log, (applyRemove s name key now).store)
  | execute name key proc arg =>
    if isReservedMap name then ([], s)
    else ((applyExecute s name key proc arg now).log, (applyExecute s name key proc arg now).store)
  | queueExecute qname op arg =>
    ((applyQueueExecute s qname op arg now).log, (applyQueueExecute s qname op arg now).store)
  | clear name => ((localClearMap s name).log, (localClearMap s name).store)
  | dropMigrated p es => ((dropMigratedLogged s p es).log, (dropMigratedLogged s p es).store)
  | prune p keep => ((pruneToKeysetLogged s p keep).log, (pruneToKeysetLogged s p keep).store)

/-- The steps of a run.  A restart opens the log `opening` nanoseconds after it has restored the
snapshot. -/
inductive DurableOp where
  | logged (m : Mutator)
  | sweep
  | checkpoint
  | restart (opening : ℕ)

/-- A service with an open log: the store, the log file, the last persisted snapshot and the
clock. -/
structure Durable where
  store : Store
  file : Bytes
  snapshot : List Entry
  now : ℕ

section runs
variable (C : Codec)

/-- `Restore` and then `OpenWAL`. -/
def recovered (restoreAt openAt : ℕ) (d : Durable) : Store :=
  openWAL C openAt d.file (restore restoreAt d.snapshot)

/-- One step, `tick` nanoseconds after the last. -/
def Durable.step (d : Durable) (o : ℕ × DurableOp) : Durable :=
  let now := d.now + o.1
  match o.2 with
  | .logged m =>
    { d with
      store := (m.run d.store now).2
      file := (m.run d.store now).1.foldl (appendLocked C) d.file
      now := now }
  | .sweep => { d with store := d.store.sweepExpired now, now := now }
  | .checkpoint => { d with snapshot := d.store.snapshotAll now, file := [], now := now }
  | .restart opening =>
    { d with store := recovered C now (now + opening) d, now := now + opening }

/-- A service that has stored nothing yet. -/
def Durable.fresh (now : ℕ) : Durable := ⟨Store.empty, [], [], now⟩

/-- A run. -/
def Durable.run (ops : List (ℕ × DurableOp)) (d : Durable) : Durable := ops.foldl (Durable.step C) d

/-- A crash now loses nothing and brings nothing back: whenever the node restarts, every later
read finds what it would have found. -/
def Recovers (d : Durable) : Prop :=
  ∀ restoreAt openAt later : ℕ, d.now ≤ restoreAt → restoreAt ≤ openAt → openAt < later →
    ∀ name key : Bytes,
      (recovered C restoreAt openAt d).get (routedPartition name key) name key later =
        d.store.get (routedPartition name key) name key later

end runs

/-- The put does not outlive itself: a put with an expiry replaces nothing, or something that
expires no later (or has expired); and a value that looks like a queue of the old format is dead
on arrival. -/
def DurableOp.Harmless (d : Durable) (o : ℕ × DurableOp) : Prop :=
  match o.2 with
  | .logged (.put name key value ttlMs lag) =>
    let now := d.now + o.1
    let e := expireFromTTL (now - lag) ttlMs
    (isLegacyQueue name value = true → e ≠ 0 ∧ e.toInt ≤ now) ∧
    (e = 0 ∨ ∀ old, d.store.find (routedPartition name key) (name, key) = some old →
      old.expireAt ≠ 0 ∧ (old.expireAt.toInt ≤ e.toInt ∨ old.expireAt.toInt ≤ now))
  | _ => True

/-- The records of the step are under the size cap. -/
def DurableOp.UnderCap (C : Codec) (d : Durable) (o : ℕ × DurableOp) : Prop :=
  match o.2 with
  | .logged m => ∀ r ∈ (m.run d.store (d.now + o.1)).1, Medusa.UnderCap C r
  | _ => True

/-! ### The content of a store -/

/-- What a store holds: a value for a map name and a key. -/
abbrev Content := Ref → Option Value

/-- The content of a store, read where entries belong. -/
def content (s : Store) : Content := fun r => s.find (routedPartition r.1 r.2) r

/-- In a placed store every shard reads as the content. -/
theorem Placed.find (hs : Placed s) (p : PartitionId) (r : Ref) :
    s.find p r = if p = routedPartition r.1 r.2 then content s r else none := by
  split
  · next h => rw [h]; rfl
  · next h => exact hs.find_ne h

theorem content_set (s : Store) (r : Ref) (v : Value) :
    content (s.set (routedPartition r.1 r.2) r v) = Function.update (content s) r (some v) := by
  funext r'
  rw [content, find_set]
  by_cases h : r' = r
  · subst h
    simp
  · simp [h, content]

theorem content_erase (s : Store) (r : Ref) :
    content (s.erase (routedPartition r.1 r.2) r) = Function.update (content s) r none := by
  funext r'
  rw [content, find_erase]
  by_cases h : r' = r
  · subst h
    simp
  · simp [h, content]

theorem content_clearMap (s : Store) (name : Bytes) :
    content (s.clearMap name).2 = fun r => if r.1 = name then none else content s r := by
  funext r
  rw [content, find_clearMap]
  rfl

/-! ### Records and the content -/

/-- Write an entry. -/
def putContent (c : Content) (e : Entry) : Content := Function.update c e.ref (some e.val)

/-- What a record did to the store when it was logged. -/
def rawRecord (c : Content) (r : WalRecord) : Content :=
  match r.op with
  | .put => putContent c r.entry
  | .remove => Function.update c r.entry.ref none
  | .clear => fun x => if x.1 = r.entry.mapName then none else c x

/-- Load an entry, converted if it is a queue of the old format. -/
def loadContent (c : Content) (e : Entry) : Content :=
  (upgraded e).foldl putContent c

/-- What replaying the record at `now` does. -/
def replayContent (now : ℕ) (c : Content) (r : WalRecord) : Content :=
  match r.op with
  | .put => if r.entry.dead now then c else loadContent c r.entry
  | .remove => Function.update c r.entry.ref none
  | .clear => fun x => if x.1 = r.entry.mapName then none else c x

theorem content_loadAll (s : Store) (es : List Entry) :
    content (s.loadAll es) = es.foldl loadContent (content s) := by
  have hentries : ∀ (ds : List Entry) (s : Store), content (ds.foldl loadEntry s) =
      ds.foldl putContent (content s) := by
    intro ds
    induction ds with
    | nil => exact fun s => rfl
    | cons d ds ih =>
      intro s
      have hd : content (s.loadEntry d) = putContent (content s) d := content_set s d.ref d.val
      rw [List.foldl_cons, List.foldl_cons, ih, hd]
  induction es generalizing s with
  | nil => rfl
  | cons e es ih =>
    have : s.loadAll (e :: es) = ((upgraded e).foldl loadEntry s).loadAll es := rfl
    rw [this, ih, hentries]
    rfl

/-- The content a snapshot restores. -/
def restoredContent (now : ℕ) (snapshot : List Entry) : Content :=
  (snapshot.filter (fun e => !e.dead now)).foldl loadContent (fun _ => none)

theorem content_restore (now : ℕ) (snapshot : List Entry) :
    content (restore now snapshot) = restoredContent now snapshot :=
  content_loadAll _ _

theorem content_replayRecord (now : ℕ) (s : Store) (r : WalRecord) :
    content (replayRecord now s (r.op.code, r.entry)) = replayContent now (content s) r := by
  obtain ⟨op, e⟩ := r
  cases op with
  | put =>
    by_cases hd : e.dead now
    · simp [replayRecord, replayContent, WalOp.code, hd]
    · simp [replayRecord, replayContent, WalOp.code, hd, content_loadAll]
  | remove =>
    have : replayRecord now s (WalOp.code .remove, e) =
        s.erase (routedPartition e.mapName e.key) e.ref := by
      simp [replayRecord, WalOp.code, Store.remove, Entry.ref]
    rw [this]
    exact content_erase s e.ref
  | clear =>
    have : replayRecord now s (WalOp.code .clear, e) = (s.clearMap e.mapName).2 := by
      simp [replayRecord, WalOp.code]
    rw [this]
    exact content_clearMap s e.mapName

/-- What the replay of a file makes of a store. -/
theorem content_openWAL {C : Codec} {file : Bytes} {log : List WalRecord}
    (hfile : (replayWAL C file).1 = records log) (now : ℕ) (s : Store) :
    content (openWAL C now file s) = log.foldl (replayContent now) (content s) := by
  rw [openWAL, hfile]
  clear hfile
  induction log generalizing s with
  | nil => rfl
  | cons r log ih =>
    have hrec : records (r :: log) = (r.op.code, r.entry) :: records log := rfl
    rw [List.foldl_cons, hrec, List.foldl_cons, ih, content_replayRecord]

/-- What a restart recovers from a file of whole records. -/
theorem content_recovered {C : Codec} {log : List WalRecord} (hlog : ∀ r ∈ log, UnderCap C r)
    {d : Durable} (hfile : d.file = log.flatMap (frame C)) (restoreAt openAt : ℕ) :
    content (recovered C restoreAt openAt d) =
      log.foldl (replayContent openAt) (restoredContent restoreAt d.snapshot) := by
  rw [recovered, hfile, content_openWAL (congrArg Prod.fst (replayWAL_frames hlog)),
    content_restore]

/-! ### A mutation changes the content by its records -/

/-- Remove records for a list of entries. -/
theorem foldl_rawRecord_removes (es : List Entry) (c : Content) (r : Ref) :
    (es.map (fun e => (⟨.remove, ⟨e.mapName, e.key, [], 0⟩⟩ : WalRecord))).foldl rawRecord c r =
      if r ∈ es.map Entry.ref then none else c r := by
  induction es generalizing c with
  | nil => simp
  | cons e es ih =>
    rw [List.map_cons, List.foldl_cons, ih]
    by_cases h1 : r ∈ es.map Entry.ref
    · simp [h1]
    · by_cases h2 : r = e.ref
      · subst h2
        simp [rawRecord, Entry.ref]
      · have h3 : r ≠ (e.mapName, e.key) := h2
        simp [rawRecord, h1, h3, Entry.ref]

theorem content_dropMigrated (hs : Placed s) (p : PartitionId) (es : List Entry)
    (r : Ref) : content (s.dropMigrated p es).2 r =
      if r ∈ (s.dropMigrated p es).1.map Entry.ref then none else content s r := by
  have hmem : r ∈ (s.dropMigrated p es).1.map Entry.ref ↔
      ∃ v, s.find p r = some v ∧ entryOf r v ∈ es := by
    simp only [List.mem_map, mem_dropMigrated]
    constructor
    · rintro ⟨e, ⟨he, hf⟩, rfl⟩
      exact ⟨e.val, hf, he⟩
    · rintro ⟨v, hf, he⟩
      exact ⟨entryOf r v, ⟨he, hf⟩, rfl⟩
  rw [content, find_dropMigrated]
  by_cases hp : routedPartition r.1 r.2 = p
  · rw [if_pos hp, hp]
    cases hf : s.find p r with
    | none =>
      rw [if_neg (by simp [hmem, hf])]
      simp [content, hp, hf]
    | some v =>
      by_cases he : entryOf r v ∈ es
      · rw [if_pos (hmem.mpr ⟨v, hf, he⟩)]
        simp [Option.filter_some, he]
      · rw [if_neg (by simp [hmem, hf, he])]
        simp [Option.filter_some, he, content, hp, hf]
  · rw [if_neg hp, if_neg]
    · rfl
    · rw [hmem, hs.find_ne (Ne.symm hp)]
      simp

theorem content_pruneToKeyset (hs : Placed s) (p : PartitionId) (keep : List Ref)
    (r : Ref) : content (s.pruneToKeyset p keep).2 r =
      if r ∈ (s.pruneToKeyset p keep).1.map Entry.ref then none else content s r := by
  have hmem : r ∈ (s.pruneToKeyset p keep).1.map Entry.ref ↔
      (∃ v, s.find p r = some v) ∧ r ∉ keep := by
    simp only [List.mem_map, mem_pruneToKeyset]
    constructor
    · rintro ⟨e, ⟨hf, he⟩, rfl⟩
      exact ⟨⟨e.val, hf⟩, he⟩
    · rintro ⟨⟨v, hf⟩, he⟩
      exact ⟨entryOf r v, ⟨hf, he⟩, rfl⟩
  rw [content, find_pruneToKeyset]
  by_cases hp : routedPartition r.1 r.2 = p
  · by_cases hk : r ∈ keep
    · rw [if_neg (by simp [hk]), if_neg (by simp [hmem, hk])]
      rfl
    · cases hf : s.find p r with
      | none => simp [hp, hk, hmem, hf, content]
      | some v => rw [if_pos ⟨hp, hk⟩, if_pos (hmem.mpr ⟨⟨v, hf⟩, hk⟩)]
  · rw [if_neg (by simp [hp]), if_neg]
    · rfl
    · rw [hmem, hs.find_ne (Ne.symm hp)]
      simp

/-- The mutations of a queue transaction lie in the partition of the queue. -/
theorem queueTxn_content (hs : Placed s) (now : ℕ) (q : Bytes) (op : QueueOp) (arg : Bytes) :
    content (queueTxn s now q op arg).2.2 =
      ((queueTxn s now q op arg).2.1.map Mutation.record).foldl rawRecord (content s) ∧
    Placed (queueTxn s now q op arg).2.2 := by
  rw [queueTxn_store, find_foldl_applyMutation]
  have hr : ∀ mu ∈ (queueTxn s now q op arg).2.1, routedPartition mu.mapName mu.key = forKey q :=
    fun mu hmu => queueTxn_routed hmu
  generalize (queueTxn s now q op arg).2.1 = muts at hr
  generalize forKey q = p at hr
  induction muts generalizing s with
  | nil => exact ⟨rfl, hs⟩
  | cons mu muts ih =>
    have hmu := hr mu (by simp)
    subst hmu
    rw [List.foldl_cons, List.map_cons, List.foldl_cons]
    cases hd : mu.del with
    | true =>
      have hc : content (s.erase (routedPartition mu.mapName mu.key) (mu.mapName, mu.key)) =
          rawRecord (content s) mu.record := by
        simp only [Mutation.record, hd, if_true]
        exact content_erase s (mu.mapName, mu.key)
      rw [if_pos rfl, ← hc]
      exact ih (hs.erase (mu.mapName, mu.key)) (fun mu' hmu' => hr mu' (by simp [hmu']))
    | false =>
      have hc : content (s.set (routedPartition mu.mapName mu.key) (mu.mapName, mu.key)
          ⟨mu.value, 0⟩) = rawRecord (content s) mu.record := by
        simp only [Mutation.record, hd]
        exact content_set s (mu.mapName, mu.key) ⟨mu.value, 0⟩
      rw [if_neg (by simp), ← hc]
      exact ih (hs.set (mu.mapName, mu.key) _) (fun mu' hmu' => hr mu' (by simp [hmu']))

/-- **A mutation changes the content by its records**, and keeps the store placed. -/
theorem mutator_content (hs : Placed s) (m : Mutator) (now : ℕ) :
    content (m.run s now).2 = (m.run s now).1.foldl rawRecord (content s) ∧
    Placed (m.run s now).2 := by
  cases m with
  | put name key value ttlMs lag =>
    exact ⟨content_set s (name, key) _, hs.set (name, key) _⟩
  | remove name key =>
    exact ⟨content_erase s (name, key), hs.erase (name, key)⟩
  | execute name key proc arg =>
    by_cases hres : isReservedMap name = true
    · simp only [Mutator.run, hres, if_true]
      exact ⟨rfl, hs⟩
    · have hp : forKey key = routedPartition name key := by
        have : name ≠ queueSegMap := fun h => hres (by simp [isReservedMap, h])
        simp [routedPartition, this]
      simp only [Mutator.run, hres]
      rcases applyExecute_cases s name key proc arg now with
        ⟨hl, he⟩ | ⟨hl, he⟩ | ⟨v, -, hl, he⟩
      · exact ⟨by rw [if_neg (by simp), hl, he]; rfl, by rw [if_neg (by simp), he]; exact hs⟩
      · rw [if_neg (by simp), hl, he, hp]
        exact ⟨content_erase s (name, key), hs.erase (name, key)⟩
      · rw [if_neg (by simp), hl, he, hp]
        exact ⟨content_set s (name, key) v, hs.set (name, key) v⟩
  | queueExecute qname op arg => exact queueTxn_content hs now qname op arg
  | clear name =>
    refine ⟨?_, hs.of_le fun p r v h => ?_⟩
    · refine (content_clearMap s name).trans (funext fun r => ?_)
      by_cases h0 : (s.clearMap name).1.length = 0
      · -- a clear that removed nothing is not logged
        have hnone : r.1 = name → content s r = none := by
          intro hr
          cases hc : content s r with
          | none => rfl
          | some v =>
            have : entryOf r v ∈ (s.clearMap name).1 := mem_clearMap.mpr ⟨hr, _, hc⟩
            rw [List.length_eq_zero_iff.mp h0] at this
            simp at this
        simp only [Mutator.run, localClearMap, h0, if_true, List.foldl_nil]
        split
        · next hr => exact (hnone hr).symm
        · rfl
      · simp only [Mutator.run, localClearMap, h0, if_false, List.foldl_cons, List.foldl_nil]
        rfl
    · simp only [Mutator.run, localClearMap, find_clearMap] at h
      split at h
      · simp at h
      · exact h
  | dropMigrated p es =>
    refine ⟨funext fun r => ?_, hs.of_le fun q r v h => ?_⟩
    · exact (content_dropMigrated hs p es r).trans (foldl_rawRecord_removes _ _ _).symm
    · simp only [Mutator.run, dropMigratedLogged, find_dropMigrated] at h
      split at h
      · exact (Option.filter_eq_some_iff.mp h).1
      · exact h
  | prune p keep =>
    refine ⟨funext fun r => ?_, hs.of_le fun q r v h => ?_⟩
    · exact (content_pruneToKeyset hs p keep r).trans (foldl_rawRecord_removes _ _ _).symm
    · simp only [Mutator.run, pruneToKeysetLogged, find_pruneToKeyset] at h
      split at h
      · simp at h
      · exact h

/-! ### Replay of harmless records -/

/-- The value is still there after `t`. -/
def Value.alive (t : ℕ) (v : Value) : Bool :=
  decide (v.expireAt = 0) || decide ((t : ℤ) < v.expireAt.toInt)

theorem Value.alive_eq_false {t : ℕ} {v : Value} :
    v.alive t = false ↔ v.expireAt ≠ 0 ∧ v.expireAt.toInt ≤ t := by
  simp [Value.alive]

theorem Entry.dead_eq (e : Entry) (t : ℕ) : e.dead t = !e.val.alive t := by
  rw [Bool.eq_iff_iff, Bool.not_eq_true', Value.alive_eq_false]
  simp [Entry.dead, Entry.val]

/-- An expired value is not alive, and one that is not alive has expired at the next instant. -/
theorem Value.expired_succ (v : Value) (t : ℕ) : v.expired (t + 1) = !v.alive t := by
  by_cases h : v.expireAt = 0
  · simp [Value.expired, Value.alive, h]
  · simp only [Value.expired, Value.alive, h, ne_eq, not_false_eq_true, decide_true, Bool.true_and,
      decide_false, Bool.false_or, ← decide_not, not_lt, Nat.cast_add, Nat.cast_one]
    exact decide_eq_decide.mpr (by omega)

theorem Value.alive_mono {v : Value} {t u : ℕ} (h : v.alive u = true) (htu : t ≤ u) :
    v.alive t = true := by
  by_contra hx
  have := Value.alive_eq_false.mp (by simpa using hx)
  rw [Value.alive_eq_false.mpr ⟨this.1, by omega⟩] at h
  simp at h

theorem Value.not_expired_of_alive {v : Value} {t u : ℕ} (h : v.alive u = true) (htu : t ≤ u) :
    v.expired t = false := by
  by_contra hx
  have hx' := Value.expired_mono (by simpa using hx) (show t ≤ u + 1 by omega)
  rw [Value.expired_succ, h] at hx'
  simp at hx'

/-- From `t` on, the two contents show the same live values. -/
def AgreeFrom (t : ℕ) (c c' : Content) : Prop :=
  ∀ u, t ≤ u → ∀ r, (c r).filter (Value.alive u) = (c' r).filter (Value.alive u)

/-- A record whose put cannot bring back what it replaced. -/
def WalRecord.Harmless (now : ℕ) (c : Content) (r : WalRecord) : Prop :=
  r.op = .put →
    (isLegacyQueue r.entry.mapName r.entry.value = true → r.entry.dead now = true) ∧
    (r.entry.expireAt = 0 ∨ ∀ old, c r.entry.ref = some old → old.expireAt ≠ 0 ∧
      (old.expireAt.toInt ≤ r.entry.expireAt.toInt ∨ old.expireAt.toInt ≤ now))

/-- All records of a list, each on the content the ones before it leave. -/
def HarmlessLog (now : ℕ) : Content → List WalRecord → Prop
  | _, [] => True
  | c, r :: rs => r.Harmless now c ∧ HarmlessLog now (rawRecord c r) rs

theorem loadContent_of_not_legacy {e : Entry} (he : isLegacyQueue e.mapName e.value = false)
    (c : Content) : loadContent c e = putContent c e := by
  simp [loadContent, upgraded, he]

/-- Replay follows the store along a harmless record. -/
theorem agree_record {now t : ℕ} (ht : now ≤ t) {c c' : Content} (hag : AgreeFrom t c c')
    {r : WalRecord} (hr : r.Harmless now c') :
    AgreeFrom t (replayContent t c r) (rawRecord c' r) := by
  obtain ⟨op, e⟩ := r
  intro u hu x
  have hx := hag u hu x
  cases op with
  | put =>
    obtain ⟨hleg, hold⟩ := hr rfl
    simp only at hleg hold
    by_cases hd : e.dead t = true
    · -- the put is skipped, and what it replaced is dead as well
      simp only [replayContent, rawRecord, hd, if_true, putContent, Function.update_apply]
      split
      · next hxe =>
          subst hxe
          rw [hx]
          have hdv : e.val.alive u = false := by
            rw [Entry.dead_eq, Bool.not_eq_true', Value.alive_eq_false] at hd
            exact Value.alive_eq_false.mpr ⟨hd.1, by omega⟩
          have he0 : e.expireAt ≠ 0 := (Value.alive_eq_false.mp hdv).1
          have heu : e.expireAt.toInt ≤ u := (Value.alive_eq_false.mp hdv).2
          rw [Option.filter_some, hdv]
          cases hc : c' e.ref with
          | none => rfl
          | some old =>
            have := (hold.resolve_left he0) old hc
            have hda : old.alive u = false := Value.alive_eq_false.mpr ⟨this.1, by omega⟩
            simp [Option.filter_some, hda]
      · exact hx
    · have hnl : isLegacyQueue e.mapName e.value = false := by
        by_contra hl
        have hdn := hleg (by simpa using hl)
        rw [Entry.dead_eq, Bool.not_eq_true', Value.alive_eq_false] at hd hdn
        exact hd ⟨hdn.1, by omega⟩
      have hrep : replayContent t c ⟨.put, e⟩ = putContent c e := by
        simp [replayContent, hd, loadContent_of_not_legacy hnl]
      simp only [hrep, rawRecord, putContent, Function.update_apply]
      split
      · rfl
      · exact hx
  | remove =>
    simp only [replayContent, rawRecord, Function.update_apply]
    split
    · rfl
    · exact hx
  | clear =>
    simp only [replayContent, rawRecord]
    split
    · rfl
    · exact hx

theorem agree_log {now t : ℕ} (ht : now ≤ t) {c c' : Content} (hag : AgreeFrom t c c')
    (hrs : HarmlessLog now c' rs) :
    AgreeFrom t (rs.foldl (replayContent t) c) (rs.foldl rawRecord c') := by
  induction rs generalizing c c' with
  | nil => exact hag
  | cons r rs ih => exact ih (agree_record ht hag hrs.1) hrs.2

theorem harmless_of_not_put (hrs : ∀ r ∈ rs, r.op ≠ .put) (c : Content) : HarmlessLog now c rs := by
  induction rs generalizing c with
  | nil => trivial
  | cons r rs ih =>
    exact ⟨fun h => absurd h (hrs r (by simp)), ih (fun r' hr' => hrs r' (by simp [hr'])) _⟩

/-- Only a put with a TTL, or of a value in the old queue format, can be harmful. -/
theorem mutator_harmless {d : Durable} {tick : ℕ} {m : Mutator}
    (hm : DurableOp.Harmless d (tick, .logged m)) :
    HarmlessLog (d.now + tick) (content d.store) (m.run d.store (d.now + tick)).1 := by
  generalize hnow : d.now + tick = now
  cases m with
  | put name key value ttlMs lag =>
    simp only [DurableOp.Harmless, hnow] at hm
    refine ⟨fun _ => ⟨fun hl => ?_, hm.2⟩, trivial⟩
    simpa [Entry.dead] using hm.1 hl
  | remove name key => exact harmless_of_not_put (by simp [Mutator.run, applyRemove]) _
  | execute name key proc arg =>
    by_cases hres : isReservedMap name = true
    · simp [Mutator.run, hres, HarmlessLog]
    · have hname : name ≠ queueMap := fun h => hres (by simp [isReservedMap, h])
      have hp : forKey key = routedPartition name key := by
        have : name ≠ queueSegMap := fun h => hres (by simp [isReservedMap, h])
        simp [routedPartition, this]
      simp only [Mutator.run, hres]
      rcases applyExecute_cases d.store name key proc arg now with
        ⟨hl, -⟩ | ⟨hl, -⟩ | ⟨v, hv, hl, -⟩
      · rw [if_neg (by simp), hl]
        trivial
      · rw [if_neg (by simp), hl]
        exact harmless_of_not_put (by simp) _
      · rw [if_neg (by simp), hl]
        refine ⟨fun _ => ⟨fun hleg => absurd hleg (by simp [isLegacyQueue, hname]), ?_⟩, trivial⟩
        -- the expiry of a live value is kept, and a dead value is replaced for good
        cases hlk : d.store.lookup (forKey key) name key now with
        | none => exact Or.inl (by simpa [hlk] using hv)
        | some w =>
          have hve : v.expireAt = w.expireAt := by simpa [hlk] using hv
          have hfind := (lookup_eq_some.mp hlk).1
          by_cases hw : w.expireAt = 0
          · exact Or.inl (hve.trans hw)
          · refine Or.inr fun old hold => ?_
            have hold' : d.store.find (routedPartition name key) (name, key) = some old := hold
            rw [← hp, hfind, Option.some.injEq] at hold'
            subst hold'
            exact ⟨hw, Or.inl (by rw [hve])⟩
  | queueExecute qname op arg =>
    have hput : ∀ (c : Content) (nm ky data : Bytes), isLegacyQueue nm data = false →
        WalRecord.Harmless now c ⟨.put, ⟨nm, ky, data, 0⟩⟩ :=
      fun c nm ky data h _ => ⟨fun hl => by simp [h] at hl, Or.inl rfl⟩
    have hmeta : ∀ info : Bytes, info.length = 24 → isLegacyQueue queueMap info = false :=
      fun info h => by simp [isLegacyQueue, h]
    have hseg : ∀ data : Bytes, isLegacyQueue queueSegMap data = false :=
      fun data => by simp [isLegacyQueue, queueMap_ne_queueSegMap.symm]
    have hrun : (Mutator.run (.queueExecute qname op arg) d.store now).1 =
        (queueTxn d.store now qname op arg).2.1.map Mutation.record := rfl
    rw [hrun]
    rcases queueTxn_muts d.store now qname op arg with e | ⟨i, info, hi, ⟨data, e⟩ | e⟩
    · simp [e, HarmlessLog]
    · rw [e]
      exact ⟨hput _ _ _ _ (hseg data), hput _ _ _ _ (hmeta info hi), trivial⟩
    · rw [e]
      exact ⟨fun h => by simp [Mutation.record] at h, hput _ _ _ _ (hmeta info hi), trivial⟩
  | clear name =>
    refine harmless_of_not_put (fun r hr => ?_) _
    simp only [Mutator.run, localClearMap] at hr
    split at hr
    · simp at hr
    · simp [List.mem_singleton.mp hr]
  | dropMigrated p es =>
    refine harmless_of_not_put (fun r hr => ?_) _
    obtain ⟨e, -, rfl⟩ := List.mem_map.mp hr
    simp
  | prune p keep =>
    refine harmless_of_not_put (fun r hr => ?_) _
    obtain ⟨e, -, rfl⟩ := List.mem_map.mp hr
    simp

/-! ### Recovered content is in the current format -/

/-- Every value of the content has the property. -/
def Content.All (P : Ref → Value → Prop) (c : Content) : Prop := ∀ r v, c r = some v → P r v

namespace Content.All
variable {P : Ref → Value → Prop} {c : Content}

theorem put (hc : c.All P) {e : Entry} (he : P e.ref e.val) : (putContent c e).All P := by
  intro r v hv
  simp only [putContent, Function.update_apply] at hv
  split at hv
  · next hr =>
      rw [← Option.some.inj hv, hr]
      exact he
  · exact hc r v hv

theorem load (hc : c.All P) {e : Entry} (he : ∀ d ∈ upgraded e, P d.ref d.val) :
    (loadContent c e).All P := by
  have hfold : ∀ (ds : List Entry) (c : Content), c.All P → (∀ d ∈ ds, P d.ref d.val) →
      Content.All P (ds.foldl putContent c) := by
    intro ds
    induction ds with
    | nil => exact fun c hc _ => hc
    | cons d ds ih =>
      exact fun c hc hds => ih _ (hc.put (hds d (by simp))) (fun d' hd' => hds d' (by simp [hd']))
  exact hfold _ c hc he

theorem restored {snapshot : List Entry} (hes : ∀ e ∈ snapshot, ∀ d ∈ upgraded e, P d.ref d.val) :
    (restoredContent now snapshot).All P := by
  have hfold : ∀ (es : List Entry) (c : Content), c.All P →
      (∀ e ∈ es, ∀ d ∈ upgraded e, P d.ref d.val) → Content.All P (es.foldl loadContent c) := by
    intro es
    induction es with
    | nil => exact fun c hc _ => hc
    | cons e es ih =>
      exact fun c hc hes => ih _ (hc.load (hes e (by simp))) (fun e' he' => hes e' (by simp [he']))
  exact hfold _ _ (fun r v h => by simp at h) (fun e he => hes e (List.mem_of_mem_filter he))

theorem replay (hc : c.All P) (hrs : ∀ r ∈ rs, ∀ d ∈ upgraded r.entry, P d.ref d.val) :
    Content.All P (rs.foldl (replayContent now) c) := by
  induction rs generalizing c with
  | nil => exact hc
  | cons r rs ih =>
    refine ih ?_ (fun r' hr' => hrs r' (by simp [hr']))
    have hr := hrs r (by simp)
    obtain ⟨op, e⟩ := r
    cases op with
    | put =>
      simp only [replayContent]
      split
      · exact hc
      · exact hc.load hr
    | remove =>
      intro r v hv
      simp only [replayContent, Function.update_apply] at hv
      split at hv
      · simp at hv
      · exact hc r v hv
    | clear =>
      intro r v hv
      simp only [replayContent] at hv
      split at hv
      · simp at hv
      · exact hc r v hv

end Content.All

/-- No value is a queue of the old format. -/
def Plain (c : Content) : Prop := ∀ r v, c r = some v → isLegacyQueue r.1 v.data = false

theorem Plain.load {c : Content} (hc : Plain c) (e : Entry) : Plain (loadContent c e) :=
  Content.All.load (P := fun r v => isLegacyQueue r.1 v.data = false) hc
    fun _ hd => upgraded_not_legacy hd

theorem plain_restored (now : ℕ) (snapshot : List Entry) : Plain (restoredContent now snapshot) :=
  Content.All.restored fun _ _ _ hd => upgraded_not_legacy hd

theorem Plain.replay {c : Content} (hc : Plain c) :
    Plain (rs.foldl (replayContent now) c) :=
  Content.All.replay (P := fun r v => isLegacyQueue r.1 v.data = false) hc
    fun _ _ _ hd => upgraded_not_legacy hd

/-! ### The invariant of a run -/

/-- The content a restart recovers from a snapshot and a list of records. -/
def recoveredContent (restoreAt openAt : ℕ) (snapshot : List Entry) (log : List WalRecord) :
    Content :=
  log.foldl (replayContent openAt) (restoredContent restoreAt snapshot)

/-- The file holds `log`, and whenever the node restarts the recovered content shows what the
store shows. -/
structure DurableInv (C : Codec) (d : Durable) (log : List WalRecord) : Prop where
  file : d.file = log.flatMap (frame C)
  cap : ∀ r ∈ log, UnderCap C r
  placed : Placed d.store
  agree : ∀ t₁ t₂, d.now ≤ t₁ → t₁ ≤ t₂ →
    AgreeFrom t₂ (recoveredContent t₁ t₂ d.snapshot log) (content d.store)

theorem inv_fresh (C : Codec) (now : ℕ) : DurableInv C (Durable.fresh now) [] where
  file := rfl
  cap := by simp
  placed := placed_empty
  agree := fun _ _ _ _ _ _ _ => rfl

section steps
variable {C : Codec} {d : Durable} {log : List WalRecord}

theorem foldl_appendLocked (rs : List WalRecord) (file : Bytes) :
    rs.foldl (appendLocked C) file = file ++ rs.flatMap (frame C) := by
  induction rs generalizing file with
  | nil => simp
  | cons r rs ih => simp [ih, appendLocked]

theorem inv_logged (h : DurableInv C d log) {tick : ℕ} {m : Mutator}
    (hm : DurableOp.Harmless d (tick, .logged m)) (hcap : DurableOp.UnderCap C d (tick, .logged m)) :
    DurableInv C (d.step C (tick, .logged m)) (log ++ (m.run d.store (d.now + tick)).1) := by
  obtain ⟨hcontent, hplaced⟩ := mutator_content h.placed m (d.now + tick)
  refine ⟨?_, ?_, hplaced, fun t₁ t₂ h₁ h₂ => ?_⟩
  · simp [Durable.step, foldl_appendLocked, h.file]
  · intro r hr
    rcases List.mem_append.mp hr with hr | hr
    · exact h.cap r hr
    · exact hcap r hr
  · have hnow : d.now + tick ≤ t₁ := h₁
    have hag := h.agree t₁ t₂ (by omega) h₂
    have := agree_log (by omega) hag (mutator_harmless hm)
    rw [recoveredContent, List.foldl_append]
    change AgreeFrom t₂ _ (content (m.run d.store (d.now + tick)).2)
    rw [hcontent]
    exact this

theorem inv_sweep (h : DurableInv C d log) (tick : ℕ) :
    DurableInv C (d.step C (tick, .sweep)) log := by
  refine ⟨h.file, h.cap, h.placed.of_le fun p r v hf => ?_, fun t₁ t₂ h₁ h₂ u hu r => ?_⟩
  · simp only [Durable.step, find_sweepExpired] at hf
    exact (Option.filter_eq_some_iff.mp hf).1
  · have hnow : d.now + tick ≤ t₁ := h₁
    refine (h.agree t₁ t₂ (by omega) h₂ u hu r).trans ?_
    have hfind : content (d.store.sweepExpired (d.now + tick)) r =
        (content d.store r).filter (fun v => !v.expired (d.now + tick)) := find_sweepExpired _ _ _ _
    change _ = (content (d.store.sweepExpired (d.now + tick)) r).filter _
    rw [hfind]
    cases content d.store r with
    | none => rfl
    | some v =>
      -- what is alive from `u` on has not expired before
      by_cases ha : v.alive u = true
      · simp [Option.filter_some, Value.not_expired_of_alive ha (show d.now + tick ≤ u by omega)]
      · by_cases hx : v.expired (d.now + tick) = true <;> simp [Option.filter_some, ha, hx]

/-- Writing entries that are all in the content `c` gives back `c` where they are. -/
theorem foldl_putContent {c : Content} {es : List Entry} (hes : ∀ e ∈ es, c e.ref = some e.val)
    (b : Content) (r : Ref) :
    es.foldl putContent b r = if r ∈ es.map Entry.ref then c r else b r := by
  induction es generalizing b with
  | nil => simp
  | cons e es ih =>
    rw [List.foldl_cons, ih (fun e' he' => hes e' (by simp [he']))]
    by_cases h1 : r ∈ es.map Entry.ref
    · simp [h1]
    · by_cases h2 : r = e.ref
      · subst h2
        simp [h1, putContent, hes e (by simp)]
      · simp [h1, h2, putContent]

/-- Loading entries in the current format writes them as they are. -/
theorem foldl_loadContent {es : List Entry}
    (hes : ∀ e ∈ es, isLegacyQueue e.mapName e.value = false) (c : Content) :
    es.foldl loadContent c = es.foldl putContent c := by
  induction es generalizing c with
  | nil => rfl
  | cons e es ih =>
    rw [List.foldl_cons, List.foldl_cons, loadContent_of_not_legacy (hes e (by simp)),
      ih (fun e' he' => hes e' (by simp [he']))]

/-- **A snapshot restores what is alive**, if that is in the current format, in whatever order the Go
maps were iterated. -/
theorem restoredContent_perm (hs : Placed s) (now t : ℕ) {snapshot : List Entry}
    (hsnap : snapshot.Perm (s.snapshotAll now))
    (hplain : ∀ r v, content s r = some v → v.alive t = true → isLegacyQueue r.1 v.data = false) :
    restoredContent t snapshot =
      fun r => (content s r).filter (fun v => !v.expired now && v.alive t) := by
  set es := snapshot.filter (fun e => !e.dead t) with hes
  have hmem : ∀ e, e ∈ es ↔ content s e.ref = some e.val ∧
      e.val.expired now = false ∧ e.val.alive t = true := by
    intro e
    rw [hes, List.mem_filter, hsnap.mem_iff, mem_snapshotAll, Entry.dead_eq, Bool.not_not]
    constructor
    · rintro ⟨⟨p, hf, hx⟩, ha⟩
      have hp := hs p e.ref e.val hf
      exact ⟨by rw [content, hp]; exact hf, hx, ha⟩
    · rintro ⟨hf, hx, ha⟩
      exact ⟨⟨_, hf, hx⟩, ha⟩
  have hnew : ∀ e ∈ es, isLegacyQueue e.mapName e.value = false := fun e he =>
    hplain e.ref e.val ((hmem e).mp he).1 ((hmem e).mp he).2.2
  funext r
  change es.foldl loadContent (fun _ => none) r = _
  rw [foldl_loadContent hnew, foldl_putContent (fun e he => ((hmem e).mp he).1)]
  cases hc : content s r with
  | none => simp
  | some v =>
    have hiff : r ∈ es.map Entry.ref ↔ v.expired now = false ∧ v.alive t = true := by
      constructor
      · intro h
        obtain ⟨e, he, rfl⟩ := List.mem_map.mp h
        obtain ⟨hf, hx⟩ := (hmem e).mp he
        rwa [← Option.some.inj (hc.symm.trans hf)] at hx
      · exact fun h => List.mem_map.mpr ⟨entryOf r v, (hmem _).mpr ⟨hc, h⟩, rfl⟩
    simp [hiff, Option.filter_some]

theorem restoredContent_snapshotAll (hs : Placed s) (now t : ℕ)
    (hplain : ∀ r v, content s r = some v → v.alive t = true → isLegacyQueue r.1 v.data = false) :
    restoredContent t (s.snapshotAll now) =
      fun r => (content s r).filter (fun v => !v.expired now && v.alive t) :=
  restoredContent_perm hs now t (List.Perm.refl _) hplain

theorem inv_checkpoint (h : DurableInv C d log) (tick : ℕ) :
    DurableInv C (d.step C (tick, .checkpoint)) [] := by
  refine ⟨rfl, by simp, h.placed, fun t₁ t₂ h₁ h₂ u hu r => ?_⟩
  have hnow : d.now + tick ≤ t₁ := h₁
  -- what is alive in the store was recovered, so it is in the current format
  have hplain : ∀ r v, content d.store r = some v → v.alive t₁ = true →
      isLegacyQueue r.1 v.data = false := by
    intro r v hf ha
    have hag := h.agree t₁ t₁ (by omega) le_rfl t₁ le_rfl r
    rw [hf, Option.filter_some, if_pos ha, Option.filter_eq_some_iff] at hag
    exact (plain_restored t₁ d.snapshot).replay r v hag.1
  change (restoredContent t₁ (d.store.snapshotAll (d.now + tick)) r).filter _ =
    (content d.store r).filter _
  rw [restoredContent_snapshotAll h.placed _ _ hplain]
  dsimp only
  cases content d.store r with
  | none => rfl
  | some v =>
    by_cases ha : v.alive u = true
    · have hx := Value.not_expired_of_alive ha (show d.now + tick ≤ u by omega)
      have ha' := Value.alive_mono ha (show t₁ ≤ u by omega)
      simp [Option.filter_some, hx, ha']
    · simp [Option.filter_some, ha]

theorem Placed.loadAll (hs : Placed s) (es : List Entry) : Placed (s.loadAll es) := by
  have hentries : ∀ (ds : List Entry) (s : Store), Placed s → Placed (ds.foldl loadEntry s) := by
    intro ds
    induction ds with
    | nil => exact fun s hs => hs
    | cons d ds ih => exact fun s hs => ih _ (hs.set d.ref d.val)
  induction es generalizing s with
  | nil => exact hs
  | cons e es ih => exact ih (hentries _ _ hs)

theorem Placed.replay {rs : List (UInt8 × Entry)} (hs : Placed s) :
    Placed (rs.foldl (replayRecord now) s) := by
  induction rs generalizing s with
  | nil => exact hs
  | cons r rs ih =>
    refine ih ?_
    unfold replayRecord
    split
    · split
      · exact hs
      · exact hs.loadAll _
    · split
      · exact hs.erase (r.2.mapName, r.2.key)
      · split
        · refine hs.of_le fun p x v h => ?_
          rw [find_clearMap] at h
          split at h
          · simp at h
          · exact h
        · exact hs

theorem inv_restart (h : DurableInv C d log) (tick opening : ℕ) :
    DurableInv C (d.step C (tick, .restart opening)) log := by
  refine ⟨h.file, h.cap, (placed_empty.loadAll _).replay, fun t₁ t₂ h₁ h₂ u hu r => ?_⟩
  have hnow : d.now + tick + opening ≤ t₁ := h₁
  refine (h.agree t₁ t₂ (by omega) h₂ u hu r).trans ?_
  have hrec := h.agree (d.now + tick) (d.now + tick + opening) (by omega) (by omega) u (by omega) r
  rw [← hrec]
  change _ = (content (recovered C (d.now + tick) (d.now + tick + opening) d) r).filter _
  rw [content_recovered h.cap h.file]
  rfl

/-- One step of a run. -/
theorem inv_step (h : DurableInv C d log) {o : ℕ × DurableOp} (hm : DurableOp.Harmless d o)
    (hcap : DurableOp.UnderCap C d o) : ∃ log', DurableInv C (d.step C o) log' := by
  obtain ⟨tick, op⟩ := o
  cases op with
  | logged m => exact ⟨_, inv_logged h hm hcap⟩
  | sweep => exact ⟨_, inv_sweep h tick⟩
  | checkpoint => exact ⟨_, inv_checkpoint h tick⟩
  | restart opening => exact ⟨_, inv_restart h tick opening⟩

theorem get_eq_content (s : Store) (name key : Bytes) (t : ℕ) :
    s.get (routedPartition name key) name key (t + 1) =
      ((content s (name, key)).filter (Value.alive t)).map Value.data := by
  have hf : (fun v : Value => !v.expired (t + 1)) = Value.alive t :=
    funext fun v => by simp [Value.expired_succ]
  rw [Store.get, Store.lookup, hf]
  rfl

theorem recovers_of_inv (h : DurableInv C d log) : Recovers C d := by
  intro t₁ t₂ later h₁ h₂ hl name key
  obtain ⟨u, rfl⟩ : ∃ u, later = u + 1 := ⟨later - 1, by omega⟩
  rw [get_eq_content, get_eq_content, content_recovered h.cap h.file]
  exact congrArg _ (h.agree t₁ t₂ h₁ h₂ u (by omega) (name, key))

/-- What a put that recovers says about replay. -/
theorem recovers_put (h : DurableInv C d log) {tick lag : ℕ} {name key value : Bytes}
    {ttlMs : Int64}
    (hcap : DurableOp.UnderCap C d (tick, .logged (.put name key value ttlMs lag)))
    (hrec : Recovers C (d.step C (tick, .logged (.put name key value ttlMs lag)))) {t : ℕ}
    (ht : d.now + tick ≤ t) :
    ((replayContent t (recoveredContent t t d.snapshot log)
      ⟨.put, ⟨name, key, value, expireFromTTL (d.now + tick - lag) ttlMs⟩⟩ (name, key)).filter
        (Value.alive t)).map Value.data =
    ((some ⟨value, expireFromTTL (d.now + tick - lag) ttlMs⟩ : Option Value).filter
      (Value.alive t)).map Value.data := by
  generalize hr : (⟨.put, ⟨name, key, value, expireFromTTL (d.now + tick - lag) ttlMs⟩⟩ :
    WalRecord) = r
  have hrun : (Mutator.run (.put name key value ttlMs lag) d.store (d.now + tick)).1 = [r] :=
    congrArg (fun r => [r]) hr
  have hfile : (d.step C (tick, .logged (.put name key value ttlMs lag))).file =
      (log ++ [r]).flatMap (frame C) := by
    simp only [Durable.step, hrun, foldl_appendLocked, h.file, List.flatMap_append]
  have hcap' : ∀ r' ∈ log ++ [r], UnderCap C r' := by
    intro r' hr'
    rcases List.mem_append.mp hr' with hr' | hr'
    · exact h.cap r' hr'
    · exact hcap r' (by simpa only [hrun] using hr')
  have hget := hrec t t (t + 1) ht le_rfl (by omega) name key
  rw [get_eq_content, get_eq_content, content_recovered hcap' hfile, List.foldl_append] at hget
  refine Eq.trans hget ?_
  have hstore : content (d.step C (tick, .logged (.put name key value ttlMs lag))).store =
      Function.update (content d.store) (name, key)
        (some ⟨value, expireFromTTL (d.now + tick - lag) ttlMs⟩) := content_set _ (name, key) _
  rw [hstore, Function.update_self]

/-- A harmful put shows at once. -/
theorem harmless_of_recovers (h : DurableInv C d log) {o : ℕ × DurableOp}
    (hcap : DurableOp.UnderCap C d o) (hrec : Recovers C (d.step C o)) : DurableOp.Harmless d o := by
  obtain ⟨tick, op⟩ := o
  unfold DurableOp.Harmless
  split
  · next name key value ttlMs lag hop =>
      simp only at hop
      subst hop
      have hput := fun t ht => recovers_put h hcap hrec (t := t) ht
      simp only at hput ⊢
      generalize d.now + tick - lag = readAt at hput ⊢
      generalize hnow : d.now + tick = now at hput ⊢
      generalize expireFromTTL readAt ttlMs = e at hput ⊢
      constructor
      · -- a live value in the old format is converted
        intro hleg
        by_contra hdead
        have halive : (⟨value, e⟩ : Value).alive now = true := by
          by_contra hx
          exact hdead (Value.alive_eq_false.mp (by simpa using hx))
        have heq := hput now le_rfl
        have hrep : replayContent now (recoveredContent now now d.snapshot log)
            ⟨.put, ⟨name, key, value, e⟩⟩ =
            loadContent (recoveredContent now now d.snapshot log) ⟨name, key, value, e⟩ := by
          simp [replayContent, Entry.dead_eq, Entry.val, halive]
        rw [hrep, Option.filter_some, if_pos halive, Option.map_some, Option.map_eq_some_iff] at heq
        obtain ⟨w, hw, hdata⟩ := heq
        have hplain := ((plain_restored now d.snapshot).replay.load ⟨name, key, value, e⟩)
          (name, key) w (Option.filter_eq_some_iff.mp hw).1
        rw [hdata] at hplain
        simp [hleg] at hplain
      · -- once the put has expired, what it replaced is back
        by_cases he : e = 0
        · exact Or.inl he
        · refine Or.inr fun old hold => ?_
          by_contra hcon
          -- the first instant at which the put is dead
          obtain ⟨t, hnt, het, ht⟩ : ∃ t : ℕ, now ≤ t ∧ e.toInt ≤ t ∧ (t = now ∨ (t : ℤ) = e.toInt) :=
            ⟨max now e.toInt.toNat, by omega, by omega, by omega⟩
          have heq := hput t hnt
          have hdead : (⟨value, e⟩ : Value).alive t = false := Value.alive_eq_false.mpr ⟨he, het⟩
          have hrep : replayContent t (recoveredContent t t d.snapshot log)
              ⟨.put, ⟨name, key, value, e⟩⟩ = recoveredContent t t d.snapshot log := by
            simp [replayContent, Entry.dead_eq, Entry.val, hdead]
          have hag := h.agree t t (by omega) le_rfl t le_rfl (name, key)
          have hold' : content d.store (name, key) = some old := hold
          have hlive : old.alive t = true := by
            by_contra hx
            have := Value.alive_eq_false.mp (by simpa using hx)
            exact hcon ⟨this.1, by omega⟩
          rw [hrep, hag, hold', Option.filter_some, if_pos hlive, Option.filter_some, hdead] at heq
          simp at heq
  · trivial

end steps

/-! ### The characterisation -/

section main
variable {C : Codec}

theorem run_concat (ops : List (ℕ × DurableOp)) (o : ℕ × DurableOp) (d : Durable) :
    Durable.run C (ops ++ [o]) d = (Durable.run C ops d).step C o := by
  simp [Durable.run]

theorem inv_run (ops : List (ℕ × DurableOp)) (hcap : ∀ pre o, pre ++ [o] <+: ops →
      DurableOp.UnderCap C (Durable.run C pre (Durable.fresh now)) o) (hm : ∀ pre o, pre ++ [o] <+: ops →
      DurableOp.Harmless (Durable.run C pre (Durable.fresh now)) o) :
    ∃ log, DurableInv C (Durable.run C ops (Durable.fresh now)) log := by
  induction ops using List.reverseRecOn with
  | nil => exact ⟨[], inv_fresh C now⟩
  | append_singleton ops o ih =>
    have hpre : ∀ pre o', pre ++ [o'] <+: ops → pre ++ [o'] <+: ops ++ [o] :=
      fun pre o' h => h.trans (List.prefix_append _ _)
    obtain ⟨log, hlog⟩ := ih (fun pre o' h => hcap pre o' (hpre pre o' h))
      (fun pre o' h => hm pre o' (hpre pre o' h))
    rw [run_concat]
    exact inv_step hlog (hm ops o List.prefix_rfl) (hcap ops o List.prefix_rfl)

/-- **Crash recovery reproduces the live store exactly when no put is harmful**: on every run of
logged mutations, sweeps, checkpoints and restarts, with records under the size cap. -/
theorem recovery_iff (C : Codec) (now : ℕ) (ops : List (ℕ × DurableOp))
    (hcap : ∀ pre o, pre ++ [o] <+: ops →
      DurableOp.UnderCap C (Durable.run C pre (Durable.fresh now)) o) :
    (∀ pre, pre <+: ops → Recovers C (Durable.run C pre (Durable.fresh now))) ↔
      ∀ pre o, pre ++ [o] <+: ops →
        DurableOp.Harmless (Durable.run C pre (Durable.fresh now)) o := by
  constructor
  · intro hrec
    induction ops using List.reverseRecOn with
    | nil =>
      intro pre o h
      simp at h
    | append_singleton ops o ih =>
      have hpre : ∀ pre o', pre ++ [o'] <+: ops → pre ++ [o'] <+: ops ++ [o] :=
        fun pre o' h => h.trans (List.prefix_append _ _)
      have hih := ih (fun pre o' h => hcap pre o' (hpre pre o' h))
        (fun pre h => hrec pre (h.trans (List.prefix_append _ _)))
      intro pre o' h
      rcases List.prefix_concat_iff.mp h with heq | h
      · obtain ⟨rfl, rfl⟩ : pre = ops ∧ o' = o := by
          obtain ⟨h1, h2⟩ := List.append_inj' heq rfl
          exact ⟨h1, by simpa using h2⟩
        obtain ⟨log, hlog⟩ := inv_run _ (fun pre o' h => hcap pre o' (hpre pre o' h)) hih
        refine harmless_of_recovers hlog (hcap _ _ List.prefix_rfl) ?_
        rw [← run_concat]
        exact hrec _ List.prefix_rfl
      · exact hih pre o' h
  · intro hm pre hpre
    obtain ⟨log, hlog⟩ := inv_run pre (fun p o h => hcap p o (h.trans hpre))
      (fun p o h => hm p o (h.trans hpre))
    exact recovers_of_inv hlog

end main

/-! ### Two runs -/

/-- A put with a TTL of a second, and a checkpoint after it. -/
theorem recovery_iff_put_checkpoint :
    Recovers entryCodec (Durable.run entryCodec
      [(0, .logged (.put [109] [107] [1] 1000 0)), (5, .checkpoint)] (Durable.fresh 0)) := by
  refine (recovery_iff entryCodec 0 _ ?_).mpr ?_ _ List.prefix_rfl
  · intro pre o h
    rcases pre with _ | ⟨x, _ | ⟨y, pre⟩⟩
    · simp only [List.nil_append, List.cons_prefix_cons, List.nil_prefix, and_true] at h
      subst h
      intro r hr
      rw [List.mem_singleton.mp hr, UnderCap]
      decide +kernel
    · simp only [List.cons_append, List.nil_append, List.cons_prefix_cons, List.nil_prefix,
        and_true] at h
      rw [h.2]
      trivial
    · simp [List.cons_prefix_cons] at h
  · intro pre o h
    rcases pre with _ | ⟨x, _ | ⟨y, pre⟩⟩
    · simp only [List.nil_append, List.cons_prefix_cons, List.nil_prefix, and_true] at h
      subst h
      exact ⟨by decide, Or.inr fun old hold => by simp [Durable.run, Durable.fresh] at hold⟩
    · simp only [List.cons_append, List.nil_append, List.cons_prefix_cons, List.nil_prefix,
        and_true] at h
      rw [h.2]
      trivial
    · simp [List.cons_prefix_cons] at h

/-- A put of `1` without a TTL, and one of `2` with a TTL of a millisecond; the node restarts after
two.  The entry had expired before the crash, and comes back as `1`. -/
theorem expired_put_resurrects :
    let d := Durable.run entryCodec [(0, .logged (.put [109] [107] [1] 0 0)),
      (0, .logged (.put [109] [107] [2] 1 0))] (Durable.fresh 0)
    (recovered entryCodec 2000000 2000000 d).get (routedPartition [109] [107]) [109] [107]
      2000001 = some [1] ∧
    d.store.get (routedPartition [109] [107]) [109] [107] 2000001 = none := by
  decide +kernel

end Medusa
