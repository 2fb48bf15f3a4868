import Medusa.WalFile

/-! # Node lifetimes on one data directory

What `medusa.New` does with a data directory: `loadSnapshot`, then `OpenWAL`, whose errors are only
logged.  A node whose log could not be opened serves without one: its writes go to the store alone,
and its checkpoints replace the snapshot and leave the log file as it is.

* `stale_log_replayed`: **such a checkpoint is undone by the next start**, which replays the old log
  over the newer snapshot.
* `start_after_checkpoint`: a start after a checkpoint has exactly the captured content if the log was
  open at the checkpoint, or had no intact record.

The other way to lose content is a put to the queue map that looks like a queue of the old format; the
restore converts it. -/

namespace Medusa

open BigEndian Medusa.Partition Store

/-! ### Lifetimes -/

/-- The files of a data directory; a snapshot that does not exist restores nothing. -/
structure DataDir where
  snapshot : List Entry
  wal : Bytes

/-- How `OpenWAL` ends: the log is open; its file could not be read, and nothing was replayed; it was
replayed but its tail could not be cut; or it could not be opened for writing after that. -/
inductive OpenOutcome where
  | opened
  | unreadable
  | uncut
  | unopened
deriving DecidableEq, Repr

/-- The start of a node, and the clock when it restores and when it opens the log. -/
structure Start where
  loaded : Bool
  opening : OpenOutcome
  restoreAt : ℕ
  openAt : ℕ

/-- A node that serves, with a log (`s.wal` is not nil) or without. -/
structure LiveNode where
  dir : DataDir
  store : Store
  logging : Bool

/-- What a node does while it serves: puts without a TTL, removes and successful checkpoints. -/
inductive LifeAct where
  | put (name key value : Bytes)
  | remove (name key : Bytes)
  | checkpoint
deriving DecidableEq, Repr

/-- A start, and then acts with the clock at each. -/
structure Lifetime where
  start : Start
  acts : List (ℕ × LifeAct)

section run
variable (C : Codec)

/-- The persistence part of `New`. -/
def Start.run (st : Start) (dir : DataDir) : LiveNode :=
  let base := if st.loaded then restore st.restoreAt dir.snapshot else Store.empty
  let replayed := openWAL C st.openAt dir.wal base
  match st.opening with
  | .opened => ⟨{ dir with wal := (reopen C dir.wal).bytes }, replayed, true⟩
  | .unreadable => ⟨dir, base, false⟩
  | .uncut => ⟨dir, replayed, false⟩
  | .unopened => ⟨{ dir with wal := (reopen C dir.wal).bytes }, replayed, false⟩

/-- A logged mutation; without a log only the store changes. -/
def LiveNode.apply {α : Type} (s : LiveNode) (m : Logged α) : LiveNode :=
  { s with
    store := m.store
    dir := { s.dir with
      wal := if s.logging then m.log.foldl (appendLocked C) s.dir.wal else s.dir.wal } }

/-- One act. -/
def LiveNode.act (s : LiveNode) (a : ℕ × LifeAct) : LiveNode :=
  match a.2 with
  | .put name key value => s.apply C (applyPut s.store name key value (expireFromTTL a.1 0) a.1)
  | .remove name key => s.apply C (applyRemove s.store name key a.1)
  | .checkpoint =>
    { s with dir := ⟨s.store.snapshotAll a.1, if s.logging then [] else s.dir.wal⟩ }

/-- A lifetime. -/
def Lifetime.run (l : Lifetime) (dir : DataDir) : LiveNode :=
  l.acts.foldl (LiveNode.act C) (l.start.run C dir)

/-- The directory after the lifetimes, the first on an empty one. -/
def afterLives (lives : List Lifetime) : DataDir :=
  lives.foldl (fun dir l => (l.run C dir).dir) ⟨[], []⟩

/-- The length of the record of the act fits the four bytes of its header. -/
def LifeAct.Fits : LifeAct → Prop
  | put name key value => (C.marshal ⟨name, key, value, 0⟩).length < 2 ^ 32
  | remove name key => (C.marshal ⟨name, key, [], 0⟩).length < 2 ^ 32
  | checkpoint => True

instance (a : LifeAct) : Decidable (a.Fits C) :=
  match a with
  | .put .. => inferInstanceAs (Decidable (_ < _))
  | .remove .. => inferInstanceAs (Decidable (_ < _))
  | .checkpoint => inferInstanceAs (Decidable True)

end run

/-- The act does not put a value that looks like a queue of the old format. -/
def LifeAct.current : LifeAct → Bool
  | put name _ value => !isLegacyQueue name value
  | _ => true

/-! ### What the files hold -/

section invariant
variable (C : Codec)

/-- No replay gets past the bytes. -/
def Stuck (b : Bytes) : Prop :=
  ∀ (fuel : ℕ) (more : Bytes) (valid : ℕ), replayLoop C fuel (b ++ more) valid = ([], valid)

/-- The log holds the records, none with an expiry, and possibly more that replay does not reach. -/
structure LogHolds (wal : Bytes) (rs : List WalRecord) (tail : Bytes) : Prop where
  bytes : wal = rs.flatMap (frame C) ++ tail
  cap : ∀ r ∈ rs, UnderCap C r
  permanent : ∀ r ∈ rs, r.entry.expireAt = 0
  tail : tail = [] ∨ Stuck C tail

/-- Nothing in the directory expires. -/
structure DirInv (dir : DataDir) : Prop where
  snapshot : ∀ e ∈ dir.snapshot, e.expireAt = 0
  wal : ∃ rs tail, LogHolds C dir.wal rs tail

/-- Nothing in the directory or the store expires, and the store is placed. -/
structure LiveInv (s : LiveNode) : Prop where
  dir : DirInv C s.dir
  placed : Placed s.store
  permanent : (content s.store).All fun _ v => v.expireAt = 0

variable {C} {s : LiveNode} {dir : DataDir} {rs : List WalRecord} {wal tail : Bytes}

theorem LogHolds.replay (h : LogHolds C wal rs tail) :
    replayWAL C wal = (records rs, (rs.flatMap (frame C)).length) := by
  have htail : ∀ fuel valid, replayLoop C fuel tail valid = ([], valid) := by
    intro fuel valid
    obtain rfl | hst := h.tail
    · cases fuel <;> rfl
    · simpa using hst fuel [] valid
  have hlen := length_le_frames (C := C) rs
  have := replayLoop_frames h.cap tail htail wal.length (by
    rw [h.bytes, List.length_append]
    omega) 0
  rwa [Nat.zero_add, ← h.bytes] at this

theorem LogHolds.reopen (h : LogHolds C wal rs tail) : LogHolds C (Medusa.reopen C wal).bytes rs [] := by
  refine ⟨?_, h.cap, h.permanent, Or.inl rfl⟩
  rw [Medusa.reopen, h.replay, List.append_nil]
  dsimp only
  unfold truncateTail
  rw [h.bytes]
  split
  · next hlen =>
    rw [List.length_append] at hlen
    rw [List.length_eq_zero_iff.mp (show tail.length = 0 by omega), List.append_nil]
  · exact List.take_left' rfl

theorem LogHolds.append (h : LogHolds C wal rs tail) {r : WalRecord} (hr : r.entry.expireAt = 0)
    (hfits : (C.marshal r.entry).length < 2 ^ 32) :
    ∃ rs' tail', LogHolds C (appendLocked C wal r) rs' tail' := by
  have hbytes : appendLocked C wal r = rs.flatMap (frame C) ++ (tail ++ frame C r) := by
    rw [appendLocked, h.bytes, List.append_assoc]
  obtain rfl | hst := h.tail
  · by_cases hcap : UnderCap C r
    · refine ⟨rs ++ [r], [], by simpa using hbytes, ?_, ?_, Or.inl rfl⟩
      · exact List.forall_mem_append.mpr ⟨h.cap, by simpa using hcap⟩
      · exact List.forall_mem_append.mpr ⟨h.permanent, by simpa using hr⟩
    · exact ⟨rs, _, hbytes, h.cap, h.permanent, Or.inr (replayLoop_over_cap hcap hfits)⟩
  · refine ⟨rs, _, hbytes, h.cap, h.permanent, Or.inr fun fuel more valid => ?_⟩
    rw [List.append_assoc]
    exact hst fuel (frame C r ++ more) valid

/-! ### Every lifetime keeps the invariant -/

/-- The store after a start is the snapshot's, with or without the log's records. -/
theorem start_store (st : Start) (h : LogHolds C dir.wal rs tail) :
    Placed (st.run C dir).store ∧
    ∃ rs' ⊆ rs, ∃ snapshot ⊆ dir.snapshot, content (st.run C dir).store =
      rs'.foldl (replayContent st.openAt) (restoredContent st.restoreAt snapshot) := by
  let base := if st.loaded then restore st.restoreAt dir.snapshot else Store.empty
  have hplaced : Placed base := by
    unfold base
    split
    · exact placed_empty.loadAll _
    · exact placed_empty
  have hbase : ∃ snapshot ⊆ dir.snapshot,
      content base = restoredContent st.restoreAt snapshot := by
    unfold base
    split
    · exact ⟨_, List.Subset.refl _, content_restore _ _⟩
    · exact ⟨[], List.nil_subset _, rfl⟩
  obtain ⟨snapshot, hsub, hsnap⟩ := hbase
  have hreplayed : Placed (openWAL C st.openAt dir.wal base) ∧ ∃ rs' ⊆ rs, ∃ snapshot ⊆ dir.snapshot,
      content (openWAL C st.openAt dir.wal base) =
        rs'.foldl (replayContent st.openAt) (restoredContent st.restoreAt snapshot) :=
    ⟨hplaced.replay, rs, List.Subset.refl _, snapshot, hsub, by
      rw [content_openWAL (congrArg Prod.fst h.replay), hsnap]⟩
  unfold Start.run
  cases st.opening with
  | unreadable => exact ⟨hplaced, [], List.nil_subset _, snapshot, hsub, hsnap⟩
  | opened => exact hreplayed
  | uncut => exact hreplayed
  | unopened => exact hreplayed

theorem start_inv (st : Start) (h : DirInv C dir) : LiveInv C (st.run C dir) := by
  obtain ⟨rs, tail, hlog⟩ := h.wal
  obtain ⟨hplaced, rs', hrs, snapshot, hsnap, hcontent⟩ := start_store st hlog
  have hdir : DirInv C (st.run C dir).dir := by
    unfold Start.run
    cases st.opening with
    | unreadable => exact h
    | uncut => exact h
    | opened => exact ⟨h.snapshot, rs, [], hlog.reopen⟩
    | unopened => exact ⟨h.snapshot, rs, [], hlog.reopen⟩
  refine ⟨hdir, hplaced, ?_⟩
  rw [hcontent]
  refine Content.All.replay (Content.All.restored fun e he d hd => ?_) fun r hr d hd => ?_
  · exact upgraded_expireAt (h.snapshot e (hsnap he)) hd
  · exact upgraded_expireAt (hlog.permanent r (hrs hr)) hd

/-- What a start makes of the files is in the current format. -/
theorem start_plain (st : Start) (h : DirInv C dir) :
    Plain (content (st.run C dir).store) := by
  obtain ⟨rs, tail, hlog⟩ := h.wal
  obtain ⟨-, rs', -, snapshot, -, hcontent⟩ := start_store st hlog
  rw [hcontent]
  exact (plain_restored st.restoreAt snapshot).replay

/-- The directory after one logged record. -/
theorem apply_dir {α : Type} (h : DirInv C s.dir) {m : Logged α} {r : WalRecord} (hm : m.log = [r])
    (hr : r.entry.expireAt = 0) (hfits : (C.marshal r.entry).length < 2 ^ 32) :
    DirInv C (s.apply C m).dir := by
  refine ⟨h.snapshot, ?_⟩
  obtain ⟨rs, tail, hlog⟩ := h.wal
  simp only [LiveNode.apply, hm, List.foldl_cons, List.foldl_nil]
  split
  · exact hlog.append hr hfits
  · exact ⟨rs, tail, hlog⟩

/-- What one act does to the content. -/
theorem act_content (s : LiveNode) (a : ℕ × LifeAct) :
    content (s.act C a).store = match a.2 with
      | .put name key value => putContent (content s.store) ⟨name, key, value, 0⟩
      | .remove name key => Function.update (content s.store) (name, key) none
      | .checkpoint => content s.store := by
  obtain ⟨now, act⟩ := a
  cases act with
  | put name key value => exact content_set s.store (name, key) ⟨value, 0⟩
  | remove name key => exact content_erase s.store (name, key)
  | checkpoint => rfl

theorem act_all {P : Ref → Value → Prop} (h : (content s.store).All P) {a : ℕ × LifeAct}
    (ha : ∀ name key value, a.2 = .put name key value → P (name, key) ⟨value, 0⟩) :
    (content (s.act C a).store).All P := by
  rw [act_content]
  split
  · next name key value hput => exact h.put (ha name key value hput)
  · intro r v hv
    rw [Function.update_apply] at hv
    split at hv
    · cases hv
    · exact h r v hv
  · exact h

theorem act_inv (h : LiveInv C s) {a : ℕ × LifeAct} (ha : a.2.Fits C) :
    LiveInv C (s.act C a) := by
  have hperm := act_all (C := C) h.permanent (a := a) fun _ _ _ _ => rfl
  obtain ⟨now, act⟩ := a
  cases act with
  | put name key value => exact ⟨apply_dir h.dir rfl rfl ha, h.placed.set (name, key) _, hperm⟩
  | remove name key => exact ⟨apply_dir h.dir rfl rfl ha, h.placed.erase (name, key), hperm⟩
  | checkpoint =>
    refine ⟨⟨fun e he => ?_, ?_⟩, h.placed, hperm⟩
    · obtain ⟨p, hf, -⟩ := mem_snapshotAll.mp he
      have hp := h.placed p e.ref e.val hf
      exact h.permanent e.ref e.val (by rw [content, hp]; exact hf)
    · change ∃ rs tail, LogHolds C (if s.logging then [] else s.dir.wal) rs tail
      split
      · exact ⟨[], [], rfl, by simp, by simp, Or.inl rfl⟩
      · exact h.dir.wal

theorem acts_inv {acts : List (ℕ × LifeAct)} (hacts : ∀ a ∈ acts, a.2.Fits C)
    (h : LiveInv C s) : LiveInv C (acts.foldl (LiveNode.act C) s) := by
  induction acts generalizing s with
  | nil => exact h
  | cons a acts ih =>
    exact ih (fun a' ha' => hacts a' (by simp [ha'])) (act_inv h (hacts a (by simp)))

theorem lifetime_inv {l : Lifetime} (hl : ∀ a ∈ l.acts, a.2.Fits C)
    (h : DirInv C dir) : LiveInv C (l.run C dir) :=
  acts_inv hl (start_inv l.start h)

theorem afterLives_inv {lives : List Lifetime} (hlives : ∀ l ∈ lives, ∀ a ∈ l.acts, a.2.Fits C) :
    DirInv C (afterLives C lives) := by
  have hfold : ∀ dir, DirInv C dir → DirInv C (lives.foldl (fun dir l => (l.run C dir).dir) dir) := by
    induction lives with
    | nil => exact fun _ h => h
    | cons l lives ih =>
      intro dir h
      exact ih (fun l' hl' => hlives l' (by simp [hl'])) _ (lifetime_inv (hlives l (by simp)) h).dir
  exact hfold _ ⟨by simp, [], [], rfl, by simp, by simp, Or.inl rfl⟩

/-! ### A start after a checkpoint -/

theorem act_logging (s : LiveNode) (a : ℕ × LifeAct) : (s.act C a).logging = s.logging := by
  obtain ⟨now, act⟩ := a
  cases act <;> rfl

/-- Without a log, the log file stays as it is. -/
theorem act_wal (hs : s.logging = false) (a : ℕ × LifeAct) :
    (s.act C a).dir.wal = s.dir.wal := by
  obtain ⟨now, act⟩ := a
  cases act <;> simp [LiveNode.act, LiveNode.apply, hs]

theorem acts_logging (acts : List (ℕ × LifeAct)) (s : LiveNode) :
    (acts.foldl (LiveNode.act C) s).logging = s.logging := by
  induction acts generalizing s with
  | nil => rfl
  | cons a acts ih => exact (ih _).trans (act_logging s a)

theorem acts_wal (acts : List (ℕ × LifeAct)) (hs : s.logging = false) :
    (acts.foldl (LiveNode.act C) s).dir.wal = s.dir.wal := by
  induction acts generalizing s with
  | nil => rfl
  | cons a acts ih => exact (ih ((act_logging s a).trans hs)).trans (act_wal hs a)

theorem acts_plain {acts : List (ℕ × LifeAct)} (hacts : ∀ a ∈ acts, a.2.current = true)
    (h : Plain (content s.store)) : Plain (content (acts.foldl (LiveNode.act C) s).store) := by
  induction acts generalizing s with
  | nil => exact h
  | cons a acts ih =>
    refine ih (fun a' ha' => hacts a' (by simp [ha'])) (act_all h fun name key value hput => ?_)
    have := hacts a (by simp)
    rw [hput] at this
    simpa [LifeAct.current] using this

/-- A log without intact records has none after a start either. -/
theorem start_wal (st : Start) (h : (replayWAL C dir.wal).1 = []) :
    (replayWAL C (st.run C dir).dir.wal).1 = [] := by
  have hreopen : (replayWAL C (reopen C dir.wal).bytes).1 = [] := by
    obtain ⟨chs, hread, hopen⟩ := reopen_chunks (C := C) dir.wal
    rw [h, List.map_eq_nil_iff] at hread
    rw [hopen, hread]
    rfl
  unfold Start.run
  cases st.opening with
  | unreadable => exact h
  | uncut => exact h
  | opened => exact hreopen
  | unopened => exact hreopen

theorem start_logging (st : Start) (dir : DataDir) :
    (st.run C dir).logging = decide (st.opening = .opened) := by
  unfold Start.run
  cases st.opening <;> rfl

/-- After a checkpoint with an open log, or on a log without intact records, nothing is replayed. -/
theorem checkpoint_wal (st : Start) (acts : List (ℕ × LifeAct)) (now : ℕ)
    (h : st.opening = .opened ∨ (replayWAL C dir.wal).1 = []) :
    (replayWAL C (Lifetime.run C ⟨st, acts ++ [(now, .checkpoint)]⟩ dir).dir.wal).1 = [] := by
  have hlast : (Lifetime.run C ⟨st, acts ++ [(now, .checkpoint)]⟩ dir).dir.wal =
      if decide (st.opening = .opened) then []
      else (acts.foldl (LiveNode.act C) (st.run C dir)).dir.wal := by
    rw [← start_logging (C := C) st dir, ← acts_logging acts (st.run C dir), Lifetime.run,
      List.foldl_append]
    rfl
  rw [hlast]
  by_cases hopen : st.opening = .opened
  · rw [if_pos (by simpa using hopen)]
    rfl
  · rw [if_neg (by simpa using hopen), acts_wal acts (by simp [start_logging, hopen])]
    exact start_wal st (h.resolve_left hopen)

/-- **A start after a checkpoint has the captured content**: whatever lifetimes went before, if the
last act of a lifetime is a checkpoint and the next start loads the snapshot and opens the log, the
store is as it was at the checkpoint, provided the log was open there or the lifetime began on a log
without intact records. -/
theorem start_after_checkpoint (lives : List Lifetime) (st : Start) (acts : List (ℕ × LifeAct))
    (now : ℕ) (next : Start) (hloaded : next.loaded = true) (hopened : next.opening = .opened)
    (hlives : ∀ l ∈ lives, ∀ a ∈ l.acts, a.2.Fits C) (hfits : ∀ a ∈ acts, a.2.Fits C)
    (hcurrent : ∀ a ∈ acts, a.2.current = true)
    (hwal : st.opening = .opened ∨ (replayWAL C (afterLives C lives).wal).1 = []) :
    let last := Lifetime.run C ⟨st, acts ++ [(now, .checkpoint)]⟩ (afterLives C lives)
    ∀ p r, (next.run C last.dir).store.find p r = last.store.find p r := by
  intro last p r
  have hdir := afterLives_inv hlives
  have hacts : ∀ a ∈ acts ++ [(now, LifeAct.checkpoint)], a.2.Fits C := by
    intro a ha
    rcases List.mem_append.mp ha with ha | ha
    · exact hfits a ha
    · rw [List.mem_singleton.mp ha]
      trivial
  have hinv : LiveInv C last := lifetime_inv (l := ⟨st, _⟩) hacts hdir
  have hplain : Plain (content last.store) := by
    refine acts_plain (fun a ha => ?_) (start_plain st hdir)
    rcases List.mem_append.mp ha with ha | ha
    · exact hcurrent a ha
    · rw [List.mem_singleton.mp ha]
      rfl
  have hsnap : last.dir.snapshot = last.store.snapshotAll now := by
    unfold last
    rw [Lifetime.run, List.foldl_append]
    rfl
  -- nothing is replayed, and the snapshot restores the whole content
  have hstore : (next.run C last.dir).store = restore next.restoreAt last.dir.snapshot := by
    have hnone : (replayWAL C last.dir.wal).1 = [] := checkpoint_wal st acts now hwal
    simp only [Start.run, hopened, hloaded, if_true, openWAL, hnone, List.foldl_nil]
  have hcontent : content (next.run C last.dir).store = content last.store := by
    rw [hstore, content_restore, hsnap,
      restoredContent_snapshotAll hinv.placed _ _ fun r v hv _ => hplain r v hv]
    funext r'
    cases hc : content last.store r' with
    | none => rfl
    | some v =>
      have h0 : v.expireAt = 0 := hinv.permanent r' v hc
      simp [Option.filter_some, Value.expired, Value.alive, h0]
  rw [(start_inv next hinv.dir).placed.find, hinv.placed.find, hcontent]

end invariant

/-- A start where everything works. -/
def goodStart : Start := ⟨true, .opened, 0, 0⟩

/-- A put is logged; the next start cannot read the log, and its node overwrites the value and takes a
checkpoint; the start after that replays the first put. -/
theorem stale_log_replayed :
    let lives : List Lifetime := [⟨goodStart, [(1, .put [109] [114] [1])]⟩]
    let last := Lifetime.run entryCodec ⟨⟨true, .unreadable, 2, 2⟩,
      [(3, .put [109] [114] [2]), (4, .checkpoint)]⟩ (afterLives entryCodec lives)
    last.store.find 1 ([109], [114]) = some ⟨[2], 0⟩ ∧
    (goodStart.run entryCodec last.dir).store.find 1 ([109], [114]) = some ⟨[1], 0⟩ := by
  decide +kernel

/-- The same with a log that opens, and the value of the first lifetime removed. -/
theorem start_after_checkpoint_reopened :
    let lives : List Lifetime := [⟨goodStart, [(1, .put [109] [114] [1])]⟩]
    let last := Lifetime.run entryCodec ⟨goodStart,
      [(3, .remove [109] [114]), (4, .put [109] [92] [2])] ++ [(5, .checkpoint)]⟩
      (afterLives entryCodec lives)
    (goodStart.run entryCodec last.dir).store.find 1 ([109], [114]) = none ∧
    (goodStart.run entryCodec last.dir).store.find 2 ([109], [92]) = some ⟨[2], 0⟩ := by
  have h := start_after_checkpoint (C := entryCodec) [⟨goodStart, [(1, .put [109] [114] [1])]⟩]
    goodStart [(3, .remove [109] [114]), (4, .put [109] [92] [2])] 5 goodStart rfl rfl
    (by decide +kernel) (by decide +kernel) (by decide +kernel) (Or.inl rfl)
  exact ⟨(h 1 ([109], [114])).trans (by decide +kernel),
    (h 2 ([109], [92])).trans (by decide +kernel)⟩

end Medusa
