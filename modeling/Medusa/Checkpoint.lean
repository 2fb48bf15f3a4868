import Medusa.Lib.Faults
import Medusa.Replay
import Medusa.Sweep
import Medusa.WalFile

/-! # Checkpoints on disk

The data directory of a node as bytes: `snapshot.pb`, its temporary file and the log, with the messages the
generated code writes and reads.  A checkpoint (`saveSnapshot`) is a sequence of file operations, any of which
may fail, and the node may crash before any of them; a file that was not synced may then hold anything.  The
rename and the truncation of the log reach the disk in this order.

* `saveSnapshot_leaves`: what a checkpoint can leave on disk, wherever it failed or was interrupted.
* `crash_sameLive`: **no crash, between the steps of a run or inside a checkpoint, changes what the store
  shows after the restart.**

The case that is not an earlier state of the directory is a crash after the rename and before the truncation.
There the next start replays the log over a snapshot that includes it, and the replay overwrites every place it
touches with what is there (`inv_renamed`). -/

namespace Medusa

open Medusa.Partition Store Proto Faulty

/-! ### Snapshots as messages -/

/-- `Service.Snapshot` of the entries of a store. -/
def snapshotMsg (es : List Entry) : snapshot.Msg := ⟨(es.map entryMsg, ()), []⟩

/-- The entries `Restore` reads from a snapshot. -/
def snapshotEntries (m : snapshot.Msg) : List Entry := List.map entryOfMsg m.values.1

theorem snapshotMsg_valid (es : List Entry) : snapshot.Valid (snapshotMsg es) := by
  refine ⟨⟨fun m hm => ?_, trivial⟩, Schema.Foreign.nil⟩
  obtain ⟨e, -, rfl⟩ := List.mem_map.mp hm
  exact entryMsg_valid e

theorem snapshotEntries_snapshotMsg (es : List Entry) : snapshotEntries (snapshotMsg es) = es := by
  have hid : entryOfMsg ∘ entryMsg = id := rfl
  rw [snapshotEntries, snapshotMsg, List.map_map, hid, List.map_id]

/-! ### The directory -/

/-- A file, and whether what was written to it has been synced. -/
structure DiskFile where
  bytes : Bytes
  synced : Bool
deriving DecidableEq, Repr

/-- `snapshot.pb`, `snapshot.pb.tmp` and `wal.log`. -/
structure Disk where
  snapshot : Option DiskFile
  tmp : Option DiskFile
  wal : WalFile
deriving DecidableEq, Repr

/-- The file operations of a checkpoint. -/
inductive FileOp where
  | mkdirAll
  | openFile
  | write
  | sync
  | close
  | rename
  | remove
  | truncate
  | seek
  | syncLog
deriving DecidableEq, Repr

/-- What happens to the operations of a checkpoint; `written` is how many bytes of a write that fails reach the
file. -/
structure Io extends Faults FileOp where
  written : ℕ

section procedures
variable (io : Io)

/-- An operation that has no effect when it fails. -/
def Io.perform (op : FileOp) (effect : Disk → Disk) : Proc Disk Bool := attempt io.toFaults op effect id

/-- `os.Remove(tmp)`, whose error is ignored, and then the error of the checkpoint. -/
def removeTmp : Proc Disk Bool := do
  let _ ← io.perform .remove fun d => { d with tmp := none }
  return false

/-- `f.Close()`, whose error is ignored, and `removeTmp`. -/
def discardTmp : Proc Disk Bool := do
  let _ ← io.perform .close id
  removeTmp io

/-- `writeSnapshotFile`: whether there was no error. -/
def writeSnapshotFile (m : snapshot.Msg) : Proc Disk Bool := do
  if ← io.perform .mkdirAll id then
    if let .ok data := snapshot.marshalVT m then
      if ← io.perform .openFile fun d => { d with tmp := some ⟨[], false⟩ } then
        if ← attempt io.toFaults .write (fun d => { d with tmp := some ⟨data, false⟩ })
            (fun d => { d with tmp := some ⟨data.take io.written, false⟩ }) then
          if ← io.perform .sync fun d => { d with tmp := d.tmp.map fun f => { f with synced := true } } then
            if ← io.perform .close id then
              if ← io.perform .rename fun d => { d with snapshot := d.tmp, tmp := none } then return true
              else removeTmp io
            else removeTmp io
          else discardTmp io
        else discardTmp io
      else return false
    else return false
  else return false

/-- `truncateLocked`. -/
def truncateLocked : Proc Disk Bool := do
  if ← io.perform .truncate fun d => { d with wal := { d.wal with bytes := [] } } then
    if ← io.perform .seek fun d => { d with wal := { d.wal with pos := 0 } } then
      io.perform .syncLog id
    else return false
  else return false

/-- `saveSnapshot`, which is `Checkpoint(writeSnapshotFile)` with an open log. -/
def saveSnapshot (now : ℕ) (s : Store) : Proc Disk Bool := do
  if ← writeSnapshotFile io (snapshotMsg (s.snapshotAll now)) then truncateLocked io else return false

end procedures

/-- After a crash a file that was not synced holds anything. -/
def DiskFile.crash (lost : Bytes) (f : DiskFile) : DiskFile := if f.synced then f else ⟨lost, true⟩

/-- The directory after a crash. -/
def Disk.crash (lost : Bytes) (d : Disk) : Disk :=
  { d with snapshot := d.snapshot.map (DiskFile.crash lost), tmp := d.tmp.map (DiskFile.crash lost) }

/-! ### Runs -/

/-- A node with an open log. -/
structure DiskNode where
  disk : Disk
  store : Store
  now : ℕ

/-- `loadSnapshot`. -/
def loadSnapshot (now : ℕ) (d : Disk) : Except ProtoError Store :=
  d.snapshot.elim (.ok Store.empty) fun f => do
    let m ← snapshot.unmarshalVT f.bytes snapshot.empty
    return restore now (snapshotEntries m)

/-- The persistence part of `New`: an error of `loadSnapshot` is only logged. -/
def DiskNode.start (restoreAt openAt : ℕ) (d : Disk) : DiskNode where
  disk := { d with wal := reopen entryCodec d.wal.bytes }
  store := openWAL entryCodec openAt d.wal.bytes ((loadSnapshot restoreAt d).toOption.getD Store.empty)
  now := openAt

/-- A crash and the restart after it: what files that were not synced then hold, how long the node is down, and
how long it takes from the snapshot to the log. -/
structure Crash where
  lost : Bytes
  down : ℕ
  opening : ℕ

/-- The node after a crash at `now`. -/
def Crash.restart (c : Crash) (now : ℕ) (d : Disk) : DiskNode :=
  DiskNode.start (now + c.down) (now + c.down + c.opening) (d.crash c.lost)

/-- The steps of a run.  A checkpoint that is interrupted is followed by the restart. -/
inductive DiskOp where
  | logged (m : Mutator)
  | sweep
  | save (io : Io) (c : Crash)
  | crash (c : Crash)

/-- One step, `tick` nanoseconds after the last. -/
def DiskNode.step (d : DiskNode) (o : ℕ × DiskOp) : DiskNode :=
  let now := d.now + o.1
  match o.2 with
  | .logged m =>
    { disk := { d.disk with wal := (m.run d.store now).1.foldl (WalFile.append entryCodec) d.disk.wal }
      store := (m.run d.store now).2
      now := now }
  | .sweep => { d with store := d.store.sweepExpired now, now := now }
  | .save io c =>
    let r := saveSnapshot io now d.store d.disk
    if r.2.isSome then { d with disk := r.1, now := now } else c.restart now r.1
  | .crash c => c.restart now d.disk

/-- A node on an empty directory. -/
def DiskNode.fresh (now : ℕ) : DiskNode := ⟨⟨none, none, ⟨[], 0⟩⟩, Store.empty, now⟩

/-- A run. -/
def DiskNode.run (ops : List (ℕ × DiskOp)) (d : DiskNode) : DiskNode := ops.foldl DiskNode.step d

/-- The node as a store, a log and a snapshot. -/
def DiskNode.durable (d : DiskNode) : Durable where
  store := d.store
  file := d.disk.wal.bytes
  snapshot := d.disk.snapshot.elim [] fun f =>
    (snapshot.unmarshalVT f.bytes snapshot.empty).toOption.elim [] snapshotEntries
  now := d.now

/-- The condition on the steps of a run.  A logged mutation recovers (`DurableOp.Harmless`), its records are under
the cap, and it finds the log positioned at its end: after a checkpoint whose seek failed, the next record would
go behind a hole.  A checkpoint's snapshot is of a size that a slice can have. -/
def DiskOp.Allowed (d : DiskNode) (o : ℕ × DiskOp) : Prop :=
  match o.2 with
  | .logged m => DurableOp.Harmless d.durable (o.1, .logged m) ∧
      DurableOp.UnderCap entryCodec d.durable (o.1, .logged m) ∧ d.disk.wal.pos = d.disk.wal.bytes.length
  | .save _ _ => snapshot.sizeVT (snapshotMsg (d.store.snapshotAll (d.now + o.1))) < 2 ^ 63
  | _ => True

/-- Every step is allowed where it is taken. -/
def DiskNode.Allows : DiskNode → List (ℕ × DiskOp) → Prop
  | _, [] => True
  | d, o :: ops => DiskOp.Allowed d o ∧ DiskNode.Allows (d.step o) ops

/-! ### What a checkpoint leaves -/

section leaves
variable {io : Io}

theorem removeTmp_leaves {d d' : Disk} {q : Disk → Option Bool → Prop}
    (hq : ∀ tmp r, r ≠ some true → q { d with tmp := tmp } r) (hd : d' = { d with tmp := d'.tmp }) :
    Leaves (removeTmp io) d' q := by
  have hkept : ∀ r, r ≠ some true → q d' r := fun r hr => hd ▸ hq d'.tmp r hr
  have hnone : q { d' with tmp := none } (some false) := by
    rw [hd]
    exact hq none _ (by simp)
  exact Leaves.bind (Leaves.attempt (hkept none (by simp)) (fun _ => hkept (some false) (by simp)) fun _ => hnone)

theorem discardTmp_leaves {d d' : Disk} {q : Disk → Option Bool → Prop}
    (hq : ∀ tmp r, r ≠ some true → q { d with tmp := tmp } r) (hd : d' = { d with tmp := d'.tmp }) :
    Leaves (discardTmp io) d' q := by
  have hremove : Leaves (removeTmp io) d' q := removeTmp_leaves hq hd
  have hkept : q d' none := hd ▸ hq d'.tmp none (by simp)
  exact Leaves.bind (Leaves.attempt hkept (fun _ => hremove) fun _ => hremove)

/-- The snapshot is replaced by the whole new one, synced, or stays as it is. -/
theorem writeSnapshotFile_leaves (m : snapshot.Msg) {d : Disk} {q : Disk → Option Bool → Prop}
    (hkept : ∀ tmp r, r ≠ some true → q { d with tmp := tmp } r)
    (hdone : q { d with snapshot := some ⟨snapshot.bytes m, true⟩, tmp := none } (some true)) :
    Leaves (writeSnapshotFile io m) d q := by
  have hcleanup : ∀ tmp, Leaves (removeTmp io) { d with tmp := tmp } q :=
    fun tmp => removeTmp_leaves hkept rfl
  have hdiscard : ∀ tmp, Leaves (discardTmp io) { d with tmp := tmp } q :=
    fun tmp => discardTmp_leaves hkept rfl
  unfold writeSnapshotFile
  rw [Schema.marshalVT_eq]
  refine Leaves.guard (hkept _ _ (by simp)) (fun _ => Leaves.pure (hkept _ _ (by simp))) fun _ => ?_
  refine Leaves.guard (hkept _ _ (by simp)) (fun _ => Leaves.pure (hkept _ _ (by simp))) fun _ => ?_
  refine Leaves.guard (hkept _ _ (by simp)) (fun _ => hdiscard _) fun _ => ?_
  refine Leaves.guard (hkept _ _ (by simp)) (fun _ => hdiscard _) fun _ => ?_
  refine Leaves.guard (hkept _ _ (by simp)) (fun _ => hcleanup _) fun _ => ?_
  exact Leaves.guard (hkept _ _ (by simp)) (fun _ => hcleanup _) fun _ => hdone

/-- What a checkpoint of `data` can leave, and what it reports (`none` when it was interrupted): the old
snapshot and the log; the new snapshot and the log; or the new snapshot and an empty log, at whose beginning the
next record goes unless the checkpoint ended at the seek. -/
inductive Saved (data : Bytes) (d : Disk) : Disk → Option Bool → Prop
  | kept (tmp : Option DiskFile) {r : Option Bool} (hr : r ≠ some true) : Saved data d { d with tmp := tmp } r
  | renamed (tmp : Option DiskFile) {r : Option Bool} (hr : r ≠ some true) :
      Saved data d ⟨some ⟨data, true⟩, tmp, d.wal⟩ r
  | unsought (tmp : Option DiskFile) {r : Option Bool} (hr : r ≠ some true) :
      Saved data d ⟨some ⟨data, true⟩, tmp, ⟨[], d.wal.pos⟩⟩ r
  | emptied (tmp : Option DiskFile) (r : Option Bool) : Saved data d ⟨some ⟨data, true⟩, tmp, ⟨[], 0⟩⟩ r

theorem saveSnapshot_leaves (io : Io) (now : ℕ) (s : Store) (d : Disk) :
    Leaves (saveSnapshot io now s) d (Saved (snapshot.bytes (snapshotMsg (s.snapshotAll now))) d) := by
  refine Leaves.bind (writeSnapshotFile_leaves _ (fun tmp r hr => ?_) ?_)
  · cases r with
    | none => exact Saved.kept tmp hr
    | some b =>
      cases b with
      | true => exact absurd rfl hr
      | false => exact Leaves.pure (Saved.kept tmp (by simp))
  · change Leaves (truncateLocked io) _ _
    refine Leaves.guard (Saved.renamed _ (by simp)) (fun _ => Leaves.pure (Saved.renamed _ (by simp)))
      fun _ => ?_
    refine Leaves.guard (Saved.unsought _ (by simp)) (fun _ => Leaves.pure (Saved.unsought _ (by simp)))
      fun _ => ?_
    exact Leaves.attempt (Saved.emptied _ _) (fun _ => Saved.emptied _ _) fun _ => Saved.emptied _ _

end leaves

/-! ### A snapshot that includes the log -/

section renamed

theorem overwrites_putContent (e : Entry) : Overwrites (fun (c : Content) r => c r) (fun c => putContent c e) :=
  Overwrites.of_if (q := fun r => r = e.ref) fun c r => Function.update_apply c e.ref (some e.val) r

/-- Replaying a record sets the places it names, whatever was there. -/
theorem overwrites_replayContent (t : ℕ) (r : WalRecord) :
    Overwrites (fun (c : Content) x => c x) (fun c => replayContent t c r) := by
  obtain ⟨op, e⟩ := r
  cases op with
  | put =>
    by_cases hdead : e.dead t
    · simp only [replayContent, hdead, if_true]
      exact Overwrites.id
    · simp only [replayContent, hdead]
      exact Overwrites.foldl fun d _ => overwrites_putContent d
  | remove => exact Overwrites.of_if (q := fun x => x = e.ref) fun c x => Function.update_apply c e.ref none x
  | clear => exact Overwrites.of_if (q := fun x => x.1 = e.mapName) fun c x => rfl

/-- **A log may be replayed over a snapshot that includes it.** -/
theorem inv_renamed {C : Codec} {d : Durable} {log : List WalRecord} (h : DurableInv C d log) (tick : ℕ) :
    DurableInv C { d with snapshot := d.store.snapshotAll (d.now + tick), now := d.now + tick } log := by
  refine ⟨h.file, h.cap, h.placed, fun t₁ t₂ h₁ h₂ u hu r => ?_⟩
  have hnow : d.now + tick ≤ t₁ := h₁
  have hold := h.agree t₁ t₂ (by omega) h₂ u hu r
  have hnew : (restoredContent t₁ (d.store.snapshotAll (d.now + tick)) r).filter (Value.alive u) =
      (content d.store r).filter (Value.alive u) := (inv_checkpoint h tick).agree t₁ t₂ h₁ h₂ u hu r
  have hreplay : Overwrites (fun (c : Content) x => c x) (fun c => log.foldl (replayContent t₂) c) :=
    Overwrites.foldl fun r _ => overwrites_replayContent t₂ r
  -- the replay leaves on the new snapshot what it leaves on the old one
  exact (hreplay.again (r := fun a b => a.filter (Value.alive u) = b.filter (Value.alive u)) (fun _ => rfl)
    (hnew.trans hold.symm)).trans hold

theorem inv_wait {C : Codec} {d : Durable} {log : List WalRecord} (h : DurableInv C d log) (tick : ℕ) :
    DurableInv C { d with now := d.now + tick } log :=
  ⟨h.file, h.cap, h.placed, fun t₁ t₂ h₁ h₂ => h.agree t₁ t₂ (le_trans (Nat.le_add_right _ _) h₁) h₂⟩

end renamed

/-! ### The invariant of a run -/

/-- The directory recovers the store, and the snapshot has been synced. -/
structure DiskInv (d : DiskNode) (log : List WalRecord) : Prop where
  durable : DurableInv entryCodec d.durable log
  synced : ∀ f ∈ d.disk.snapshot, f.synced = true

theorem diskInv_fresh (now : ℕ) : DiskInv (DiskNode.fresh now) [] where
  durable := inv_fresh entryCodec now
  synced := by simp [DiskNode.fresh]

section invariant
variable {d : DiskNode} {log : List WalRecord}

/-- What a crash leaves is what was there, as far as a start reads it. -/
theorem crash_snapshot (h : ∀ f ∈ d.disk.snapshot, f.synced = true) (lost : Bytes) :
    (d.disk.crash lost).snapshot = d.disk.snapshot := by
  rw [Disk.crash]
  cases hs : d.disk.snapshot with
  | none => rfl
  | some f => simp [DiskFile.crash, h f hs]

theorem loadSnapshot_eq (now : ℕ) (d : DiskNode) :
    (loadSnapshot now d.disk).toOption.getD Store.empty = restore now d.durable.snapshot := by
  rw [loadSnapshot, DiskNode.durable]
  cases d.disk.snapshot with
  | none => rfl
  | some f =>
    dsimp only [Option.elim_some]
    cases snapshot.unmarshalVT f.bytes snapshot.empty <;> rfl

/-- A restart recovers the store from the snapshot and the log, and keeps both files. -/
theorem restart_durable (h : DurableInv entryCodec d.durable log) (hsynced : ∀ f ∈ d.disk.snapshot, f.synced = true)
    (c : Crash) : (c.restart d.now d.disk).durable = d.durable.step entryCodec (c.down, .restart c.opening) := by
  have hwal : (reopen entryCodec d.disk.wal.bytes).bytes = d.disk.wal.bytes := by
    have hfile : d.disk.wal.bytes = log.flatMap (frame entryCodec) := h.file
    rw [hfile, reopen_frames h.cap]
  have hsnap := crash_snapshot hsynced c.lost
  have hload : (loadSnapshot (d.now + c.down) (d.disk.crash c.lost)).toOption.getD Store.empty =
      restore (d.now + c.down) d.durable.snapshot := by
    rw [← loadSnapshot_eq, loadSnapshot, loadSnapshot, hsnap]
  have hbytes : (d.disk.crash c.lost).wal = d.disk.wal := rfl
  simp only [DiskNode.durable, Crash.restart, DiskNode.start, Durable.step, recovered, hsnap, hload, hbytes, hwal]

theorem diskInv_restart (h : DurableInv entryCodec d.durable log) (hsynced : ∀ f ∈ d.disk.snapshot, f.synced = true)
    (c : Crash) : DiskInv (c.restart d.now d.disk) log where
  durable := restart_durable h hsynced c ▸ inv_restart h c.down c.opening
  synced f hf := hsynced f (crash_snapshot hsynced c.lost ▸ hf)

/-- After the restart the store shows what it showed. -/
theorem restart_sameLive (h : DurableInv entryCodec d.durable log)
    (hsynced : ∀ f ∈ d.disk.snapshot, f.synced = true) (c : Crash) :
    SameLive ((c.restart d.now d.disk).now + 1) d.store (c.restart d.now d.disk).store := by
  have hstore : (c.restart d.now d.disk).store =
      recovered entryCodec (d.now + c.down) (d.now + c.down + c.opening) d.durable :=
    congrArg Durable.store (restart_durable h hsynced c)
  have hplaced : Placed (c.restart d.now d.disk).store := (diskInv_restart h hsynced c).durable.placed
  have hbefore : Placed d.store := h.placed
  intro t ht p r
  obtain ⟨u, rfl⟩ : ∃ u, t = u + 1 := ⟨t - 1, by omega⟩
  have halive : (fun v : Value => !v.expired (u + 1)) = Value.alive u :=
    funext fun v => by simp [Value.expired_succ]
  rw [hplaced.find, hbefore.find, halive]
  split
  · rw [hstore, content_recovered h.cap h.file]
    have hu : d.now + c.down + c.opening ≤ u := Nat.le_of_succ_le_succ ht
    exact h.agree _ _ (Nat.le_add_right _ _) (Nat.le_add_right _ _) u hu r
  · rfl

theorem foldl_walAppend {C : Codec} (rs : List WalRecord) {w : WalFile} (hw : w.pos = w.bytes.length) :
    (rs.foldl (WalFile.append C) w).bytes = rs.foldl (appendLocked C) w.bytes := by
  induction rs generalizing w with
  | nil => rfl
  | cons r rs ih =>
    obtain ⟨bytes, pos⟩ := w
    obtain rfl : pos = bytes.length := hw
    rw [List.foldl_cons, List.foldl_cons, WalFile.append_end]
    exact ih rfl

theorem diskInv_logged (h : DiskInv d log) {tick : ℕ} {m : Mutator} (ho : DiskOp.Allowed d (tick, .logged m)) :
    DiskInv (d.step (tick, .logged m)) (log ++ (m.run d.store (d.now + tick)).1) := by
  obtain ⟨hharmless, hcap, hpos⟩ := ho
  have hbytes := foldl_walAppend (C := entryCodec) (m.run d.store (d.now + tick)).1 hpos
  refine ⟨?_, h.synced⟩
  have hstep : (d.step (tick, .logged m)).durable = d.durable.step entryCodec (tick, .logged m) := by
    simp only [DiskNode.durable, DiskNode.step, Durable.step, hbytes]
  rw [hstep]
  exact inv_logged h.durable hharmless hcap

/-- The node after a checkpoint that reads the clock at `now`, before any restart. -/
def DiskNode.saved (d : DiskNode) (disk : Disk) (now : ℕ) : DiskNode := ⟨disk, d.store, now⟩

/-- The new snapshot holds the entries it was taken of. -/
theorem durable_saved {es : List Entry} (hsize : snapshot.sizeVT (snapshotMsg es) < 2 ^ 63) (d : DiskNode)
    (tmp : Option DiskFile) (wal : WalFile) (now : ℕ) :
    (d.saved ⟨some ⟨snapshot.bytes (snapshotMsg es), true⟩, tmp, wal⟩ now).durable =
      ⟨d.store, wal.bytes, es, now⟩ := by
  have hread := Schema.unmarshalVT_bytes (snapshotMsg_valid es) (Schema.sizeVT_eq (S := snapshot) _ ▸ hsize)
  simp only [DiskNode.durable, DiskNode.saved, Option.elim_some, hread, Except.toOption,
    snapshotEntries_snapshotMsg]

/-- Whatever a checkpoint leaves recovers the store. -/
theorem saved_inv (h : DiskInv d log) {tick : ℕ} {disk : Disk} {r : Option Bool}
    (hsize : snapshot.sizeVT (snapshotMsg (d.store.snapshotAll (d.now + tick))) < 2 ^ 63)
    (hs : Saved (snapshot.bytes (snapshotMsg (d.store.snapshotAll (d.now + tick)))) d.disk disk r) :
    ∃ log', DurableInv entryCodec (d.saved disk (d.now + tick)).durable log' ∧
      ∀ f ∈ disk.snapshot, f.synced = true := by
  have hnew : ∀ f ∈ some (DiskFile.mk (snapshot.bytes (snapshotMsg (d.store.snapshotAll (d.now + tick)))) true),
      f.synced = true := by
    intro f hf
    cases hf
    rfl
  cases hs with
  | kept tmp hr => exact ⟨log, inv_wait h.durable tick, h.synced⟩
  | renamed tmp hr => exact ⟨log, durable_saved hsize d tmp _ _ ▸ inv_renamed h.durable tick, hnew⟩
  | unsought tmp hr => exact ⟨[], durable_saved hsize d tmp _ _ ▸ inv_checkpoint h.durable tick, hnew⟩
  | emptied tmp r => exact ⟨[], durable_saved hsize d tmp _ _ ▸ inv_checkpoint h.durable tick, hnew⟩

theorem diskInv_step (h : DiskInv d log) {o : ℕ × DiskOp} (ho : DiskOp.Allowed d o) :
    ∃ log', DiskInv (d.step o) log' := by
  obtain ⟨tick, op⟩ := o
  cases op with
  | logged m => exact ⟨_, diskInv_logged h ho⟩
  | sweep => exact ⟨log, inv_sweep h.durable tick, h.synced⟩
  | save io c =>
    obtain ⟨log', hinv, hsynced⟩ := saved_inv h ho (saveSnapshot_leaves io (d.now + tick) d.store d.disk)
    simp only [DiskNode.step]
    split
    · exact ⟨log', hinv, hsynced⟩
    · exact ⟨log', diskInv_restart hinv hsynced c⟩
  | crash c =>
    exact ⟨log, diskInv_restart (d := d.saved d.disk (d.now + tick)) (inv_wait h.durable tick) h.synced c⟩

theorem diskInv_run {ops : List (ℕ × DiskOp)} (h : DiskInv d log) (hops : d.Allows ops) :
    ∃ log', DiskInv (d.run ops) log' := by
  induction ops generalizing d log with
  | nil => exact ⟨log, h⟩
  | cons o ops ih =>
    obtain ⟨log', h'⟩ := diskInv_step h hops.1
    exact ih h' hops.2

end invariant

/-! ### No crash changes what is stored -/

theorem allows_append {d : DiskNode} {ops : List (ℕ × DiskOp)} {o : ℕ × DiskOp} (h : d.Allows (ops ++ [o])) :
    d.Allows ops ∧ DiskOp.Allowed (d.run ops) o := by
  induction ops generalizing d with
  | nil => exact ⟨trivial, h.1⟩
  | cons o' ops ih => exact ⟨⟨h.1, (ih h.2).1⟩, (ih h.2).2⟩

/-- **Checkpoints are crash-safe**: at the end of a run of allowed steps, with crashes and with checkpoints that failed
or were interrupted anywhere, neither a checkpoint, whichever of its operations fails and wherever it is interrupted, nor
a crash, whatever it makes of files that were not synced, changes what the store shows from then on. -/
theorem crash_sameLive (now : ℕ) (ops : List (ℕ × DiskOp)) (o : ℕ × DiskOp) (ho : ∀ m, o.2 ≠ .logged m)
    (hops : (DiskNode.fresh now).Allows (ops ++ [o])) :
    let d := (DiskNode.fresh now).run ops
    SameLive ((d.step o).now + 1) d.store (d.step o).store := by
  intro d
  obtain ⟨hrun, hlast⟩ := allows_append hops
  obtain ⟨log, h⟩ := diskInv_run (diskInv_fresh now) hrun
  obtain ⟨tick, op⟩ := o
  cases op with
  | logged m => exact absurd rfl (ho m)
  | sweep => exact fun t ht => sameLive_sweepExpired d.store (d.now + tick) t (Nat.le_of_succ_le ht)
  | crash c => exact restart_sameLive (d := d.saved d.disk (d.now + tick)) (inv_wait h.durable tick) h.synced c
  | save io c =>
    obtain ⟨log', hinv, hsynced⟩ := saved_inv h hlast (saveSnapshot_leaves io (d.now + tick) d.store d.disk)
    simp only [DiskNode.step]
    split
    · exact fun _ _ _ _ => rfl
    · exact restart_sameLive hinv hsynced c

/-- A put, and a checkpoint that is interrupted between the rename and the truncation; after the restart the key is
removed, and a checkpoint that cannot be synced is followed by a crash. -/
def interruptedRun : List (ℕ × DiskOp) :=
  [(1, .logged (.put [109] [107] [7] 0 0)),
    (1, .save ⟨⟨fun _ => false, some .truncate⟩, 0⟩ ⟨[], 5, 1⟩),
    (1, .logged (.remove [109] [107])),
    (1, .save ⟨⟨fun op => op == .sync, none⟩, 0⟩ ⟨[], 0, 0⟩)]

theorem crash_sameLive_interrupted :
    let d := (DiskNode.fresh 0).run interruptedRun
    d.disk.snapshot = some ⟨[10, 9, 10, 1, 109, 18, 1, 107, 26, 1, 7], true⟩ ∧ d.disk.wal.bytes.length = 25 ∧
      SameLive ((d.step (1, .crash ⟨[0], 9, 9⟩)).now + 1) d.store (d.step (1, .crash ⟨[0], 9, 9⟩)).store := by
  refine ⟨by decide +kernel, by decide +kernel, crash_sameLive 0 interruptedRun _ (by simp) ?_⟩
  refine ⟨⟨⟨by decide, Or.inl rfl⟩, fun r hr => ?_, rfl⟩, (by decide +kernel : snapshot.sizeVT _ < _),
    ⟨trivial, fun r hr => ?_, by decide +kernel⟩, (by decide +kernel : snapshot.sizeVT _ < _), trivial, trivial⟩
  · rw [List.mem_singleton.mp hr, UnderCap]
    decide +kernel
  · rw [List.mem_singleton.mp hr, UnderCap]
    decide +kernel

end Medusa
