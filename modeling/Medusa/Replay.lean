import Medusa.Lib.Overwrite
import Medusa.Recovery

/-! # Replaying the log twice

A record of the log, replayed at a fixed clock, sets or deletes entries that depend on the record
alone: a put its own entry (or the metadata and segments of a queue of the old format), a remove its
key, a clear every key of its map, and an expired put nothing.  So the whole replay overwrites
(`overwrites_replay`), and a second one changes nothing.

A checkpoint that crashes between the rename of its snapshot and the truncation of the log makes the
next start replay the log over a state that already includes it; `replay_twice` says that it
recovers the same content. -/

namespace Medusa

open Medusa.Partition Store

/-- What a store holds in each partition, expired or not. -/
def Store.at (s : Store) (x : PartitionId × Ref) : Option Value := s.find x.1 x.2

theorem overwrites_set (p : PartitionId) (r : Ref) (v : Value) :
    Overwrites Store.at (fun s => s.set p r v) :=
  Overwrites.of_if (q := fun x => x.1 = p ∧ x.2 = r) fun s x => find_set s p x.1 r x.2 v

theorem overwrites_erase (p : PartitionId) (r : Ref) :
    Overwrites Store.at (fun s => s.erase p r) :=
  Overwrites.of_if (q := fun x => x.1 = p ∧ x.2 = r) fun s x => find_erase s p x.1 r x.2

theorem overwrites_clearMap (name : Bytes) : Overwrites Store.at (fun s => (s.clearMap name).2) :=
  Overwrites.of_if (q := fun x => x.2.1 = name) fun s x => find_clearMap s name x.1 x.2

theorem overwrites_loadAll (es : List Entry) : Overwrites Store.at (fun s => s.loadAll es) :=
  Overwrites.foldl fun _ _ => Overwrites.foldl fun _ _ => overwrites_set _ _ _

/-- Every record overwrites, also one with an operation byte that replay does not know. -/
theorem overwrites_replayRecord (now : ℕ) (r : UInt8 × Entry) :
    Overwrites Store.at (fun s => replayRecord now s r) := by
  unfold replayRecord
  split
  · split
    · exact Overwrites.id
    · exact overwrites_loadAll _
  · split
    · exact overwrites_erase _ _
    · split
      · exact overwrites_clearMap _
      · exact Overwrites.id

/-- The replay of a list of records. -/
def replayAll (now : ℕ) (w : List (UInt8 × Entry)) (s : Store) : Store :=
  w.foldl (replayRecord now) s

theorem overwrites_replay (now : ℕ) (w : List (UInt8 × Entry)) :
    Overwrites Store.at (replayAll now w) :=
  Overwrites.foldl fun r _ => overwrites_replayRecord now r

/-! ### A start over a snapshot that includes the log -/

theorem Plain.replayRecord {s : Store} (hs : Plain (content s)) (now : ℕ) (r : UInt8 × Entry) :
    Plain (content (replayRecord now s r)) := by
  unfold Medusa.replayRecord
  split
  · split
    · exact hs
    · rw [content_loadAll]
      exact hs.load r.2
  · split
    · intro x v hx
      have he : content (s.erase (routedPartition r.2.ref.1 r.2.ref.2) r.2.ref) x = some v := hx
      rw [content_erase, Function.update_apply] at he
      split at he
      · cases he
      · exact hs x v he
    · split
      · intro x v hx
        rw [content_clearMap] at hx
        dsimp only at hx
        split at hx
        · cases hx
        · exact hs x v hx
      · exact hs

theorem Plain.replayAll {s : Store} (hs : Plain (content s)) (now : ℕ) (w : List (UInt8 × Entry)) :
    Plain (content (replayAll now w s)) := by
  induction w generalizing s with
  | nil => exact hs
  | cons r w ih => exact ih (hs.replayRecord now r)

/-- After the restore clock, a restored snapshot shows what the store it was taken of shows. -/
theorem find_restore_snapshot {s : Store} (hs : Placed s) (hplain : Plain (content s))
    {snapAt restoreAt t : ℕ} (hsnap : snapAt ≤ restoreAt) (ht : restoreAt < t) {snapshot : List Entry}
    (hperm : snapshot.Perm (s.snapshotAll snapAt)) (p : PartitionId) (r : Ref) :
    ((restore restoreAt snapshot).find p r).filter (fun v => !v.expired t) =
      (s.find p r).filter (fun v => !v.expired t) := by
  have hrestored : Placed (restore restoreAt snapshot) := placed_empty.loadAll _
  rw [hrestored.find, hs.find, content_restore,
    restoredContent_perm hs snapAt restoreAt hperm fun x v hx _ => hplain x v hx]
  split
  · dsimp only
    cases content s r with
    | none => rfl
    | some v =>
      cases hx : v.expired t with
      | true => simp [Option.filter_some, hx]
      | false =>
        have hnow := Value.live_of_live_later hx (hsnap.trans ht.le)
        have hnext := Value.live_of_live_later hx (show restoreAt + 1 ≤ t from ht)
        rw [Value.expired_succ, Bool.not_eq_false'] at hnext
        simp [Option.filter_some, hx, hnow, hnext]
  · rfl

/-- **Replaying the log twice is harmless**: on every store a second replay changes no entry of any
shard, and a start over a snapshot that already includes the log shows, after its clock, what the
snapshot was taken of. -/
theorem replay_twice (now : ℕ) (w : List (UInt8 × Entry)) (s : Store) :
    (∀ p r, (replayAll now w (replayAll now w s)).find p r = (replayAll now w s).find p r) ∧
    ∀ (C : Codec) (file : Bytes) (snapshot : List Entry) (restoreAt : ℕ),
      let S := openWAL C now file (restore restoreAt snapshot)
      ∀ t p name key, now < t →
        (openWAL C now file (restore now (S.snapshotAll now))).lookup p name key t =
          S.lookup p name key t := by
  refine ⟨fun p r => (overwrites_replay now w).twice s (p, r), ?_⟩
  intro C file snapshot restoreAt S t p name key ht
  have hplaced : Placed S := (placed_empty.loadAll _).replay
  have hplain : Plain (content S) := by
    refine Plain.replayAll ?_ now (replayWAL C file).1
    rw [content_restore]
    exact plain_restored restoreAt snapshot
  exact (overwrites_replay now (replayWAL C file).1).again
    (r := fun a b => a.filter (fun v => !v.expired t) = b.filter (fun v => !v.expired t))
    (i := (p, (name, key))) (fun _ => rfl) (find_restore_snapshot hplaced hplain le_rfl ht
      (List.Perm.refl _) p (name, key))

end Medusa
