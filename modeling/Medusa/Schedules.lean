import Medusa.Service

/-! # Passing over empty partitions

A migration pass visits all partitions in turn.  `run_skip` takes a thread over those in which its
node stores nothing: the cluster stays as it is, and the thread has only looked.  Concrete runs
use it to reach the partition they are about. -/

namespace Medusa

open Medusa.Partition Store Interleave Service

theorem Cluster.setNode_same (C : Cluster) (n : Bytes) : C.setNode n (C.nodes n) = C := by
  unfold Cluster.setNode
  rw [Function.update_eq_self]

/-- A snapshot taken in the order of the store. -/
theorem exec_snapshot_still (n : Bytes) (p : PartitionId) (C : Cluster) :
    (exec (.on n (.snapshot p)) .still C).1 =
      (C.nodes n).store.snapshotPartition p (C.nodes n).clock := by
  change (if List.isPerm [] ((C.nodes n).store.snapshotPartition p (C.nodes n).clock) then []
    else (C.nodes n).store.snapshotPartition p (C.nodes n).clock) = _
  cases (C.nodes n).store.snapshotPartition p (C.nodes n).clock with
  | nil => rfl
  | cons e l => rw [if_neg (by simp [List.isPerm])]

/-- The events of a thread that only looked at the partitions of node `n`. -/
def Looked (n : Bytes) (ev : Event) : Prop :=
  ev.act = .ctxErr ∨ ∃ p, ev.act = .on n (.snapshot p)

section skip
variable {α : Type} {i : ℕ} {n : Bytes} {tbl : Table} {k : Bool → Prog α}

/-- A pass enters a partition: the context is alive, and the snapshot is taken. -/
theorem run_snapshot {f : Conf α} {p : PartitionId} {rest : List PartitionId}
    (hpool : f.pool i = (migrateLoop n tbl (p :: rest) >>= k)) :
    Conf.run exec [(i, .still), (i, .still)] f =
      ⟨⟨f.world.state, ⟨i, .on n (.snapshot p), (f.world.state.nodes n).store.snapshotPartition p
          (f.world.state.nodes n).clock⟩ :: ⟨i, .ctxErr, false⟩ :: f.world.past⟩,
        Function.update f.pool i ((handOver n tbl p (orderQueueMetaLast
          ((f.world.state.nodes n).store.snapshotPartition p (f.world.state.nodes n).clock)) >>=
            fun _ => migrateLoop n tbl rest) >>= k)⟩ := by
  have hstate : (exec (.on n (.snapshot p)) .still f.world.state).2 = f.world.state :=
    Cluster.setNode_same _ _
  have h1 : f.step exec i .still = ⟨⟨f.world.state, ⟨i, .ctxErr, false⟩ :: f.world.past⟩,
      Function.update f.pool i ((migratePartition n tbl p >>= fun _ => migrateLoop n tbl rest) >>= k)⟩ :=
    Conf.step_act hpool
  change Conf.step exec (f.step exec i .still) i .still = _
  rw [h1]
  refine (Conf.step_act (e := .on n (.snapshot p)) (Function.update_self _ _ _)).trans ?_
  simp only [World.next, hstate, exec_snapshot_still, Function.update_idem]
  rfl

/-- One empty partition. -/
theorem run_skip_one {f : Conf α} {p : PartitionId} {rest : List PartitionId}
    (hpool : f.pool i = (migrateLoop n tbl (p :: rest) >>= k))
    (hempty : (f.world.state.nodes n).store.shards p = ∅) :
    ∃ evs, (∀ ev ∈ evs, Looked n ev) ∧
      Conf.run exec [(i, .still), (i, .still)] f =
        ⟨⟨f.world.state, evs ++ f.world.past⟩,
          Function.update f.pool i (migrateLoop n tbl rest >>= k)⟩ := by
  have hsnap : (f.world.state.nodes n).store.snapshotPartition p (f.world.state.nodes n).clock = [] := by
    simp [snapshotPartition, hempty]
  refine ⟨[⟨i, .on n (.snapshot p), []⟩, ⟨i, .ctxErr, false⟩], by simp [Looked], ?_⟩
  rw [run_snapshot hpool, hsnap]
  rfl

/-- **A pass over empty partitions changes nothing.** -/
theorem run_skip {f : Conf α} (pre : List PartitionId) {rest : List PartitionId}
    (hpool : f.pool i = (migrateLoop n tbl (pre ++ rest) >>= k))
    (hempty : ∀ p ∈ pre, (f.world.state.nodes n).store.shards p = ∅) :
    ∃ evs, (∀ ev ∈ evs, Looked n ev) ∧
      Conf.run exec (List.replicate (2 * pre.length) (i, .still)) f =
        ⟨⟨f.world.state, evs ++ f.world.past⟩,
          Function.update f.pool i (migrateLoop n tbl rest >>= k)⟩ := by
  induction pre generalizing f with
  | nil =>
    rw [List.nil_append] at hpool
    exact ⟨[], by simp, by rw [← hpool, Function.update_eq_self]; rfl⟩
  | cons p pre ih =>
    rw [List.cons_append] at hpool
    obtain ⟨evs, hevs, hrun⟩ := run_skip_one hpool (hempty p List.mem_cons_self)
    have hlen : List.replicate (2 * (p :: pre).length) ((i, .still) : ℕ × Choice) =
        [(i, .still), (i, .still)] ++ List.replicate (2 * pre.length) (i, .still) := by
      rw [List.length_cons, Nat.mul_succ, Nat.add_comm, List.replicate_add]
      rfl
    rw [hlen, Conf.run_append, hrun]
    obtain ⟨evs', hevs', hrun'⟩ := ih
      (f := ⟨⟨f.world.state, evs ++ f.world.past⟩,
        Function.update f.pool i (migrateLoop n tbl (pre ++ rest) >>= k)⟩)
      (Function.update_self _ _ _) (fun q hq => hempty q (List.mem_cons_of_mem _ hq))
    refine ⟨evs' ++ evs, ?_, ?_⟩
    · intro ev hev
      exact (List.mem_append.mp hev).elim (hevs' ev) (hevs ev)
    · simp only [hrun', List.append_assoc, Function.update_idem]

end skip

end Medusa
