import Medusa.Replicas

/-! # Nodes that leave, and nodes that start afresh

A cluster whose replicas are in sync runs its maintenance loops while a node leaves, or while some
nodes crash and come back empty.

* `leave_retains`: a remaining holder has the entry at every moment of a careful run.
* `leave_loses`: **the owner's own anti-entropy, running while it leaves, prunes the copy it has
  just handed over.**
* `restart_retains`: the holders that did not crash have the entry at every moment of a careful run.
* `restart_loses`: **an owner that comes back empty prunes its backups.** -/

namespace Medusa

open Medusa.Partition Store Interleave Service

/-- A thread of such a run. -/
inductive Task where
  | leave (n : Bytes)
  | restart (n : Bytes) (seeds : List Bytes)
  | job (j : Node.Job)
deriving DecidableEq, Repr

namespace Task

/-- The program of a task, on nodes with the given addresses. -/
def prog (addr : Bytes → Bytes) : Task → Prog Unit
  | leave n => Node.leave n
  | restart n seeds => Node.restart ⟨n, addr n⟩ seeds
  | job j => j.prog addr

/-- The node a task runs on. -/
def node : Task → Option Bytes
  | leave n => some n
  | restart n _ => some n
  | job j => j.node

/-- The node that loses its store by the task. -/
def loses : Task → Option Bytes
  | leave n => some n
  | restart n _ => some n
  | job _ => none

/-- Whether the task is a call of `SyncBackups`. -/
def syncs : Task → Bool
  | job j => j.syncs
  | _ => false

end Task

section retains
variable {ids : List Bytes} {b : ℕ} {addr : Bytes → Bytes} {C : Cluster}

theorem Task.obeys (hV : SharedView ids b addr C) (r : Ref) (d : Bytes) {lossy : Bytes → Prop}
    {sync : ℕ → Prop} {t : Task} {i : ℕ} (hn : ∀ n, t.node = some n → n ∈ ids)
    (hl : ∀ n, t.loses = some n → lossy n) (hs : t.syncs = true → sync i) :
    ((hV.watch r d lossy).contract sync).Obeys i (fun _ _ => True) (t.prog addr) [] := by
  cases t with
  | leave n =>
    exact Watch.leave_obeys (W := hV.watch r d lossy) (hn n rfl) (fun h => h.2 (hl n rfl)) id []
  | restart n seeds =>
    exact Watch.restart_obeys (W := hV.watch r d lossy) ⟨hn n rfl, rfl⟩
      (fun h => h.2 (hl n rfl)) id seeds []
  | job j =>
    refine (Watch.job_obeys (W := hV.watch r d lossy) hn (fun _ _ _ => id) ?_ []).mono
      (fun _ _ _ => trivial)
    rintro n start batch rfl
    exact hs rfl

/-- In a careful run the holders that no task empties keep the entry. -/
theorem tasks_retain (hV : SharedView ids b addr C) (hR : Replicated ids b C)
    {lossy : Bytes → Prop} {tasks : ℕ → Task} (hnodes : ∀ j n, (tasks j).node = some n → n ∈ ids)
    (hl : ∀ j n, (tasks j).loses = some n → lossy n) {n : Bytes} (hn : n ∈ ids) {r : Ref}
    {d : Bytes} (hd : (C.nodes n).content r = some d) {sched : List (ℕ × Choice)}
    (hok : Meets exec (Careful ids b r lossy (fun j => (tasks j).syncs = true)) sched
      (Conf.init C (fun j => (tasks j).prog addr))) {x : Bytes}
    (hx : x ∈ holders ids b (routedPartition r.1 r.2)) (hlossy : ¬ lossy x) :
    ∃ v, ((Conf.run exec sched (Conf.init C (fun j => (tasks j).prog addr))).world.state.nodes
      x).store.find (routedPartition r.1 r.2) r = some v ∧ v.data = d :=
  run_retains hV hR hn hd
    (fun j => Task.obeys hV r d (hnodes j) (hl j) (fun h => h)) hok hx hlossy

end retains

/-! ### Leaving -/

/-- One node leaves while the maintenance loops run. -/
def leaving (leaver : Bytes) (jobs : ℕ → Node.Job) : ℕ → Task
  | 0 => .leave leaver
  | j + 1 => .job (jobs j)

/-- **A graceful leave loses nothing, in careful runs**: of a cluster of at least two nodes with at
least one backup, at every moment of the leave a remaining node stores the entry.  Messages may
also be lost and contexts cancelled. -/
theorem leave_retains {ids : List Bytes} {b : ℕ} {addr : Bytes → Bytes} {C : Cluster}
    (hV : SharedView ids b addr C) (hR : Replicated ids b C) (hb : 1 ≤ b) (htwo : 2 ≤ ids.length)
    {leaver : Bytes} (hleaver : leaver ∈ ids) (jobs : ℕ → Node.Job)
    (hjobs : ∀ j n, (jobs j).node = some n → n ∈ ids) {n : Bytes} (hn : n ∈ ids) {r : Ref}
    {d : Bytes} (hd : (C.nodes n).content r = some d) {sched : List (ℕ × Choice)}
    (hok : Meets exec
      (Careful ids b r (· = leaver) (fun j => (leaving leaver jobs j).syncs = true)) sched
      (Conf.init C (fun j => (leaving leaver jobs j).prog addr))) :
    ∃ x ∈ ids, x ≠ leaver ∧ ∃ v,
      ((Conf.run exec sched (Conf.init C (fun j => (leaving leaver jobs j).prog addr))).world.state.nodes
        x).store.find (routedPartition r.1 r.2) r = some v ∧ v.data = d := by
  obtain ⟨x, hx, hne⟩ := exists_holder_ne hV.nodup hb htwo (routedPartition r.1 r.2) leaver
  refine ⟨x, mem_of_mem_holders hx, hne, ?_⟩
  refine tasks_retain hV hR ?_ ?_ hn hd hok hx hne
  · intro j m hm
    cases j with
    | zero => exact Option.some.inj hm ▸ hleaver
    | succ j => exact hjobs j m hm
  · intro j m hm
    cases j with
    | zero => exact (Option.some.inj hm).symm
    | succ j => cases hm

/-- Nodes `a` and `b`, which both hold one entry; `a` owns its partition. -/
def pair : Cluster := oneEntry [[97], [98]] 1 [[97], [98]] ([109], [114]) [118]

theorem pair_sharedView : SharedView [[97], [98]] 1 id pair :=
  oneEntry_sharedView 1 _ _ _ (by decide) (by decide) (by decide +kernel)

theorem pair_replicated : Replicated [[97], [98]] 1 pair :=
  oneEntry_replicated _ _ (by decide +kernel)

theorem pair_content : (pair.nodes [97]).content ([109], [114]) = some [118] := oneEntry_content ..

/-- `a` leaves, and runs `SyncBackups` over the entry's partition. -/
def pairLeaving : ℕ → Node.Job := fun _ => .antiEntropy [97] 1 1

/-- A careful leave: the leaver's `SyncBackups` is over before it drops the entry. -/
theorem leave_retains_pair :
    let f := Conf.run exec (List.replicate 20 (1, .still) ++ List.replicate 560 (0, .still))
      (Conf.init pair (fun j => (leaving [97] pairLeaving j).prog id))
    (f.pool 0).returned = true ∧ ∃ x ∈ [[97], [98]], x ≠ [97] ∧ ∃ v,
      (f.world.state.nodes x).store.find (forKey [114]) ([109], [114]) = some v ∧ v.data = [118] := by
  refine ⟨by decide +kernel, ?_⟩
  refine leave_retains pair_sharedView pair_replicated (by decide) (by decide) (by decide)
    pairLeaving ?_ (n := [97]) (by decide) pair_content ?_
  · intro j n hn
    obtain rfl := Option.some.inj hn
    decide
  · have hcheck : Conf.check exec (carefulCheck [[97], [98]] ([109], [114]) (fun n => decide (n = [97]))
        (fun j => (leaving [97] pairLeaving j).syncs))
        (List.replicate 20 (1, .still) ++ List.replicate 560 (0, .still))
        (Conf.init pair (fun j => (leaving [97] pairLeaving j).prog id)) = true := by
      decide +kernel
    exact (Meets.of_check hcheck).mono (fun i e c w h => by simpa using Careful.of_check 1 h)

/-- **Anti-entropy of the leaving owner destroys what it handed over**: after the leaver pushed the
entry and dropped it, its `SyncBackups` still works with the table that names it the owner, and
prunes the backup to its own, empty key set.  All messages arrive, both calls return, and no node
has the entry. -/
theorem leave_loses :
    let f := Conf.run exec (List.replicate 12 (0, .still) ++ List.replicate 20 (1, .still) ++
      List.replicate 560 (0, .still)) (Conf.init pair (fun j => (leaving [97] pairLeaving j).prog id))
    SharedView [[97], [98]] 1 id pair ∧ Replicated [[97], [98]] 1 pair ∧
    (pair.nodes [98]).content ([109], [114]) = some [118] ∧
    (f.pool 0).returned = true ∧ (f.pool 1).returned = true ∧
    (f.world.state.nodes [97]).store.find (forKey [114]) ([109], [114]) = none ∧
    (f.world.state.nodes [98]).store.find (forKey [114]) ([109], [114]) = none := by
  refine ⟨pair_sharedView, pair_replicated, ?_⟩
  decide +kernel

/-! ### Starting afresh -/

/-- **A crash of some nodes and their quick restart lose nothing, in careful runs**: the nodes
`crashed` come back empty under their ids and addresses, any number of times, while all
maintenance loops run; an entry with a holder outside `crashed` stays stored there. -/
theorem restart_retains {ids : List Bytes} {b : ℕ} {addr : Bytes → Bytes} {C : Cluster}
    (hV : SharedView ids b addr C) (hR : Replicated ids b C) {crashed : List Bytes}
    (tasks : ℕ → Task) (hnodes : ∀ j n, (tasks j).node = some n → n ∈ ids)
    (hcrash : ∀ j n, (tasks j).loses = some n → n ∈ crashed) {n : Bytes} (hn : n ∈ ids) {r : Ref}
    {d : Bytes} (hd : (C.nodes n).content r = some d)
    (hsafe : ∃ x ∈ holders ids b (routedPartition r.1 r.2), x ∉ crashed)
    {sched : List (ℕ × Choice)}
    (hok : Meets exec (Careful ids b r (· ∈ crashed) (fun j => (tasks j).syncs = true)) sched
      (Conf.init C (fun j => (tasks j).prog addr))) :
    ∃ x ∈ ids, x ∉ crashed ∧ ∃ v,
      ((Conf.run exec sched (Conf.init C (fun j => (tasks j).prog addr))).world.state.nodes
        x).store.find (routedPartition r.1 r.2) r = some v ∧ v.data = d := by
  obtain ⟨x, hx, hxc⟩ := hsafe
  exact ⟨x, mem_of_mem_holders hx, hxc, tasks_retain hV hR hnodes hcrash hn hd hok hx hxc⟩

/-- `a` crashes and comes back through `b`; `b` hands its partitions over; then `a` runs
`SyncBackups` over the entry's partition. -/
def pairRestart : ℕ → Task
  | 0 => .restart [97] [[98]]
  | 1 => .job (.rebalance [98])
  | _ => .job (.antiEntropy [97] 1 1)

/-- A careful restart: `a` runs anti-entropy after `b` has given it the entry again. -/
theorem restart_retains_pair :
    ∃ x ∈ [[97], [98]], x ∉ [[97]] ∧ ∃ v,
      ((Conf.run exec (List.replicate 20 (0, .still) ++ List.replicate 560 (1, .still) ++
        List.replicate 20 (2, .still)) (Conf.init pair (fun j => (pairRestart j).prog id))).world.state.nodes
          x).store.find (forKey [114]) ([109], [114]) = some v ∧ v.data = [118] := by
  refine restart_retains pair_sharedView pair_replicated pairRestart ?_ ?_ (n := [97])
    (by decide) pair_content ⟨[98], by decide +kernel, by decide⟩ ?_
  · intro j n hn
    match j with
    | 0 | 1 | j + 2 => obtain rfl := Option.some.inj hn; decide
  · intro j n hn
    match j with
    | 0 => obtain rfl := Option.some.inj hn; decide
    | 1 | j + 2 => cases hn
  · have hcheck : Conf.check exec (carefulCheck [[97], [98]] ([109], [114])
        (fun n => decide (n ∈ [[97]])) (fun j => (pairRestart j).syncs))
        (List.replicate 20 (0, .still) ++ List.replicate 560 (1, .still) ++
          List.replicate 20 (2, .still)) (Conf.init pair (fun j => (pairRestart j).prog id)) = true := by
      decide +kernel
    exact (Meets.of_check hcheck).mono (fun i e c w h => by simpa using Careful.of_check 1 h)

/-- **An owner that comes back empty prunes its backups**: the crash and the restart go unnoticed by
the table, so nothing is handed to the returned owner, and its first `SyncBackups` tells its backup
to drop everything.  All messages arrive, all calls return, and no node has the entry. -/
theorem restart_loses :
    let f := Conf.run exec (List.replicate 20 (0, .still) ++ List.replicate 20 (2, .still))
      (Conf.init pair (fun j => (pairRestart j).prog id))
    SharedView [[97], [98]] 1 id pair ∧ Replicated [[97], [98]] 1 pair ∧
    (pair.nodes [98]).content ([109], [114]) = some [118] ∧
    (f.pool 0).returned = true ∧ (f.pool 2).returned = true ∧
    (f.world.state.nodes [97]).store.find (forKey [114]) ([109], [114]) = none ∧
    (f.world.state.nodes [98]).store.find (forKey [114]) ([109], [114]) = none := by
  refine ⟨pair_sharedView, pair_replicated, ?_⟩
  decide +kernel

end Medusa
