import Medusa.Lib.FencedLock
import Medusa.Lib.Mealy
import Medusa.Processors
import Medusa.WalFile

/-! # Fenced locks on one owner

A run over one key that only `lockacquire` and `lockrelease` touch, on an owner with an open log, with
checkpoints, and with crashes at any byte of a record or between the two halves of a checkpoint
(`lockStep`).  The run is compared with the fenced lock of the library (`lockSpec`): an interrupted
call counts if its whole record reached the file.

* `lockStep_sim`: **the owner refines the lock**: every reply is the lock's, as long as there are fewer
  than `2^64` acquisitions and no record is over the cap of the log.
* `fenced_lock`: the five properties of the replies that make the lock safe.
* `over_cap_reissued`: a record over the cap is acknowledged and not replayed, so the token it
  acknowledged is given out again. -/

namespace Medusa

open BigEndian Medusa.Partition Store FencedLock

/-! ### Runs -/

/-- A call, with the holder. -/
inductive LockCall where
  | acquire (holder : Bytes)
  | release (holder : Bytes)
deriving DecidableEq, Repr

namespace LockCall

/-- The processor that runs. -/
def proc : LockCall → Processor
  | acquire _ => lockAcquireProc
  | release _ => lockReleaseProc

/-- Its argument. -/
def arg : LockCall → Bytes
  | acquire holder => holder
  | release holder => holder

end LockCall

/-- The steps of a run.  A crash leaves the first `k` bytes of the record of a call (`k = 0` for a crash
between calls), or a checkpoint whose snapshot is written but whose log is not emptied yet; the node
then restores the snapshot and opens the log. -/
inductive LockStep where
  | call (c : LockCall)
  | checkpoint
  | crash (c : LockCall) (k opening : ℕ)
  | crashCheckpoint (opening : ℕ)
deriving DecidableEq, Repr

section steps
variable (C : Codec) (name key : Bytes)

/-- `Restore` and `OpenWAL`, which cuts the tail of the log. -/
def Durable.crash (d : Durable) (tick opening : ℕ) : Durable :=
  { d.step C (tick, .restart opening) with file := (reopen C d.file).bytes }

/-- The mutation of a call. -/
def LockCall.mutator (c : LockCall) : Mutator := .execute name key c.proc c.arg

/-- One step, and the reply of a call; on a reserved map a call is refused. -/
def lockStep (d : Durable) (o : ℕ × LockStep) : Option Bytes × Durable :=
  match o.2 with
  | .call c =>
    (if isReservedMap name then none
      else some (applyExecute d.store name key c.proc c.arg (d.now + o.1)).out.out,
      d.step C (o.1, .logged (c.mutator name key)))
  | .checkpoint => (none, d.step C (o.1, .checkpoint))
  | .crash c k opening =>
    let log := ((c.mutator name key).run d.store (d.now + o.1)).1
    (none, { d with file := d.file ++ (log.flatMap (frame C)).take k }.crash C o.1 opening)
  | .crashCheckpoint opening =>
    (none, { d with snapshot := d.store.snapshotAll (d.now + o.1) }.crash C o.1 opening)

end steps

/-- `Map.Lock`'s reading of a reply. -/
def tokenOf (reply : Option Bytes) : Option ℕ :=
  reply.bind fun out => if out.length = 8 then some (beNat out) else none

/-- `Map.Unlock`'s reading of a reply. -/
def releasedOf (reply : Option Bytes) : Bool := decide (reply = some [1])

/-! ### The lock -/

/-- The bytes of a reply that grants a token. -/
def tokenBytes : Option ℕ → Bytes
  | none => []
  | some t => beBytes 8 t

/-- What a call does to the lock, and its reply. -/
def LockCall.spec (l : Lock Bytes) : LockCall → Bytes × Lock Bytes
  | acquire holder =>
    if holder = [] then ([], l) else (tokenBytes (l.acquire holder).1, (l.acquire holder).2)
  | release holder =>
    if holder = [] then ([0], l)
    else ([if (l.release holder).1 then 1 else 0], (l.release holder).2)

/-- The value under which a lock is stored. -/
def lockValue (l : Lock Bytes) : Bytes := encodeLock (UInt64.ofNat l.fence) (l.holder.getD [])

section spec
variable (C : Codec) (name key : Bytes)

/-- The record of a value of the key. -/
def lockRecord (value : Bytes) : WalRecord := ⟨.put, ⟨name, key, value, 0⟩⟩

/-- One step of the lock. -/
def lockSpec (l : Lock Bytes) (o : ℕ × LockStep) : Option Bytes × Lock Bytes :=
  if isReservedMap name then (none, l)
  else match o.2 with
    | .call c => (some (c.spec l).1, (c.spec l).2)
    | .crash c k _ =>
      let l' := (c.spec l).2
      (none, if (frame C (lockRecord name key (lockValue l'))).length ≤ k then l' else l)
    | _ => (none, l)

/-- The record that a step which finds the lock `l` writes, if it writes one, is under the cap of the log. -/
def LockStep.UnderCap (l : Lock Bytes) : LockStep → Prop
  | .call c | .crash c _ _ => isReservedMap name = false → (c.spec l).2 ≠ l →
      Medusa.UnderCap C (lockRecord name key (lockValue (c.spec l).2))
  | _ => True

end spec

/-! ### The processors -/

/-- The lock a stored value stands for. -/
def lockOf (v : Option Bytes) : Lock Bytes :=
  let x := decodeLock (v.getD [])
  ⟨x.1.toNat, if x.2 = [] then none else some x.2⟩

theorem lockOf_none : lockOf none = Lock.init := rfl

theorem lockOf_encodeLock (f : UInt64) (holder : Bytes) :
    lockOf (some (encodeLock f holder)) =
      ⟨f.toNat, if holder = [] then none else some holder⟩ := by
  simp [lockOf]

/-- **The processors are the lock's operations**: a call leaves the value, or stores the new lock; the
fence is a 64-bit number, so the reply and the stored lock are right below `2^64`. -/
theorem proc_spec (c : LockCall) (v : Option Bytes) :
    let r := c.proc v c.arg
    let l := c.spec (lockOf v)
    (r.2.1 = .keep ∧ r.2.2 = l.1 ∧ l.2 = lockOf v) ∨
    (r.2.1 = .set ∧ r.1 = lockValue l.2 ∧ l.2 ≠ lockOf v ∧
      (l.2.fence < 2 ^ 64 → r.2.2 = l.1 ∧ lockOf (some r.1) = l.2)) := by
  intro r l
  rcases hx : decodeLock (v.getD []) with ⟨f, holder⟩
  have hlock : lockOf v = ⟨f.toNat, if holder = [] then none else some holder⟩ := by
    simp [lockOf, hx]
  rw [hlock]
  cases c with
  | acquire h =>
    by_cases hh : h = []
    · exact Or.inl (by simp [r, l, LockCall.proc, LockCall.arg, LockCall.spec, lockAcquireProc, hh,
        hlock])
    by_cases hfree : holder = []
    · have hl : l = (beBytes 8 (f.toNat + 1), ⟨f.toNat + 1, some h⟩) := by
        unfold l
        rw [hlock, if_pos hfree, LockCall.spec, if_neg hh, acquire_free rfl]
        rfl
      have hr : r = (encodeLock (f + 1) h, .set, fenceBytes (f + 1)) := by
        simp [r, LockCall.proc, LockCall.arg, lockAcquireProc, hh, hx, hfree]
      have hof : UInt64.ofNat (f.toNat + 1) = f + 1 := by
        rw [UInt64.ofNat_add, UInt64.ofNat_toNat]
        rfl
      rw [hl, hr]
      refine Or.inr ⟨rfl, by rw [lockValue, hof]; rfl, by simp, fun hlt => ?_⟩
      have hsucc : (f + 1).toNat = f.toNat + 1 := by
        rw [UInt64.toNat_add]
        exact Nat.mod_eq_of_lt hlt
      exact ⟨by rw [fenceBytes, hsucc], by rw [lockOf_encodeLock, hsucc, if_neg hh]⟩
    · refine Or.inl ?_
      by_cases hsame : holder = h
      · subst hsame
        simp [r, l, LockCall.proc, LockCall.arg, LockCall.spec, lockAcquireProc, hh, hx, hlock,
          acquire_holder, tokenBytes, fenceBytes]
      · simp [r, l, LockCall.proc, LockCall.arg, LockCall.spec, lockAcquireProc, hh, hx, hfree,
          hsame, hlock, acquire_held (l := ⟨f.toNat, some holder⟩) rfl hsame, tokenBytes]
  | release h =>
    by_cases hheld : holder = h ∧ h ≠ []
    · obtain ⟨rfl, hh⟩ := hheld
      refine Or.inr ?_
      simp [r, l, LockCall.proc, LockCall.arg, LockCall.spec, lockReleaseProc, hh, hx, hlock,
        Lock.release, lockValue, lockOf_encodeLock]
    · refine Or.inl ?_
      by_cases hfree : holder = [] <;> by_cases hh : h = [] <;>
        simp_all [r, l, LockCall.proc, LockCall.arg, LockCall.spec, lockReleaseProc, Lock.release]

/-! ### What the store and the files hold -/

section invariant
variable (C : Codec) (name key : Bytes)

/-- The content with one value under the key. -/
def single (v : Option Bytes) : Content := fun r =>
  if r = (name, key) then v.map (fun data => ⟨data, 0⟩) else none

/-- The snapshot restores some value of the key, and the values in the log end with `v`. -/
structure Persisted (snapshot : List Entry) (vals : List Bytes) (v : Option Bytes) : Prop where
  cap : ∀ x ∈ vals, Medusa.UnderCap C (lockRecord name key x)
  last : ∃ u, (∀ t, restoredContent t snapshot = single name key u) ∧ vals.getLast?.or u = v

/-- The store has the value `v`, and so has what a restart recovers. -/
structure LockInv (d : Durable) (v : Option Bytes) : Prop where
  placed : Placed d.store
  content : content d.store = single name key v
  log : ∃ vals : List Bytes, d.file = (vals.map (lockRecord name key)).flatMap (frame C) ∧
    Persisted C name key d.snapshot vals v

variable {C name key} {v : Option Bytes} {vals : List Bytes} {x : Bytes} {d : Durable}

theorem Persisted.concat {snapshot : List Entry} (h : Persisted C name key snapshot vals v)
    (hcap : Medusa.UnderCap C (lockRecord name key x)) :
    Persisted C name key snapshot (vals ++ [x]) (some x) := by
  obtain ⟨u, hu, -⟩ := h.last
  exact ⟨List.forall_mem_append.mpr ⟨h.cap, by simpa using hcap⟩, u, hu, by simp⟩

theorem putContent_single (v : Option Bytes) (x : Bytes) :
    putContent (single name key v) ⟨name, key, x, 0⟩ = single name key (some x) := by
  funext r
  by_cases h : r = (name, key)
  · subst h
    simp [putContent, single, Entry.ref, Entry.val]
  · simp [putContent, single, Entry.ref, h]

theorem single_all (v : Option Bytes) : (single name key v).All fun r w =>
    r = (name, key) ∧ w.expireAt = 0 := by
  intro r w hw
  unfold single at hw
  split at hw
  · next hr =>
    obtain ⟨data, -, rfl⟩ := Option.map_eq_some_iff.mp hw
    exact ⟨hr, rfl⟩
  · cases hw

variable (hname : isReservedMap name = false)
include hname

theorem replayContent_lockRecord (t : ℕ) (v : Option Bytes) (x : Bytes) :
    replayContent t (single name key v) (lockRecord name key x) = single name key (some x) := by
  have hq : isLegacyQueue name x = false := by
    have : name ≠ queueMap := fun h => by simp [isReservedMap, h] at hname
    simp [isLegacyQueue, this]
  have hdead : (⟨name, key, x, 0⟩ : Entry).dead t = false := by simp [Entry.dead]
  rw [← putContent_single v x, ← loadContent_of_not_legacy (e := ⟨name, key, x, 0⟩) hq]
  simp [replayContent, lockRecord, hdead]

theorem replay_vals (t : ℕ) (vals : List Bytes) (u : Option Bytes) :
    (vals.map (lockRecord name key)).foldl (replayContent t) (single name key u) =
      single name key (vals.getLast?.or u) := by
  induction vals generalizing u with
  | nil => simp
  | cons x vals ih =>
    rw [List.map_cons, List.foldl_cons, replayContent_lockRecord hname, ih]
    cases vals <;> simp [List.getLast?_cons]

/-- What a snapshot of the store restores. -/
theorem restoredContent_single {s : Store} (hs : Placed s) (hv : content s = single name key v)
    (now t : ℕ) :
    restoredContent t (s.snapshotAll now) = single name key v := by
  have hq : name ≠ queueMap := fun h => by simp [isReservedMap, h] at hname
  rw [restoredContent_snapshotAll hs, hv]
  · funext r
    cases hr : single name key v r with
    | none => rfl
    | some w =>
      have h0 := (single_all v r w hr).2
      simp [Option.filter_some, Value.expired, Value.alive, h0]
  · intro r w hw _
    rw [hv] at hw
    simp [(single_all v r w hw).1, isLegacyQueue, hq]

/-- A restart over the snapshot and a log that delivers `vals`. -/
theorem inv_crash (hreplay : replayWAL C d.file = (records (vals.map (lockRecord name key)),
      ((vals.map (lockRecord name key)).flatMap (frame C)).length))
    (hreopen : (reopen C d.file).bytes = (vals.map (lockRecord name key)).flatMap (frame C))
    (hp : Persisted C name key d.snapshot vals v) (tick opening : ℕ) :
    LockInv C name key (d.crash C tick opening) v := by
  obtain ⟨u, hu, hlast⟩ := hp.last
  refine ⟨(placed_empty.loadAll _).replay, ?_, vals, hreopen, hp⟩
  have hrec := content_openWAL (congrArg Prod.fst hreplay) (d.now + tick + opening)
    (restore (d.now + tick) d.snapshot)
  rw [content_restore, hu, replay_vals hname, hlast] at hrec
  exact hrec

/-- What a processor does to a store with the value `v`. -/
theorem execute_single {s : Store} (hv : content s = single name key v) (proc : Processor) (arg : Bytes)
    (now : ℕ) :
    let x := applyExecute s name key proc arg now
    x.out.out = (proc v arg).2.2 ∧
    ((proc v arg).2.1 = .keep → x.log = [] ∧ x.store = s) ∧
    ((proc v arg).2.1 = .set → x.log = [lockRecord name key (proc v arg).1] ∧
      x.store = s.set (routedPartition name key) (name, key) ⟨(proc v arg).1, 0⟩) := by
  have hlookup : s.lookup (forKey key) name key now = v.map (fun data => ⟨data, 0⟩) := by
    have hfind : s.find (forKey key) (name, key) = v.map (fun data => ⟨data, 0⟩) := by
      rw [← routedPartition_ordinary hname key]
      have := congrFun hv (name, key)
      simpa [content, single] using this
    rw [Store.lookup, hfind]
    cases v <;> simp [Value.expired, Option.filter_some]
  have hget : s.get (forKey key) name key now = v := by
    rw [Store.get, hlookup]
    cases v <;> rfl
  rw [routedPartition_ordinary hname key]
  rcases hp : proc v arg with ⟨newVal, action, out⟩
  cases action <;> cases v <;> simp [applyExecute, Store.update, hget, hlookup, hp, lockRecord]

omit hname in
/-- A value is stored and logged. -/
theorem inv_set (h : LockInv C name key d v) (hcap : Medusa.UnderCap C (lockRecord name key x)) (now : ℕ) :
    LockInv C name key
      { d with
        store := d.store.set (routedPartition name key) (name, key) ⟨x, 0⟩
        file := d.file ++ frame C (lockRecord name key x)
        now := now } (some x) := by
  obtain ⟨vals, hfile, hp⟩ := h.log
  refine ⟨h.placed.set (name, key) _, ?_, vals ++ [x], ?_, hp.concat hcap⟩
  · have := content_set d.store (name, key) ⟨x, 0⟩
    rw [h.content] at this
    exact this.trans (putContent_single v x)
  · simp [hfile]

omit hname in
theorem underCap_vals (h : ∀ x ∈ vals, Medusa.UnderCap C (lockRecord name key x)) :
    ∀ r ∈ vals.map (lockRecord name key), Medusa.UnderCap C r := by
  intro r hr
  obtain ⟨x, hx, rfl⟩ := List.mem_map.mp hr
  exact h x hx

/-- A crash between calls. -/
theorem inv_crash_whole (hfile : d.file = (vals.map (lockRecord name key)).flatMap (frame C))
    (hp : Persisted C name key d.snapshot vals v) (tick opening : ℕ) :
    LockInv C name key (d.crash C tick opening) v := by
  have hcap := underCap_vals hp.cap
  refine inv_crash hname ?_ ?_ hp tick opening
  · rw [hfile, replayWAL_frames hcap]
  · rw [hfile, reopen_frames hcap]

/-- A crash after `k` bytes of a record. -/
theorem inv_crash_torn (h : LockInv C name key d v) (hcap : Medusa.UnderCap C (lockRecord name key x))
    (k tick opening : ℕ) :
    LockInv C name key
      ({ d with file := d.file ++ (frame C (lockRecord name key x)).take k }.crash C tick opening)
      (if (frame C (lockRecord name key x)).length ≤ k then some x else v) := by
  obtain ⟨vals, hfile, hp⟩ := h.log
  have hall := underCap_vals hp.cap
  have hreplay := replayWAL_interrupted hall hcap k
  have hreopen := congrArg WalFile.bytes (reopen_interrupted hall hcap k)
  rw [← hfile] at hreplay hreopen
  by_cases hk : (frame C (lockRecord name key x)).length ≤ k
  · simp only [hk, if_true] at hreplay hreopen ⊢
    have hmap : vals.map (lockRecord name key) ++ [lockRecord name key x] =
        (vals ++ [x]).map (lockRecord name key) := by simp
    rw [hmap] at hreplay hreopen
    exact inv_crash (d := { d with file := _ }) hname hreplay hreopen (hp.concat hcap) tick opening
  · simp only [hk, if_false] at hreplay hreopen ⊢
    exact inv_crash (d := { d with file := _ }) hname hreplay hreopen hp tick opening

/-! ### The simulation -/

/-- The mutation of a call: nothing, or the new lock is stored and logged. -/
theorem mutator_run (h : LockInv C name key d v) {c : LockCall}
    (hcap : LockStep.UnderCap C name key (lockOf v) (.call c)) (now : ℕ) :
    let l := c.spec (lockOf v)
    ((c.mutator name key).run d.store now = ([], d.store) ∧ l.2 = lockOf v ∧
      (applyExecute d.store name key c.proc c.arg now).out.out = l.1) ∨
    ((c.mutator name key).run d.store now = ([lockRecord name key (lockValue l.2)],
        d.store.set (routedPartition name key) (name, key) ⟨lockValue l.2, 0⟩) ∧
      Medusa.UnderCap C (lockRecord name key (lockValue l.2)) ∧
      (l.2.fence < 2 ^ 64 → lockOf (some (lockValue l.2)) = l.2 ∧
        (applyExecute d.store name key c.proc c.arg now).out.out = l.1)) := by
  intro l
  obtain ⟨hout, hkeep, hset⟩ := execute_single hname h.content c.proc c.arg now
  have hrun : (c.mutator name key).run d.store now =
      ((applyExecute d.store name key c.proc c.arg now).log,
        (applyExecute d.store name key c.proc c.arg now).store) := by
    simp [LockCall.mutator, Mutator.run, hname]
  rw [hrun, hout]
  rcases proc_spec c v with ⟨hk, hreply, hsame⟩ | ⟨hs, hval, hne, hlt⟩
  · rw [(hkeep hk).1, (hkeep hk).2]
    exact Or.inl ⟨rfl, hsame, hreply⟩
  · rw [(hset hs).1, (hset hs).2]
    refine Or.inr ⟨by rw [hval], hcap hname hne, fun hfence => ?_⟩
    rw [← hval]
    exact (hlt hfence).symm

/-- **One step refines the lock's.** -/
theorem lockStep_sim {l : Lock Bytes} {o : ℕ × LockStep} (hR : ∃ v, LockInv C name key d v ∧ lockOf v = l)
    (hcap : o.2.UnderCap C name key l) (hlt : (lockSpec C name key l o).2.fence < 2 ^ 64) :
    (lockStep C name key d o).1 = (lockSpec C name key l o).1 ∧
    ∃ v, LockInv C name key (lockStep C name key d o).2 v ∧
      lockOf v = (lockSpec C name key l o).2 := by
  obtain ⟨v, h, rfl⟩ := hR
  obtain ⟨tick, step⟩ := o
  cases step with
  | call c =>
    have hspec : lockSpec C name key (lockOf v) (tick, .call c) =
        (some (c.spec (lockOf v)).1, (c.spec (lockOf v)).2) := by simp [lockSpec, hname]
    rw [hspec] at hlt ⊢
    rcases mutator_run hname h hcap (d.now + tick) with ⟨hrun, hsame, hout⟩ | ⟨hrun, hunder, hnew⟩
    · refine ⟨by simp [lockStep, hname, hout], v, ?_, hsame.symm⟩
      simp only [lockStep, Durable.step, hrun, List.foldl_nil]
      exact ⟨h.placed, h.content, h.log⟩
    · obtain ⟨hlock, hout⟩ := hnew hlt
      refine ⟨by simp [lockStep, hname, hout], _, ?_, hlock⟩
      simp only [lockStep, Durable.step, hrun, List.foldl_cons, List.foldl_nil]
      exact inv_set h hunder _
  | checkpoint =>
    have hspec : lockSpec C name key (lockOf v) (tick, .checkpoint) = (none, lockOf v) := by
      simp [lockSpec, hname]
    rw [hspec]
    exact ⟨rfl, v, ⟨h.placed, h.content, [], rfl, by simp, v,
      restoredContent_single hname h.placed h.content _, by simp⟩, rfl⟩
  | crash c k opening =>
    have hspec : lockSpec C name key (lockOf v) (tick, .crash c k opening) =
        (none, if (frame C (lockRecord name key (lockValue (c.spec (lockOf v)).2))).length ≤ k
          then (c.spec (lockOf v)).2 else lockOf v) := by simp [lockSpec, hname]
    rw [hspec] at hlt ⊢
    refine ⟨rfl, ?_⟩
    rcases mutator_run hname h hcap (d.now + tick) with ⟨hrun, hsame, -⟩ | ⟨hrun, hunder, hnew⟩
    · obtain ⟨vals, hfile, hp⟩ := h.log
      refine ⟨v, ?_, by rw [hsame, ite_self]⟩
      simp only [lockStep, hrun, List.flatMap_nil, List.take_nil, List.append_nil]
      exact inv_crash_whole hname hfile hp tick opening
    · have hinv := inv_crash_torn hname h hunder k tick opening
      simp only [lockStep, hrun, List.flatMap_cons, List.flatMap_nil, List.append_nil]
      refine ⟨_, hinv, ?_⟩
      by_cases hk :
          (frame C (lockRecord name key (lockValue (c.spec (lockOf v)).2))).length ≤ k
      · rw [if_pos hk] at hlt ⊢
        rw [if_pos hk, (hnew hlt).1]
      · rw [if_neg hk, if_neg hk]
  | crashCheckpoint opening =>
    have hspec : lockSpec C name key (lockOf v) (tick, .crashCheckpoint opening) =
        (none, lockOf v) := by simp [lockSpec, hname]
    rw [hspec]
    obtain ⟨vals, hfile, hp⟩ := h.log
    obtain ⟨u, -, hlast⟩ := hp.last
    -- the log ends with the value of the store, or is empty
    have hv : vals.getLast?.or v = v := by
      rw [← hlast]
      cases vals.getLast? <;> rfl
    have hnew : Persisted C name key (d.store.snapshotAll (d.now + tick)) vals v :=
      ⟨hp.cap, v, restoredContent_single hname h.placed h.content _, hv⟩
    exact ⟨rfl, v, inv_crash_whole (d := { d with snapshot := d.store.snapshotAll (d.now + tick) })
      hname hfile hnew tick opening, rfl⟩

end invariant

/-! ### Safety -/

section safety
variable (C : Codec) (name key : Bytes)

/-- The lock after a run. -/
def lockAfter (steps : List (ℕ × LockStep)) : Lock Bytes :=
  (Mealy.run (lockSpec C name key) steps Lock.init).2

/-- In every step of a run the record is under the cap. -/
def KeepsCap (steps : List (ℕ × LockStep)) : Prop :=
  Mealy.Allowed (lockSpec C name key) (fun l o => o.2.UnderCap C name key l) steps Lock.init

/-- The reply to a step after a run from an empty node. -/
def replyAfter (now : ℕ) (steps : List (ℕ × LockStep)) (o : ℕ × LockStep) : Option Bytes :=
  (lockStep C name key (Mealy.run (lockStep C name key) steps (Durable.fresh now)).2 o).1

variable {C name key}

theorem lockAfter_append (pre post : List (ℕ × LockStep)) :
    lockAfter C name key (pre ++ post) =
      (Mealy.run (lockSpec C name key) post (lockAfter C name key pre)).2 := by
  rw [lockAfter, Mealy.run_append]
  rfl

/-- On a reserved map no call is served. -/
theorem lockAfter_reserved (hname : isReservedMap name = true) (steps : List (ℕ × LockStep)) :
    lockAfter C name key steps = Lock.init := by
  induction steps with
  | nil => rfl
  | cons o steps ih =>
    rw [lockAfter, Mealy.run_cons, lockSpec, if_pos hname]
    exact ih

theorem fence_le_spec (c : LockCall) (l : Lock Bytes) : l.fence ≤ (c.spec l).2.fence := by
  cases c with
  | acquire h =>
    simp only [LockCall.spec]
    split
    · exact Nat.le_refl _
    · exact fence_le_acquire l h
  | release h =>
    simp only [LockCall.spec]
    split
    · exact Nat.le_refl _
    · exact (fence_release l h).ge

theorem fence_le_lockSpec (l : Lock Bytes) (o : ℕ × LockStep) :
    l.fence ≤ (lockSpec C name key l o).2.fence := by
  unfold lockSpec
  split
  · exact le_rfl
  · split
    · exact fence_le_spec _ l
    · dsimp only
      split
      · exact fence_le_spec _ l
      · exact le_rfl
    · exact le_rfl

/-- The fence of every step of a run is at most the last. -/
theorem allowed_of_fence {steps : List (ℕ × LockStep)} {l : Lock Bytes}
    (hcap : Mealy.Allowed (lockSpec C name key) (fun l o => o.2.UnderCap C name key l) steps l)
    (hcount : (Mealy.run (lockSpec C name key) steps l).2.fence < 2 ^ 64) :
    Mealy.Allowed (lockSpec C name key) (fun l o => o.2.UnderCap C name key l ∧
      (lockSpec C name key l o).2.fence < 2 ^ 64) steps l := by
  induction steps generalizing l with
  | nil => trivial
  | cons o steps ih =>
    have hle := Mealy.le_run (lockSpec C name key) (f := Lock.fence) fence_le_lockSpec steps
      (lockSpec C name key l o).2
    exact ⟨⟨hcap.1, hle.trans_lt hcount⟩, ih hcap.2 hcount⟩

theorem inv_fresh_lock (now : ℕ) : LockInv C name key (Durable.fresh now) none :=
  ⟨placed_empty, by funext r; simp [single, content, Durable.fresh], [], rfl, by simp, none,
    fun t => by funext r; simp [restoredContent, single, Durable.fresh], rfl⟩

/-- **The replies are the lock's**, at every step of a run. -/
theorem replyAfter_eq (now : ℕ) {pre post : List (ℕ × LockStep)} {o : ℕ × LockStep}
    (hcap : KeepsCap C name key (pre ++ o :: post))
    (hcount : (lockAfter C name key (pre ++ o :: post)).fence < 2 ^ 64) :
    replyAfter C name key now pre o = (lockSpec C name key (lockAfter C name key pre) o).1 ∧
    (lockAfter C name key pre).holder ≠ some [] := by
  cases hname : isReservedMap name with
  | true =>
    rw [lockAfter_reserved hname]
    refine ⟨?_, by simp [Lock.init]⟩
    obtain ⟨tick, step⟩ := o
    cases step <;> simp [replyAfter, lockStep, lockSpec, hname]
  | false =>
    have hall := allowed_of_fence hcap hcount
    rw [Mealy.Allowed.append] at hall
    have hstep : ∀ d l o, (∃ v, LockInv C name key d v ∧ lockOf v = l) →
        (o.2.UnderCap C name key l ∧ (lockSpec C name key l o).2.fence < 2 ^ 64) →
        (lockStep C name key d o).1 = (lockSpec C name key l o).1 ∧
        ∃ v, LockInv C name key (lockStep C name key d o).2 v ∧
          lockOf v = (lockSpec C name key l o).2 :=
      fun _ _ _ hR hok => lockStep_sim hname hR hok.1 hok.2
    have hsim := Mealy.run_sim (R := fun d l => ∃ v, LockInv C name key d v ∧ lockOf v = l) hstep
      (s := Durable.fresh now) ⟨none, inv_fresh_lock now, lockOf_none⟩ hall.1
    refine ⟨(hstep _ _ o hsim.2 hall.2.1).1, ?_⟩
    obtain ⟨v, -, hv⟩ := hsim.2
    rw [lockAfter, ← hv, lockOf]
    dsimp only
    split
    · simp
    · simpa using ‹_›

/-- A token reads back. -/
theorem tokenOf_tokenBytes {t : Option ℕ} (ht : ∀ n, t = some n → n < 2 ^ 64) :
    tokenOf (some (tokenBytes t)) = t := by
  cases t with
  | none => rfl
  | some n =>
    have hn : beNat (beBytes 8 n) = n := beNat_beBytes_of_lt (ht n rfl)
    simp [tokenOf, tokenBytes, hn]

/-- The token of an acquire is the lock's. -/
theorem token_acquire (now : ℕ) {pre post : List (ℕ × LockStep)} {tick : ℕ} {h : Bytes}
    (hcap : KeepsCap C name key (pre ++ (tick, .call (.acquire h)) :: post))
    (hcount : (lockAfter C name key (pre ++ (tick, .call (.acquire h)) :: post)).fence < 2 ^ 64) :
    tokenOf (replyAfter C name key now pre (tick, .call (.acquire h))) =
      if isReservedMap name ∨ h = [] then none
      else ((lockAfter C name key pre).acquire h).1 := by
  rw [(replyAfter_eq now hcap hcount).1]
  set l := lockAfter C name key pre with hl
  by_cases hname : isReservedMap name = true
  · simp [lockSpec, hname, tokenOf]
  by_cases hh : h = []
  · simp [lockSpec, hname, hh, LockCall.spec, tokenOf]
  have hspec : lockSpec C name key l (tick, .call (.acquire h)) =
      (some (tokenBytes (l.acquire h).1), (l.acquire h).2) := by
    simp [lockSpec, hname, LockCall.spec, hh]
  rw [hspec, if_neg (by simp [hname, hh])]
  refine tokenOf_tokenBytes fun n hn => ?_
  -- the token is the fence after the acquire, which the rest of the run does not lower
  have hle := Mealy.le_run (lockSpec C name key) (f := Lock.fence) fence_le_lockSpec post
    (l.acquire h).2
  rw [lockAfter_append, ← hl, Mealy.run_cons, hspec] at hcount
  exact acquire_fence hn ▸ hle.trans_lt hcount

/-- **Fenced locks are safe on one owner**, over every run with restarts: an acquire by anyone but the
current holder fails, so does one without a holder; a free lock is granted with the next token; the
holder gets its token again; a release succeeds exactly for the holder; and the token of a fresh
acquisition is above every token acknowledged before. -/
theorem fenced_lock (now : ℕ) (steps : List (ℕ × LockStep))
    (hcap : KeepsCap C name key steps) (hcount : (lockAfter C name key steps).fence < 2 ^ 64) :
    (∀ pre tick h post, steps = pre ++ (tick, .call (.acquire h)) :: post →
      let l := lockAfter C name key pre
      let token := tokenOf (replyAfter C name key now pre (tick, .call (.acquire h)))
      (∀ h', l.holder = some h' → h' ≠ h → token = none) ∧
      (h = [] → token = none) ∧
      (l.holder = none → h ≠ [] → isReservedMap name = false → token = some (l.fence + 1)) ∧
      (l.holder = some h → token = some l.fence)) ∧
    (∀ pre tick h post, steps = pre ++ (tick, .call (.release h)) :: post →
      (releasedOf (replyAfter C name key now pre (tick, .call (.release h))) = true ↔
        (lockAfter C name key pre).holder = some h)) ∧
    (∀ pre tick₁ h₁ mid tick₂ h₂ post t₁ t₂,
      steps = pre ++ (tick₁, .call (.acquire h₁)) :: (mid ++ (tick₂, .call (.acquire h₂)) :: post) →
      let between := pre ++ (tick₁, .call (.acquire h₁)) :: mid
      (lockAfter C name key between).holder = none →
      tokenOf (replyAfter C name key now pre (tick₁, .call (.acquire h₁))) = some t₁ →
      tokenOf (replyAfter C name key now between (tick₂, .call (.acquire h₂))) = some t₂ →
      t₁ < t₂) := by
  refine ⟨?_, ?_, ?_⟩
  · rintro pre tick h post rfl
    intro l token
    have htoken : token = if isReservedMap name ∨ h = [] then none else (l.acquire h).1 :=
      token_acquire now hcap hcount
    have hne := (replyAfter_eq now hcap hcount).2
    refine ⟨fun h' hl hsame => ?_, fun hh => ?_, fun hl hh hname => ?_, fun hl => ?_⟩
    · rw [htoken, acquire_held hl hsame, ite_self]
    · rw [htoken, if_pos (Or.inr hh)]
    · rw [htoken, if_neg (by simp [hname, hh]), acquire_free hl]
    · have hname : ¬ isReservedMap name = true := fun hname => by
        rw [show l = Lock.init from lockAfter_reserved hname pre] at hl
        cases hl
      have hh : h ≠ [] := fun hh => hne (hh ▸ hl)
      rw [htoken, if_neg (by simp [hname, hh]), acquire_holder hl]
  · rintro pre tick h post rfl
    obtain ⟨hreply, hne⟩ := replyAfter_eq now hcap hcount
    rw [hreply]
    by_cases hname : isReservedMap name = true
    · simp [lockAfter_reserved hname, lockSpec, hname, releasedOf, Lock.init]
    by_cases hh : h = []
    · subst hh
      simp [lockSpec, hname, LockCall.spec, releasedOf, hne]
    · rw [← release_fst]
      simp [lockSpec, hname, LockCall.spec, hh, releasedOf]
  · rintro pre tick₁ h₁ mid tick₂ h₂ post t₁ t₂ rfl between hfree ht₁ ht₂
    have hsplit : pre ++ (tick₁, .call (.acquire h₁)) ::
        (mid ++ (tick₂, .call (.acquire h₂)) :: post) =
          between ++ (tick₂, .call (.acquire h₂)) :: post := by simp [between]
    rw [token_acquire now hcap hcount] at ht₁
    rw [hsplit] at hcap hcount
    rw [token_acquire now hcap hcount] at ht₂
    split at ht₁
    · cases ht₁
    next hok₁ =>
      split at ht₂
      · cases ht₂
      -- the first token is the fence after the first acquire, the second is past a later fence
      have hafter : (lockAfter C name key (pre ++ [(tick₁, .call (.acquire h₁))])).fence = t₁ := by
        obtain ⟨hname, hh⟩ := not_or.mp hok₁
        rw [lockAfter_append, ← acquire_fence ht₁]
        simp [Mealy.run_cons, lockSpec, hname, LockCall.spec, hh]
      have hle : t₁ ≤ (lockAfter C name key between).fence := by
        have hmid : between = (pre ++ [(tick₁, .call (.acquire h₁))]) ++ mid := by simp [between]
        rw [← hafter, hmid, lockAfter_append _ mid]
        exact Mealy.le_run _ fence_le_lockSpec mid _
      rw [acquire_free hfree] at ht₂
      have := Option.some.inj ht₂
      omega

end safety

/-- A lock is taken, a checkpoint written, the release of another holder interrupted, the lock
released and, after a crash during a second checkpoint, taken again. -/
theorem fenced_lock_two_holders :
    let pre : List (ℕ × LockStep) := [(1, .call (.acquire [97])), (1, .checkpoint),
      (1, .crash (.release [98]) 3 1), (1, .call (.release [97])), (1, .crashCheckpoint 1)]
    tokenOf (replyAfter entryCodec [109] [107] 0 pre (1, .call (.acquire [98]))) = some 2 := by
  intro pre
  have hcap : KeepsCap entryCodec [109] [107] (pre ++ (1, .call (.acquire [98])) :: []) :=
    ⟨fun _ _ => by decide +kernel, trivial, fun _ _ => by decide +kernel, fun _ _ => by decide +kernel,
      trivial, fun _ _ => by decide +kernel, trivial⟩
  have h := fenced_lock 0 (pre ++ (1, .call (.acquire [98])) :: []) hcap (by decide +kernel)
  have hl : lockAfter entryCodec [109] [107] pre = ⟨1, none⟩ := by decide +kernel
  have := (h.1 pre 1 [98] [] rfl).2.2.1 (by rw [hl]) (by decide) (by decide)
  rwa [hl] at this

/-! ### A record over the cap -/

/-- The first acquire on an empty node. -/
theorem first_acquire {C : Codec} {name : Bytes} (hname : isReservedMap name = false) (key : Bytes)
    {h : Bytes} (hh : h ≠ []) (now tick : ℕ) :
    (lockStep C name key (Durable.fresh now) (tick, .call (.acquire h))).1 = some (fenceBytes 1) ∧
    (lockStep C name key (Durable.fresh now) (tick, .call (.acquire h))).2.file =
      frame C (lockRecord name key (encodeLock 1 h)) ∧
    (lockStep C name key (Durable.fresh now) (tick, .call (.acquire h))).2.snapshot = [] := by
  have hproc : lockAcquireProc none h = (encodeLock 1 h, .set, fenceBytes 1) := by
    simp [lockAcquireProc, hh, decodeLock]
  obtain ⟨hout, -, hset⟩ := execute_single hname (inv_fresh_lock (C := C) now).content
    lockAcquireProc h (now + tick)
  rw [hproc] at hout hset
  refine ⟨?_, ?_, rfl⟩
  · simp only [lockStep, hname, LockCall.proc, LockCall.arg]
    exact congrArg some hout
  · simp only [lockStep, Durable.step, LockCall.mutator, Mutator.run, hname, LockCall.proc,
      LockCall.arg, Bool.false_eq_true, if_false]
    rw [show (Durable.fresh now).now = now from rfl, (hset rfl).1]
    simp [appendLocked, Durable.fresh]

/-- A crash loses a record over the cap. -/
theorem over_cap_lost {C : Codec} {name : Bytes} (hname : isReservedMap name = false) {key h : Bytes}
    (hh : h ≠ []) (hcap : ¬ UnderCap C (lockRecord name key (encodeLock 1 h)))
    (hfits : (C.marshal (lockRecord name key (encodeLock 1 h)).entry).length < 2 ^ 32)
    (now tick tick' opening : ℕ) (c : LockCall) :
    (Mealy.run (lockStep C name key) [(tick, .call (.acquire h)), (tick', .crash c 0 opening)]
      (Durable.fresh now)).2.store = Store.empty := by
  obtain ⟨-, hfile, hsnap⟩ := first_acquire (C := C) hname key hh now tick
  simp only [Mealy.run_cons, Mealy.run_nil]
  generalize (lockStep C name key (Durable.fresh now) (tick, .call (.acquire h))).2 = d at hfile hsnap
  have hnone : (replayWAL C d.file).1 = [] := by
    have := replayLoop_over_cap hcap hfits d.file.length [] 0
    rw [List.append_nil, ← hfile] at this
    exact congrArg Prod.fst this
  simp only [lockStep, List.take_zero, List.append_nil, Durable.crash, Durable.step, recovered,
    openWAL, hnone, List.foldl_nil, hsnap]
  rfl

section reissue
variable {h : Bytes} (hlen : h.length = 2 ^ 27)
include hlen

/-- The record of the first acquire is over the cap, and its length fits the header. -/
theorem huge_record : ¬ UnderCap entryCodec (lockRecord [109] [107] (encodeLock 1 h)) ∧
    (entryCodec.marshal (lockRecord [109] [107] (encodeLock 1 h)).entry).length < 2 ^ 32 := by
  have hvalue : (lockRecord [109] [107] (encodeLock 1 h)).entry.value.length = 8 + h.length := by
    simp [lockRecord, encodeLock]
  refine ⟨not_underCap_of_value ?_, (length_marshalEntry_le _).trans_lt ?_⟩
  · rw [hvalue, hlen]
    decide
  · rw [hvalue, hlen]
    change 1 + 1 + (8 + 2 ^ 27) + 44 < 2 ^ 32
    decide

theorem huge_ne {b : Bytes} (hb : b.length < 2 ^ 27) : h ≠ b :=
  fun heq => by rw [heq] at hlen; omega

theorem huge_reissued :
    let steps : List (ℕ × LockStep) := [(1, .call (.acquire h)), (1, .crash (.acquire [98]) 0 1)]
    tokenOf (replyAfter entryCodec [109] [107] 0 [] (1, .call (.acquire h))) = some 1 ∧
    (lockAfter entryCodec [109] [107] steps).holder = some h ∧
    tokenOf (replyAfter entryCodec [109] [107] 0 steps (1, .call (.acquire [98]))) = some 1 := by
  intro steps
  have hname : isReservedMap [109] = false := by decide
  have hne : h ≠ [] := huge_ne hlen (by decide)
  obtain ⟨hover, hfits⟩ := huge_record hlen
  have htoken : tokenOf (some (fenceBytes 1)) = some 1 := by decide
  refine ⟨?_, ?_, ?_⟩
  · rw [replyAfter, Mealy.run_nil, (first_acquire hname [107] hne 0 1).1, htoken]
  · have hfirst : lockSpec entryCodec [109] [107] Lock.init (1, .call (.acquire h)) =
        (some (tokenBytes (some 1)), ⟨1, some h⟩) := by
      simp [lockSpec, hname, LockCall.spec, hne, Lock.acquire, Lock.init]
    have hheld : LockCall.spec ⟨1, some h⟩ (.acquire [98]) = ([], ⟨1, some h⟩) := by
      simp [LockCall.spec, acquire_held (l := ⟨1, some h⟩) rfl (huge_ne hlen (b := [98]) (by decide)),
        tokenBytes]
    simp only [steps, lockAfter, Mealy.run_cons, Mealy.run_nil, hfirst]
    simp [lockSpec, hname, hheld]
  · have hlost := over_cap_lost hname hne hover hfits 0 1 1 1 (.acquire [98])
    have hempty : content Store.empty = single [109] [107] none :=
      (inv_fresh_lock (C := entryCodec) 0).content
    have hproc : lockAcquireProc none [98] = (encodeLock 1 [98], .set, fenceBytes 1) := by decide
    rw [replyAfter]
    simp only [lockStep, hname, Bool.false_eq_true, if_false, LockCall.proc, LockCall.arg]
    rw [hlost, (execute_single hname hempty lockAcquireProc [98] _).1, hproc, htoken]

end reissue

/-- **The token of an acquire whose record is over the cap is given out again** after a crash, while
the first holder still has the lock. -/
theorem over_cap_reissued :
    let h : Bytes := List.replicate (2 ^ 27) 1
    let steps : List (ℕ × LockStep) := [(1, .call (.acquire h)), (1, .crash (.acquire [98]) 0 1)]
    tokenOf (replyAfter entryCodec [109] [107] 0 [] (1, .call (.acquire h))) = some 1 ∧
    (lockAfter entryCodec [109] [107] steps).holder = some h ∧
    tokenOf (replyAfter entryCodec [109] [107] 0 steps (1, .call (.acquire [98]))) = some 1 :=
  huge_reissued List.length_replicate

end Medusa
