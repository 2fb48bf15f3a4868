import Medusa.Wal

/-! # Built-in processors

`imap/processor.go`: the processors every node has registered, as functions of the live value, if any,
and the argument.  Go's `nil` and empty slices are both `[]`.

A fenced lock is stored as its 8-byte fence followed by the holder; the lock is free when the holder is
empty (`encodeLock`, `decodeLock`). -/

namespace Medusa

open BigEndian

/-! ### Integers -/

/-- `readInt64`: a short value reads as zero. -/
def readInt64 (b : Bytes) : Int64 :=
  if b.length < 8 then 0 else (UInt64.ofNat (beNat (b.take 8))).toInt64

@[simp] theorem readInt64_putI64 (n : Int64) : readInt64 (putI64 n) = n := decodeI64_putI64 n

/-! ### Values -/

/-- `incrProc`: a counter. -/
def incrProc : Processor := fun cur arg =>
  let buf := putI64 (readInt64 (cur.getD []) + readInt64 arg)
  (buf, .set, buf)

/-- `appendProc`. -/
def appendProc : Processor := fun cur arg =>
  let out := cur.getD [] ++ arg
  (out, .set, out)

/-- `getsetProc`: store, and return the previous value. -/
def getsetProc : Processor := fun cur arg => (arg, .set, cur.getD [])

/-- `deleteProc`: remove, and return the previous value. -/
def deleteProc : Processor := fun cur _ =>
  match cur with
  | none => ([], .keep, [])
  | some v => ([], .delete, v)

/-- `putIfAbsentProc`: `[1]` if the value was stored. -/
def putIfAbsentProc : Processor := fun cur arg =>
  match cur with
  | some _ => ([], .keep, [0])
  | none => (arg, .set, [1])

/-- `encodeCAS`. -/
def encodeCAS (expected newVal : Bytes) : Bytes := beBytes 4 expected.length ++ (expected ++ newVal)

/-- `splitCAS`. -/
def splitCAS (arg : Bytes) : Option (Bytes × Bytes) :=
  if arg.length < 4 then none
  else
    let n := beNat (arg.take 4)
    if arg.length - 4 < n then none else some ((arg.drop 4).take n, (arg.drop 4).drop n)

/-- `casProc`: `[1]` if the swap happened. -/
def casProc : Processor := fun cur arg =>
  match splitCAS arg with
  | none => ([], .keep, [0])
  | some (expected, newVal) =>
    if cur = some expected then (newVal, .set, [1]) else ([], .keep, [0])

/-! ### Locks -/

/-- `encodeLock`. -/
def encodeLock (fence : UInt64) (holder : Bytes) : Bytes := beBytes 8 fence.toNat ++ holder

/-- `decodeLock`: a short value is a lock that was never taken. -/
def decodeLock (b : Bytes) : UInt64 × Bytes :=
  if b.length < 8 then (0, []) else (UInt64.ofNat (beNat (b.take 8)), b.drop 8)

/-- `fenceBytes`. -/
def fenceBytes (f : UInt64) : Bytes := beBytes 8 f.toNat

@[simp] theorem decodeLock_encodeLock (fence : UInt64) (holder : Bytes) :
    decodeLock (encodeLock fence holder) = (fence, holder) := by
  have hlen : (encodeLock fence holder).length = 8 + holder.length := by simp [encodeLock]
  rw [decodeLock, if_neg (by omega), encodeLock, List.take_left' (by simp),
    List.drop_left' (by simp), ofNat_beNat_beBytes]

/-- `lockAcquireProc`: the fence if the caller now holds the lock, nothing if another does. -/
def lockAcquireProc : Processor := fun cur arg =>
  if arg = [] then ([], .keep, [])
  else
    let fence := (decodeLock (cur.getD [])).1
    let holder := (decodeLock (cur.getD [])).2
    if holder ≠ [] then
      if holder ≠ arg then ([], .keep, []) else ([], .keep, fenceBytes fence)
    else (encodeLock (fence + 1) arg, .set, fenceBytes (fence + 1))

/-- `lockReleaseProc`: `[1]` if the caller held the lock; the fence stays. -/
def lockReleaseProc : Processor := fun cur arg =>
  let fence := (decodeLock (cur.getD [])).1
  let holder := (decodeLock (cur.getD [])).2
  if holder = [] ∨ holder ≠ arg then ([], .keep, [0]) else (encodeLock fence [], .set, [1])

/-! ### The registry -/

/-- The names under which `processors` holds the built-in ones. -/
inductive Builtin where
  | incr
  | append
  | getset
  | delete
  | putifabsent
  | cas
  | lockacquire
  | lockrelease
deriving DecidableEq, Repr

/-- The processor of a name. -/
def Builtin.proc : Builtin → Processor
  | incr => incrProc
  | append => appendProc
  | getset => getsetProc
  | delete => deleteProc
  | putifabsent => putIfAbsentProc
  | cas => casProc
  | lockacquire => lockAcquireProc
  | lockrelease => lockReleaseProc

/-- The name as the bytes of its text. -/
def Builtin.name : Builtin → Bytes
  | incr => [105, 110, 99, 114]
  | append => [97, 112, 112, 101, 110, 100]
  | getset => [103, 101, 116, 115, 101, 116]
  | delete => [100, 101, 108, 101, 116, 101]
  | putifabsent => [112, 117, 116, 105, 102, 97, 98, 115, 101, 110, 116]
  | cas => [99, 97, 115]
  | lockacquire => [108, 111, 99, 107, 97, 99, 113, 117, 105, 114, 101]
  | lockrelease => [108, 111, 99, 107, 114, 101, 108, 101, 97, 115, 101]

/-- `processors`, before anything is added to it. -/
def processors (name : Bytes) : Option Processor :=
  ([Builtin.incr, .append, .getset, .delete, .putifabsent, .cas, .lockacquire, .lockrelease].find?
    (fun b => b.name == name)).map Builtin.proc

end Medusa
