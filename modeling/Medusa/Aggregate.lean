import Medusa.Processors
import Medusa.Lib.Reduction

/-! # Aggregators

`imap/aggregate.go`: an aggregator folds the values a member owns into a partial result (`reduce`), and
the partial results of the members into one (`combine`).  Each built-in is a `Reduction` over `int64`
or, for the extremes, over an optional `int64`: an empty item has no value, a short one reads as zero.

The built-in aggregators are *lawful* (`BuiltinAgg.lawful`): combining partial results reduces the
whole, in any order. -/

namespace Medusa

open BigEndian

/-- `Aggregator`. -/
structure Aggregator where
  reduce : List Bytes → Bytes
  combine : List Bytes → Bytes

/-- Combining the partial results of the parts reduces the whole, and order does not matter. -/
structure Aggregator.Lawful (agg : Aggregator) : Prop where
  combine_map_reduce : ∀ parts : List (List Bytes),
    agg.combine (parts.map agg.reduce) = agg.reduce parts.flatten
  reduce_perm : ∀ {values values' : List Bytes}, values.Perm values' →
    agg.reduce values = agg.reduce values'

/-- The two folds of a reduction. -/
theorem Aggregator.Lawful.of_reduction {agg : Aggregator} {M : Type} (R : Reduction Bytes Bytes M)
    (hreduce : ∀ values, agg.reduce values = R.reduce values)
    (hcombine : ∀ partials, agg.combine partials = R.combine partials) : agg.Lawful where
  combine_map_reduce parts := by
    rw [hcombine, hreduce, ← R.combine_map_reduce]
    exact congrArg R.combine (List.map_congr_left fun values _ => hreduce values)
  reduce_perm h := by rw [hreduce, hreduce, R.reduce_perm h]

/-! ### Sums -/

/-- `sumI64`. -/
def sumI64 (parts : List Bytes) : Int64 := parts.foldl (fun sum p => sum + readInt64 p) 0

/-- `countAgg`. -/
def countAgg : Aggregator where
  reduce values := putI64 (Int64.ofNat values.length)
  combine partials := putI64 (sumI64 partials)

/-- `sumAgg`. -/
def sumAgg : Aggregator where
  reduce values := putI64 (sumI64 values)
  combine partials := putI64 (sumI64 partials)

/-- Sums of `int64`, with the given reading of values. -/
def sumReduction (read : Bytes → Int64) : Reduction Bytes Bytes Int64 where
  op a b := a + b
  unit := 0
  read := read
  encode := putI64
  decode := readInt64
  op_assoc := Int64.add_assoc
  op_comm := Int64.add_comm
  unit_op := Int64.zero_add
  decode_encode := readInt64_putI64

theorem sumI64_eq (read : Bytes → Int64) (parts : List Bytes) :
    sumI64 parts = (sumReduction read).total (parts.map readInt64) := by
  rw [sumI64, Reduction.total, List.foldl_map]
  rfl

theorem sumAgg_lawful : sumAgg.Lawful :=
  .of_reduction (sumReduction readInt64) (fun values => congrArg putI64 (sumI64_eq _ values))
    (fun partials => congrArg putI64 (sumI64_eq _ partials))

theorem total_ones (values : List Bytes) :
    (sumReduction fun _ => 1).total (values.map fun _ => 1) = Int64.ofNat values.length := by
  induction values with
  | nil => rfl
  | cons v values ih =>
    rw [List.map_cons, Reduction.total_cons, ih, List.length_cons, Int64.ofNat_add]
    exact Int64.add_comm _ _

theorem countAgg_lawful : countAgg.Lawful :=
  .of_reduction (sumReduction fun _ => 1) (fun values => congrArg putI64 (total_ones values).symm)
    (fun partials => congrArg putI64 (sumI64_eq _ partials))

/-! ### Extremes -/

/-- Whether `x` replaces the best value so far. -/
def improves (min : Bool) (x best : Int64) : Bool :=
  (min && decide (x < best)) || (!min && decide (best < x))

/-- The loop of `extremum`; nothing has been seen while there is no best value. -/
def extremumLoop (min : Bool) : List Bytes → Option Int64 → Option Int64
  | [], best => best
  | it :: rest, best =>
    -- an empty partial contributes no value
    if it.length = 0 then extremumLoop min rest best
    else match best with
      | none => extremumLoop min rest (some (readInt64 it))
      | some b =>
        if improves min (readInt64 it) b then extremumLoop min rest (some (readInt64 it))
        else extremumLoop min rest (some b)

/-- `extremum`. -/
def extremum (items : List Bytes) (min : Bool) : Bytes :=
  match extremumLoop min items none with
  | none => []
  | some best => putI64 best

/-- `minAgg`. -/
def minAgg : Aggregator where
  reduce values := extremum values true
  combine partials := extremum partials true

/-- `maxAgg`. -/
def maxAgg : Aggregator where
  reduce values := extremum values false
  combine partials := extremum partials false

/-- The better of two values, if there are any. -/
def extreme (min : Bool) : Option Int64 → Option Int64 → Option Int64
  | none, b => b
  | a, none => a
  | some a, some b => some (if improves min b a then b else a)

/-- The value of an item; an empty one has none. -/
def itemValue (it : Bytes) : Option Int64 := if it.length = 0 then none else some (readInt64 it)

/-- The encoding of an extreme. -/
def encodeExtreme : Option Int64 → Bytes
  | none => []
  | some best => putI64 best

theorem improves_iff {min : Bool} {x b : Int64} :
    improves min x b = true ↔ if min then x.toInt < b.toInt else b.toInt < x.toInt := by
  cases min <;> simp [improves, Int64.lt_iff_toInt_lt]

theorem extreme_comm (min : Bool) (a b : Option Int64) : extreme min a b = extreme min b a := by
  cases a with
  | none => cases b <;> rfl
  | some a =>
    cases b with
    | none => rfl
    | some b =>
      simp only [extreme, improves_iff, Option.some.injEq, ← Int64.toInt_inj]
      cases min <;> simp only [if_true, Bool.false_eq_true, if_false] <;> grind

theorem extreme_assoc (min : Bool) (a b c : Option Int64) :
    extreme min (extreme min a b) c = extreme min a (extreme min b c) := by
  cases a with
  | none => rfl
  | some a =>
    cases b with
    | none => rfl
    | some b =>
      cases c with
      | none => rfl
      | some c =>
        simp only [extreme, improves_iff, Option.some.injEq]
        cases min <;> simp only [if_true, Bool.false_eq_true, if_false] <;> grind

theorem length_putI64 (n : Int64) : (putI64 n).length = 8 := by simp [putI64]

/-- Extremes of `int64`. -/
def extremeReduction (min : Bool) : Reduction Bytes Bytes (Option Int64) where
  op := extreme min
  unit := none
  read := itemValue
  encode := encodeExtreme
  decode := itemValue
  op_assoc := extreme_assoc min
  op_comm := extreme_comm min
  unit_op _ := rfl
  decode_encode a := by
    cases a with
    | none => rfl
    | some best => simp [encodeExtreme, itemValue, length_putI64]

theorem extremumLoop_eq (min : Bool) (items : List Bytes) (best : Option Int64) :
    extremumLoop min items best = (items.map itemValue).foldl (extreme min) best := by
  induction items generalizing best with
  | nil => rfl
  | cons it rest ih =>
    unfold extremumLoop
    rw [List.map_cons, List.foldl_cons]
    by_cases hit : it.length = 0
    · have hv : itemValue it = none := if_pos hit
      rw [if_pos hit, ih, hv]
      cases best <;> rfl
    · have hv : itemValue it = some (readInt64 it) := if_neg hit
      rw [if_neg hit, hv]
      cases best with
      | none => exact ih _
      | some b =>
        simp only [extreme]
        split
        · exact ih _
        · exact ih _

theorem extremum_eq (min : Bool) (items : List Bytes) :
    extremum items min = encodeExtreme ((extremeReduction min).total (items.map itemValue)) := by
  have h := extremumLoop_eq min items none
  rw [extremum, h]
  rfl

theorem minAgg_lawful : minAgg.Lawful :=
  .of_reduction (extremeReduction true) (extremum_eq true) (extremum_eq true)

theorem maxAgg_lawful : maxAgg.Lawful :=
  .of_reduction (extremeReduction false) (extremum_eq false) (extremum_eq false)

/-! ### The registry -/

/-- The names under which `aggregators` holds the built-in ones. -/
inductive BuiltinAgg where
  | count
  | sum
  | min
  | max
deriving DecidableEq, Repr

/-- The aggregator of a name. -/
def BuiltinAgg.agg : BuiltinAgg → Aggregator
  | count => countAgg
  | sum => sumAgg
  | min => minAgg
  | max => maxAgg

/-- The name as the bytes of its text. -/
def BuiltinAgg.name : BuiltinAgg → Bytes
  | count => [99, 111, 117, 110, 116]
  | sum => [115, 117, 109]
  | min => [109, 105, 110]
  | max => [109, 97, 120]

/-- **Combining partial results of a built-in reduces the whole, in any order.** -/
theorem BuiltinAgg.lawful (b : BuiltinAgg) : b.agg.Lawful := by
  cases b with
  | count => exact countAgg_lawful
  | sum => exact sumAgg_lawful
  | min => exact minAgg_lawful
  | max => exact maxAgg_lawful

end Medusa
