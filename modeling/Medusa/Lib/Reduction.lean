import Mathlib.Algebra.Group.Basic
import Mathlib.Data.List.Basic

/-! # Reductions in two stages

Values of type `V` are folded into an encoded partial result of type `P`, and partial results are
folded again into one of the same form.  A `Reduction` says which commutative monoid stands behind the
two folds.

* `combine_map_reduce`: **combining the partial results of the parts reduces the whole.**
* `reduce_perm`: the order of the values does not matter. -/

/-- A fold over a commutative monoid, with values read and results written in some encoding. -/
structure Reduction (V P M : Type) where
  op : M → M → M
  unit : M
  read : V → M
  encode : M → P
  decode : P → M
  op_assoc : ∀ a b c, op (op a b) c = op a (op b c)
  op_comm : ∀ a b, op a b = op b a
  unit_op : ∀ a, op unit a = a
  decode_encode : ∀ a, decode (encode a) = a

namespace Reduction

variable {V P M : Type} (R : Reduction V P M)

/-- The fold. -/
def total (l : List M) : M := l.foldl R.op R.unit

/-- Fold values into a partial result. -/
def reduce (values : List V) : P := R.encode (R.total (values.map R.read))

/-- Fold partial results. -/
def combine (partials : List P) : P := R.encode (R.total (partials.map R.decode))

theorem foldl_op (l : List M) (a : M) : l.foldl R.op a = R.op a (R.total l) := by
  induction l generalizing a with
  | nil => exact (R.op_comm _ _).trans (R.unit_op a) |>.symm
  | cons x l ih =>
    have hx : R.total (x :: l) = R.op x (R.total l) := by
      rw [total, List.foldl_cons, R.unit_op, ih]
    rw [List.foldl_cons, ih, hx, R.op_assoc]

@[simp] theorem total_nil : R.total [] = R.unit := rfl

theorem total_cons (x : M) (l : List M) : R.total (x :: l) = R.op x (R.total l) := by
  rw [total, List.foldl_cons, R.unit_op, foldl_op]

theorem total_append (l₁ l₂ : List M) : R.total (l₁ ++ l₂) = R.op (R.total l₁) (R.total l₂) := by
  rw [total, List.foldl_append, foldl_op, ← total]

theorem total_flatten (ls : List (List M)) : R.total ls.flatten = R.total (ls.map R.total) := by
  induction ls with
  | nil => rfl
  | cons l ls ih => rw [List.flatten_cons, total_append, ih, List.map_cons, total_cons]

theorem total_perm {l l' : List M} (h : l.Perm l') : R.total l = R.total l' := by
  induction h with
  | nil => rfl
  | cons x _ ih => rw [total_cons, total_cons, ih]
  | swap x y l =>
    rw [total_cons, total_cons, total_cons, total_cons, ← R.op_assoc, R.op_comm y x, R.op_assoc]
  | trans _ _ ih ih' => exact ih.trans ih'

/-- **Combining the partial results of the parts reduces the whole.** -/
theorem combine_map_reduce (parts : List (List V)) :
    R.combine (parts.map R.reduce) = R.reduce parts.flatten := by
  have hdecode : (parts.map R.reduce).map R.decode = (parts.map (List.map R.read)).map R.total := by
    simp only [List.map_map]
    exact List.map_congr_left fun values _ => R.decode_encode _
  rw [combine, hdecode, ← total_flatten, reduce, List.map_flatten]

theorem reduce_perm {values values' : List V} (h : values.Perm values') :
    R.reduce values = R.reduce values' := by
  rw [reduce, reduce, R.total_perm (h.map R.read)]

end Reduction
