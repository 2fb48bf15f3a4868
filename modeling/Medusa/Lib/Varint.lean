import Mathlib.Algebra.Group.Nat.Defs
import Mathlib.Data.List.Basic
import Mathlib.Data.Nat.Size

/-! # Base-128 variable-length numbers

Seven bits a byte, the least significant first; every byte but the last has its high bit set.  `w` bounds
the number of bytes.

* `decode_encode`: a number below `128 ^ w` is read back, whatever follows it.
* `length_encode`: as many bytes as the binary length has groups of seven.
* `decode_local`: reading takes bytes off the front, and looks at no others. -/

namespace Varint

/-- The bytes of `n`. -/
def encode : ℕ → ℕ → List UInt8
  | 0, _ => []
  | w + 1, n => if n < 128 then [UInt8.ofNat n] else UInt8.ofNat (n % 128 + 128) :: encode w (n / 128)

/-- Read a number, and what follows it. -/
def decode : ℕ → List UInt8 → Option (ℕ × List UInt8)
  | 0, _ => none
  | _ + 1, [] => none
  | w + 1, b :: bs =>
    if b.toNat < 128 then some (b.toNat, bs)
    else (decode w bs).map fun r => (b.toNat - 128 + 128 * r.1, r.2)

theorem decode_small {n : ℕ} (hn : n < 128) (w : ℕ) (rest : List UInt8) :
    decode (w + 1) (encode (w + 1) n ++ rest) = some (n, rest) := by
  have hbyte : (UInt8.ofNat n).toNat = n := by rw [UInt8.toNat_ofNat']; omega
  rw [encode, if_pos hn, List.singleton_append, decode, hbyte, if_pos hn]

theorem decode_encode {w n : ℕ} (hn : n < 128 ^ (w + 1)) (rest : List UInt8) :
    decode (w + 1) (encode (w + 1) n ++ rest) = some (n, rest) := by
  induction w generalizing n with
  | zero => exact decode_small (by simpa using hn) 0 rest
  | succ w ih =>
    by_cases hsmall : n < 128
    · exact decode_small hsmall (w + 1) rest
    · have hbyte : (UInt8.ofNat (n % 128 + 128)).toNat = n % 128 + 128 := by
        rw [UInt8.toNat_ofNat']; omega
      have hdiv : n / 128 < 128 ^ (w + 1) := by
        rw [Nat.div_lt_iff_lt_mul (by decide)]
        rwa [Nat.pow_succ] at hn
      rw [encode, if_neg hsmall, List.cons_append, decode, hbyte, if_neg (by omega), ih hdiv]
      simp only [Option.map_some, Option.some.injEq, Prod.mk.injEq, and_true]
      omega

/-- A number has at most `k + 1` bytes if it is below `128 ^ (k + 1)`. -/
theorem length_encode_le_iff {w n : ℕ} (hn : n < 128 ^ (w + 1)) (k : ℕ) :
    (encode (w + 1) n).length ≤ k + 1 ↔ n < 128 ^ (k + 1) := by
  induction w generalizing n k with
  | zero =>
    have hsmall : n < 128 := by simpa using hn
    have hpow : 128 ^ 1 ≤ 128 ^ (k + 1) := Nat.pow_le_pow_right (by decide) (by omega)
    simp only [encode, if_pos hsmall, List.length_singleton]
    omega
  | succ w ih =>
    rw [encode]
    by_cases hsmall : n < 128
    · have hpow : 128 ^ 1 ≤ 128 ^ (k + 1) := Nat.pow_le_pow_right (by decide) (by omega)
      rw [if_pos hsmall, List.length_singleton]
      omega
    · have hdiv : n / 128 < 128 ^ (w + 1) := by
        rw [Nat.div_lt_iff_lt_mul (by decide), ← pow_succ]
        exact hn
      rw [if_neg hsmall, List.length_cons, Nat.add_le_add_iff_right]
      cases k with
      | zero =>
        have hpos : 0 < (encode (w + 1) (n / 128)).length := by
          rw [encode]
          split <;> simp
        omega
      | succ k => rw [ih hdiv, Nat.div_lt_iff_lt_mul (by decide), ← pow_succ]

/-- **The length of a number**, from its binary length. -/
theorem length_encode {w n : ℕ} (hn : n < 128 ^ (w + 1)) :
    (encode (w + 1) n).length = (Nat.size (n ||| 1) + 6) / 7 := by
  have hsize : ∀ k, (Nat.size (n ||| 1) + 6) / 7 ≤ k + 1 ↔ n < 128 ^ (k + 1) := by
    intro k
    have h128 : 128 ^ (k + 1) = 2 ^ (7 * (k + 1)) := by rw [pow_mul]; rfl
    have hone : (1 : ℕ) < 2 ^ (7 * (k + 1)) := Nat.one_lt_two_pow (by omega)
    have hor : n ||| 1 < 2 ^ (7 * (k + 1)) ↔ n < 2 ^ (7 * (k + 1)) :=
      ⟨fun h => Nat.lt_of_le_of_lt Nat.left_le_or h, fun h => Nat.or_lt_two_pow h hone⟩
    rw [h128, ← hor, ← Nat.size_le]
    omega
  have hpos : 0 < (encode (w + 1) n).length := by
    rw [encode]
    split <;> simp
  have hpos' : 0 < (Nat.size (n ||| 1) + 6) / 7 := by
    have : 0 < Nat.size (n ||| 1) := Nat.size_pos.mpr (Nat.pos_of_ne_zero (by simp))
    omega
  obtain ⟨a, ha⟩ : ∃ a, (encode (w + 1) n).length = a + 1 := ⟨_, (Nat.sub_add_cancel hpos).symm⟩
  obtain ⟨b, hb⟩ : ∃ b, (Nat.size (n ||| 1) + 6) / 7 = b + 1 := ⟨_, (Nat.sub_add_cancel hpos').symm⟩
  have h1 := (hsize a).mpr ((length_encode_le_iff hn a).mp (Nat.le_of_eq ha))
  have h2 := (length_encode_le_iff hn b).mpr ((hsize b).mp (Nat.le_of_eq hb))
  omega

/-- Reading takes bytes off the front, as many as the number needs at least, and does not look at what
follows them. -/
theorem decode_local {w n : ℕ} {s rest : List UInt8} (h : decode w s = some (n, rest)) :
    ∃ u, u ≠ [] ∧ s = u ++ rest ∧ n < 128 ^ u.length ∧ ∀ more, decode w (u ++ more) = some (n, more) := by
  induction w generalizing n s with
  | zero => simp [decode] at h
  | succ w ih =>
    cases s with
    | nil => simp [decode] at h
    | cons b bs =>
      rw [decode] at h
      split at h
      · next hlast =>
          cases h
          exact ⟨[b], by simp, rfl, by simpa using hlast, fun more => by
            rw [List.singleton_append, decode, if_pos hlast]⟩
      · next hgroup =>
          obtain ⟨r, hr, he⟩ := Option.map_eq_some_iff.mp h
          cases he
          obtain ⟨u, -, rfl, hlt, hmore⟩ := ih hr
          refine ⟨b :: u, by simp, rfl, ?_, fun more => ?_⟩
          · have hb : b.toNat < 256 := b.toNat_lt
            rw [List.length_cons, pow_succ]
            omega
          · rw [List.cons_append, decode, if_neg hgroup, hmore]
            rfl

end Varint
