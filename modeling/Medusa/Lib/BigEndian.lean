import Mathlib.Data.List.Basic
import Mathlib.Tactic.Ring
import Mathlib.Tactic.Linarith

/-! # Fixed-width big-endian numbers

`beBytes w n` is the big-endian encoding of `n` modulo `256 ^ w` in exactly `w` bytes, `beNat b`
the number a byte string denotes.  They are inverse to each other on numbers below `256 ^ w`
(`beNat_beBytes`, `beNat_beBytes_of_lt`) and on strings of length `w` (`beBytes_beNat`). -/

namespace BigEndian

/-- The `w` low-order bytes of `n`, most significant first. -/
def beBytes : ℕ → ℕ → List UInt8
  | 0, _ => []
  | w + 1, n => UInt8.ofNat (n / 256 ^ w) :: beBytes w n

/-- The number denoted by a byte string, most significant byte first. -/
def beNat : List UInt8 → ℕ
  | [] => 0
  | b :: bs => b.toNat * 256 ^ bs.length + beNat bs

@[simp] theorem beBytes_length (w n : ℕ) : (beBytes w n).length = w := by
  induction w with
  | zero => rfl
  | succ w ih => simp [beBytes, ih]

theorem beNat_lt (b : List UInt8) : beNat b < 256 ^ b.length := by
  induction b with
  | nil => simp [beNat]
  | cons x bs ih =>
    have hx : x.toNat < 256 := x.toNat_lt
    have : (x.toNat + 1) * 256 ^ bs.length ≤ 256 * 256 ^ bs.length :=
      Nat.mul_le_mul_right _ (by omega)
    simp only [beNat, List.length_cons, Nat.pow_succ]
    rw [Nat.mul_comm _ 256]
    nlinarith

theorem beNat_beBytes (w n : ℕ) : beNat (beBytes w n) = n % 256 ^ w := by
  induction w with
  | zero => simp [beBytes, beNat, Nat.mod_one]
  | succ w ih =>
    have byte : (UInt8.ofNat (n / 256 ^ w)).toNat = n / 256 ^ w % 256 := by
      rw [UInt8.toNat_ofNat']
    simp only [beBytes, beNat, beBytes_length, ih, byte]
    rw [Nat.pow_succ, Nat.mod_mul, Nat.mul_comm]
    omega

theorem beNat_beBytes_of_lt {w n : ℕ} (h : n < 256 ^ w) : beNat (beBytes w n) = n := by
  rw [beNat_beBytes, Nat.mod_eq_of_lt h]

/-- Only the residue modulo `256 ^ w` is encoded. -/
theorem beBytes_add_mul (w n m : ℕ) : beBytes w (n + 256 ^ w * m) = beBytes w n := by
  induction w generalizing m with
  | zero => rfl
  | succ w ih =>
    have e : n + 256 ^ (w + 1) * m = n + 256 ^ w * (256 * m) := by rw [Nat.pow_succ]; ring
    simp only [beBytes]
    rw [e, ih, Nat.add_mul_div_left _ _ (Nat.pow_pos (by norm_num))]
    congr 1
    apply UInt8.toNat_inj.mp
    simp

theorem beBytes_beNat {w : ℕ} {b : List UInt8} (h : b.length = w) : beBytes w (beNat b) = b := by
  induction b generalizing w with
  | nil => subst h; rfl
  | cons x bs ih =>
    subst h
    have hlt := beNat_lt bs
    have hpos : 0 < 256 ^ bs.length := Nat.pow_pos (by norm_num)
    simp only [List.length_cons, beBytes, beNat]
    have e : (x.toNat * 256 ^ bs.length + beNat bs) / 256 ^ bs.length = x.toNat := by
      rw [Nat.add_comm, Nat.add_mul_div_right _ _ hpos, Nat.div_eq_of_lt hlt, Nat.zero_add]
    rw [e, Nat.add_comm, Nat.mul_comm, beBytes_add_mul, ih rfl]
    simp

theorem beBytes_injective {w m n : ℕ} (hm : m < 256 ^ w) (hn : n < 256 ^ w)
    (h : beBytes w m = beBytes w n) : m = n := by
  rw [← beNat_beBytes_of_lt hm, ← beNat_beBytes_of_lt hn, h]

end BigEndian
