import Mathlib.Data.Nat.ModEq
import Mathlib.Tactic.Ring

namespace LittleEndian

/-- The number whose bytes, least significant first, are `f 0, …, f (n - 1)`. -/
def toNat (f : Nat → UInt8) : Nat → Nat
  | 0 => 0
  | n + 1 => toNat f n + (f n).toNat * 256 ^ n

/-- Byte `k` of `w`, counted from the least significant one. -/
def byteAt (w k : Nat) : UInt8 := UInt8.ofNat (w / 256 ^ k)

theorem toNat_lt (f : Nat → UInt8) (n : Nat) : toNat f n < 256 ^ n := by
  induction n with
  | zero => simp [toNat]
  | succ n ih =>
    have hb : (f n).toNat ≤ 255 := by have := (f n).toNat_lt; omega
    have hm := Nat.mul_le_mul_right (256 ^ n) hb
    simp only [toNat, Nat.pow_succ]
    omega

theorem toNat_congr {f g : Nat → UInt8} {n : Nat} (h : ∀ k < n, f k = g k) :
    toNat f n = toNat g n := by
  induction n with
  | zero => rfl
  | succ n ih =>
    have hn := ih (fun k hk => h k (by omega))
    simp only [toNat, hn, h n (by omega)]

theorem byteAt_toNat (w k : Nat) : (byteAt w k).toNat = w / 256 ^ k % 256 := by
  simp [byteAt]

/-- Reading back the low bytes of a number gives it modulo the width. -/
theorem toNat_byteAt (w n : Nat) : toNat (byteAt w) n = w % 256 ^ n := by
  induction n with
  | zero => simp [toNat, Nat.mod_one]
  | succ n ih =>
    rw [toNat, ih, byteAt_toNat, Nat.pow_succ, Nat.mod_mul]
    ring

/-- The bytes of an assembled number are the ones it was assembled from. -/
theorem byteAt_of_toNat {f : Nat → UInt8} {n k : Nat} (hk : k < n) :
    byteAt (toNat f n) k = f k := by
  apply UInt8.toNat_inj.mp
  rw [byteAt_toNat]
  induction n with
  | zero => omega
  | succ n ih =>
    have hlt := toNat_lt f n
    have hpos : 0 < 256 ^ n := Nat.pow_pos (by omega)
    by_cases he : k = n
    · subst k
      rw [toNat, Nat.add_mul_div_right _ _ hpos, Nat.div_eq_of_lt hlt, Nat.zero_add]
      exact Nat.mod_eq_of_lt (f n).toNat_lt
    · have hkn : k < n := by omega
      have hsplit : 256 ^ n = 256 ^ k * (256 * 256 ^ (n - k - 1)) := by
        rw [← Nat.pow_succ', ← Nat.pow_add]
        congr 1
        omega
      have hpk : 0 < 256 ^ k := Nat.pow_pos (by omega)
      have hdiv : (toNat f n + (f n).toNat * 256 ^ n) / 256 ^ k =
          toNat f n / 256 ^ k + 256 * ((f n).toNat * 256 ^ (n - k - 1)) := by
        rw [hsplit, show (f n).toNat * (256 ^ k * (256 * 256 ^ (n - k - 1))) =
          256 ^ k * (256 * ((f n).toNat * 256 ^ (n - k - 1))) by ring,
          Nat.add_mul_div_left _ _ hpk]
      rw [toNat, hdiv, Nat.add_mul_mod_self_left]
      exact ih hkn

end LittleEndian
