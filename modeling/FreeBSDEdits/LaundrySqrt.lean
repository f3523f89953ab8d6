import Mathlib.Data.Nat.Sqrt
import Mathlib.Data.UInt
import Mathlib.Tactic.Ring

namespace FreeBSDEdits

theorem shiftRight_two_toNat (bit : UInt32) : (bit >>> 2).toNat = bit.toNat / 4 := by
  rw [UInt32.toNat_shiftRight]
  exact Nat.shiftRight_eq_div_pow ..

theorem shiftRight_two_lt {bit : UInt32} (h : 0 < bit.toNat) : (bit >>> 2).toNat < bit.toNat := by
  rw [shiftRight_two_toNat]
  omega

/-- The first loop of `isqrt`: the largest power of four within `num`. -/
def isqrtBit (num bit : UInt32) : UInt32 :=
  if num < bit then isqrtBit num (bit >>> 2) else bit
termination_by bit.toNat
decreasing_by
  next h => exact shiftRight_two_lt (Nat.zero_lt_of_lt (UInt32.lt_iff_toNat_lt.mp h))

/-- The second loop of `isqrt`. -/
def isqrtLoop (num root bit : UInt32) : UInt32 :=
  if bit = 0 then root
  else
    let tmp := root + bit
    if tmp ≤ num then isqrtLoop (num - tmp) ((root >>> 1) + bit) (bit >>> 2)
    else isqrtLoop num (root >>> 1) (bit >>> 2)
termination_by bit.toNat
decreasing_by
  all_goals
    have hne : bit.toNat ≠ 0 := fun h0 => ‹¬bit = 0› (UInt32.toNat_inj.mp h0)
    exact shiftRight_two_lt (Nat.pos_of_ne_zero hne)

def isqrt (num : UInt32) : UInt32 := isqrtLoop num 0 (isqrtBit num ((1 : UInt32) <<< 30))

theorem isqrtBit_spec (k : Nat) {num bit : UInt32} (hbit : bit.toNat = 4 ^ k)
    (hnum : num.toNat < 4 ^ (k + 1)) :
    (∃ j, (isqrtBit num bit).toNat = 4 ^ j ∧ num.toNat < 4 ^ (j + 1) ∧ j ≤ k) ∨
      isqrtBit num bit = 0 ∧ num = 0 := by
  induction k generalizing bit with
  | zero =>
    rw [isqrtBit]
    split
    next hlt =>
      have h0 : num.toNat = 0 := by
        have := UInt32.lt_iff_toNat_lt.mp hlt
        rw [hbit] at this
        omega
      have hzero : bit >>> 2 = 0 := by
        apply UInt32.toNat_inj.mp
        rw [shiftRight_two_toNat, hbit]
        rfl
      have hnum0 : num = 0 := UInt32.toNat_inj.mp h0
      refine .inr ⟨?_, hnum0⟩
      rw [hzero, hnum0, isqrtBit]
      rfl
    next => exact .inl ⟨0, hbit, hnum, Nat.le_refl 0⟩
  | succ k ih =>
    rw [isqrtBit]
    split
    next hlt =>
      have hlt' := UInt32.lt_iff_toNat_lt.mp hlt
      rw [hbit] at hlt'
      have hshift : (bit >>> 2).toNat = 4 ^ k := by
        rw [shiftRight_two_toNat, hbit, Nat.pow_succ]
        omega
      rcases ih hshift hlt' with ⟨j, hj, hn, hle⟩ | hzero
      · exact .inl ⟨j, hj, hn, Nat.le_succ_of_le hle⟩
      · exact .inr hzero
    next => exact .inl ⟨k + 1, hbit, hnum, Nat.le_refl _⟩

/-- One round: `q` are the digits of the root found so far and `d` is the next one to try. -/
structure SqrtRound (n q d : Nat) (num root : UInt32) : Prop where
  num : num.toNat + q * q = n
  root : root.toNat = q * d
  lt : n < (q + d) * (q + d)
  fits : q + d ≤ 2 ^ 16

theorem SqrtRound.next {n q d : Nat} {num root bit : UInt32}
    (h : SqrtRound n q (2 * d) num root) (hd : 0 < d) (hbit : bit.toNat = d * d) :
    (root + bit ≤ num → SqrtRound n (q + d) d (num - (root + bit)) ((root >>> 1) + bit)) ∧
      (¬root + bit ≤ num → SqrtRound n q d num (root >>> 1)) := by
  obtain ⟨hnum, hroot, hlt, hfits⟩ := h
  have hsq : (q + 2 * d) * (q + 2 * d) ≤ 2 ^ 16 * 2 ^ 16 := Nat.mul_le_mul hfits hfits
  have hpos : 0 < d * d := Nat.mul_pos hd hd
  have hexp : (q + 2 * d) * (q + 2 * d) = q * q + 4 * (q * d) + 4 * (d * d) := by ring
  have hqq := Nat.zero_le (q * q)
  have hroot' : root.toNat = 2 * (q * d) := by rw [hroot]; ring
  have htmp : (root + bit).toNat = 2 * (q * d) + d * d := by
    rw [UInt32.toNat_add, hroot', hbit]
    exact Nat.mod_eq_of_lt (by omega)
  have hhalf : (root >>> 1).toNat = q * d := by
    rw [UInt32.toNat_shiftRight, hroot']
    change (2 * (q * d)) >>> 1 = _
    rw [Nat.shiftRight_eq_div_pow]
    omega
  have hnext : (q + d) * (q + d) = q * q + 2 * (q * d) + d * d := by ring
  constructor
  · intro hle
    have hle' := UInt32.le_iff_toNat_le.mp hle
    rw [htmp] at hle'
    refine ⟨?_, ?_, ?_, by omega⟩
    · rw [UInt32.toNat_sub_of_le _ _ hle, htmp]
      omega
    · rw [UInt32.toNat_add, hhalf, hbit, Nat.add_mul]
      exact Nat.mod_eq_of_lt (by omega)
    · rw [show q + d + d = q + 2 * d by ring]
      exact hlt
  · intro hle
    have hgt : num.toNat < 2 * (q * d) + d * d := by
      rw [← htmp]
      exact Nat.lt_of_not_le fun h => hle (UInt32.le_iff_toNat_le.mpr h)
    exact ⟨hnum, hhalf, by omega, by omega⟩

theorem isqrtLoop_spec (k : Nat) {n q : Nat} {num root bit : UInt32} (hbit : bit.toNat = 4 ^ k)
    (h : SqrtRound n q (2 * 2 ^ k) num root) : (isqrtLoop num root bit).toNat = Nat.sqrt n := by
  have hd : bit.toNat = 2 ^ k * 2 ^ k := by rw [hbit, ← Nat.mul_pow]
  have hne : bit ≠ 0 := by
    rintro rfl
    exact absurd hbit.symm (Nat.pow_pos (by decide)).ne'
  have hround := h.next (Nat.two_pow_pos k) hd
  induction k generalizing q num root bit with
  | zero =>
    -- The last round leaves the root itself.
    have hdone : ∀ q num root, SqrtRound n q (2 ^ 0) num root →
        (isqrtLoop num root (bit >>> 2)).toNat = Nat.sqrt n := by
      intro q num root hr
      have hzero : bit >>> 2 = 0 := by
        apply UInt32.toNat_inj.mp
        rw [shiftRight_two_toNat, hbit]
        rfl
      rw [hzero, isqrtLoop, if_pos rfl, hr.root, Nat.pow_zero, Nat.mul_one]
      exact Nat.eq_sqrt.mpr ⟨Nat.le.intro ((Nat.add_comm ..).trans hr.num), hr.lt⟩
    rw [isqrtLoop, if_neg hne]
    dsimp only
    split
    next hle => exact hdone _ _ _ (hround.1 hle)
    next hle => exact hdone _ _ _ (hround.2 hle)
  | succ k ih =>
    have hshift : (bit >>> 2).toNat = 4 ^ k := by
      rw [shiftRight_two_toNat, hbit, Nat.pow_succ]
      omega
    have hstep : ∀ q num root, SqrtRound n q (2 ^ (k + 1)) num root →
        (isqrtLoop num root (bit >>> 2)).toNat = Nat.sqrt n := by
      intro q num root hr
      rw [Nat.pow_succ, Nat.mul_comm] at hr
      have hd' : (bit >>> 2).toNat = 2 ^ k * 2 ^ k := by rw [hshift, ← Nat.mul_pow]
      have hne' : bit >>> 2 ≠ 0 := by
        intro h0
        rw [h0] at hshift
        exact absurd hshift.symm (Nat.pow_pos (by decide)).ne'
      exact ih hshift hr hd' hne' (hr.next (Nat.two_pow_pos k) hd')
    rw [isqrtLoop, if_neg hne]
    dsimp only
    split
    next hle => exact hstep _ _ _ (hround.1 hle)
    next hle => exact hstep _ _ _ (hround.2 hle)

/-- `isqrt` is the integer square root of every unsigned integer. -/
theorem isqrt_eq_sqrt (num : UInt32) : (isqrt num).toNat = Nat.sqrt num.toNat := by
  have hnum : num.toNat < 4 ^ (15 + 1) := num.toNat_lt
  have hbit : ((1 : UInt32) <<< 30).toNat = 4 ^ 15 := by decide
  rw [isqrt]
  rcases isqrtBit_spec 15 hbit hnum with ⟨j, hbit, hlt, hj⟩ | ⟨hbit, h0⟩
  · have hpow : 2 * 2 ^ j ≤ 2 ^ 16 := by
      rw [← Nat.pow_succ']
      exact Nat.pow_le_pow_right (by decide) (by omega)
    refine isqrtLoop_spec j hbit (q := 0) ⟨by omega, by rw [Nat.zero_mul]; rfl, ?_, by omega⟩
    rw [Nat.zero_add, ← Nat.pow_succ', ← Nat.mul_pow]
    exact hlt
  · rw [hbit, h0, isqrtLoop, if_pos rfl]
    rfl

end FreeBSDEdits
