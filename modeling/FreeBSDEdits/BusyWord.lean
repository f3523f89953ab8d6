import Mathlib.Data.Nat.Bitwise
import Mathlib.Data.UInt

namespace FreeBSDEdits

def vpbBitShared : UInt32 := 0x01
def vpbBitExclusive : UInt32 := 0x02
def vpbBitWaiters : UInt32 := 0x04
def vpbBitFlagmask : UInt32 := vpbBitShared ||| vpbBitExclusive ||| vpbBitWaiters

def vpbSharersShift : UInt32 := 3

def vpbSharers (x : UInt32) : UInt32 := (x &&& ~~~vpbBitFlagmask) >>> vpbSharersShift

def vpbSharersWord (x : UInt32) : UInt32 := x <<< vpbSharersShift ||| vpbBitShared

def vpbOneSharer : UInt32 := 1 <<< vpbSharersShift

def vpbSingleExclusiver : UInt32 := vpbBitExclusive

def vpbUnbusied : UInt32 := vpbSharersWord 0

/-- The word for so many sharers, or for an exclusive owner. -/
def busyWord (sharers : Nat) (exclusive waiters : Bool) : UInt32 :=
  (if exclusive then vpbSingleExclusiver else vpbSharersWord (.ofNat sharers)) |||
    if waiters then vpbBitWaiters else 0

theorem and_two_pow_eq_zero {x y : UInt32} {i : Nat} (hy : y.toNat = 2 ^ i) :
    x &&& y = 0 ↔ x.toNat / 2 ^ i % 2 = 0 := by
  rw [← UInt32.toNat_inj, UInt32.toNat_and, hy, Nat.and_two_pow, Nat.testBit_eq_decide_div_mod_eq]
  have hpos : 0 < 2 ^ i := Nat.two_pow_pos i
  by_cases hb : x.toNat / 2 ^ i % 2 = 1
  · simp [hb]
  · simp [hb]
    omega

theorem and_two_pow_eq_self {x y : UInt32} {i : Nat} (hy : y.toNat = 2 ^ i)
    (h : x &&& y ≠ 0) : x &&& y = y := by
  rw [ne_eq, ← UInt32.toNat_inj, UInt32.toNat_and, hy, Nat.and_two_pow] at h
  rw [← UInt32.toNat_inj, UInt32.toNat_and, hy, Nat.and_two_pow]
  cases hb : x.toNat.testBit i with
  | true => exact Nat.one_mul _
  | false =>
    rw [hb] at h
    exact absurd (Nat.zero_mul _) h

theorem vpbSharers_toNat (x : UInt32) : (vpbSharers x).toNat = x.toNat / 8 := by
  have hx := x.toNat_lt
  have hmask : (~~~vpbBitFlagmask).toNat = 2 ^ 3 * (2 ^ 29 - 1) := by decide
  rw [vpbSharers, UInt32.toNat_shiftRight, UInt32.toNat_and, hmask]
  change (x.toNat &&& 2 ^ 3 * (2 ^ 29 - 1)) >>> 3 = _
  rw [Nat.shiftRight_and_distrib, Nat.shiftRight_eq_div_pow (2 ^ 3 * _),
    Nat.mul_div_cancel_left _ (by decide), Nat.and_two_pow_sub_one_eq_mod,
    Nat.shiftRight_eq_div_pow]
  omega

theorem vpbSharersWord_toNat {n : Nat} (hn : n < 2 ^ 29) :
    (vpbSharersWord (.ofNat n)).toNat = 8 * n + 1 := by
  have hlt : n < 2 ^ 32 := by omega
  rw [vpbSharersWord, UInt32.toNat_or, UInt32.toNat_shiftLeft, UInt32.toNat_ofNat_of_lt' hlt]
  change n <<< 3 % 2 ^ 32 ||| 1 = _
  rw [Nat.shiftLeft_eq, Nat.mod_eq_of_lt (by omega), Nat.mul_comm,
    ← Nat.two_pow_add_eq_or_of_lt (by decide)]

theorem busyWord_toNat {n : Nat} (hn : n < 2 ^ 29) (exclusive waiters : Bool) :
    (busyWord n exclusive waiters).toNat =
      (if exclusive then 2 else 8 * n + 1) + if waiters then 4 else 0 := by
  have hor : ∀ k r : Nat, r < 4 → 8 * k + r ||| 4 = 8 * k + r + 4 := by
    intro k r hr
    have h₁ := Nat.two_pow_add_eq_or_of_lt (i := 3) (b := r) (by omega) k
    have h₂ := Nat.two_pow_add_eq_or_of_lt (i := 3) (b := r + 4) (by omega) k
    have h₃ : r ||| 4 = r + 4 := by
      have hcases : r = 0 ∨ r = 1 ∨ r = 2 ∨ r = 3 := by omega
      rcases hcases with rfl | rfl | rfl | rfl <;> rfl
    rw [Nat.add_assoc]
    change 2 ^ 3 * k + r ||| 4 = 2 ^ 3 * k + (r + 4)
    rw [h₁, h₂, Nat.or_assoc, h₃]
  cases exclusive with
  | true =>
    cases waiters with
    | true =>
      change (vpbSingleExclusiver ||| vpbBitWaiters).toNat = 6
      decide
    | false =>
      change (vpbSingleExclusiver ||| 0).toNat = 2
      decide
  | false =>
    cases waiters with
    | true =>
      rw [busyWord, UInt32.toNat_or]
      change (vpbSharersWord (.ofNat n)).toNat ||| 4 = 8 * n + 1 + 4
      rw [vpbSharersWord_toNat hn, hor n 1 (by decide)]
    | false =>
      rw [busyWord, UInt32.toNat_or]
      change (vpbSharersWord (.ofNat n)).toNat ||| 0 = 8 * n + 1 + 0
      rw [vpbSharersWord_toNat hn, Nat.or_zero]

section

variable {n : Nat} {exclusive waiters : Bool} {x : UInt32}

theorem busyWord_shared (hn : n < 2 ^ 29) :
    busyWord n exclusive waiters &&& vpbBitShared = 0 ↔ exclusive = true := by
  rw [and_two_pow_eq_zero (i := 0) rfl, busyWord_toNat hn]
  cases exclusive <;> cases waiters <;> simp <;> omega

theorem busyWord_exclusive (hn : n < 2 ^ 29) :
    busyWord n exclusive waiters &&& vpbBitExclusive = 0 ↔ exclusive = false := by
  rw [and_two_pow_eq_zero (i := 1) rfl, busyWord_toNat hn]
  cases exclusive <;> cases waiters <;> simp <;> omega

theorem busyWord_waiters (hn : n < 2 ^ 29) :
    busyWord n exclusive waiters &&& vpbBitWaiters = 0 ↔ waiters = false := by
  rw [and_two_pow_eq_zero (i := 2) rfl, busyWord_toNat hn]
  cases exclusive <;> cases waiters <;> simp <;> omega

theorem busyWord_sharers (hn : n < 2 ^ 29) :
    (vpbSharers (busyWord n exclusive waiters)).toNat = if exclusive then 0 else n := by
  rw [vpbSharers_toNat, busyWord_toNat hn]
  cases exclusive <;> cases waiters <;> simp <;> omega

theorem busyWord_inj {n' : Nat} {exclusive' waiters' : Bool} (hn : n < 2 ^ 29) (hn' : n' < 2 ^ 29)
    (h : busyWord n exclusive waiters = busyWord n' exclusive' waiters') :
    exclusive = exclusive' ∧ waiters = waiters' ∧ (exclusive = false → n = n') := by
  have hnat := congrArg UInt32.toNat h
  rw [busyWord_toNat hn, busyWord_toNat hn'] at hnat
  cases exclusive <;> cases waiters <;> cases exclusive' <;> cases waiters' <;> simp at hnat ⊢ <;>
    omega

/-- Only an owner that is alone makes the count irrelevant. -/
theorem busyWord_of_exclusive (n n' : Nat) (waiters : Bool) :
    busyWord n true waiters = busyWord n' true waiters := rfl

theorem vpbUnbusied_eq : vpbUnbusied = busyWord 0 false false := by decide

theorem vpbSharersWord_one : vpbSharersWord 1 = busyWord 1 false false := by decide

theorem vpbSharersWord_one_waiters :
    vpbSharersWord 1 ||| vpbBitWaiters = busyWord 1 false true := by decide

theorem vpbSingleExclusiver_eq : vpbSingleExclusiver = busyWord n true false := by
  rw [busyWord_of_exclusive n 0]
  decide

theorem busyWord_succ (hn : n + 1 < 2 ^ 29) (waiters : Bool) :
    busyWord n false waiters + vpbOneSharer = busyWord (n + 1) false waiters := by
  rw [← UInt32.toNat_inj, UInt32.toNat_add, busyWord_toNat (by omega), busyWord_toNat hn]
  change ((8 * n + 1 + _) + 8) % 2 ^ 32 = 8 * (n + 1) + 1 + _
  cases waiters <;> simp <;> omega

theorem busyWord_pred (hn : n + 1 < 2 ^ 29) (waiters : Bool) :
    busyWord (n + 1) false waiters - vpbOneSharer = busyWord n false waiters := by
  rw [← busyWord_succ hn, UInt32.add_sub_cancel]

theorem busyWord_mark (n : Nat) (exclusive waiters : Bool) :
    busyWord n exclusive waiters ||| vpbBitWaiters = busyWord n exclusive true := by
  unfold busyWord
  rw [UInt32.or_assoc]
  cases waiters <;> rfl

theorem busyWord_and_waiters (hn : n < 2 ^ 29) :
    busyWord n exclusive waiters &&& vpbBitWaiters = if waiters then vpbBitWaiters else 0 := by
  cases hw : waiters with
  | true =>
    refine and_two_pow_eq_self (i := 2) rfl fun h0 => ?_
    cases (busyWord_waiters hn).mp h0
  | false => exact (busyWord_waiters hn).mpr rfl

theorem and_not_of_and_eq_zero {y : UInt32} (h : x &&& y = 0) : x &&& ~~~y = x := by
  have hdist : x &&& (y ||| ~~~y) = (x &&& y) ||| (x &&& ~~~y) := by
    rw [← UInt32.toBitVec_inj]
    exact BitVec.and_or_distrib_left
  rw [h, UInt32.zero_or, UInt32.or_not_self, UInt32.and_neg_one] at hdist
  exact hdist.symm

theorem busyWord_unmark (hn : n < 2 ^ 29) (exclusive waiters : Bool) :
    busyWord n exclusive waiters &&& ~~~vpbBitWaiters = busyWord n exclusive false := by
  have hoff : busyWord n exclusive false &&& ~~~vpbBitWaiters = busyWord n exclusive false :=
    and_not_of_and_eq_zero ((busyWord_waiters hn).mpr rfl)
  cases waiters with
  | false => exact hoff
  | true =>
    have hdist : (busyWord n exclusive false ||| vpbBitWaiters) &&& ~~~vpbBitWaiters =
        (busyWord n exclusive false &&& ~~~vpbBitWaiters) |||
          (vpbBitWaiters &&& ~~~vpbBitWaiters) := by
      rw [← UInt32.toBitVec_inj]
      exact BitVec.and_or_distrib_right
    rw [busyWord_mark, hoff, UInt32.and_not_self, UInt32.or_zero] at hdist
    exact hdist

end

end FreeBSDEdits
