import FreeBSDEdits.LittleEndian
import FreeBSDEdits.PageBits

namespace LittleEndian

theorem byteAt_testBit (w k i : Nat) :
    (byteAt w k).toNat.testBit i = (decide (i < 8) && w.testBit (8 * k + i)) := by
  have hpow : 256 ^ k = 2 ^ (8 * k) := by
    rw [Nat.pow_mul]
  rw [byteAt_toNat, hpow]
  change (w / 2 ^ (8 * k) % 2 ^ 8).testBit i = _
  rw [Nat.testBit_mod_two_pow, Nat.testBit_div_two_pow, Nat.add_comm i]

end LittleEndian

namespace FreeBSDEdits

/-- Where byte `k` of an aligned word of four stands in the word's value. -/
def byteIndex (bigEndian : Bool) (k : Nat) : Nat := if bigEndian then 3 - k else k

def loadWord (bigEndian : Bool) (memory : Nat → UInt8) (addr : Nat) : UInt32 :=
  .ofNat (LittleEndian.toNat (fun k => memory (addr + byteIndex bigEndian k)) 4)

def storeWord (bigEndian : Bool) (memory : Nat → UInt8) (addr : Nat) (word : UInt32) :
    Nat → UInt8 := fun a =>
  if addr ≤ a ∧ a < addr + 4 then LittleEndian.byteAt word.toNat (byteIndex bigEndian (a - addr))
  else memory a

/-- The second way of `vm_page_clear_dirty_mask`: a 32-bit atomic on the aligned word that contains
the `dirty` byte at `addr`. -/
def clearDirtyInWord (bigEndian : Bool) (memory : Nat → UInt8) (addr : Nat) (pagebits : UInt8) :
    Nat → UInt8 :=
  let shift := addr % 4
  let shift := if bigEndian then (4 - 1 - shift) * 8 else shift * 8
  let addr := addr - addr % 4
  let word := loadWord bigEndian memory addr
  storeWord bigEndian memory addr (word &&& ~~~(pagebits.toUInt32 <<< .ofNat shift))

section

variable {bigEndian : Bool} {k : Nat}

theorem byteIndex_lt (hk : k < 4) : byteIndex bigEndian k < 4 := by
  unfold byteIndex
  split <;> omega

theorem byteIndex_byteIndex (hk : k < 4) : byteIndex bigEndian (byteIndex bigEndian k) = k := by
  unfold byteIndex
  cases bigEndian with
  | true =>
    simp only [↓reduceIte]
    omega
  | false => rfl

theorem byteAt_loadWord (memory : Nat → UInt8) (addr : Nat) (hk : k < 4) :
    LittleEndian.byteAt (loadWord bigEndian memory addr).toNat (byteIndex bigEndian k) =
      memory (addr + k) := by
  have hlt := LittleEndian.toNat_lt (fun k => memory (addr + byteIndex bigEndian k)) 4
  have hword : (loadWord bigEndian memory addr).toNat =
      LittleEndian.toNat (fun k => memory (addr + byteIndex bigEndian k)) 4 :=
    UInt32.toNat_ofNat_of_lt' hlt
  rw [hword, LittleEndian.byteAt_of_toNat (byteIndex_lt hk), byteIndex_byteIndex hk]

end

theorem and_not_testBit (x y : UInt32) (i : Nat) :
    (x &&& ~~~y).toNat.testBit i = (x.toNat.testBit i && !y.toNat.testBit i) := by
  have hnot : (~~~y).toNat = 2 ^ 32 - (y.toNat + 1) := by
    rw [UInt32.toNat_not]
    change 2 ^ 32 - 1 - y.toNat = 2 ^ 32 - (y.toNat + 1)
    omega
  rw [UInt32.toNat_and, Nat.testBit_and, hnot, Nat.testBit_two_pow_sub_succ y.toNat_lt]
  by_cases hi : i < 32
  · simp [hi]
  · have hle : 2 ^ 32 ≤ 2 ^ i := Nat.pow_le_pow_right (by decide) (by omega)
    have hx := x.toNat_lt
    rw [Nat.testBit_lt_two_pow (by omega)]
    rfl

theorem shifted_testBit {bits : UInt8} {s i : Nat} (hs : s < 4) :
    (bits.toUInt32 <<< UInt32.ofNat (s * 8)).toNat.testBit i =
      (decide (s * 8 ≤ i) && bits.toNat.testBit (i - s * 8)) := by
  have hb := bits.toNat_lt
  have hsm : (UInt32.ofNat (s * 8)).toNat = s * 8 := UInt32.toNat_ofNat_of_lt' (by
    change s * 8 < 2 ^ 32
    omega)
  have hpow : 2 ^ (s * 8) ≤ 2 ^ 24 := Nat.pow_le_pow_right (by decide) (by omega)
  have hval : (bits.toUInt32 <<< UInt32.ofNat (s * 8)).toNat = bits.toNat * 2 ^ (s * 8) := by
    have hs32 : s * 8 % 32 = s * 8 := Nat.mod_eq_of_lt (by omega)
    rw [UInt32.toNat_shiftLeft, hsm, hs32, Nat.shiftLeft_eq, UInt8.toNat_toUInt32]
    apply Nat.mod_eq_of_lt
    calc
      bits.toNat * 2 ^ (s * 8) ≤ bits.toNat * 2 ^ 24 := Nat.mul_le_mul_left _ hpow
      _ < 2 ^ 32 := by omega
  rw [hval, Nat.testBit_mul_two_pow]

/-- Whatever the byte order, the word operation clears bits of `dirty` and of no neighbour. -/
theorem clearDirtyInWord_eq (bigEndian : Bool) (memory : Nat → UInt8) (addr : Nat)
    (pagebits : UInt8) : clearDirtyInWord bigEndian memory addr pagebits =
      Function.update memory addr (memory addr &&& ~~~pagebits) := by
  have hmod : addr % 4 < 4 := Nat.mod_lt _ (by decide)
  have hle := Nat.mod_le addr 4
  let base := addr - addr % 4
  have hbase : base + addr % 4 = addr := Nat.sub_add_cancel hle
  let word := loadWord bigEndian memory base
  have hshift : (if bigEndian then (4 - 1 - addr % 4) * 8 else addr % 4 * 8) =
      byteIndex bigEndian (addr % 4) * 8 := by
    unfold byteIndex
    cases bigEndian <;> rfl
  have hidx : byteIndex bigEndian (addr % 4) < 4 := byteIndex_lt hmod
  funext a
  by_cases ha : base ≤ a ∧ a < base + 4
  · obtain ⟨k, rfl⟩ := Nat.exists_eq_add_of_le ha.1
    have hk : k < 4 := by omega
    have hload : LittleEndian.byteAt word.toNat (byteIndex bigEndian k) = memory (base + k) :=
      byteAt_loadWord memory base hk
    have hbyte : clearDirtyInWord bigEndian memory addr pagebits (base + k) =
        LittleEndian.byteAt (word &&& ~~~(pagebits.toUInt32 <<<
          UInt32.ofNat (byteIndex bigEndian (addr % 4) * 8))).toNat (byteIndex bigEndian k) := by
      rw [← hshift]
      refine (if_pos ha).trans ?_
      rw [Nat.add_sub_cancel_left]
    have hsame : byteIndex bigEndian k = byteIndex bigEndian (addr % 4) ↔ k = addr % 4 := by
      refine ⟨fun h => ?_, fun h => by rw [h]⟩
      exact (byteIndex_byteIndex hk).symm.trans ((congrArg _ h).trans (byteIndex_byteIndex hmod))
    have hmask : ∀ i < 8, (decide (byteIndex bigEndian (addr % 4) * 8 ≤ 8 * byteIndex bigEndian k + i) &&
        pagebits.toNat.testBit (8 * byteIndex bigEndian k + i - byteIndex bigEndian (addr % 4) * 8)) =
        (decide (k = addr % 4) && pagebits.toNat.testBit i) := by
      intro i hi
      by_cases hka : k = addr % 4
      · have hsub : 8 * byteIndex bigEndian (addr % 4) + i - byteIndex bigEndian (addr % 4) * 8 = i := by
          omega
        have hle : byteIndex bigEndian (addr % 4) * 8 ≤ 8 * byteIndex bigEndian (addr % 4) + i := by
          omega
        rw [hka, hsub]
        simp [hle]
      · have hne := mt hsame.mp hka
        rw [decide_eq_false hka, Bool.false_and]
        by_cases hlow : byteIndex bigEndian (addr % 4) * 8 ≤ 8 * byteIndex bigEndian k + i
        · have hfar : ¬8 * byteIndex bigEndian k + i - byteIndex bigEndian (addr % 4) * 8 < 8 := by
            omega
          have hzero := mt (blockBit.lt pagebits) hfar
          rw [Bool.not_eq_true] at hzero
          exact Bool.and_eq_false_imp.mpr fun _ => hzero
        · simp [hlow]
    have hbits : ∀ i, blockBit (clearDirtyInWord bigEndian memory addr pagebits (base + k)) i =
        (blockBit (memory (base + k)) i && !(decide (k = addr % 4) && blockBit pagebits i)) := by
      intro i
      unfold blockBit
      rw [hbyte, ← hload, LittleEndian.byteAt_testBit, LittleEndian.byteAt_testBit, and_not_testBit,
        shifted_testBit hidx]
      by_cases hi : i < 8
      · rw [hmask i hi, Bool.and_assoc]
      · simp [hi]
    by_cases hka : k = addr % 4
    · have haddr : base + k = addr := by omega
      rw [haddr] at hbits ⊢
      rw [Function.update_self, blockBit.eq_iff]
      intro i
      rw [hbits, blockBit.andNot, decide_eq_true hka, Bool.true_and]
    · have hne : base + k ≠ addr := by omega
      rw [Function.update_of_ne hne, blockBit.eq_iff]
      intro i
      rw [hbits, decide_eq_false hka, Bool.false_and, Bool.not_false, Bool.and_true]
  · have hne : a ≠ addr := by omega
    rw [Function.update_of_ne hne]
    exact if_neg ha

end FreeBSDEdits
