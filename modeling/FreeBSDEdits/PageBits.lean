import FreeBSDEdits.VmPage
import Mathlib.Data.Nat.Bitwise

namespace FreeBSDEdits

abbrev pageSize : Nat := 4096

abbrev devBsize : Nat := 512

abbrev devBshift : Nat := 9

/-- `none` is the failed assertion. -/
def vmPageBits (base size : Nat) : Option UInt8 :=
  if base + size ≤ pageSize then
    if size = 0 then some 0
    else
      let firstBit := base >>> devBshift
      let lastBit := (base + size - 1) >>> devBshift
      some (.ofNat (2 <<< lastBit - 1 <<< firstBit))
  else none

/-- Block `i` of a map of valid or dirty blocks. -/
def blockBit (x : UInt8) (i : Nat) : Bool := x.toNat.testBit i

namespace blockBit

variable (x y : UInt8) (i : Nat)

@[simp] theorem zero : blockBit 0 i = false := Nat.zero_testBit i

@[simp] theorem or : blockBit (x ||| y) i = (blockBit x i || blockBit y i) := by
  unfold blockBit
  rw [UInt8.toNat_or, Nat.testBit_or]

@[simp] theorem and : blockBit (x &&& y) i = (blockBit x i && blockBit y i) := by
  unfold blockBit
  rw [UInt8.toNat_and, Nat.testBit_and]

variable {i} in
theorem lt (h : blockBit x i = true) : i < 8 := by
  by_contra hi
  have hle : 2 ^ 8 ≤ 2 ^ i := Nat.pow_le_pow_right (by decide) (by omega)
  have hx := x.toNat_lt
  rw [blockBit, Nat.testBit_lt_two_pow (by omega)] at h
  cases h

@[simp] theorem andNot : blockBit (x &&& ~~~y) i = (blockBit x i && !blockBit y i) := by
  by_cases hi : i < 8
  · have hnot : (~~~y).toNat = 2 ^ 8 - (y.toNat + 1) := by
      rw [UInt8.toNat_not]
      change 256 - 1 - y.toNat = 256 - (y.toNat + 1)
      omega
    unfold blockBit
    rw [UInt8.toNat_and, Nat.testBit_and, hnot, Nat.testBit_two_pow_sub_succ y.toNat_lt]
    simp [hi]
  · have hfalse : ∀ z : UInt8, blockBit z i = false := by
      intro z
      rcases hz : blockBit z i with _ | _
      · rfl
      · exact absurd (lt z hz) hi
    rw [hfalse, hfalse x]
    rfl

theorem all : blockBit vmPageBitsAll i = decide (i < 8) := by
  change (2 ^ 8 - 1).testBit i = _
  exact Nat.testBit_two_pow_sub_one ..

theorem eq_all_iff : x = vmPageBitsAll ↔ ∀ i < 8, blockBit x i = true := by
  constructor
  · rintro rfl i hi
    rw [all]
    exact decide_eq_true hi
  · intro h
    apply UInt8.toNat_inj.mp
    refine Nat.eq_of_testBit_eq fun i => ?_
    change blockBit x i = blockBit vmPageBitsAll i
    rw [all]
    by_cases hi : i < 8
    · rw [h i hi, decide_eq_true hi]
    · rw [decide_eq_false hi]
      rcases hx : blockBit x i with _ | _
      · rfl
      · exact absurd (lt x hx) hi

theorem eq_iff : x = y ↔ ∀ i, blockBit x i = blockBit y i :=
  ⟨fun h i => by rw [h], fun h => UInt8.toNat_inj.mp (Nat.eq_of_testBit_eq h)⟩

/-- The test `x & (1 << i)` of the C code. -/
theorem land_eq_zero : x.toNat &&& 1 <<< i = 0 ↔ blockBit x i = false := by
  unfold blockBit
  rw [Nat.shiftLeft_eq, Nat.one_mul, Nat.and_two_pow]
  cases x.toNat.testBit i with
  | true => simp
  | false => simp

end blockBit

theorem two_pow_sub_testBit {f l i : Nat} (h : f ≤ l) :
    (2 ^ (l + 1) - 2 ^ f).testBit i = (decide (f ≤ i) && decide (i ≤ l)) := by
  have hsplit : 2 ^ (l + 1) = 2 ^ f * 2 ^ (l + 1 - f) := by
    rw [← Nat.pow_add]
    congr 1
    omega
  have hfac : 2 ^ (l + 1) - 2 ^ f = 2 ^ f * (2 ^ (l + 1 - f) - 1) := by
    rw [hsplit, Nat.mul_sub, Nat.mul_one]
  rw [hfac, Nat.testBit_two_pow_mul, Nat.testBit_two_pow_sub_one]
  by_cases hfi : f ≤ i
  · have hiff : i - f < l + 1 - f ↔ i ≤ l := by omega
    simp [hfi, hiff]
  · simp [hfi]

/-- The blocks that a range meets. -/
def Meets (base size i : Nat) : Prop :=
  i * devBsize < base + size ∧ base < (i + 1) * devBsize ∧ 0 < size

instance (base size i : Nat) : Decidable (Meets base size i) :=
  inferInstanceAs (Decidable (_ ∧ _))

/-- The map has a bit for each block that the range meets, and no other. -/
theorem vmPageBits_block {base size : Nat} (h : base + size ≤ pageSize) :
    ∃ bits, vmPageBits base size = some bits ∧
      ∀ i, blockBit bits i = decide (Meets base size i) := by
  by_cases h0 : size = 0
  · refine ⟨0, ?_, fun i => ?_⟩
    · unfold vmPageBits
      rw [if_pos h, if_pos h0]
    · simp [Meets, h0]
  · refine ⟨.ofNat (2 ^ ((base + size - 1) / 512 + 1) - 2 ^ (base / 512)), ?_, fun i => ?_⟩
    · unfold vmPageBits
      rw [if_pos h, if_neg h0]
      simp only [devBshift, Nat.shiftLeft_eq, Nat.shiftRight_eq_div_pow, Nat.one_mul,
        Nat.pow_succ']
    · have hle : base / 512 ≤ (base + size - 1) / 512 := Nat.div_le_div_right (by omega)
      have hlast : (base + size - 1) / 512 < 8 := by
        change base + size ≤ 4096 at h
        omega
      have hmeets : Meets base size i ↔
          i < 8 ∧ base / 512 ≤ i ∧ i ≤ (base + size - 1) / 512 := by
        unfold Meets
        change i * 512 < base + size ∧ base < (i + 1) * 512 ∧ 0 < size ↔ _
        omega
      unfold blockBit
      rw [UInt8.toNat_ofNat']
      change ((2 ^ ((base + size - 1) / 512 + 1) - 2 ^ (base / 512)) % 2 ^ 8).testBit i = _
      rw [Nat.testBit_mod_two_pow, two_pow_sub_testBit hle, decide_eq_decide.mpr hmeets,
        Bool.decide_and, Bool.decide_and]

end FreeBSDEdits
