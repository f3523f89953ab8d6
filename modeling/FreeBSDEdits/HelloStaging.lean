import FreeBSDEdits.HelloLinks
import Mathlib.Data.List.GetD

namespace FreeBSDEdits

/-- Byte `k` of the data areas of a chain. -/
def chainByte (dat : Nat → Nat → UInt8) (l : List Nat) (k : Nat) : UInt8 :=
  dat (l.getD (k / usableSpace) 0) (k % usableSpace)

theorem chainByte_head (dat : Nat → Nat → UInt8) (b : Nat) (l : List Nat) {k : Nat}
    (hk : k < usableSpace) : chainByte dat (b :: l) k = dat b k := by
  rw [chainByte, Nat.div_eq_of_lt hk, Nat.mod_eq_of_lt hk]
  rfl

theorem chainByte_tail (dat : Nat → Nat → UInt8) (b : Nat) (l : List Nat) (k : Nat) :
    chainByte dat (b :: l) (usableSpace + k) = chainByte dat l k := by
  have hpos : 0 < usableSpace := by decide
  rw [chainByte, chainByte, Nat.add_div_left k hpos, Nat.add_mod_left]
  rfl

theorem chainByte_congr {dat dat' : Nat → Nat → UInt8} {l : List Nat} {k : Nat}
    (h : ∀ b ∈ l, dat b = dat' b) (hk : k < usableSpace * l.length) :
    chainByte dat l k = chainByte dat' l k := by
  have hi : k / usableSpace < l.length := Nat.div_lt_of_lt_mul hk
  rw [chainByte, chainByte, List.getD_eq_getElem _ _ hi, h _ (List.getElem_mem hi)]

theorem chainByte_append (dat : Nat → Nat → UInt8) {l : List Nat} (l' : List Nat) {k : Nat}
    (hk : k < usableSpace * l.length) : chainByte dat (l ++ l') k = chainByte dat l k := by
  have hi : k / usableSpace < l.length := Nat.div_lt_of_lt_mul hk
  rw [chainByte, chainByte, List.getD_append _ _ _ _ hi]

/-- Behind the chain the buffer keeps what the stack held. -/
theorem stageBlocks_outside (dat : Nat → Nat → UInt8) {l : List Nat} {pos : Nat} {x : Int}
    (buffer : Int → UInt8) (hx : x < pos ∨ pos + usableSpace * l.length ≤ x) :
    stageBlocks dat l pos buffer x = buffer x := by
  induction l generalizing pos buffer with
  | nil => rfl
  | cons b l ih =>
    have hu : usableSpace = 4016 := rfl
    rw [List.length_cons, hu] at hx
    rw [stageBlocks, hu, ih _ (by rw [hu]; omega), if_neg (by omega)]

/-- Staging copies the bytes of the chain one after another. -/
theorem stageBlocks_inside (dat : Nat → Nat → UInt8) {l : List Nat} (pos : Nat) {k : Nat}
    (buffer : Int → UInt8) (hk : k < usableSpace * l.length) :
    stageBlocks dat l pos buffer (pos + k : Nat) = chainByte dat l k := by
  induction l generalizing pos k buffer with
  | nil => simp at hk
  | cons b l ih =>
    have hu : usableSpace = 4016 := rfl
    simp only [stageBlocks]
    by_cases hlt : k < usableSpace
    · rw [stageBlocks_outside _ _ (Or.inl (by omega)), if_pos (by omega), chainByte_head dat b l hlt]
      congr 1
      omega
    · obtain ⟨j, rfl⟩ : ∃ j, k = usableSpace + j := ⟨k - usableSpace, by omega⟩
      rw [List.length_cons, Nat.mul_add_one, Nat.add_comm] at hk
      rw [chainByte_tail, ← Nat.add_assoc]
      exact ih _ _ (Nat.lt_of_add_lt_add_right hk)

theorem spreadBlocks_other (buffer : Int → UInt8) {l : List Nat} {b : Nat} (hb : b ∉ l)
    (pos size : Nat) (dat : Nat → Nat → UInt8) : spreadBlocks buffer l pos size dat b = dat b := by
  induction l generalizing pos size dat with
  | nil => rfl
  | cons c l ih =>
    rw [List.mem_cons, not_or] at hb
    rw [spreadBlocks, ih hb.2, Function.update_of_ne hb.1]

/-- The spread bytes are found again on the chain; behind them the blocks keep what they held. -/
theorem spreadBlocks_chainByte (buffer : Int → UInt8) {l : List Nat} (hd : l.Nodup)
    (pos size : Nat) (dat : Nat → Nat → UInt8) {k : Nat} (hk : k < usableSpace * l.length) :
    chainByte (spreadBlocks buffer l pos size dat) l k =
      if k < size then buffer (pos + k) else chainByte dat l k := by
  induction l generalizing pos size k dat with
  | nil => simp at hk
  | cons b l ih =>
    have hu : usableSpace = 4016 := rfl
    obtain ⟨hb, hl⟩ := List.nodup_cons.mp hd
    rw [spreadBlocks]
    by_cases hlt : k < usableSpace
    · rw [chainByte_head _ b l hlt, spreadBlocks_other buffer hb, Function.update_self,
        chainByte_head dat b l hlt]
      simp only [hlt, and_true]
    · obtain ⟨j, rfl⟩ : ∃ j, k = usableSpace + j := ⟨k - usableSpace, by omega⟩
      rw [List.length_cons, Nat.mul_add_one, Nat.add_comm] at hk
      have hj : j < usableSpace * l.length := Nat.lt_of_add_lt_add_right hk
      rw [chainByte_tail, chainByte_tail, ih hl _ _ _ hj]
      have hsame : chainByte (Function.update dat b (fun k => if k < size ∧ k < usableSpace then
          buffer (pos + k) else dat b k)) l j = chainByte dat l j :=
        chainByte_congr (fun c hc => Function.update_of_ne (ne_of_mem_of_not_mem hc hb) _ _) hj
      rw [hsame]
      by_cases hs : usableSpace + j < size
      · rw [if_pos hs, if_pos (by omega)]
        congr 1
        omega
      · rw [if_neg hs, if_neg (by omega)]

theorem spreadBlocks_behind (buffer : Int → UInt8) (l : List Nat) (pos size b : Nat) {j : Nat}
    (hj : usableSpace ≤ j) (dat : Nat → Nat → UInt8) :
    spreadBlocks buffer l pos size dat b j = dat b j := by
  induction l generalizing pos size dat with
  | nil => rfl
  | cons c l ih =>
    rw [spreadBlocks, ih]
    by_cases hc : b = c
    · subst c
      rw [Function.update_self, if_neg (fun hh => Nat.not_lt.mpr hj hh.2)]
    · rw [Function.update_of_ne hc]

theorem chainByte_index (dat : Nat → Nat → UInt8) {l : List Nat} {i j : Nat} (hi : i < l.length)
    (hj : j < usableSpace) : chainByte dat l (usableSpace * i + j) = dat l[i] j := by
  have hpos : 0 < usableSpace := by decide
  rw [chainByte, Nat.mul_add_div hpos, Nat.div_eq_of_lt hj, Nat.add_zero, Nat.mul_add_mod,
    Nat.mod_eq_of_lt hj, List.getD_eq_getElem _ _ hi]

/-- Spreading bytes that are there already changes nothing. -/
theorem spreadBlocks_eq_self (buffer : Int → UInt8) {l : List Nat} (hd : l.Nodup) (size : Nat)
    (dat : Nat → Nat → UInt8) (h : ∀ k < usableSpace * l.length, k < size →
      buffer k = chainByte dat l k) : spreadBlocks buffer l 0 size dat = dat := by
  funext b j
  by_cases hb : b ∈ l
  · by_cases hj : j < usableSpace
    · obtain ⟨i, hi, rfl⟩ := List.getElem_of_mem hb
      have hk : usableSpace * i + j < usableSpace * l.length := by
        calc usableSpace * i + j < usableSpace * i + usableSpace := Nat.add_lt_add_left hj _
          _ = usableSpace * (i + 1) := (Nat.mul_add_one _ _).symm
          _ ≤ usableSpace * l.length := Nat.mul_le_mul_left _ hi
      have hs := spreadBlocks_chainByte buffer hd 0 size dat hk
      rw [chainByte_index _ hi hj, chainByte_index _ hi hj] at hs
      rw [hs]
      split
      next hlt =>
        rw [← chainByte_index dat hi hj, ← h _ hk hlt]
        congr 1
        omega
      next => rfl
    · rw [spreadBlocks_behind _ _ _ _ _ (Nat.le_of_not_lt hj)]
  · rw [spreadBlocks_other buffer hb]

theorem chainByte_dropLast (dat : Nat → Nat → UInt8) {l : List Nat} {k : Nat}
    (hk : k < usableSpace * (l.length - 1)) : chainByte dat l.dropLast k = chainByte dat l k := by
  rcases List.eq_nil_or_concat l with rfl | ⟨l, b, rfl⟩
  · rfl
  · rw [List.concat_eq_append] at hk ⊢
    rw [List.dropLast_concat]
    exact (chainByte_append dat [b] (by simpa using hk)).symm

end FreeBSDEdits
