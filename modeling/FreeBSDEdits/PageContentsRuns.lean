import FreeBSDEdits.PageContents

namespace FreeBSDEdits

namespace ContentPage

variable {X : Type} {pm : Pmap X} {bigEndian : Bool} {s s' : ContentPage X} {base size : Nat}

@[simp] theorem setDirty_dirty (d : UInt8) : (s.setDirty d).dirty = d := Function.update_self ..

theorem clearDirtyMask_eq (pagebits : UInt8) :
    s.vmPageClearDirtyMask pm bigEndian pagebits = s.setDirty (s.dirty &&& ~~~pagebits) := by
  unfold vmPageClearDirtyMask
  split
  next => rfl
  next =>
    rw [clearDirtyInWord_eq]
    rfl

/-- The bytes of an invalid block that a range meets, outside the range. -/
def Fragment (s : ContentPage X) (base size j : Nat) : Prop :=
  blockBit s.valid (j / devBsize) = false ∧ j / devBsize * devBsize < base + size ∧
    base < (j / devBsize + 1) * devBsize ∧ ¬(base ≤ j ∧ j < base + size)

instance (j : Nat) : Decidable (s.Fragment base size j) :=
  inferInstanceAs (Decidable (_ ∧ _))

theorem zeroPageArea_if (hpm : pm.Lawful) (c : Prop) [Decidable c] (s : ContentPage X)
    (off len : Nat) : (if c then s.zeroPageArea pm off len else s) = { s with
      contents := fun j => if c ∧ off ≤ j ∧ j < off + len then some 0 else s.contents j } := by
  by_cases hc : c
  · rw [if_pos hc]
    unfold zeroPageArea
    rw [hpm.zeroPageArea_eq]
    simp [hc]
  · rw [if_neg hc]
    simp [hc]

theorem zeroFragments_eq (hpm : pm.Lawful) (hsize : 0 < size) :
    s.zeroFragments pm base size = { s with
      contents := fun j => if s.Fragment base size j then some 0 else s.contents j } := by
  unfold zeroFragments
  simp only [zeroPageArea_if hpm, blockBit.land_eq_zero]
  congr 1
  funext j
  have hiff : s.Fragment base size j ↔
      ((rounddown2 (base + size) ≠ base + size ∧
          blockBit s.valid ((base + size) >>> devBshift) = false) ∧ base + size ≤ j ∧
        j < base + size + (devBsize - (base + size) % devBsize)) ∨
      ((rounddown2 base ≠ base ∧ blockBit s.valid (base >>> devBshift) = false) ∧
        rounddown2 base ≤ j ∧ j < rounddown2 base + (base - rounddown2 base)) := by
    unfold Fragment rounddown2
    simp only [Nat.shiftRight_eq_div_pow, devBshift, devBsize]
    change _ ↔ ((_ ∧ blockBit s.valid ((base + size) / 512) = false) ∧ _) ∨
      (_ ∧ blockBit s.valid (base / 512) = false) ∧ _
    constructor
    · rintro ⟨hb, hmeet, hmeet', hout⟩
      by_cases hj : j < base
      · have hblock : base / 512 = j / 512 := by omega
        rw [hblock]
        exact .inr ⟨⟨by omega, hb⟩, by omega⟩
      · have hblock : (base + size) / 512 = j / 512 := by omega
        rw [hblock]
        exact .inl ⟨⟨by omega, hb⟩, by omega⟩
    · rintro (⟨⟨hne, hb⟩, hj⟩ | ⟨⟨hne, hb⟩, hj⟩)
      · have hblock : j / 512 = (base + size) / 512 := by omega
        rw [hblock]
        exact ⟨hb, by omega⟩
      · have hblock : j / 512 = base / 512 := by omega
        rw [hblock]
        exact ⟨hb, by omega⟩
  by_cases hlast : (rounddown2 (base + size) ≠ base + size ∧
      blockBit s.valid ((base + size) >>> devBshift) = false) ∧ base + size ≤ j ∧
      j < base + size + (devBsize - (base + size) % devBsize)
  · rw [if_pos hlast, if_pos (hiff.mpr (.inl hlast))]
  · rw [if_neg hlast]
    by_cases hfirst : (rounddown2 base ≠ base ∧ blockBit s.valid (base >>> devBshift) = false) ∧
        rounddown2 base ≤ j ∧ j < rounddown2 base + (base - rounddown2 base)
    · rw [if_pos hfirst, if_pos (hiff.mpr (.inr hfirst))]
    · rw [if_neg hfirst, if_neg fun h => (hiff.mp h).elim hlast hfirst]

/-- No page is in a state that the kernel does not account for: what is valid has been written,
what is dirty or mapped is valid, and only what is mapped is modified. -/
structure Accounted (pm : Pmap X) (s : ContentPage X) : Prop where
  written : ∀ j < pageSize, blockBit s.valid (j / devBsize) = true → s.contents j ≠ none
  dirty : ∀ i, blockBit s.dirty i = true → blockBit s.valid i = true
  mapped : pm.isMapped s.pmap = true → s.valid = vmPageBitsAll ∧ s.refCount ≠ 0
  modified : pm.isModified s.pmap = true → pm.isMapped s.pmap = true

/-- Exactly the fragments are zeroed, and exactly the blocks met become valid. -/
structure Validated (base size : Nat) (s s' : ContentPage X) : Prop where
  contents : ∀ j, s'.contents j =
    if 0 < size ∧ s.Fragment base size j then some 0 else s.contents j
  valid : ∀ i, blockBit s'.valid i = (blockBit s.valid i || decide (Meets base size i))

theorem Accounted.setValidRange_validated (hpm : pm.Lawful) (hs : s.Accounted pm)
    (hsize : base + size ≤ pageSize) :
    ∃ s', s.vmPageSetValidRange pm base size = some s' ∧ Validated base size s s' ∧
      s'.dirty = s.dirty ∧ s'.pmap = s.pmap ∧ s'.refCount = s.refCount := by
  obtain ⟨bits, hbits, hmeet⟩ := vmPageBits_block hsize
  by_cases h0 : size = 0
  · refine ⟨s, if_pos h0, ⟨fun j => ?_, fun i => ?_⟩, rfl, rfl, rfl⟩
    · rw [if_neg (by omega)]
    · have hno : ¬Meets base size i := by
        rintro ⟨-, -, hpos⟩
        omega
      simp [hno]
  · have hpos : 0 < size := Nat.pos_of_ne_zero h0
    have hclean : ~~~s.valid &&& bits &&& s.dirty = 0 := by
      rw [UInt8.and_comm (~~~s.valid), blockBit.eq_iff]
      intro i
      rw [blockBit.and, blockBit.andNot, blockBit.zero]
      rcases hd : blockBit s.dirty i with _ | _
      · rw [Bool.and_false]
      · rw [hs.dirty i hd, Bool.not_true, Bool.and_false, Bool.false_and]
    refine ⟨{ s with
      contents := fun j => if s.Fragment base size j then some 0 else s.contents j
      valid := s.valid ||| bits }, ?_, ⟨fun j => ?_, fun i => ?_⟩, rfl, rfl, rfl⟩
    · unfold vmPageSetValidRange
      rw [if_neg h0]
      simp only [zeroFragments_eq hpm hpos, hbits, Option.bind_some]
      exact if_pos hclean
    · simp [hpos]
    · change blockBit (s.valid ||| bits) i = _
      rw [blockBit.or, hmeet]

/-- Dirty bits of every block met are cleared, also of those met in part. -/
theorem setValidclean_validated (hpm : pm.Lawful) (bigEndian : Bool) (hsize : base + size ≤ pageSize)
    (s : ContentPage X) :
    ∃ s', s.vmPageSetValidclean pm bigEndian base size = some s' ∧ Validated base size s s' ∧
      (∀ i, blockBit s'.dirty i = (blockBit s.dirty i && !decide (Meets base size i))) ∧
      s'.pmap = (if base = 0 ∧ size = pageSize ∧ s.valid = vmPageBitsAll then
        pm.clearModify s.pmap else s.pmap) ∧ s'.refCount = s.refCount := by
  obtain ⟨bits, hbits, hmeet⟩ := vmPageBits_block hsize
  by_cases h0 : size = 0
  · have hno : ∀ i, ¬Meets base size i := by
      rintro i ⟨-, -, hpos⟩
      omega
    refine ⟨s, if_pos h0, ⟨fun j => ?_, fun i => ?_⟩, fun i => ?_, ?_, rfl⟩
    · rw [if_neg (by omega)]
    · simp [hno i]
    · simp [hno i]
    · have hsz : size ≠ pageSize := by
        rw [h0]
        decide
      simp [hsz]
  · have hpos : 0 < size := Nat.pos_of_ne_zero h0
    let c : Frame := fun j => if s.Fragment base size j then some 0 else s.contents j
    have hvalid : ∀ i, blockBit (s.valid ||| bits) i =
        (blockBit s.valid i || decide (Meets base size i)) := by
      intro i
      rw [blockBit.or, hmeet]
    have hcontents : ∀ j, c j = if 0 < size ∧ s.Fragment base size j then some 0
        else s.contents j := by
      intro j
      simp [c, hpos]
    have hstep : s.vmPageSetValidclean pm bigEndian base size = some
        (if base = 0 ∧ size = pageSize then
          { ({ s with
              contents := c
              valid := s.valid ||| bits
              pmap := if s.valid = vmPageBitsAll then pm.clearModify s.pmap else s.pmap } :
            ContentPage X).setDirty 0 with nosync := false }
        else { s with contents := c, valid := s.valid ||| bits }.setDirty (s.dirty &&& ~~~bits)) := by
      unfold vmPageSetValidclean
      rw [if_neg h0]
      simp only [zeroFragments_eq hpm hpos, hbits, Option.map_some, clearDirtyMask_eq]
      by_cases hwhole : base = 0 ∧ size = pageSize
      · rw [if_pos hwhole, if_pos hwhole]
        by_cases hall : s.valid = vmPageBitsAll
        · simp only [hall, ↓reduceIte]
          rfl
        · simp only [hall, ↓reduceIte]
          rfl
      · rw [if_neg hwhole, if_neg hwhole]
        by_cases hall : s.valid = vmPageBitsAll
        · simp only [hall, ne_eq, not_true_eq_false, ↓reduceIte]
          rfl
        · simp only [hall, ne_eq, not_false_eq_true, ↓reduceIte]
          rfl
    refine ⟨_, hstep, ?_⟩
    by_cases hwhole : base = 0 ∧ size = pageSize
    · rw [if_pos hwhole]
      refine ⟨⟨hcontents, hvalid⟩, fun i => ?_, ?_, rfl⟩
      · change blockBit ((_ : ContentPage X).setDirty 0).dirty i = _
        rw [setDirty_dirty, blockBit.zero]
        rcases hd : blockBit s.dirty i with _ | _
        · rfl
        · have hi := blockBit.lt _ hd
          have hm : Meets base size i := by
            rw [hwhole.1, hwhole.2]
            unfold Meets
            change i * 512 < 0 + 4096 ∧ 0 < (i + 1) * 512 ∧ 0 < 4096
            omega
          simp [hm]
      · simp only [hwhole.1, hwhole.2, true_and]
        rfl
    · rw [if_neg hwhole]
      refine ⟨⟨hcontents, hvalid⟩, fun i => ?_, ?_, rfl⟩
      · rw [setDirty_dirty, blockBit.andNot, hmeet]
      · have hno : ¬(base = 0 ∧ size = pageSize ∧ s.valid = vmPageBitsAll) :=
          fun h => hwhole ⟨h.1, h.2.1⟩
        rw [if_neg hno]
        rfl

/-- The run of invalid blocks from `b` to `n` is zeroed with those before `b`. -/
theorem zeroInvalid_close (hpm : pm.Lawful) {valid : UInt8} {c c' : Frame} {b n : Nat} (hb : b ≤ n)
    (hinv : ∀ i, b ≤ i → i < n → blockBit valid i = false)
    (hc' : ∀ j, c' j = if j / devBsize < b ∧ blockBit valid (j / devBsize) = false then some 0
      else c j) (j : Nat) :
    (if n > b then pm.zeroPageArea c' (b <<< devBshift) ((n - b) <<< devBshift) else c') j =
      if j / devBsize < n ∧ blockBit valid (j / devBsize) = false then some 0 else c j := by
  by_cases hlt : n > b
  · rw [if_pos hlt, hpm.zeroPageArea_eq]
    simp only [Nat.shiftLeft_eq]
    by_cases hin : b * 2 ^ devBshift ≤ j ∧ j < b * 2 ^ devBshift + (n - b) * 2 ^ devBshift
    · have hblock : b ≤ j / devBsize ∧ j / devBsize < n := by
        change b * 512 ≤ j ∧ j < b * 512 + (n - b) * 512 at hin
        change b ≤ j / 512 ∧ j / 512 < n
        omega
      rw [if_pos hin, if_pos ⟨hblock.2, hinv _ hblock.1 hblock.2⟩]
    · have hblock : j / devBsize < b ↔ j / devBsize < n := by
        change ¬(b * 512 ≤ j ∧ j < b * 512 + (n - b) * 512) at hin
        change j / 512 < b ↔ j / 512 < n
        omega
      rw [if_neg hin, hc']
      simp only [hblock]
  · have hbn : b = n := by omega
    rw [if_neg hlt, hc', hbn]

/-- After `n` turns the invalid blocks below `b` are zeroed, and those from `b` on are invalid. -/
theorem zeroInvalid_turns (hpm : pm.Lawful) (valid : UInt8) (c : Frame) {n : Nat}
    (hn : n ≤ pageSize / devBsize) :
    ∃ b c', (List.range n).foldl (zeroInvalidTurn pm valid) (0, c) = (b, c') ∧ b ≤ n ∧
      (∀ i, b ≤ i → i < n → blockBit valid i = false) ∧
      ∀ j, c' j = if j / devBsize < b ∧ blockBit valid (j / devBsize) = false then some 0
        else c j := by
  induction n with
  | zero => exact ⟨0, c, rfl, Nat.le_refl 0, fun i _ hi => by omega, fun j => by simp⟩
  | succ n ih =>
    obtain ⟨b, c', hfold, hb, hinv, hc'⟩ := ih (by omega)
    rw [List.range_succ, List.foldl_append, hfold]
    have hne : n ≠ pageSize / devBsize := by omega
    have hbit : valid.toNat &&& 1 <<< n ≠ 0 ↔ blockBit valid n = true := by
      rw [ne_eq, blockBit.land_eq_zero, Bool.not_eq_false]
    by_cases hv : blockBit valid n = true
    · refine ⟨n + 1, _, if_pos (.inr (hbit.mpr hv)), Nat.le_refl _, fun i hi hi' => by omega,
        fun j => ?_⟩
      rw [zeroInvalid_close hpm hb hinv hc']
      have hsame : j / devBsize < n ∧ blockBit valid (j / devBsize) = false ↔
          j / devBsize < n + 1 ∧ blockBit valid (j / devBsize) = false := by
        refine and_congr_left fun hj => ?_
        have hjn : j / devBsize ≠ n := by
          intro h
          rw [h, hv] at hj
          cases hj
        omega
      simp only [hsame]
    · refine ⟨b, c', if_neg fun h => h.elim hne fun h => hv (hbit.mp h), Nat.le_succ_of_le hb,
        fun i hi hi' => ?_, hc'⟩
      rcases Nat.lt_succ_iff_lt_or_eq.mp hi' with h | rfl
      · exact hinv i hi h
      · simpa using hv

/-- The scan for runs of invalid blocks zeroes the invalid blocks, and no byte of a valid one. -/
theorem zeroInvalid_eq (hpm : pm.Lawful) (s : ContentPage X) (setvalid : Bool) :
    (∀ j, (s.vmPageZeroInvalid pm setvalid).contents j =
      if j < pageSize ∧ blockBit s.valid (j / devBsize) = false then some 0 else s.contents j) ∧
    (s.vmPageZeroInvalid pm setvalid).valid = if setvalid then vmPageBitsAll else s.valid := by
  refine ⟨fun j => ?_, rfl⟩
  obtain ⟨b, c', hfold, hb, hinv, hc'⟩ :=
    zeroInvalid_turns hpm s.valid s.contents (Nat.le_refl (pageSize / devBsize))
  have hlast : (List.range (pageSize / devBsize + 1)).foldl (zeroInvalidTurn pm s.valid)
      (0, s.contents) = (pageSize / devBsize + 1, if pageSize / devBsize > b then
        pm.zeroPageArea c' (b <<< devBshift) ((pageSize / devBsize - b) <<< devBshift) else c') := by
    rw [List.range_succ, List.foldl_append, hfold]
    change zeroInvalidTurn pm s.valid (b, c') (pageSize / devBsize) = _
    exact if_pos (Or.inl rfl)
  have hblock : j / devBsize < pageSize / devBsize ↔ j < pageSize := by
    change j / 512 < 4096 / 512 ↔ j < 4096
    omega
  unfold vmPageZeroInvalid
  rw [hlast]
  change (if pageSize / devBsize > b then _ else c') j = _
  rw [zeroInvalid_close hpm hb hinv hc']
  simp only [hblock]

theorem Accounted.setInvalid (hpm : pm.Lawful) (hs : s.Accounted pm)
    (hsize : base + size ≤ pageSize) :
    ∃ s', s.vmPageSetInvalid pm base size = some s' ∧ s'.Accounted pm := by
  obtain ⟨bits₀, hbits₀, -⟩ := vmPageBits_block hsize
  obtain ⟨bits, hbits⟩ : ∃ bits, (if s.vnode ∧ base = 0 ∧
      s.pindex * pageSize + size ≥ s.vnpSize then some vmPageBitsAll else vmPageBits base size) =
      some bits := by
    split
    next => exact ⟨_, rfl⟩
    next => exact ⟨_, hbits₀⟩
  have hdrop : ∀ t : ContentPage X, (∀ i, blockBit t.dirty i = true → blockBit s.valid i = true) →
      t.contents = s.contents → t.valid = s.valid → pm.isMapped t.pmap = false →
      pm.isModified t.pmap = false →
      Accounted pm ({ t with valid := t.valid &&& ~~~bits }.setDirty (t.dirty &&& ~~~bits)) := by
    intro t hdirty hcontents hvalid hmapped hmodified
    refine ⟨fun j hj hb => ?_, fun i hi => ?_, fun h => ?_, fun h => ?_⟩
    · change blockBit (t.valid &&& ~~~bits) _ = true at hb
      rw [blockBit.andNot, hvalid, Bool.and_eq_true] at hb
      change t.contents j ≠ none
      rw [hcontents]
      exact hs.written j hj hb.1
    · rw [setDirty_dirty, blockBit.andNot, Bool.and_eq_true] at hi
      change blockBit (t.valid &&& ~~~bits) i = true
      rw [blockBit.andNot, hvalid, hdirty i hi.1, hi.2]
      rfl
    · change pm.isMapped t.pmap = true at h
      rw [hmapped] at h
      cases h
    · change pm.isModified t.pmap = true at h
      rw [hmodified] at h
      cases h
  unfold vmPageSetInvalid
  simp only [hbits, Option.bind_some]
  by_cases hall : s.refCount ≠ 0 ∧ s.valid = vmPageBitsAll ∧ bits ≠ 0
  · obtain ⟨t, hremove, hdirty, hcontents, hvalid, hmapped, hmodified⟩ :
        ∃ t, s.pmapRemoveAll pm = some t ∧
          (∀ i, blockBit t.dirty i = true → blockBit s.valid i = true) ∧ t.contents = s.contents ∧
          t.valid = s.valid ∧ pm.isMapped t.pmap = false ∧ pm.isModified t.pmap = false := by
      by_cases hd : (pm.removeAll s.pmap).2 = true
      · refine ⟨_, (if_pos hd).trans (if_pos hall.2.1), fun i hi => ?_, rfl, rfl,
          hpm.removeAll_mapped _, hpm.removeAll_modified _⟩
        rw [hall.2.1, blockBit.all]
        exact decide_eq_true (blockBit.lt _ hi)
      · exact ⟨_, if_neg hd, hs.dirty, rfl, rfl, hpm.removeAll_mapped _, hpm.removeAll_modified _⟩
    rw [if_pos hall, hremove, Option.bind_some, if_pos (.inr hmapped)]
    exact ⟨_, rfl, hdrop t hdirty hcontents hvalid hmapped hmodified⟩
  · rw [if_neg hall, Option.bind_some]
    rcases hm : pm.isMapped s.pmap with _ | _
    · have hmodified : pm.isModified s.pmap = false := by
        rcases hmod : pm.isModified s.pmap with _ | _
        · rfl
        · rw [hs.modified hmod] at hm
          cases hm
      rw [if_pos (.inr rfl)]
      exact ⟨_, rfl, hdrop s hs.dirty rfl rfl hm hmodified⟩
    · obtain ⟨hv, href⟩ := hs.mapped hm
      have h0 : bits = 0 := by
        by_contra hne
        exact hall ⟨href, hv, hne⟩
      have hkeep : ∀ x : UInt8, x &&& ~~~(0 : UInt8) = x := by
        intro x
        rw [blockBit.eq_iff]
        intro i
        rw [blockBit.andNot, blockBit.zero, Bool.not_false, Bool.and_true]
      subst h0
      rw [if_pos (.inl ⟨rfl, hv⟩), hkeep, hkeep]
      have hself : s.setDirty s.dirty = s := by
        change { s with memory := Function.update s.memory s.dirtyAddr (s.memory s.dirtyAddr) } = s
        rw [Function.update_eq_self]
      exact ⟨s, congrArg some hself, hs⟩

/-- Every operation passes its assertions and keeps the account. -/
theorem Accounted.step (hpm : pm.Lawful) (bigEndian : Bool) (hs : s.Accounted pm) {op : ContentOp X}
    (hop : s.Asked pm op) : ∃ s', s.step pm bigEndian op = some s' ∧ s'.Accounted pm := by
  have hdirtied : s.valid = vmPageBitsAll →
      ∃ s', s.vmPageDirty = some s' ∧ s'.Accounted pm := by
    intro hv
    refine ⟨_, if_pos hv, hs.written, fun i hi => ?_, hs.mapped, hs.modified⟩
    change blockBit s.valid i = true
    rw [hv, blockBit.all]
    exact decide_eq_true (blockBit.lt _ hi)
  have hvalidated : ∀ {base size : Nat} {s' : ContentPage X},
      (∀ j < base + size, base ≤ j → s.contents j ≠ none) → Validated base size s s' →
      (∀ i, blockBit s'.dirty i = true → blockBit s.dirty i = true) →
      (pm.isMapped s'.pmap = true → pm.isMapped s.pmap = true) →
      (pm.isModified s'.pmap = true → pm.isMapped s'.pmap = true) → s'.refCount = s.refCount →
      s'.Accounted pm := by
    intro base size s' hfilled hval hdirty hmapped hmodified href
    refine ⟨fun j hj hb => ?_, fun i hi => ?_, fun h => ?_, hmodified⟩
    · rw [hval.valid] at hb
      rw [hval.contents]
      split
      next => simp
      next hfrag =>
        by_cases hin : base ≤ j ∧ j < base + size
        · exact hfilled j hin.2 hin.1
        · rcases hold : blockBit s.valid (j / devBsize) with _ | _
          · rw [hold, Bool.false_or, decide_eq_true_eq] at hb
            exact absurd ⟨hb.2.2, hold, hb.1, hb.2.1, hin⟩ hfrag
          · exact hs.written j hj hold
    · rw [hval.valid, hs.dirty i (hdirty i hi)]
      rfl
    · obtain ⟨hv, hr⟩ := hs.mapped (hmapped h)
      refine ⟨?_, by rw [href]; exact hr⟩
      rw [blockBit.eq_all_iff] at hv ⊢
      intro i hi
      rw [hval.valid, hv i hi]
      rfl
  cases op with
  | setValidRange base size =>
    obtain ⟨s', hstep, hval, hdirty, hpmap, href⟩ := hs.setValidRange_validated hpm hop.1
    refine ⟨s', hstep, hvalidated hop.2 hval (fun i => ?_) ?_ ?_ href⟩
    · rw [hdirty]
      exact id
    · rw [hpmap]
      exact id
    · rw [hpmap]
      exact hs.modified
  | setValidclean base size =>
    obtain ⟨s', hstep, hval, hdirty, hpmap, href⟩ :=
      setValidclean_validated hpm bigEndian hop.1 s
    refine ⟨s', hstep, hvalidated hop.2 hval (fun i => ?_) ?_ ?_ href⟩
    · rw [hdirty, Bool.and_eq_true]
      exact fun h => h.1
    · rw [hpmap]
      split
      next =>
        rw [hpm.clearModify_mapped]
        exact id
      next => exact id
    · rw [hpmap]
      split
      next =>
        rw [hpm.clearModify_modified]
        simp
      next => exact hs.modified
  | clearDirty base size =>
    obtain ⟨bits, hbits, -⟩ := vmPageBits_block hop
    refine ⟨s.setDirty (s.dirty &&& ~~~bits), ?_, hs.written, fun i hi => ?_, hs.mapped,
      hs.modified⟩
    · change (vmPageBits base size).map _ = _
      rw [hbits, Option.map_some, clearDirtyMask_eq]
    · rw [setDirty_dirty, blockBit.andNot, Bool.and_eq_true] at hi
      exact hs.dirty i hi.1
  | setInvalid base size => exact hs.setInvalid hpm hop
  | zeroInvalid setvalid =>
    obtain ⟨hcontents, hvalid⟩ := zeroInvalid_eq hpm s setvalid
    refine ⟨_, rfl, fun j hj _ => ?_, fun i hi => ?_, fun h => ?_, hs.modified⟩
    · rw [hcontents]
      split
      next => simp
      next hb =>
        refine hs.written j hj ?_
        rw [← Bool.not_eq_false]
        exact fun h => hb ⟨hj, h⟩
    · rw [hvalid]
      split
      next =>
        rw [blockBit.all]
        exact decide_eq_true (blockBit.lt _ hi)
      next => exact hs.dirty i hi
    · obtain ⟨hv, href⟩ := hs.mapped h
      refine ⟨?_, href⟩
      rw [hvalid]
      split
      next => rfl
      next => exact hv
  | testDirty =>
    change ∃ s', (if s.dirty ≠ vmPageBitsAll ∧ pm.isModified s.pmap = true then s.vmPageDirty
      else some s) = some s' ∧ _
    split
    next h => exact hdirtied (hs.mapped (hs.modified h.2)).1
    next => exact ⟨s, rfl, hs⟩
  | dirty => exact hdirtied hop
  | fill base data =>
    refine ⟨_, rfl, fun j hj hb => ?_, hs.dirty, hs.mapped, hs.modified⟩
    change (if base ≤ j ∧ j < base + data.length then data[j - base]? else s.contents j) ≠ none
    split
    next hin =>
      rw [ne_eq, List.getElem?_eq_none_iff]
      omega
    next => exact hs.written j hj hb
  | use pmap writes =>
    refine ⟨_, rfl, fun j hj hb => ?_, hs.dirty, hop.1, hop.2⟩
    change (writes j).or (s.contents j) ≠ none
    rw [ne_eq, Option.or_eq_none_iff]
    exact fun h => hs.written j hj hb h.2
  | outside xbusied nosync pindex vnode vnpSize refCount =>
    exact ⟨_, rfl, hs.written, hs.dirty, fun h => ⟨(hs.mapped h).1, hop h⟩, hs.modified⟩

theorem Fresh.accounted (h : s.Fresh pm) : s.Accounted pm := by
  refine ⟨fun j _ hb => ?_, fun i hi => ?_, fun hm => ?_, fun hm => ?_⟩
  · rw [h.valid, blockBit.zero] at hb
    cases hb
  · rw [h.dirty, blockBit.zero] at hi
    cases hi
  · rw [h.mapped] at hm
    cases hm
  · rw [h.modified] at hm
    cases hm

theorem Run.accounted {s₀ : ContentPage X} {h : List (ContentOp X × Unit)} (hpm : pm.Lawful)
    (h₀ : s₀.Fresh pm) (hr : Run pm bigEndian s₀ h s) : s.Accounted pm := by
  refine GuardedRun.invariant (P := fun _ s => Accounted pm s) h₀.accounted ?_ hr
  intro h s op s' r _ hs hop hstep
  obtain ⟨s₁, hstep₁, hs₁⟩ := hs.step hpm bigEndian hop
  rw [hstep₁] at hstep
  obtain ⟨rfl, -⟩ := by simpa using hstep
  exact hs₁

section

variable {s₀ : ContentPage X} {h : List (ContentOp X × Unit)}

/-- In every run what the valid bits cover has been written, what is dirty is valid, what is
mapped is valid all over, and no assertion fails. -/
theorem valid_written (hpm : pm.Lawful) (h₀ : s₀.Fresh pm) (hr : Run pm bigEndian s₀ h s) :
    (∀ j < pageSize, blockBit s.valid (j / devBsize) = true → s.contents j ≠ none) ∧
      (∀ i, blockBit s.dirty i = true → blockBit s.valid i = true) ∧
      (pm.isMapped s.pmap = true → s.valid = vmPageBitsAll) ∧
      ∀ op, s.Asked pm op → (s.step pm bigEndian op).isSome = true := by
  have hs := hr.accounted hpm h₀
  refine ⟨hs.written, hs.dirty, fun hm => (hs.mapped hm).1, fun op hop => ?_⟩
  obtain ⟨s', hstep, -⟩ := hs.step hpm bigEndian hop
  rw [hstep]
  rfl

/-- Both functions that make a range valid zero the rest of the invalid blocks it meets and no
other byte, and make those blocks valid and no other. -/
theorem range_validated (hpm : pm.Lawful) (h₀ : s₀.Fresh pm) (hr : Run pm bigEndian s₀ h s)
    (hsize : base + size ≤ pageSize) :
    (∃ s', s.vmPageSetValidRange pm base size = some s' ∧ Validated base size s s' ∧
      s'.dirty = s.dirty) ∧
    ∃ s', s.vmPageSetValidclean pm bigEndian base size = some s' ∧ Validated base size s s' ∧
      (∀ i, blockBit s'.dirty i = (blockBit s.dirty i && !decide (Meets base size i))) ∧
      s'.pmap = if base = 0 ∧ size = pageSize ∧ s.valid = vmPageBitsAll then
        pm.clearModify s.pmap else s.pmap := by
  obtain ⟨s₁, hstep₁, hval₁, hdirty₁, -⟩ :=
    (hr.accounted hpm h₀).setValidRange_validated hpm hsize
  obtain ⟨s₂, hstep₂, hval₂, hdirty₂, hpmap₂, -⟩ := setValidclean_validated hpm bigEndian hsize s
  exact ⟨⟨s₁, hstep₁, hval₁, hdirty₁⟩, s₂, hstep₂, hval₂, hdirty₂, hpmap₂⟩

/-- The scan for runs of invalid blocks leaves no byte of the page unwritten and touches none of a
valid block. -/
theorem zero_invalid_writes (hpm : pm.Lawful) (h₀ : s₀.Fresh pm) (hr : Run pm bigEndian s₀ h s)
    (setvalid : Bool) {j : Nat} (hj : j < pageSize) :
    (s.vmPageZeroInvalid pm setvalid).contents j ≠ none ∧
      (s.vmPageZeroInvalid pm setvalid).contents j =
        if blockBit s.valid (j / devBsize) = true then s.contents j else some 0 := by
  have hs := hr.accounted hpm h₀
  have hexact : (s.vmPageZeroInvalid pm setvalid).contents j =
      if blockBit s.valid (j / devBsize) = true then s.contents j else some 0 := by
    rw [(zeroInvalid_eq hpm s setvalid).1 j]
    rcases blockBit s.valid (j / devBsize) with _ | _ <;> simp [hj]
  refine ⟨?_, hexact⟩
  rw [hexact]
  split
  next hv => exact hs.written j hj hv
  next => simp

/-- Whichever way it takes, for a page busy or mapped or neither, `vm_page_clear_dirty_mask`
changes the bits it is given of the byte `dirty`, and no byte beside it. -/
theorem clear_dirty_mask_exact (pm : Pmap X) (bigEndian : Bool) (s : ContentPage X)
    (pagebits : UInt8) (a : Nat) :
    (s.vmPageClearDirtyMask pm bigEndian pagebits).memory a =
      if a = s.dirtyAddr then s.memory a &&& ~~~pagebits else s.memory a := by
  rw [clearDirtyMask_eq]
  change Function.update s.memory s.dirtyAddr (s.memory s.dirtyAddr &&& ~~~pagebits) a = _
  split
  next ha => rw [ha, Function.update_self]
  next ha => exact Function.update_of_ne ha ..

end

/-- Mappings as two flags: whether there is one, and whether it was modified. -/
def flagPmap : Pmap (Bool × Bool) where
  zeroPageArea c off size := fun j => if off ≤ j ∧ j < off + size then some 0 else c j
  isMapped x := x.1
  isWriteMapped x := x.1
  isModified x := x.2
  clearModify x := (x.1, false)
  removeAll x := ((false, false), x.2)

theorem flagPmap_lawful : flagPmap.Lawful :=
  ⟨fun _ _ _ => rfl, fun _ => rfl, fun _ => rfl, fun _ => rfl, fun _ => rfl⟩

def blankPage : ContentPage (Bool × Bool) where
  contents _ := none
  valid := 0
  memory _ := 0
  dirtyAddr := 2
  nosync := false
  xbusied := true
  pindex := 0
  vnode := true
  vnpSize := 600
  refCount := 1
  pmap := (false, false)

theorem blankPage_fresh : blankPage.Fresh flagPmap := ⟨rfl, rfl, rfl, rfl⟩

theorem run_of_replay (pm : Pmap X) (bigEndian : Bool) (s₀ : ContentPage X) (ops : List (ContentOp X))
    (check : List (ContentOp X × Unit) → ContentPage X → Bool)
    (hp : (GuardedRun.replay (fun s op => (ContentPage.step pm bigEndian s op).map (·, ()))
      (fun _ => Asked pm) [] s₀ ops).any (fun r => check r.1 r.2) = true) :
    ∃ h s, Run pm bigEndian s₀ h s ∧ check h s = true :=
  GuardedRun.exists_of_replay hp

/-- A page with the three bytes of a short file, the rest of it zeroed, mapped and modified. -/
theorem exists_filled : ∃ h s, Run flagPmap false blankPage h s ∧
    s.valid = vmPageBitsAll ∧ s.pmap = (true, true) := by
  obtain ⟨h, s, hr, hc⟩ := run_of_replay flagPmap false blankPage
    [.fill 0 [7, 8, 9], .setValidclean 0 3, .zeroInvalid true, .use (true, true) fun _ => none]
    (fun _ s => s.valid = vmPageBitsAll ∧ s.pmap = (true, true)) (by decide +kernel)
  exact ⟨h, s, hr, of_decide_eq_true hc⟩

theorem valid_written_filled : ∃ s : ContentPage (Bool × Bool), s.pmap = (true, true) ∧
    (∀ j < pageSize, blockBit s.valid (j / devBsize) = true → s.contents j ≠ none) ∧
    s.valid = vmPageBitsAll := by
  obtain ⟨h, s, hr, -, hp⟩ := exists_filled
  obtain ⟨hwritten, -, hmapped, -⟩ := valid_written flagPmap_lawful blankPage_fresh hr
  refine ⟨s, hp, hwritten, hmapped ?_⟩
  rw [hp]
  rfl

/-- Blocks 0 and 2 of a page are valid when a device leaves two bytes in the middle of block 1. -/
theorem exists_partial : ∃ h s, Run flagPmap false blankPage h s ∧ s.valid = 5 ∧
    s.contents 1 = some 8 ∧ s.contents 550 = none ∧ s.contents 600 = some 5 ∧
    s.contents 1024 = some 6 := by
  obtain ⟨h, s, hr, hc⟩ := run_of_replay flagPmap false blankPage
    [.fill 0 [7, 8, 9], .setValidclean 0 3, .fill 1024 [6], .setValidRange 1024 1, .fill 600 [5, 4]]
    (fun _ s => s.valid = 5 ∧ s.contents 1 = some 8 ∧ s.contents 550 = none ∧
      s.contents 600 = some 5 ∧ s.contents 1024 = some 6) (by decide +kernel)
  exact ⟨h, s, hr, of_decide_eq_true hc⟩

/-- Making the two bytes valid zeroes the rest of their block and leaves the blocks beside it. -/
theorem range_validated_partial : ∃ s s' : ContentPage (Bool × Bool), s.contents 550 = none ∧
    s.vmPageSetValidRange flagPmap 600 2 = some s' ∧ s'.contents 550 = some 0 ∧
    s'.contents 600 = some 5 ∧ s'.contents 1024 = some 6 ∧
    ∀ i, blockBit s'.valid i = (blockBit 5 i || decide (Meets 600 2 i)) := by
  obtain ⟨h, s, hr, hv, -, h550, h600, h1024⟩ := exists_partial
  have hsize : 600 + 2 ≤ pageSize := by decide
  obtain ⟨⟨s', hstep, hval, -⟩, -⟩ := range_validated flagPmap_lawful blankPage_fresh hr hsize
  have hat : ∀ j x, s.contents j = x → ¬s.Fragment 600 2 j → s'.contents j = x := by
    intro j x hx hout
    rw [hval.contents, if_neg fun hc => hout hc.2, hx]
  have hin : s.Fragment 600 2 550 := by rw [Fragment, hv]; decide
  refine ⟨s, s', h550, hstep, ?_, hat 600 _ h600 ?_, hat 1024 _ h1024 ?_, fun i => ?_⟩
  · rw [hval.contents, if_pos ⟨by decide, hin⟩]
  · rw [Fragment, hv]
    decide
  · rw [Fragment, hv]
    decide
  · rw [hval.valid, hv]

/-- Byte 550 lies in a run of one invalid block, byte 3000 in one of five. -/
theorem zero_invalid_writes_partial : ∃ s : ContentPage (Bool × Bool), s.valid = 5 ∧
    s.contents 550 = none ∧ (s.vmPageZeroInvalid flagPmap true).contents 550 = some 0 ∧
    (s.vmPageZeroInvalid flagPmap true).contents 3000 = some 0 ∧
    (s.vmPageZeroInvalid flagPmap true).contents 1 = some 8 ∧
    (s.vmPageZeroInvalid flagPmap true).contents 1024 = some 6 := by
  obtain ⟨h, s, hr, hv, h1, h550, -, h1024⟩ := exists_partial
  have hexact : ∀ j < pageSize, (s.vmPageZeroInvalid flagPmap true).contents j =
      if blockBit 5 (j / devBsize) = true then s.contents j else some 0 := by
    intro j hj
    rw [← hv]
    exact (zero_invalid_writes flagPmap_lawful blankPage_fresh hr true hj).2
  refine ⟨s, hv, h550, ?_, ?_, ?_, ?_⟩
  · exact (hexact 550 (by decide)).trans (if_neg (by decide))
  · exact (hexact 3000 (by decide)).trans (if_neg (by decide))
  · exact ((hexact 1 (by decide)).trans (if_pos (by decide))).trans h1
  · exact ((hexact 1024 (by decide)).trans (if_pos (by decide))).trans h1024

end ContentPage

end FreeBSDEdits
