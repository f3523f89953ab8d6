import FreeBSDEdits.SchedTimes

namespace FreeBSDEdits

theorem bmod_of_range {x : Int} (h0 : -2147483648 ≤ x) (h1 : x < 2147483648) :
    x.bmod 4294967296 = x := by
  rw [Int.bmod_def]
  omega

theorem toNat_toUInt32_eq (x : Int32) : (x.toUInt32.toNat : Int) = x.toInt % 4294967296 := by
  rw [← Int32.toInt_toBitVec, ← UInt32.toNat_toBitVec, Int32.toBitVec_toUInt32,
    BitVec.toInt_eq_toNat_bmod, Int.bmod_def]
  omega

theorem shiftLeft_ten (x : Int32) :
    (x <<< (10 : Int32)).toInt = (x.toInt * 1024).bmod 4294967296 := by
  have h10 : (10 : Int32).toBitVec.smod 32 = 10#32 := by decide
  rw [← Int32.toInt_toBitVec, ← Int32.toInt_toBitVec, Int32.toBitVec_shiftLeft, h10,
    BitVec.shiftLeft_eq', BitVec.toInt_shiftLeft, BitVec.toInt_eq_toNat_bmod, Int.bmod_mul_bmod,
    Nat.shiftLeft_eq]
  rfl

theorem intDiv_of_pos {a b : Int32} (hb : 0 < b.toInt) : intDiv a b = some (a / b) := by
  have h0 : b ≠ 0 := by
    rintro rfl
    simp at hb
  have h1 : b ≠ -1 := by
    rintro rfl
    exact absurd hb (by decide)
  simp [intDiv, h0, h1]

namespace Clock

variable (K : Clock)

theorem targ_toInt : (Int32.ofNat K.tickTarg).toInt = K.tickTarg := by
  have := K.hz_le
  exact Int32.toInt_ofNat_of_lt (by unfold tickTarg; omega)

theorem tickMax_toInt : (Int32.ofNat K.tickMax).toInt = K.tickMax := by
  have := K.hz_le
  exact Int32.toInt_ofNat_of_lt (by unfold tickMax tickTarg; omega)

end Clock

namespace TdSched

/-- The number of ticks between the first and the last tick recorded. -/
def window (ts : TdSched) : Int := (ts.ltick - ts.ftick).toInt

/-- The window has not been closed back over its start. -/
structure Recorded (K : Clock) (ts : TdSched) : Prop where
  nonneg : 0 ≤ ts.window
  short : ts.window < K.tickMax

/-- No more time is charged than was recorded. -/
structure Charged (K : Clock) (ts : TdSched) : Prop extends Recorded K ts where
  ticks_nonneg : 0 ≤ ts.ticks.toInt
  ticks_le : ts.ticks.toInt ≤ 1024 * ts.window

/-- The ticks since the last update. -/
def elapsed (t : Int32) (ts : TdSched) : Nat := (t - ts.ltick).toUInt32.toNat

variable {K : Clock} {ts ts' : TdSched} {t : Int32} {run : Bool}

theorem elapsed_toInt (h : elapsed t ts < K.tickTarg) : (t - ts.ltick).toInt = elapsed t ts := by
  have hk : K.tickTarg < 2147483648 := by
    have := K.hz_le
    unfold Clock.tickTarg
    omega
  have he : (elapsed t ts : Int) = (t - ts.ltick).toInt % 4294967296 := toNat_toUInt32_eq _
  have hl := (t - ts.ltick).le_toInt
  have hu := (t - ts.ltick).toInt_lt
  omega

theorem since_first (hr : Recorded K ts) (h : elapsed t ts < K.tickTarg) :
    (t - ts.ftick).toInt = elapsed t ts + ts.window := by
  have hsplit : t - ts.ftick = (t - ts.ltick) + (ts.ltick - ts.ftick) := by grind
  have hk := K.hz_le
  obtain ⟨hn, hs⟩ := hr
  unfold window Clock.tickMax Clock.tickTarg at *
  rw [hsplit, Int32.toInt_add, elapsed_toInt h]
  exact bmod_of_range (by omega) (by omega)

/-- The window starts SCHED_TICK_TARG ticks ago. -/
theorem window_restarted (t : Int32) (ts : TdSched) :
    window { ts with ltick := t, ftick := t - .ofNat K.tickTarg } = K.tickTarg := by
  have h : t - (t - .ofNat K.tickTarg) = Int32.ofNat K.tickTarg := by grind
  simp only [window, h, K.targ_toInt]

/-- How much of the last window the new one still covers. -/
theorem covered (h : elapsed t ts < K.tickTarg) :
    (ts.ltick - (t - .ofNat K.tickTarg)).toInt = K.tickTarg - elapsed t ts := by
  have hsplit : ts.ltick - (t - .ofNat K.tickTarg) = .ofNat K.tickTarg - (t - ts.ltick) := by grind
  have hk := K.hz_le
  rw [hsplit, Int32.toInt_sub, K.targ_toInt, elapsed_toInt h]
  unfold Clock.tickTarg at *
  exact bmod_of_range (by omega) (by omega)

/-- What an update may do. -/
inductive Updates (K : Clock) (t : Int32) (ts : TdSched) : TdSched → Prop
  /-- nothing was recorded for SCHED_TICK_TARG ticks -/
  | forget : K.tickTarg ≤ elapsed t ts →
      Updates K t ts { ts with ticks := 0, ftick := t - .ofNat K.tickTarg }
  | scale : elapsed t ts < K.tickTarg → K.tickMax ≤ elapsed t ts + ts.window →
      Updates K t ts { ts with
        ticks := ts.ticks / (ts.ltick - ts.ftick) * (ts.ltick - (t - .ofNat K.tickTarg))
        ftick := t - .ofNat K.tickTarg }
  | keep : elapsed t ts < K.tickTarg → elapsed t ts + ts.window < K.tickMax → Updates K t ts ts

/-- SCHED_TICK_TARG ticks cannot outrun a full window, so the division is never by zero. -/
theorem pctcpuUpdate_cases (t : Int32) (run : Bool) (hr : Recorded K ts) :
    ∃ ts₁, Updates K t ts ts₁ ∧ schedPctcpuUpdate K t ts run = some
      { ts₁ with
        ticks := if run then ts₁.ticks + (t - ts.ltick) <<< 10 else ts₁.ticks
        ltick := t } := by
  have hrun : ∀ ts₁ : TdSched, ts₁.ltick = ts.ltick →
      ((fun ts : TdSched =>
        let ts := if run then { ts with ticks := ts.ticks + (t - ts.ltick) <<< 10 } else ts
        ({ ts with ltick := t } : TdSched)) ts₁) = { ts₁ with
          ticks := if run then ts₁.ticks + (t - ts.ltick) <<< 10 else ts₁.ticks, ltick := t } := by
    intro ts₁ h₁
    cases run <;> simp [h₁]
  unfold schedPctcpuUpdate
  split
  next h => exact ⟨_, .forget h, congrArg some (hrun _ rfl)⟩
  next h =>
    have he : elapsed t ts < K.tickTarg := Nat.not_le.mp h
    split
    next hm =>
      rw [Int32.le_iff_toInt_le, K.tickMax_toInt, since_first hr he] at hm
      have hw : 0 < ts.window := by
        unfold Clock.tickMax at hm
        have := K.one_lt_hz
        omega
      rw [intDiv_of_pos hw]
      exact ⟨_, .scale he hm, congrArg some (hrun _ rfl)⟩
    next hm =>
      rw [Int32.le_iff_toInt_le, K.tickMax_toInt, since_first hr he] at hm
      exact ⟨_, .keep he (by omega), congrArg some (hrun _ rfl)⟩

theorem Updates.recorded (hr : Recorded K ts) (hu : Updates K t ts ts') (n : Int32) :
    Recorded K { ts' with ticks := n, ltick := t } := by
  have hk := K.one_lt_hz
  have hfull : ∀ n : Int32,
      Recorded K { ts with ticks := n, ltick := t, ftick := t - .ofNat K.tickTarg } := by
    intro n
    have hw : TdSched.window { ts with ticks := n, ltick := t, ftick := t - .ofNat K.tickTarg } =
        K.tickTarg := window_restarted t { ts with ticks := n }
    constructor
    · rw [hw]
      omega
    · rw [hw]
      unfold Clock.tickMax
      omega
  cases hu with
  | forget => exact hfull n
  | scale => exact hfull n
  | keep he hw =>
    have h : TdSched.window { ts with ticks := n, ltick := t } = elapsed t ts + ts.window :=
      since_first hr he
    obtain ⟨hn, hs⟩ := hr
    constructor <;> rw [h] <;> omega

theorem ticks_add (he : elapsed t ts < K.tickTarg) {a b : Int} {x : Int32} (hx : x.toInt = a)
    (ha : 0 ≤ a) (hab : a ≤ 1024 * b) (hb : b + elapsed t ts < K.tickMax) :
    (x + (t - ts.ltick) <<< 10).toInt = a + 1024 * elapsed t ts := by
  have hk := K.hz_le
  unfold Clock.tickMax Clock.tickTarg at *
  rw [Int32.toInt_add, shiftLeft_ten, elapsed_toInt (K := K) he, hx,
    bmod_of_range (x := elapsed t ts * 1024) (by omega) (by omega)]
  rw [bmod_of_range (by omega) (by omega)]
  omega

/-- What is left of the charge is no more than what is left of the window. -/
theorem share_mul {n w c : Int} (hn : 0 ≤ n) (hle : n ≤ 1024 * w) (hw : 0 < w) (hc : 0 ≤ c) :
    0 ≤ n.tdiv w * c ∧ n.tdiv w * c ≤ 1024 * c := by
  have h0 : 0 ≤ n.tdiv w := Int.tdiv_nonneg hn (Int.le_of_lt hw)
  have h1 : n.tdiv w ≤ 1024 := by
    rw [Int.tdiv_eq_ediv_of_nonneg hn]
    exact Int.ediv_le_of_le_mul hw hle
  exact ⟨Int.mul_nonneg h0 hc, Int.mul_le_mul_of_nonneg_right h1 hc⟩

theorem share_toInt (hc : Charged K ts) (hw : 0 < ts.window) (he : elapsed t ts < K.tickTarg) :
    (ts.ticks / (ts.ltick - ts.ftick) * (ts.ltick - (t - .ofNat K.tickTarg))).toInt =
      ts.ticks.toInt.tdiv ts.window * (K.tickTarg - elapsed t ts) := by
  have hk := K.hz_le
  have hmul := share_mul hc.ticks_nonneg hc.ticks_le hw
    (show (0 : Int) ≤ K.tickTarg - elapsed t ts by omega)
  have hmin : ts.ticks ≠ Int32.minValue := by
    intro h
    have := hc.ticks_nonneg
    rw [h] at this
    exact absurd this (by decide)
  rw [Int32.toInt_mul, covered he, Int32.toInt_div_of_ne_left _ _ hmin]
  unfold Clock.tickTarg at *
  exact bmod_of_range (by unfold window at hmul; omega) (by unfold window at hmul; omega)

/-- The charge kept is covered by the part of the new window that was already recorded. -/
theorem Updates.covered (hc : Charged K ts) (hu : Updates K t ts ts')
    (he : elapsed t ts < K.tickTarg) (n : Int32) :
    ∃ b : Int, 0 ≤ ts'.ticks.toInt ∧ ts'.ticks.toInt ≤ 1024 * b ∧ b + elapsed t ts < K.tickMax ∧
      TdSched.window { ts' with ticks := n, ltick := t } = b + elapsed t ts := by
  have hk := K.one_lt_hz
  cases hu with
  | forget hf => omega
  | scale _ hm =>
    have hw : 0 < ts.window := by
      unfold Clock.tickMax at hm
      omega
    have hmul := share_mul hc.ticks_nonneg hc.ticks_le hw
      (show (0 : Int) ≤ K.tickTarg - elapsed t ts by omega)
    rw [← share_toInt hc hw he] at hmul
    refine ⟨K.tickTarg - elapsed t ts, hmul.1, hmul.2, ?_, ?_⟩
    · unfold Clock.tickMax
      omega
    · have := window_restarted (K := K) t { ts with ticks := n }
      simp only [window] at this ⊢
      omega
  | keep _ hm =>
    have h : TdSched.window { ts with ticks := n, ltick := t } = elapsed t ts + ts.window :=
      since_first hc.toRecorded he
    exact ⟨ts.window, hc.ticks_nonneg, hc.ticks_le, by omega, by omega⟩

theorem Updates.charged (hc : Charged K ts) (hu : Updates K t ts ts')
    (hrun : run = true → elapsed t ts < K.tickTarg) :
    Charged K { ts' with
      ticks := if run then ts'.ticks + (t - ts.ltick) <<< 10 else ts'.ticks, ltick := t } := by
  have hr := hu.recorded hc.toRecorded
  by_cases he : elapsed t ts < K.tickTarg
  · obtain ⟨b, h0, hle, hb, hw⟩ := hu.covered hc he
      (if run then ts'.ticks + (t - ts.ltick) <<< 10 else ts'.ticks)
    have hadd := ticks_add he rfl h0 hle hb
    refine { toRecorded := hr _, ticks_nonneg := ?_, ticks_le := ?_ }
    · cases run
      next => simpa using h0
      next =>
        simp only [if_true]
        omega
    · rw [hw]
      cases run
      next =>
        simp only [Bool.false_eq_true, if_false]
        omega
      next =>
        simp only [if_true]
        omega
  · have hno : run = false := by
      cases run
      next => rfl
      next => exact absurd (hrun rfl) he
    subst hno
    cases hu with
    | forget =>
      refine { toRecorded := hr _, ticks_nonneg := Int.le_refl 0, ticks_le := ?_ }
      exact Int.mul_nonneg (by decide) (hr _).nonneg
    | scale h => exact absurd h he
    | keep h => exact absurd h he

end TdSched

/-- The nice values fit the outer thirds of the batch range. -/
structure Priorities.Fits (R : Priorities) : Prop where
  prioMin : -(R.nhalf : Int) ≤ R.prioMin
  prioMax : R.prioMax ≤ R.nhalf
  interact : 0 < R.interactRange
  batch : R.minBatch + 2 * R.nhalf ≤ R.maxBatch

theorem amd64_fits : amd64Priorities.Fits := by
  constructor <;> decide

section

variable {R : Priorities} {K : Clock} {interact : Int}

theorem uMax_toNat (a b : UInt32) : (uMax a b).toNat = max a.toNat b.toNat := by
  unfold uMax
  split
  next h =>
    rw [UInt32.lt_iff_toNat_lt] at h
    omega
  next h =>
    rw [UInt32.lt_iff_toNat_lt] at h
    omega

theorem uMin_le_right (a b : UInt32) : (uMin a b).toNat ≤ b.toNat := by
  unfold uMin
  split
  next h => exact Nat.le_of_lt (UInt32.lt_iff_toNat_lt.mp h)
  next => exact Nat.le_refl _

theorem Priorities.schedPriRange_le (R : Priorities) : R.schedPriRange ≤ 256 := by
  have := R.idle_le
  unfold schedPriRange schedPriMax maxBatch
  omega

theorem TdSched.tickTotal_range {ts : TdSched} (hr : ts.Recorded K) :
    1 < (ts.tickTotal K).toNat ∧ (ts.tickTotal K).toNat < 2147483648 := by
  have hk := K.one_lt_hz
  have hk' := K.hz_le
  obtain ⟨hn, hs⟩ := hr
  have hw : ((ts.ltick - ts.ftick).toUInt32.toNat : Int) = ts.window % 4294967296 :=
    toNat_toUInt32_eq _
  have hz : (UInt32.ofNat K.hz).toNat = K.hz := Nat.mod_eq_of_lt (by omega)
  unfold tickTotal
  unfold Clock.tickMax Clock.tickTarg at hs
  rw [uMax_toNat, hz]
  omega

/-- The total is at least one tick, so it makes at least one step of the range. -/
theorem roundup_div_ne_zero {x y : UInt32} (hy : 0 < y.toNat) (hy' : y.toNat ≤ 256)
    (hx : 0 < x.toNat) (hx' : x.toNat < 2147483648) : roundup x y / y ≠ 0 := by
  have h1 : (y - 1).toNat = y.toNat - 1 := by
    have h : (1 : UInt32) ≤ y := UInt32.le_iff_toNat_le.mpr hy
    rw [UInt32.toNat_sub_of_le _ _ h]
    rfl
  have h2 : (x + (y - 1)).toNat = x.toNat + (y.toNat - 1) := by
    rw [UInt32.toNat_add, h1]
    omega
  have h3 : (x.toNat + (y.toNat - 1)) / y.toNat * y.toNat ≤ x.toNat + (y.toNat - 1) :=
    Nat.div_mul_le_self _ _
  have h4 : 0 < (x.toNat + (y.toNat - 1)) / y.toNat := Nat.div_pos (by omega) hy
  intro h
  have h5 := congrArg UInt32.toNat h
  unfold roundup at h5
  rw [UInt32.toNat_div, UInt32.toNat_mul, UInt32.toNat_div, h2, Nat.mod_eq_of_lt (by omega),
    Nat.mul_div_cancel _ hy] at h5
  exact absurd h5 (Nat.ne_of_gt h4)

theorem TdSched.priTicks_isSome {ts : TdSched} (hr : ts.Recorded K) :
    ∃ n, ts.priTicks R K = some n := by
  obtain ⟨h1, h2⟩ := tickTotal_range hr
  have hle := R.schedPriRange_le
  have hrange : (UInt32.ofNat R.schedPriRange).toNat = R.schedPriRange :=
    Nat.mod_eq_of_lt (by omega)
  have hpos : 0 < R.schedPriRange := Nat.succ_pos _
  unfold priTicks
  rw [if_neg (roundup_div_ne_zero (by omega) (by omega) (by omega) h2)]
  exact ⟨_, rfl⟩

theorem interactive_range {a i score : Int} (ha : 0 < a) (hs : 0 ≤ score) (hi : score < i) :
    0 ≤ a.tdiv i * score ∧ a.tdiv i * score < a := by
  have hpos : 0 < i := by omega
  rw [Int.tdiv_eq_ediv_of_nonneg (Int.le_of_lt ha)]
  have hq : 0 ≤ a / i := Int.ediv_nonneg (Int.le_of_lt ha) (Int.le_of_lt hpos)
  refine ⟨Int.mul_nonneg hq hs, ?_⟩
  by_cases h0 : a / i = 0
  · rw [h0]
    omega
  · have h1 : a / i * score ≤ a / i * (i - 1) := Int.mul_le_mul_of_nonneg_left (by omega) hq
    have h2 : a / i * i ≤ a := Int.ediv_mul_le a (Int.ne_of_gt hpos)
    have h3 : a / i * (i - 1) = a / i * i - a / i := by rw [Int.mul_sub, Int.mul_one]
    omega

theorem computedPri_range (interact : Int) (hR : R.Fits) {t : SchedThread}
    (hr : t.sched.Recorded K)
    (hmin : R.prioMin ≤ t.nice.toInt) (hmax : t.nice.toInt ≤ R.prioMax) :
    ∃ pri, computedPri R K interact t = some pri ∧ R.minTimeshare ≤ pri ∧ pri ≤ R.maxTimeshare := by
  have hbatch : R.minBatch = R.minTimeshare + R.interactRange := rfl
  have hmaxb : R.maxBatch = R.maxTimeshare := rfl
  have hfit := hR.batch
  unfold computedPri
  dsimp only
  split
  next hlt =>
    have hend : (R.endInteract - R.minInteract : Int) = R.interactRange := by
      unfold Priorities.endInteract Priorities.minInteract
      omega
    have hint := interactive_range (a := R.interactRange) (by have := hR.interact; omega)
      (Int.le_max_left 0 _) hlt
    rw [hend, if_pos (by unfold Priorities.endInteract Priorities.minInteract; omega)]
    refine ⟨_, rfl, ?_, ?_⟩
    · unfold Priorities.minInteract
      omega
    · unfold Priorities.minInteract
      omega
  next =>
    obtain ⟨n, hn, hle⟩ : ∃ n : UInt32, (if t.sched.ticks ≠ 0 then
        (t.sched.priTicks R K).map fun n => uMin n (.ofNat (R.schedPriRange - 1))
        else some 0) = some n ∧ n.toNat ≤ R.schedPriRange - 1 := by
      split
      next =>
        obtain ⟨n, hn⟩ := TdSched.priTicks_isSome (R := R) hr
        refine ⟨_, by rw [hn]; rfl, Nat.le_trans (uMin_le_right _ _) ?_⟩
        exact Nat.mod_le _ _
      next => exact ⟨0, rfl, Nat.zero_le _⟩
    have hrange : R.schedPriMin + (R.schedPriRange - 1) = R.maxBatch - R.nhalf := by
      unfold Priorities.schedPriRange Priorities.schedPriMax Priorities.schedPriMin
      omega
    have hpmin : R.schedPriMin = R.minBatch + R.nhalf := rfl
    have h1 := hR.prioMin
    have h2 := hR.prioMax
    rw [hn, Option.bind_some, if_pos (by omega)]
    exact ⟨_, rfl, by omega, by omega⟩

end

end FreeBSDEdits
