import FreeBSDEdits.SchedTimesSafe

namespace FreeBSDEdits

/-- The sleep time and the run time of a thread together. -/
def TdSched.history (ts : TdSched) : Nat := ts.runtime.toNat + ts.slptime.toNat

/-- A thread that wakes up has not slept for so long that its sleep time overflows a u_int. -/
def TimeOp.WakesInTime (K : Clock) (s : SchedTimes) : TimeOp → Prop
  | .wakeup td => ∀ t ∈ s.thread td, t.slptick ≠ 0 →
      ((s.ticks - t.slptick) <<< 10).toUInt32.toNat + K.slpRunMax + 1 < 4294967296
  | _ => True

instance TimeOp.decidableWakesInTime (K : Clock) (s : SchedTimes) (op : TimeOp) :
    Decidable (op.WakesInTime K s) := by
  rcases op <;> unfold TimeOp.WakesInTime <;> infer_instance

def wakesInTime (K : Clock) (_ : List (TimeOp × Unit)) (s : SchedTimes) (op : TimeOp) : Prop :=
  op.WakesInTime K s

instance decidableWakesInTime (K : Clock) (h : List (TimeOp × Unit)) (s : SchedTimes)
    (op : TimeOp) :
    Decidable (wakesInTime K h s op) :=
  inferInstanceAs (Decidable (op.WakesInTime K s))

theorem ratio_le {a b : Nat} (h : a < b) : a / max 1 (b / 50) ≤ 98 := by
  by_cases hq : b / 50 = 0
  · rw [hq]
    simp
    omega
  · rw [Nat.max_eq_right (by omega)]
    have hlt : a < 99 * (b / 50) := by omega
    exact Nat.le_of_lt_succ (Nat.div_lt_of_lt_mul (by rwa [Nat.mul_comm] at hlt))

theorem scoreRatio_toNat {a b : UInt32} (h : a < b) :
    (a / uMax 1 (b / 50)).toNat ≤ 98 := by
  rw [UInt32.toNat_div, uMax_toNat, UInt32.toNat_div]
  exact ratio_le (UInt32.lt_iff_toNat_lt.mp h)

theorem toInt_toInt32 {x : UInt32} (h : x.toNat < 2147483648) : x.toInt32.toInt = x.toNat := by
  rw [← Int32.toInt_toBitVec, UInt32.toBitVec_toInt32, BitVec.toInt_eq_toNat_of_lt]
  · rfl
  · rw [UInt32.toNat_toBitVec]
    omega

/-- The score is scaled to [0, 100], as the comment above the function says. -/
theorem interactScore_range (interact : Int) (ts : TdSched) :
    0 ≤ schedInteractScore interact ts ∧ schedInteractScore interact ts ≤ 100 := by
  unfold schedInteractScore
  split
  next => decide
  next =>
    split
    next h =>
      have hle := scoreRatio_toNat h
      have hsub : (50 + (50 - ts.slptime / uMax 1 (ts.runtime / 50))).toNat =
          100 - (ts.slptime / uMax 1 (ts.runtime / 50)).toNat := by
        rw [UInt32.toNat_add, UInt32.toNat_sub]
        simp only [UInt32.reduceToNat]
        omega
      dsimp only
      rw [toInt_toInt32 (by omega), hsub]
      omega
    next =>
      split
      next h =>
        have hle := scoreRatio_toNat h
        dsimp only
        rw [toInt_toInt32 (by omega)]
        omega
      next =>
        split
        next => decide
        next => decide

section

variable {R : Priorities} {K : Clock} {s : SchedTimes} {h : List (TimeOp × Unit)} {ts : TdSched}

theorem slpRunMax_toNat (K : Clock) : (UInt32.ofNat K.slpRunMax).toNat = K.slpRunMax := by
  have := K.hz_le
  exact Nat.mod_eq_of_lt (by unfold Clock.slpRunMax; omega)

theorem tickincr_le (K : Clock) : (UInt32.ofNat K.tickincr).toNat ≤ K.hz * 1024 := by
  have hz := K.one_lt_hz
  have hdiv : K.hz * 1024 / K.stathz ≤ K.hz * 1024 := Nat.div_le_self _ _
  refine Nat.le_trans (Nat.mod_le _ _) ?_
  unfold Clock.tickincr
  split
  next => omega
  next => exact hdiv

/-- One update brings any history that fits a u_int back under the maximum. -/
theorem interactUpdate_history (h : ts.history < 4294967296) :
    (schedInteractUpdate K ts).history ≤ K.slpRunMax + 1 := by
  have hsum : (ts.runtime + ts.slptime).toNat = ts.history := by
    rw [UInt32.toNat_add]
    exact Nat.mod_eq_of_lt h
  have hmax : K.slpRunMax < 1073741824 := by
    have := K.hz_le
    unfold Clock.slpRunMax
    omega
  unfold schedInteractUpdate
  rw [hsum]
  unfold TdSched.history at *
  dsimp only
  split
  next => omega
  next =>
    split
    next =>
      split
      next =>
        rw [slpRunMax_toNat]
        exact Nat.le_refl _
      next =>
        rw [slpRunMax_toNat]
        exact Nat.le_of_eq (Nat.add_comm _ _)
    next =>
      split
      next =>
        simp only [UInt32.toNat_div, UInt32.reduceToNat]
        omega
      next =>
        have h45 : ∀ x : UInt32, (x / 5 * 4).toNat = x.toNat / 5 * 4 := by
          intro x
          have := x.toNat_lt
          rw [UInt32.toNat_mul, UInt32.toNat_div]
          exact Nat.mod_eq_of_lt (by simp only [UInt32.reduceToNat]; omega)
        rw [h45, h45]
        omega

theorem interactFork_history (K : Clock) (ts : TdSched) :
    (schedInteractFork K ts).history ≤ ts.history := by
  unfold schedInteractFork
  dsimp only
  split
  next =>
    unfold TdSched.history
    simp only [UInt32.toNat_div]
    exact Nat.add_le_add (Nat.div_le_self _ _) (Nat.div_le_self _ _)
  next => exact Nat.le_refl _

theorem pctcpuUpdate_history {ts' : TdSched} {now : Int32} {run : Bool}
    (h : schedPctcpuUpdate K now ts run = some ts') : ts'.history = ts.history := by
  obtain ⟨ts₁, h₁, rfl⟩ := Option.map_eq_some_iff.mp h
  have hkept : ts₁.history = ts.history := by
    split at h₁
    next =>
      cases h₁
      rfl
    next =>
      split at h₁
      next =>
        obtain ⟨share, _, rfl⟩ := Option.map_eq_some_iff.mp h₁
        rfl
      next =>
        cases h₁
        rfl
  cases run
  next => exact hkept
  next => exact hkept

theorem history_charge {runtime : UInt32} (h : ts.history ≤ K.slpRunMax + 1)
    (hle : runtime.toNat ≤ K.slpRunMax + 1) :
    (schedInteractUpdate K { ts with runtime := ts.runtime + runtime }).history ≤
      K.slpRunMax + 1 := by
  have hk := K.hz_le
  refine interactUpdate_history ?_
  unfold TdSched.history Clock.slpRunMax at *
  dsimp only
  rw [UInt32.toNat_add]
  omega

theorem history_slept {slept : UInt32} (h : ts.history ≤ K.slpRunMax + 1)
    (hle : slept.toNat + K.slpRunMax + 1 < 4294967296) :
    (schedInteractUpdate K { ts with slptime := ts.slptime + slept }).history ≤
      K.slpRunMax + 1 := by
  refine interactUpdate_history ?_
  unfold TdSched.history at *
  dsimp only
  rw [UInt32.toNat_add]
  omega

theorem history_keeps {op : TimeOp} (hop : op.WakesInTime K s) :
    Keeps K (fun t => t.sched.history ≤ K.slpRunMax + 1) s op where
  same _ _ h ht := h.sched ▸ ht
  update _ _ _ _ _ _ ht h := pctcpuUpdate_history h ▸ ht
  charge t runtime ht hr := by
    refine history_charge ht ?_
    rcases hr with rfl | ⟨c, hc, rfl⟩
    · refine Nat.le_trans (tickincr_le K) ?_
      unfold Clock.slpRunMax
      omega
    · exact Nat.le_trans (Nat.le_add_right _ _) hc
  fork t ht := Nat.le_trans (interactFork_history K t.sched) ht
  wakeup td t ts he ht hle hslept h := by
    subst he
    rw [pctcpuUpdate_history h]
    exact history_slept hle (hop t ht hslept)
  nice _ _ _ _ ht := ht

/-- However threads run, sleep, fork and exit, the history of each stays within one tick of
SCHED_SLP_RUN_MAX and its score within [0, 100]. -/
theorem history_bounded {ticks : Int32} {interact boost : Int} {t₀ : Thread}
    (hr : TimesRun R K (wakesInTime K) (boot ticks interact boost t₀) h s) (td : Nat)
    (t : SchedThread) (ht : s.thread td = some t) :
    t.sched.history ≤ K.slpRunMax + 1 ∧
      ∀ i, 0 ≤ schedInteractScore i t.sched ∧ schedInteractScore i t.sched ≤ 100 := by
  refine ⟨hr.all (fun td t ht => ?_) (fun _ _ _ _ hop => history_keeps hop) td t ht,
    fun i => interactScore_range i t.sched⟩
  unfold boot at ht
  dsimp only at ht
  split at ht
  next =>
    cases ht
    exact Nat.zero_le _
  next => cases ht

end

/-- thread0 sleeps for an hour. -/
theorem history_bounded_hour : ∃ h s t,
    TimesRun amd64Priorities clock1000 (wakesInTime clock1000)
      (boot 5 30 152 (batchThread 0 0)) h s ∧ h.length = 3 ∧ s.thread 0 = some t ∧
      t.sched.history ≤ clock1000.slpRunMax + 1 := by
  obtain ⟨h, s, hr, hc⟩ := timesRun_of_replay amd64Priorities clock1000 (wakesInTime clock1000)
    (boot 5 30 152 (batchThread 0 0)) [.sleep 0 0, .advance 3600000, .wakeup 0]
    (fun h s => h.length = 3 ∧ (s.thread 0).isSome) (by decide)
  obtain ⟨hl, ht⟩ := of_decide_eq_true hc
  obtain ⟨t, ht⟩ := Option.isSome_iff_exists.mp ht
  exact ⟨h, s, t, hr, hl, ht, (history_bounded hr 0 t ht).1⟩

end FreeBSDEdits
