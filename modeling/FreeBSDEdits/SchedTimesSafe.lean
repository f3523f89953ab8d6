import FreeBSDEdits.SchedTimesSteps
import FreeBSDEdits.SchedRuns

namespace FreeBSDEdits

/-- The nice value is one that setpriority(2) allows. -/
def NiceAllowed (R : Priorities) (nice : Int8) : Prop :=
  R.prioMin ≤ nice.toInt ∧ nice.toInt ≤ R.prioMax

instance decidableNiceAllowed (R : Priorities) (nice : Int8) : Decidable (NiceAllowed R nice) := by
  unfold NiceAllowed
  infer_instance

/-- What sched_priority relies on. -/
structure Timed (R : Priorities) (K : Clock) (t : SchedThread) : Prop where
  recorded : t.sched.Recorded K
  nice : NiceAllowed R t.nice

/-- What the callers see to: nice values in range, and no borrowed priority in user mode. -/
def TimeOp.Proper (R : Priorities) (s : SchedTimes) : TimeOp → Prop
  | .nice _ n => NiceAllowed R n
  | .userret td => ∀ t ∈ s.thread td, t.borrowing = false
  | _ => True

instance TimeOp.decidableProper (R : Priorities) (s : SchedTimes) (op : TimeOp) :
    Decidable (op.Proper R s) := by
  rcases op <;> unfold TimeOp.Proper <;> infer_instance

def properTimes (R : Priorities) (_ : List (TimeOp × Unit)) (s : SchedTimes) (op : TimeOp) :
    Prop :=
  op.Proper R s

/-- Only thread0 exists. -/
def boot (ticks : Int32) (interact boost : Int) (t : Thread) : SchedTimes where
  ticks := ticks
  interact := interact
  boost := boost
  thread td := if td = 0 then some (schedinit ticks t) else none

section

variable {R : Priorities} {K : Clock} {interact : Int} {t t' : SchedThread} {now : Int32}
  {prio : UInt8}

theorem Timed.same (ht : Timed R K t) (h : t.SameTimes t') : Timed R K t' :=
  ⟨h.sched ▸ ht.recorded, h.nice ▸ ht.nice⟩

theorem recorded_history (ts : TdSched) (runtime slptime : UInt32) :
    ts.Recorded K → TdSched.Recorded K { ts with runtime, slptime } := fun h => ⟨h.1, h.2⟩

theorem interactUpdate_frame (K : Clock) (ts : TdSched) :
    ∃ runtime slptime, schedInteractUpdate K ts = { ts with runtime, slptime } := by
  unfold schedInteractUpdate
  dsimp only
  split
  next => exact ⟨ts.runtime, ts.slptime, rfl⟩
  next =>
    split
    next =>
      split
      next => exact ⟨_, _, rfl⟩
      next => exact ⟨_, _, rfl⟩
    next =>
      split
      next => exact ⟨_, _, rfl⟩
      next => exact ⟨_, _, rfl⟩

theorem interactFork_frame (K : Clock) (ts : TdSched) :
    ∃ runtime slptime, schedInteractFork K ts = { ts with runtime, slptime } := by
  unfold schedInteractFork
  dsimp only
  split
  next => exact ⟨_, _, rfl⟩
  next => exact ⟨ts.runtime, ts.slptime, rfl⟩

theorem interactUpdate_recorded {ts : TdSched} (h : ts.Recorded K) :
    (schedInteractUpdate K ts).Recorded K := by
  obtain ⟨_, _, he⟩ := interactUpdate_frame K ts
  rw [he]
  exact recorded_history ts _ _ h

theorem interactFork_recorded {ts : TdSched} (h : ts.Recorded K) :
    (schedInteractFork K ts).Recorded K := by
  obtain ⟨_, _, he⟩ := interactFork_frame K ts
  rw [he]
  exact recorded_history ts _ _ h

theorem pctcpuUpdate_recorded {ts ts' : TdSched} {run : Bool} (h : ts.Recorded K)
    (hu : schedPctcpuUpdate K now ts run = some ts') : ts'.Recorded K := by
  obtain ⟨ts₁, h₁, hsome⟩ := TdSched.pctcpuUpdate_cases now run h
  cases hsome.symm.trans hu
  exact h₁.recorded h _

theorem pctcpuUpdate_isSome {ts : TdSched} (now : Int32) (run : Bool) (h : ts.Recorded K) :
    ∃ ts', schedPctcpuUpdate K now ts run = some ts' := by
  obtain ⟨ts₁, _, hsome⟩ := TdSched.pctcpuUpdate_cases now run h
  exact ⟨_, hsome⟩

theorem Timed.keeps {s : SchedTimes} {op : TimeOp} (hop : op.Proper R s) :
    Keeps K (Timed R K) s op where
  same _ _ h ht := ht.same h
  update _ _ _ _ _ _ ht hu := ⟨pctcpuUpdate_recorded ht.recorded hu, ht.nice⟩
  charge _ _ ht _ := ⟨interactUpdate_recorded (recorded_history _ _ _ ht.recorded), ht.nice⟩
  fork _ ht := ⟨interactFork_recorded ht.recorded, ht.nice⟩
  wakeup _ _ _ _ _ ht _ hu := ⟨pctcpuUpdate_recorded
    (interactUpdate_recorded (recorded_history _ _ _ ht.recorded)) hu, ht.nice⟩
  nice tds n t he ht := by
    subst he
    exact ⟨ht.recorded, hop⟩

section

variable (hR : R.Fits)

include hR

theorem schedPriority_isSome (ht : Timed R K t) : (schedPriority R K interact t).isSome := by
  unfold schedPriority
  split
  next =>
    obtain ⟨pri, h, _⟩ := computedPri_range interact hR ht.recorded ht.nice.1 ht.nice.2
    rw [h]
    rfl
  next => rfl

theorem changePriority_isSome (ht : Timed R K t) :
    (changePriority R K interact t prio).isSome := by
  unfold changePriority
  split
  next => rfl
  next =>
    split
    next => exact schedPriority_isSome hR (ht.same ⟨rfl, rfl⟩)
    next => rfl

theorem schedLendPrio_isSome (ht : Timed R K t) : (schedLendPrio R K interact t prio).isSome :=
  changePriority_isSome hR (ht.same ⟨rfl, rfl⟩)

theorem schedUnlendPrio_isSome (ht : Timed R K t) :
    (schedUnlendPrio R K interact t prio).isSome := by
  unfold schedUnlendPrio
  split
  next => exact changePriority_isSome hR (ht.same ⟨rfl, rfl⟩)
  next => exact schedLendPrio_isSome hR ht

theorem schedPrio_isSome (ht : Timed R K t) : (schedPrio R K interact t prio).isSome := by
  unfold schedPrio
  dsimp only
  split
  next => rfl
  next => exact changePriority_isSome hR (ht.same ⟨rfl, rfl⟩)

theorem schedLendUserPrio_isSome (ht : Timed R K t) :
    (schedLendUserPrio R K interact t prio).isSome := by
  unfold schedLendUserPrio
  dsimp only
  split
  next => exact schedPrio_isSome hR (ht.same ⟨rfl, rfl⟩)
  next => rfl

theorem schedSleep_isSome {boost prio : Int} (ht : Timed R K t) :
    (schedSleep R K interact boost now t prio).isSome := by
  unfold schedSleep
  dsimp only
  split
  next =>
    split
    next => exact schedPrio_isSome hR (ht.same ⟨rfl, rfl⟩)
    next =>
      split
      next => exact schedPrio_isSome hR (ht.same ⟨rfl, rfl⟩)
      next => rfl
  next => rfl

/-- A parent is charged for a fork, and for the exit of a child. -/
theorem chargeTimes_isSome (runtime : UInt32) (ht : Timed R K t) :
    (schedPriority R K interact
      { t with sched := schedInteractUpdate K { t.sched with runtime } }).isSome :=
  schedPriority_isSome hR ⟨interactUpdate_recorded (recorded_history _ _ _ ht.recorded), ht.nice⟩

theorem clockTimes_isSome (ht : Timed R K t) : (clockTimes R K interact now t).isSome := by
  obtain ⟨ts, hts⟩ := pctcpuUpdate_isSome now true ht.recorded
  have hr := pctcpuUpdate_recorded ht.recorded hts
  unfold clockTimes
  rw [hts, Option.bind_some]
  dsimp only
  split
  next => rfl
  next =>
    split
    next =>
      exact schedPriority_isSome hR
        ⟨interactUpdate_recorded (recorded_history _ _ _ hr), ht.nice⟩
    next => rfl

theorem wakeupTimes_isSome (ht : Timed R K t) : (wakeupTimes R K interact now t).isSome := by
  unfold wakeupTimes
  dsimp only
  split
  next =>
    have hr := interactUpdate_recorded (recorded_history t.sched t.sched.runtime
      (t.sched.slptime + ((now - t.slptick) <<< 10).toUInt32) ht.recorded)
    obtain ⟨ts, hts⟩ := pctcpuUpdate_isSome now false hr
    rw [hts, Option.bind_some]
    exact schedPriority_isSome hR ⟨pctcpuUpdate_recorded hr hts, ht.nice⟩
  next => exact schedPriority_isSome hR ⟨ht.recorded, ht.nice⟩

theorem niceThread_isSome {nice : Int8} (hn : NiceAllowed R nice) (ht : Timed R K t) :
    (niceThread R K interact nice t).isSome := by
  have hnew : Timed R K { t with nice := nice } := ⟨ht.recorded, hn⟩
  have hpri : (schedPriority R K interact { t with nice := nice }).isSome :=
    schedPriority_isSome hR hnew
  obtain ⟨t₁, h₁⟩ := Option.isSome_iff_exists.mp hpri
  unfold niceThread
  rw [h₁, Option.bind_some]
  exact schedPrio_isSome hR (hnew.same (schedPriority_same h₁))

end

theorem updateTimes_isSome (now : Int32) (run : Bool) (ht : Timed R K t) :
    (updateTimes K now run t).isSome := by
  obtain ⟨ts, hts⟩ := pctcpuUpdate_isSome now run ht.recorded
  unfold updateTimes
  rw [hts]
  rfl

theorem updateTimes_timed {run : Bool} (ht : Timed R K t)
    (hf : updateTimes K now run t = some t') : Timed R K t' := by
  obtain ⟨ts, hts, rfl⟩ := updateTimes_cases hf
  exact ⟨pctcpuUpdate_recorded ht.recorded hts, ht.nice⟩

theorem next_isSome (hR : R.Fits) {s : SchedTimes} {op : TimeOp} (hs : s.All (Timed R K))
    (hop : op.Proper R s) : (s.next R K op).isSome := by
  cases op with
  | advance n => rfl
  | tune interact boost => rfl
  | clock td => exact SchedTimes.onThread_isSome _ hs fun t ht => clockTimes_isSome hR ht
  | switch td newtd =>
    obtain ⟨s₁, h₁⟩ := Option.isSome_iff_exists.mp
      (SchedTimes.onThread_isSome td hs fun t ht =>
        updateTimes_isSome s.ticks true ht)
    dsimp only [SchedTimes.next]
    rw [h₁, Option.bind_some]
    split
    next => rfl
    next =>
      have hs₁ := hs.onThread h₁ fun _ _ _ => updateTimes_timed
      exact SchedTimes.onThread_isSome _ hs₁ fun t ht => updateTimes_isSome _ _ ht
  | pctcpu td => exact SchedTimes.onThread_isSome _ hs fun t ht => updateTimes_isSome _ _ ht
  | sleep td prio => exact SchedTimes.onThread_isSome _ hs fun t ht => schedSleep_isSome hR ht
  | wakeup td => exact SchedTimes.onThread_isSome _ hs fun t ht => wakeupTimes_isSome hR ht
  | add td => exact SchedTimes.onThread_isSome _ hs fun t ht => schedPriority_isSome hR ht
  | fork td child lend =>
    obtain ⟨s₁, h₁⟩ := Option.isSome_iff_exists.mp
      (SchedTimes.onThread_isSome td hs fun t ht =>
        updateTimes_isSome s.ticks true ht)
    have hs₁ := hs.onThread h₁ fun _ _ _ => updateTimes_timed
    dsimp only [SchedTimes.next]
    rw [h₁, Option.bind_some]
    split
    next => rfl
    next t ht =>
      have hchild : Timed R K (schedForkThread t lend) := (hs₁ td t ht).same ⟨rfl, rfl⟩
      have hs₂ := hs₁.set child hchild
      obtain ⟨s₂, h₂⟩ := Option.isSome_iff_exists.mp
        (SchedTimes.onThread_isSome child
          (f := forkChild R K (s₁.setThread child (schedForkThread t lend)).interact) hs₂
          fun t ht => schedPriority_isSome hR ⟨interactFork_recorded ht.recorded, ht.nice⟩)
      have hs₃ := hs₂.onThread h₂ fun t t' _ ht hf =>
        Timed.same (t := { t with sched := schedInteractFork K t.sched })
          ⟨interactFork_recorded ht.recorded, ht.nice⟩ (schedPriority_same hf)
      rw [h₂, Option.bind_some]
      exact SchedTimes.onThread_isSome _ hs₃ fun t ht => chargeTimes_isSome hR _ ht
  | forkThread td child lend =>
    dsimp only [SchedTimes.next]
    split
    next => rfl
    next => rfl
  | exit td child =>
    dsimp only [SchedTimes.next]
    split
    next => rfl
    next c hc =>
      exact SchedTimes.onThread_isSome _ hs fun t ht => chargeTimes_isSome hR _ ht
  | nice tds nice =>
    refine SchedTimes.onThreads_isSome hs (fun t ht => niceThread_isSome hR hop ht) ?_
    intro t t' ht hf
    obtain ⟨t₁, h₁, h₂⟩ := Option.bind_eq_some_iff.mp hf
    have hnew : Timed R K { t with nice := nice } := ⟨ht.recorded, hop⟩
    exact (hnew.same (schedPriority_same h₁)).same (schedPrio_same h₂)
  | schedClass td timeshare fifo => exact SchedTimes.onThread_isSome _ hs fun _ _ => rfl
  | prio td prio => exact SchedTimes.onThread_isSome _ hs fun t ht => schedPrio_isSome hR ht
  | lendPrio td prio => exact SchedTimes.onThread_isSome _ hs fun t ht => schedLendPrio_isSome hR ht
  | unlendPrio td prio =>
    exact SchedTimes.onThread_isSome _ hs fun t ht => schedUnlendPrio_isSome hR ht
  | lendUserPrio td prio =>
    exact SchedTimes.onThread_isSome _ hs fun t ht => schedLendUserPrio_isSome hR ht
  | userret td =>
    dsimp only [SchedTimes.next, SchedTimes.onThread]
    split
    next => rfl
    next t ht =>
      have hb : t.borrowing = false := hop t ht
      unfold userretPri
      rw [if_neg (by simp [hb])]
      split
      next => rfl
      next => rfl
  | state td st => exact SchedTimes.onThread_isSome _ hs fun _ _ => rfl
  | free td => rfl

variable {s₀ s : SchedTimes} {h : List (TimeOp × Unit)}
  {ok : List (TimeOp × Unit) → SchedTimes → TimeOp → Prop}

/-- A property of the threads that every allowed operation keeps. -/
theorem TimesRun.all {P : SchedThread → Prop} (h0 : s₀.All P)
    (hk : ∀ h s op, s.All P → ok h s op → Keeps K P s op) (hr : TimesRun R K ok s₀ h s) :
    s.All P := by
  unfold TimesRun at hr
  refine GuardedRun.invariant (P := fun _ s => s.All P) h0 (fun h s op s' r _ hp hg hs => ?_) hr
  obtain ⟨s₁, h₁, he⟩ := Option.map_eq_some_iff.mp hs
  cases he
  exact hp.next (hk h s op hp hg) h₁

theorem TimesRun.timed (h0 : s₀.All (Timed R K)) (hr : TimesRun R K (properTimes R) s₀ h s) :
    s.All (Timed R K) :=
  hr.all h0 fun _ _ _ _ hop => Timed.keeps hop

theorem boot_charged (ticks : Int32) (interact boost : Int) (t : Thread) :
    (boot ticks interact boost t).All fun t => t.sched.Charged K := by
  have hk := K.one_lt_hz
  intro td t' ht
  unfold boot at ht
  dsimp only at ht
  split at ht
  next =>
    cases ht
    have hw : (schedinit ticks t).sched.window = 0 := by simp [TdSched.window, schedinit]
    have hmax : (0 : Int) < K.tickMax := by
      unfold Clock.tickMax
      omega
    exact {
      nonneg := Int.le_of_eq hw.symm
      short := Int.lt_of_le_of_lt (Int.le_of_eq hw) hmax
      ticks_nonneg := Int.le_refl 0
      ticks_le := Int.le_of_eq (congrArg (1024 * ·) hw).symm }
  next => cases ht

theorem boot_timed {ticks : Int32} {interact boost : Int} {t : Thread}
    (hn : NiceAllowed R t.nice) : (boot ticks interact boost t).All (Timed R K) := by
  intro td t' ht
  have hc := boot_charged (K := K) ticks interact boost t td t' ht
  unfold boot at ht
  dsimp only at ht
  split at ht
  next =>
    cases ht
    exact ⟨hc.toRecorded, hn⟩
  next => cases ht

/-- Whatever happened since the boot, the next operation neither divides by zero nor fails an
assertion of sched_priority. -/
theorem times_never_trap (hR : R.Fits) {ticks : Int32} {interact boost : Int} {t : Thread}
    (hn : NiceAllowed R t.nice)
    (hr : TimesRun R K (properTimes R) (boot ticks interact boost t) h s) (op : TimeOp)
    (hop : op.Proper R s) : (s.next R K op).isSome :=
  next_isSome hR (hr.timed (boot_timed hn)) hop

end

/-- A kernel with the default clocks. -/
def clock1000 : Clock where
  hz := 1000
  stathz := 127
  one_lt_hz := by decide
  hz_le := by decide
  stathz_pos := by decide

theorem times_never_trap_late_clock :
    ((boot 5 30 152 (batchThread 0 0)).next amd64Priorities clock1000 (.advance 20000)).any
      (fun s => (s.next amd64Priorities clock1000 (.clock 0)).isSome) = true := by
  have hr : TimesRun amd64Priorities clock1000 (properTimes amd64Priorities)
      (boot 5 30 152 (batchThread 0 0)) [(.advance 20000, ())]
      { boot 5 30 152 (batchThread 0 0) with ticks := 5 + 20000 } := .next .start trivial rfl
  exact times_never_trap amd64_fits (by decide) hr (.clock 0) trivial

end FreeBSDEdits
