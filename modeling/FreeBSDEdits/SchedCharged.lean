import FreeBSDEdits.SchedTimesSafe

namespace FreeBSDEdits

/-- The times of the thread were updated less than SCHED_TICK_TARG ticks ago. -/
def SchedTimes.Fresh (K : Clock) (s : SchedTimes) (td : Nat) : Prop :=
  ∀ t ∈ s.thread td, t.sched.elapsed s.ticks < K.tickTarg

instance SchedTimes.decidableFresh (K : Clock) (s : SchedTimes) (td : Nat) :
    Decidable (s.Fresh K td) := by
  unfold SchedTimes.Fresh
  infer_instance

/-- Time is charged only to threads whose times are fresh. -/
def TimeOp.ChargesFresh (K : Clock) (s : SchedTimes) : TimeOp → Prop
  | .clock td => s.Fresh K td
  | .switch td _ => s.Fresh K td
  | .pctcpu td => (∃ t ∈ s.thread td, t.state = .running) → s.Fresh K td
  | .fork td _ _ => s.Fresh K td
  | _ => True

instance TimeOp.decidableChargesFresh (K : Clock) (s : SchedTimes) (op : TimeOp) :
    Decidable (op.ChargesFresh K s) := by
  rcases op <;> unfold TimeOp.ChargesFresh <;> infer_instance

def chargesFresh (K : Clock) (_ : List (TimeOp × Unit)) (s : SchedTimes) (op : TimeOp) : Prop :=
  op.ChargesFresh K s

instance decidableChargesFresh (K : Clock) (h : List (TimeOp × Unit)) (s : SchedTimes)
    (op : TimeOp) :
    Decidable (chargesFresh K h s op) :=
  inferInstanceAs (Decidable (op.ChargesFresh K s))

section

variable {R : Priorities} {K : Clock} {now : Int32} {s : SchedTimes} {h : List (TimeOp × Unit)}

theorem charged_history (ts : TdSched) (runtime slptime : UInt32) (h : ts.Charged K) :
    TdSched.Charged K { ts with runtime, slptime } :=
  { toRecorded := recorded_history ts _ _ h.toRecorded
    ticks_nonneg := h.ticks_nonneg
    ticks_le := h.ticks_le }

theorem interactUpdate_charged {ts : TdSched} (h : ts.Charged K) :
    (schedInteractUpdate K ts).Charged K := by
  obtain ⟨_, _, he⟩ := interactUpdate_frame K ts
  rw [he]
  exact charged_history ts _ _ h

theorem pctcpuUpdate_charged {ts ts' : TdSched} {run : Bool} (h : ts.Charged K)
    (hrun : run = true → ts.elapsed now < K.tickTarg)
    (hu : schedPctcpuUpdate K now ts run = some ts') : ts'.Charged K := by
  obtain ⟨ts₁, h₁, hsome⟩ := TdSched.pctcpuUpdate_cases now run h.toRecorded
  cases hsome.symm.trans hu
  exact h₁.charged h hrun

theorem TimeOp.ChargesFresh.fresh {op : TimeOp} {td : Nat} (hop : op.ChargesFresh K s)
    (hu : op.updates s td true) : s.Fresh K td := by
  cases op with
  | clock u =>
    cases hu.1
    exact hop
  | switch u v =>
    rcases hu with ⟨rfl, _⟩ | ⟨_, _, h⟩
    · exact hop
    · cases h
  | pctcpu u =>
    obtain ⟨rfl, t, ht, hrun⟩ := hu
    exact hop ⟨t, ht, of_decide_eq_true hrun.symm⟩
  | fork u c lend =>
    cases hu.1
    exact hop
  | _ => exact hu.elim

theorem Charged.keeps {op : TimeOp} (hop : op.ChargesFresh K s) :
    Keeps K (fun t => t.sched.Charged K) s op where
  same _ _ h ht := h.sched ▸ ht
  update td run t ts hu ht hc h := by
    refine pctcpuUpdate_charged hc (fun hr => ?_) h
    subst hr
    exact hop.fresh hu t ht
  charge _ _ ht _ := interactUpdate_charged (charged_history _ _ _ ht)
  fork t ht := by
    obtain ⟨_, _, he⟩ := interactFork_frame K t.sched
    rw [he]
    exact charged_history _ _ _ ht
  wakeup td t ts _ ht hc _ h := pctcpuUpdate_charged
    (interactUpdate_charged (charged_history _ _ _ hc)) Bool.noConfusion h
  nice _ _ _ _ ht := ht

/-- The ticks charged to a thread are never negative, nor more than the ticks of its window, and
the window stays under SCHED_TICK_MAX. -/
theorem charged_within_window {ticks : Int32} {interact boost : Int} {t₀ : Thread}
    (hr : TimesRun R K (chargesFresh K) (boot ticks interact boost t₀) h s) (td : Nat)
    (t : SchedThread) (ht : s.thread td = some t) :
    0 ≤ t.sched.ticks.toInt ∧ t.sched.ticks.toInt ≤ 1024 * t.sched.window ∧
      t.sched.window < K.tickMax := by
  have hc := hr.all (boot_charged ticks interact boost t₀)
    (fun _ _ _ _ hop => Charged.keeps hop) td t ht
  exact ⟨hc.ticks_nonneg, hc.ticks_le, hc.short⟩

end

theorem charged_within_window_two_clocks : ∃ h s t,
    TimesRun amd64Priorities clock1000 (chargesFresh clock1000)
      (boot 5 30 152 (batchThread 0 0)) h s ∧ h.length = 4 ∧ s.thread 0 = some t ∧
      t.sched.ticks.toInt ≤ 1024 * t.sched.window := by
  obtain ⟨h, s, hr, hc⟩ := timesRun_of_replay amd64Priorities clock1000 (chargesFresh clock1000)
    (boot 5 30 152 (batchThread 0 0)) [.advance 9000, .clock 0, .advance 3000, .clock 0]
    (fun h s => h.length = 4 ∧ (s.thread 0).isSome) (by decide)
  obtain ⟨hl, ht⟩ := of_decide_eq_true hc
  obtain ⟨t, ht⟩ := Option.isSome_iff_exists.mp ht
  exact ⟨h, s, t, hr, hl, ht, (charged_within_window hr 0 t ht).2.1⟩

end FreeBSDEdits
