import FreeBSDEdits.SchedSwitch

namespace FreeBSDEdits

/-- What can happen while a thread is inside a system call. -/
inductive SyscallOp
  | switch (c : Nat) (o : Switching)
  | add (td : Nat) (flags : SrqFlags) (out : Outside)
  | wakeup (td : Nat) (out : Outside)
  | move (source target : Nat) (random : UInt64)
  /-- the system call of the thread stores its result -/
  | store (td : Nat) (retval : Int64)

/-- The thread for which tdq_runq_add is called. -/
def SyscallOp.queued (s : Sched) : SyscallOp → Option Nat
  | .switch c o => s.requeued c o
  | .add td _ _ => some td
  | .wakeup td _ => some td
  | .move source target _ => tdqSteal s.thread (s.tdq source) target
  | .store _ _ => none

/-- The thread for which tdq_runq_add calls sys_getuid. -/
def SyscallOp.asks (R : Priorities) (s : Sched) (op : SyscallOp) : Option Nat :=
  (op.queued s).filter (fun td => R.InBatch (s.thread td))

def Sched.syscall (R : Priorities) (s : Sched) : SyscallOp → Option Sched
  | .switch c o => schedSwitch R s c o
  | .add td flags out => some (schedAdd R s td flags out)
  | .wakeup td out => some (schedWakeup R s td out)
  | .move source target random => (tdqMove R s source target random).map Prod.fst
  | .store td retval => some (s.setThread td { s.thread td with retval := retval })

abbrev SyscallHistory := List (SyscallOp × Option Nat)

/-- The history records with each step the thread whose user id is asked for. -/
def SyscallRun (R : Priorities) : Sched → SyscallHistory → Sched → Prop :=
  GuardedRun (fun s op => (s.syscall R op).map (·, op.asks R s)) (fun _ _ _ => True)

/-- The result that the operation stores for thread `td`. -/
def SyscallOp.stores (td : Nat) : SyscallOp → Option Int64
  | .store x retval => if x = td then some retval else none
  | _ => none

/-- The result that the system call of thread `td` has stored last, at first `v`. -/
def lastStored (td : Nat) (v : Int64) : SyscallHistory → Int64
  | [] => v
  | (op, _) :: h => (op.stores td).getD (lastStored td v h)

/-- The user id of thread `td` has been asked for since the last store. -/
def AskedSince (td : Nat) : SyscallHistory → Prop
  | [] => False
  | (op, asked) :: h => asked = some td ∨ op.stores td = none ∧ AskedSince td h

instance AskedSince.decidable (td : Nat) : (h : SyscallHistory) → Decidable (AskedSince td h)
  | [] => inferInstanceAs (Decidable False)
  | (op, asked) :: h =>
    have := AskedSince.decidable td h
    inferInstanceAs (Decidable (asked = some td ∨ op.stores td = none ∧ AskedSince td h))

/-- What td_retval of thread `td` holds in the end. -/
def heldResult (td : Nat) (uid v : Int64) (h : SyscallHistory) : Int64 :=
  if AskedSince td h then uid else lastStored td v h

/-- The blanked thread with another td_retval. -/
def Thread.restWith (t : Thread) (retval : Int64) : Thread := { t.rest with retval := retval }

theorem Thread.asked_rest_eq (R : Priorities) (t : Thread) :
    t.rest.asked R = t.restWith (if R.InBatch t then (sysGetuid t).retval else t.retval) := by
  have hb : R.InBatch t.rest ↔ R.InBatch t := Iff.rfl
  unfold asked
  by_cases h : R.InBatch t
  · rw [if_pos h, if_pos (hb.mpr h)]
    rfl
  · rw [if_neg h, if_neg (hb.not.mpr h)]
    rfl

theorem Thread.restWith_inj {t : Thread} {v w : Int64} : t.restWith v = t.restWith w ↔ v = w :=
  ⟨congrArg Thread.retval, congrArg t.restWith⟩

namespace Sched

variable {R : Priorities} {s₀ s s' : Sched} {op : SyscallOp} {h : SyscallHistory}

theorem asks_eq_some {td : Nat} :
    op.asks R s = some td ↔ op.queued s = some td ∧ R.InBatch (s.thread td) := by
  rw [SyscallOp.asks, Option.filter_eq_some_iff, decide_eq_true_eq]

theorem Frames.rest_eq (hf : Frames R (op.queued s) s s') (hst : ∀ td, op.stores td = none)
    (td : Nat) : (s'.thread td).rest = (s.thread td).restWith
      (if op.asks R s = some td then (sysGetuid (s.thread td)).retval
        else (op.stores td).getD (s.thread td).retval) := by
  rw [hf td, hst td, Option.getD_none]
  by_cases hq : op.queued s = some td
  · rw [if_pos hq, Thread.asked_rest_eq]
    simp only [asks_eq_some, hq, true_and]
  · rw [if_neg hq, if_neg (fun ha => hq (asks_eq_some.mp ha).1)]
    rfl

/-- One step gives a thread another td_retval only by a store, or by asking for its user id. -/
theorem syscall_rest (hs : s.syscall R op = some s') (td : Nat) :
    (s'.thread td).rest = (s.thread td).restWith
      (if op.asks R s = some td then (sysGetuid (s.thread td)).retval
        else (op.stores td).getD (s.thread td).retval) := by
  cases op with
  | switch c o => exact Frames.rest_eq (frames_schedSwitch hs) (fun _ => rfl) td
  | add x flags out =>
    cases hs
    exact Frames.rest_eq (frames_schedAdd s x flags out) (fun _ => rfl) td
  | wakeup x out =>
    cases hs
    exact Frames.rest_eq (frames_schedAdd s x _ out) (fun _ => rfl) td
  | move source target random =>
    obtain ⟨⟨s₁, o⟩, hm, rfl⟩ := Option.map_eq_some_iff.mp hs
    exact Frames.rest_eq (frames_tdqMove hm) (fun _ => rfl) td
  | store x retval =>
    cases hs
    have hno : SyscallOp.asks R s (.store x retval) ≠ some td := fun ha =>
      Option.some_ne_none td (asks_eq_some.mp ha).1.symm
    rw [if_neg hno]
    by_cases hx : x = td
    · subst x
      rw [setThread_thread_self, SyscallOp.stores, if_pos rfl]
      rfl
    · rw [setThread_thread_of_ne s (Ne.symm hx), SyscallOp.stores, if_neg hx]
      rfl

end Sched

theorem heldResult_cons (td : Nat) (uid v : Int64) (op : SyscallOp) (asked : Option Nat)
    (h : SyscallHistory) : heldResult td uid v ((op, asked) :: h) =
      if asked = some td then uid else (op.stores td).getD (heldResult td uid v h) := by
  simp only [heldResult, AskedSince, lastStored]
  by_cases ha : asked = some td
  · simp [ha]
  · rcases Option.eq_none_or_eq_some (op.stores td) with hst | ⟨w, hst⟩
    · simp [ha, hst]
    · simp [ha, hst]

/-- A run keeps all of a thread but td_retval, which holds the last result stored or the user id. -/
theorem SyscallRun.rest {R : Priorities} {s₀ s : Sched} {h : SyscallHistory}
    (hr : SyscallRun R s₀ h s) (td : Nat) : (s.thread td).rest = (s₀.thread td).restWith
      (heldResult td (sysGetuid (s₀.thread td)).retval (s₀.thread td).retval h) := by
  unfold SyscallRun at hr
  refine GuardedRun.invariant (P := fun h s => (s.thread td).rest = (s₀.thread td).restWith
    (heldResult td (sysGetuid (s₀.thread td)).retval (s₀.thread td).retval h)) rfl ?_ hr
  intro h s op s' asked _ ih _ hs
  obtain ⟨s₁, hs₁, he⟩ := Option.map_eq_some_iff.mp hs
  cases he
  have hheld : (s.thread td).retval =
      heldResult td (sysGetuid (s₀.thread td)).retval (s₀.thread td).retval h :=
    congrArg Thread.retval ih
  have hruid := congrArg Thread.ruid ih
  change (s.thread td).ruid = (s₀.thread td).ruid at hruid
  have huid : (sysGetuid (s.thread td)).retval = (sysGetuid (s₀.thread td)).retval := by
    simp only [sysGetuid, hruid]
  rw [Sched.syscall_rest hs₁ td, heldResult_cons, hheld, huid, Thread.restWith, ih]
  rfl

/-- tdq_runq_add leaves the rest of a thread alone exactly if the priority is no batch priority or
td_retval is the user id already. In a run the result stored last is in td_retval at the end exactly
if nobody has asked for the user id since, or if the result is the user id. -/
theorem result_kept_iff (R : Priorities) :
    (∀ c d td t flags, (tdqRunqAdd R c d td t flags).2.rest = t.rest ↔
      (R.InBatch t → t.retval = (sysGetuid t).retval)) ∧
    ∀ s₀ h s, SyscallRun R s₀ h s → ∀ td, (s.thread td).rest =
        (s₀.thread td).restWith (lastStored td (s₀.thread td).retval h) ↔
      (AskedSince td h →
        lastStored td (s₀.thread td).retval h = (sysGetuid (s₀.thread td)).retval) := by
  constructor
  · intro c d td t flags
    have hself : t.rest = t.restWith t.retval := rfl
    rw [tdqRunqAdd_rest, Thread.asked_rest_eq, hself, Thread.restWith_inj, ite_eq_right_iff]
    exact ⟨fun h hb => (h hb).symm, fun h hb => (h hb).symm⟩
  · intro s₀ h s hr td
    rw [hr.rest td, Thread.restWith_inj, heldResult, ite_eq_right_iff]
    exact ⟨fun hh ha => (hh ha).symm, fun hh ha => (hh ha).symm⟩

/-- CPU 0 runs thread 1, which belongs to the user 1001. -/
def inSyscall : Sched :=
  .setup (fun _ => { batchThread 1001 0 with state := .running }) (fun _ => 1)

def preemption : Switching := ⟨true, false, 0, none, 2, 0, 0, 0⟩

theorem syscallRun_of_replay (ops : List SyscallOp) (check : SyscallHistory → Sched → Bool)
    (hp : (GuardedRun.replay (fun s op => (s.syscall amd64Priorities op).map
      (·, op.asks amd64Priorities s)) (fun _ _ _ => True) [] inSyscall ops).any
        (fun r => check r.1 r.2) = true) :
    ∃ h s, SyscallRun amd64Priorities inSyscall h s ∧ check h s = true :=
  GuardedRun.exists_of_replay hp

/-- The thread is preempted before it stores the result. -/
theorem result_kept_stored : ∃ h s, SyscallRun amd64Priorities inSyscall h s ∧
    (s.thread 1).rest = (inSyscall.thread 1).restWith 5 := by
  obtain ⟨h, s, hr, hc⟩ := syscallRun_of_replay [.switch 0 preemption, .store 1 5]
    (fun h s => ¬AskedSince 1 h ∧ lastStored 1 (inSyscall.thread 1).retval h = 5 ∧
      (s.thread 1).state = .running) (by decide +kernel)
  obtain ⟨hno, h5, _⟩ := of_decide_eq_true hc
  refine ⟨h, s, hr, ?_⟩
  rw [← h5]
  exact ((result_kept_iff amd64Priorities).2 inSyscall h s hr 1).mpr (fun ha => absurd ha hno)

/-- It is preempted after that: the system call returns the user id. -/
theorem preemption_overwrites_result : ∃ h s, SyscallRun amd64Priorities inSyscall h s ∧
    lastStored 1 (inSyscall.thread 1).retval h = 5 ∧ (s.thread 1).state = .running ∧
      s.curthread 0 = 1 ∧ (s.thread 1).retval = 1001 ∧
        (s.thread 1).rest ≠ (inSyscall.thread 1).restWith 5 := by
  obtain ⟨h, s, hr, hc⟩ := syscallRun_of_replay [.store 1 5, .switch 0 preemption]
    (fun h s => lastStored 1 (inSyscall.thread 1).retval h = 5 ∧ (s.thread 1).state = .running ∧
      s.curthread 0 = 1 ∧ (s.thread 1).retval = 1001) (by decide +kernel)
  obtain ⟨h5, hrun, hcur, hret⟩ := of_decide_eq_true hc
  refine ⟨h, s, hr, h5, hrun, hcur, hret, fun he => ?_⟩
  have hret' : (s.thread 1).retval = 5 := congrArg Thread.retval he
  rw [hret] at hret'
  exact absurd hret' (by decide)

end FreeBSDEdits
