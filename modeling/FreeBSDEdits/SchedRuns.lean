import FreeBSDEdits.SchedMoves

namespace FreeBSDEdits

abbrev SchedHistory := List (SchedOp × Option Nat)

/-- The states the scheduler can be brought to from tdq_setup by operations that all satisfy `ok`. -/
def SchedRun (R : Priorities) (ok : SchedHistory → Sched → SchedOp → Prop)
    (thread : Nat → Thread) (curthread : Nat → Nat) : SchedHistory → Sched → Prop :=
  GuardedRun (Sched.step R) ok (.setup thread curthread)

def properOp (_ : SchedHistory) (s : Sched) (op : SchedOp) : Prop := op.Proper s

instance : ∀ h s op, Decidable (properOp h s op) := fun _ s op =>
  inferInstanceAs (Decidable (op.Proper s))

section

variable {R : Priorities} {ok : SchedHistory → Sched → SchedOp → Prop} {thread : Nat → Thread}
  {curthread : Nat → Nat} {h : SchedHistory} {s : Sched}

theorem SchedRun.represents (hr : SchedRun R ok thread curthread h s)
    (hok : ∀ h s op, ok h s op → op.Proper s) : s.Represents := by
  unfold SchedRun at hr
  refine GuardedRun.invariant (P := fun _ s => s.Represents)
    (Sched.setup_represents thread curthread) (fun h s op s' o _ hs hg hstep => ?_) hr
  exact (Sched.step_moves hs (hok h s op hg) (op.within_any s) hstep).represents hs

/-- A property that every allowed operation keeps. -/
theorem SchedRun.invariant {P : Sched → Prop} (h0 : P (.setup thread curthread))
    (hok : ∀ h s op, ok h s op → op.Proper s)
    (hstep : ∀ h s op s' o, s.Represents → P s → ok h s op → s.step R op = some (s', o) → P s')
    (hr : SchedRun R ok thread curthread h s) : P s := by
  unfold SchedRun at hr
  refine GuardedRun.invariant (P := fun _ s => P s) h0 (fun h s op s' o hrun hp hg hs => ?_) hr
  exact hstep h s op s' o (SchedRun.represents hrun hok) hp hg hs

theorem schedRun_of_replay (R : Priorities) (ok : SchedHistory → Sched → SchedOp → Prop)
    [∀ h s op, Decidable (ok h s op)] (thread : Nat → Thread) (ops : List SchedOp)
    (check : SchedHistory → Sched → Bool)
    (hp : (GuardedRun.replay (Sched.step R) ok [] (.setup thread (fun _ => 0)) ops).any
      (fun r => check r.1 r.2) = true) :
    ∃ h s, SchedRun R ok thread (fun _ => 0) h s ∧ check h s = true :=
  GuardedRun.exists_of_replay hp

end

/-- A thread of the first batch priority that belongs to the user `ruid`. -/
def batchThread (ruid : UInt32) (nice : Int8) : Thread where
  priority := 152
  basePri := 152
  userPri := 152
  baseUserPri := 152
  lendUserPri := 255
  timeshare := true
  state := .canRun
  noload := false
  rqindex := 0
  tickets := 0
  retval := 0
  pinned := 0
  cpuset := fun _ => true
  ruid := ruid
  nice := nice
  runq := none
  xferable := false
  cpu := 0

def noFlags : SrqFlags := ⟨false, false⟩

/-- The threads on a run queue after an operation, where those before it were `l`. A thread that is moved
or gets another priority is put back in the same operation. -/
def SchedOp.queuedAfter (op : SchedOp) (o : Option Nat) (l : List Nat) : List Nat :=
  match op, o with
  | .runqAdd td _, _ => td :: l
  | .runqRem td, _ | .rem td _, _ | .choose _ _, some td => l.filter (· ≠ td)
  | _, _ => l

/-- The threads added and not removed since; the last operation comes first. -/
def addedThreads : SchedHistory → List Nat
  | [] => []
  | (op, o) :: h => op.queuedAfter o (addedThreads h)

namespace Sched

variable {R : Priorities} {s s' : Sched} {td : Nat}

theorem queued_runqAdd (s : Sched) (c td : Nat) (flags : SrqFlags) (x : Nat) :
    (s.runqAdd R c td flags).Queued x ↔ s.Queued x ∨ x = td :=
  enter_queued (tdqRunqAdd_enters R c _ td _ flags) x

theorem queued_tdqAdd (s : Sched) (c td : Nat) (flags : SrqFlags) (x : Nat) :
    (tdqAdd R s c td flags).Queued x ↔ s.Queued x ∨ x = td := by
  unfold tdqAdd
  rw [queued_setTdq (quiet_loadAdd _ _).same.toSameQueues, queued_runqAdd]
  split
  next => rw [queued_setTdq (quiet_lowpri _ _).same.toSameQueues]
  next => rfl

theorem queued_schedAdd (s : Sched) (td : Nat) (flags : SrqFlags) (out : Outside) (x : Nat) :
    (schedAdd R s td flags out).Queued x ↔ s.Queued x ∨ x = td := by
  obtain ⟨t, ht, he⟩ := schedAdd_eq R s td flags out
  have ht₁ : ((s.setThread td t).thread td).Same { t with cpu := out.pick } := by
    rw [setThread_thread_self]
    exact ⟨rfl, rfl, rfl, rfl⟩
  rw [he, queued_tdqAdd, queued_setThread ht₁, queued_setThread ht]

theorem queued_setlowpri {c ctd : Nat} {random : UInt64} (h : s.setlowpri c ctd random = some s')
    (x : Nat) : s'.Queued x ↔ s.Queued x := by
  obtain ⟨d, o, l, hc, rfl⟩ := setlowpri_eq_some h
  have hsame : (s.tdq c).SameQueues { d with lowpri := l } :=
    ⟨hc.same.status, hc.same.queues, hc.same.transferable⟩
  exact queued_setTdq hsame x

theorem queued_runqRem (h : s.Represents) (hq : s.Queued td)
    (hr : s.runqRem (s.thread td).cpu td = some s') (x : Nat) :
    s'.Queued x ↔ x ≠ td ∧ s.Queued x := by
  obtain ⟨k, d, hl⟩ := h.leaving hq
  cases hr.symm.trans hl.eq_some
  exact h.leave_queued hl x

theorem queued_schedRem (h : s.Represents) (hq : s.Queued td) {random : UInt64}
    (hr : schedRem s td random = some s') (x : Nat) : s'.Queued x ↔ x ≠ td ∧ s.Queued x := by
  unfold schedRem at hr
  simp only at hr
  split at hr
  next => cases hr
  next s₁ hs₁ =>
    have hrem := queued_runqRem h hq hs₁ x
    generalize hload : s₁.setTdq (s.thread td).cpu (tdqLoadRem (s₁.tdq (s.thread td).cpu)
      (s₁.thread td)) = s₂ at hr
    have hsame₂ : s₂.Queued x ↔ s₁.Queued x := by
      rw [← hload]
      exact queued_setTdq (quiet_loadRem _ _).same.toSameQueues x
    have ht : (s₂.thread td).Same { s₂.thread td with state := .canRun } := ⟨rfl, rfl, rfl, rfl⟩
    have hsame₃ := queued_setThread ht x
    split at hr
    next => rw [queued_setlowpri hr, hsame₃, hsame₂, hrem]
    next =>
      cases hr
      rw [hsame₃, hsame₂, hrem]

theorem queued_schedChoose (h : s.Represents) {c : Nat} {random : UInt64} {o : Option Nat}
    (hr : schedChoose R s c random = some (s', o)) (x : Nat) :
    s'.Queued x ↔ s.Queued x ∧ ∀ td ∈ o, x ≠ td := by
  unfold schedChoose at hr
  split at hr
  next => cases hr
  next s₁ hc =>
    cases hr
    obtain ⟨d, hd, rfl⟩ := choose_eq_some hc
    rw [queued_setTdq (quiet_lowpri _ _).same.toSameQueues, queued_setTdq hd.same.toSameQueues]
    simp
  next s₁ td hc =>
    obtain ⟨d, hd, rfl⟩ := choose_eq_some hc
    obtain ⟨s₂, hs₂, he⟩ := Option.map_eq_some_iff.mp hr
    cases he
    obtain ⟨hq, hcpu⟩ := h.queued_of_mem hd.mem
    subst hcpu
    have hq₁ := (queued_setTdq hd.same.toSameQueues td).mpr hq
    rw [queued_setTdq (quiet_lowpri _ _).same.toSameQueues,
      queued_runqRem (h.setTdq hd.same) hq₁ hs₂, queued_setTdq hd.same.toSameQueues]
    simp [and_comm]

theorem queued_tdqMove (h : s.Represents) {source target : Nat} {random : UInt64} {o : Option Nat}
    (hr : tdqMove R s source target random = some (s', o)) (x : Nat) :
    s'.Queued x ↔ s.Queued x := by
  unfold tdqMove at hr
  split at hr
  next =>
    cases hr
    rfl
  next td hs =>
    obtain ⟨s₁, hs₁, he⟩ := Option.map_eq_some_iff.mp hr
    cases he
    obtain ⟨hq, _⟩ := h.queued_of_mem (mem_of_tdqSteal hs)
    have ht : (s₁.thread td).Same { s₁.thread td with cpu := target } := ⟨rfl, rfl, rfl, rfl⟩
    rw [queued_tdqAdd, queued_setThread ht, queued_schedRem h hq hs₁]
    by_cases hx : x = td
    · subst x
      simp [hq]
    · simp [hx]

theorem queued_schedThreadPriority (h : s.Represents) {prio : UInt8} {out : Outside}
    (hq : (s.thread td).state = .runq ∧ prio < (s.thread td).priority → s.Queued td)
    (hr : schedThreadPriority R s td prio out = some s') (x : Nat) :
    s'.Queued x ↔ s.Queued x := by
  have hprio : ∀ t : Thread, t.Same { t with priority := prio } := fun _ => ⟨rfl, rfl, rfl, rfl⟩
  have hset := queued_setThread (hprio (s.thread td)) x
  unfold schedThreadPriority at hr
  simp only at hr
  split at hr
  next =>
    cases hr
    rfl
  next =>
    split at hr
    next hrq =>
      obtain ⟨s₁, hs₁, rfl⟩ := Option.map_eq_some_iff.mp hr
      have hqd := hq hrq
      rw [queued_schedAdd, queued_setThread (hprio _), queued_schedRem h hqd hs₁]
      by_cases hx : x = td
      · subst x
        simp [hqd]
      · simp [hx]
    next =>
      split at hr
      next =>
        split at hr
        next =>
          cases hr
          rw [queued_setTdq (quiet_lowpri _ _).same.toSameQueues, hset]
        next =>
          split at hr
          next => rw [queued_setlowpri hr, hset]
          next =>
            cases hr
            exact hset
      next =>
        cases hr
        exact hset

theorem queued_schedUserret {c : Nat} {random : UInt64} (hr : schedUserret s c td random = some s')
    (x : Nat) : s'.Queued x ↔ s.Queued x := by
  unfold schedUserret at hr
  simp only at hr
  split at hr
  next =>
    have ht : (s.thread td).Same { s.thread td with
        priority := (s.thread td).userPri, basePri := (s.thread td).userPri } := ⟨rfl, rfl, rfl, rfl⟩
    rw [queued_setlowpri hr, queued_setThread ht]
  next =>
    cases hr
    rfl

/-- Every operation puts on the queues, and takes off them, the threads it says. -/
theorem queued_step {op : SchedOp} {o : Option Nat} (h : s.Represents) (hp : op.Proper s)
    (hs : s.step R op = some (s', o)) {l : List Nat} (hl : ∀ x, s.Queued x ↔ x ∈ l) (x : Nat) :
    s'.Queued x ↔ x ∈ op.queuedAfter o l := by
  cases op with
  | runqAdd td flags =>
    cases hs
    rw [queued_runqAdd, hl, SchedOp.queuedAfter, List.mem_cons, or_comm]
  | runqRem td =>
    obtain ⟨s₁, hs₁, he⟩ := Option.map_eq_some_iff.mp hs
    cases he
    rw [queued_runqRem h hp hs₁, hl]
    simp [SchedOp.queuedAfter, and_comm]
  | tdqChoose c random =>
    obtain ⟨d, hd, rfl⟩ := choose_eq_some hs
    exact (queued_setTdq hd.same.toSameQueues x).trans (hl x)
  | choose c random =>
    rw [queued_schedChoose h hs, hl]
    cases o with
    | none => simp [SchedOp.queuedAfter]
    | some td => simp [SchedOp.queuedAfter]
  | setlowpri c ctd random =>
    obtain ⟨s₁, hs₁, he⟩ := Option.map_eq_some_iff.mp hs
    cases he
    exact (queued_setlowpri hs₁ x).trans (hl x)
  | rem td random =>
    obtain ⟨s₁, hs₁, he⟩ := Option.map_eq_some_iff.mp hs
    cases he
    rw [queued_schedRem h hp hs₁, hl]
    simp [SchedOp.queuedAfter, and_comm]
  | move source target random => exact (queued_tdqMove h hs x).trans (hl x)
  | threadPriority td prio out =>
    obtain ⟨s₁, hs₁, he⟩ := Option.map_eq_some_iff.mp hs
    cases he
    exact (queued_schedThreadPriority h hp hs₁ x).trans (hl x)
  | userret c td random =>
    obtain ⟨s₁, hs₁, he⟩ := Option.map_eq_some_iff.mp hs
    cases he
    exact (queued_schedUserret hs₁ x).trans (hl x)
  | clock c =>
    cases hs
    have hsame : (s.tdq c).SameQueues (tdqClock (s.tdq c)) :=
      ⟨fun _ => by rw [tdqClock_runq], fun _ => by rw [tdqClock_runq], tdqClock_transferable _⟩
    exact (queued_setTdq hsame x).trans (hl x)
  | outside td t =>
    cases hs
    have ht : (s.thread td).Same ((s.thread td).adopt t) := ⟨rfl, rfl, rfl, rfl⟩
    exact (queued_setThread ht x).trans (hl x)
  | offQueue td t =>
    cases hs
    have ht : (s.thread td).Same ((s.thread td).adoptAll t) := ⟨rfl, rfl, rfl, rfl⟩
    exact (queued_setThread ht x).trans (hl x)
  | switchTo c td =>
    cases hs
    exact hl x

end Sched

theorem SchedRun.queued_iff {R : Priorities} {thread : Nat → Thread} {curthread : Nat → Nat}
    {h : SchedHistory} {s : Sched} (hr : SchedRun R properOp thread curthread h s) (td : Nat) :
    s.Queued td ↔ td ∈ addedThreads h := by
  unfold SchedRun at hr
  refine GuardedRun.invariant (P := fun h s => ∀ td, s.Queued td ↔ td ∈ addedThreads h)
    (fun td => ?_) (fun h s op s' o hrun hq hg hs => ?_) hr td
  · rw [(Sched.setup_represents thread curthread).queued_iff]
    exact iff_of_false (fun ⟨_, _, hq⟩ => List.not_mem_nil hq) List.not_mem_nil
  · exact Sched.queued_step (SchedRun.represents hrun (fun _ _ _ hp => hp)) hg hs hq

/-- The four run queues of every CPU after any proper run. -/
theorem run_queues_represented {R : Priorities} {thread : Nat → Thread} {curthread : Nat → Nat}
    {h : SchedHistory} {s : Sched} (hr : SchedRun R properOp thread curthread h s) :
    (∀ c k i, i < rqNqs → (((s.tdq c).runq k).status.getLsbD i = true ↔
      ((s.tdq c).runq k).queues i ≠ [])) ∧
    (∀ td, td ∈ addedThreads h ↔ ∃ c k i, td ∈ ((s.tdq c).runq k).queues i) ∧
    (∀ c k i td, td ∈ ((s.tdq c).runq k).queues i →
      (((s.tdq c).runq k).queues i).count td = 1 ∧ (s.thread td).runq = some ⟨c, k⟩ ∧
        (s.thread td).rqindex.toNat = i ∧ i < rqNqs ∧ (k = .lottery → i = 0)) ∧
    ∀ c, (s.tdq c).transferable =
      ((s.tdq c).threads.countP (fun td => (s.thread td).xferable) : Nat) := by
  have hs := hr.represents (fun _ _ _ hp => hp)
  refine ⟨fun c k => hs.marks ⟨c, k⟩, fun td => ?_, fun c k i td hq => ?_, hs.transferable⟩
  · rw [← hr.queued_iff td, hs.queued_iff]
    exact ⟨fun ⟨r, i, hq⟩ => ⟨r.cpu, r.name, i, hq⟩, fun ⟨c, k, i, hq⟩ => ⟨⟨c, k⟩, i, hq⟩⟩
  · obtain ⟨hn, hi, hlt, hl, _⟩ := hs.place ⟨c, k⟩ i td hq
    exact ⟨List.count_eq_one_of_mem (hs.nodup ⟨c, k⟩ i) hq, hn, hi, hlt, hl⟩

/-- Thread 3 is added and removed again. -/
theorem run_queues_represented_two : ∃ h s,
    SchedRun amd64Priorities properOp (fun td => batchThread (if td = 1 then 1001 else 0) 0)
      (fun _ => 0) h s ∧ addedThreads h = [2, 1] ∧
    ((s.tdq 0).runq .lottery).queues 0 = [1] ∧ ((s.tdq 0).runq .timeshare).queues 0 = [2] ∧
      (s.tdq 0).transferable = 2 ∧ (s.thread 2).rqindex.toNat = 0 ∧
      ∀ c k i, 3 ∉ ((s.tdq c).runq k).queues i := by
  obtain ⟨h, s, hr, hc⟩ := schedRun_of_replay amd64Priorities properOp
    (fun td => batchThread (if td = 1 then 1001 else 0) 0)
    [.runqAdd 1 noFlags, .runqAdd 3 noFlags, .runqAdd 2 noFlags, .runqRem 3]
    (fun h s => addedThreads h = [2, 1] ∧ ((s.tdq 0).runq .lottery).queues 0 = [1] ∧
      ((s.tdq 0).runq .timeshare).queues 0 = [2] ∧ (s.tdq 0).transferable = 2) (by decide +kernel)
  obtain ⟨hadded, h1, h2, h3⟩ := of_decide_eq_true hc
  obtain ⟨-, hon, hplace, -⟩ := run_queues_represented hr
  have hq : (2 : Nat) ∈ ((s.tdq 0).runq .timeshare).queues 0 := by simp [h2]
  refine ⟨h, s, hr, hadded, h1, h2, h3, (hplace 0 _ _ 2 hq).2.2.1, fun c k i hmem => ?_⟩
  have hmem := (hon 3).mpr ⟨c, k, i, hmem⟩
  rw [hadded] at hmem
  exact absurd hmem (by decide)

end FreeBSDEdits
