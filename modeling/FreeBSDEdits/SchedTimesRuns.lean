import FreeBSDEdits.SchedUsage

namespace FreeBSDEdits

/-- What the time keeping of the scheduler reads and writes. -/
structure SchedTimes where
  ticks : Int32
  /-- sched_interact -/
  interact : Int
  /-- static_boost -/
  boost : Int
  thread : Nat → Option SchedThread

section

variable (R : Priorities) (K : Clock) (interact : Int)

/-- sched_thread_priority; a queued thread that rises goes through sched_add again. -/
def changePriority (t : SchedThread) (prio : UInt8) : Option SchedThread :=
  if t.priority = prio then some t
  else if t.state = .runq ∧ prio < t.priority then
    schedPriority R K interact { t with priority := prio }
  else some { t with priority := prio }

def schedLendPrio (t : SchedThread) (prio : UInt8) : Option SchedThread :=
  changePriority R K interact { t with borrowing := true } prio

/-- The priority a thread goes back to. -/
def ownPri (t : SchedThread) : UInt8 :=
  if R.minTimeshare ≤ t.basePri.toNat ∧ t.basePri.toNat ≤ R.maxTimeshare then t.userPri
  else t.basePri

def schedUnlendPrio (t : SchedThread) (prio : UInt8) : Option SchedThread :=
  if ownPri R t ≤ prio then
    changePriority R K interact { t with borrowing := false } (ownPri R t)
  else schedLendPrio R K interact t prio

def schedPrio (t : SchedThread) (prio : UInt8) : Option SchedThread :=
  let t := { t with basePri := prio }
  if t.borrowing ∧ t.priority < prio then some t else changePriority R K interact t prio

/-- min(lend, base) -/
def lentPri (lend base : UInt8) : UInt8 := if lend < base then lend else base

def schedLendUserPrio (t : SchedThread) (prio : UInt8) : Option SchedThread :=
  let t := { t with lendUserPri := prio, userPri := lentPri prio t.baseUserPri }
  if t.userPri < t.priority then schedPrio R K interact t t.userPri else some t

/-- `none` is the KASSERT on a borrowed priority. -/
def userretPri (t : SchedThread) : Option SchedThread :=
  if t.borrowing then none
  else if t.priority ≠ t.userPri then some { t with priority := t.userPri, basePri := t.userPri }
  else some t

def schedSleep (boost : Int) (now : Int32) (t : SchedThread) (prio : Int) : Option SchedThread :=
  let t := { t with slptick := now }
  if t.timeshare then
    if boost = 1 ∧ prio ≠ 0 then schedPrio R K interact t (.ofInt prio)
    else if boost ≠ 0 ∧ boost < t.priority.toNat then schedPrio R K interact t (.ofInt boost)
    else some t
  else some t

/-- sched_wakeup up to the recalculation in sched_add. -/
def wakeupTimes (now : Int32) (t : SchedThread) : Option SchedThread :=
  let slept :=
    if t.slptick ≠ 0 ∧ t.slptick ≠ now then
      let slptime := t.sched.slptime + ((now - t.slptick) <<< 10).toUInt32
      schedPctcpuUpdate K now (schedInteractUpdate K { t.sched with slptime }) false
    else some t.sched
  slept.bind fun ts => schedPriority R K interact { t with slptick := 0, sched := ts }

/-- The part of sched_clock that is about the thread's times. -/
def clockTimes (now : Int32) (t : SchedThread) : Option SchedThread :=
  (schedPctcpuUpdate K now t.sched true).bind fun ts =>
    let t := { t with sched := ts }
    if t.fifo then some t
    else if t.timeshare then
      let runtime := ts.runtime + .ofNat K.tickincr
      schedPriority R K interact { t with sched := schedInteractUpdate K { ts with runtime } }
    else some t

/-- sched_pctcpu_update on behalf of sched_switch and sched_pctcpu. -/
def updateTimes (now : Int32) (run : Bool) (t : SchedThread) : Option SchedThread :=
  (schedPctcpuUpdate K now t.sched run).map fun ts => { t with sched := ts }

/-- The child of sched_fork_thread; `lend` is what fork stores in td_lend_user_pri. -/
def schedForkThread (t : SchedThread) (lend : UInt8) : SchedThread :=
  { t with
    priority := t.basePri
    lendUserPri := lend
    state := .inactive
    slptick := 0
    borrowing := false }

/-- What sched_fork does to the parent after the child is made. -/
def forkParent (t : SchedThread) : Option SchedThread :=
  let runtime := t.sched.runtime + .ofNat K.tickincr
  schedPriority R K interact { t with sched := schedInteractUpdate K { t.sched with runtime } }

def forkChild (t : SchedThread) : Option SchedThread :=
  schedPriority R K interact { t with sched := schedInteractFork K t.sched }

/-- sched_exit_thread on the parent. -/
def exitParent (childRuntime : UInt32) (t : SchedThread) : Option SchedThread :=
  let runtime := t.sched.runtime + childRuntime
  schedPriority R K interact { t with sched := schedInteractUpdate K { t.sched with runtime } }

/-- sched_nice on one thread of the process. -/
def niceThread (nice : Int8) (t : SchedThread) : Option SchedThread :=
  (schedPriority R K interact { t with nice := nice }).bind fun t =>
    schedPrio R K interact t t.baseUserPri

end

namespace SchedTimes

variable (s : SchedTimes)

def setThread (td : Nat) (t : SchedThread) : SchedTimes :=
  { s with thread := Function.update s.thread td (some t) }

/-- `f` on the thread `td`, if there is one. -/
def onThread (td : Nat) (f : SchedThread → Option SchedThread) : Option SchedTimes :=
  match s.thread td with
  | none => some s
  | some t => (f t).map (s.setThread td)

def onThreads (f : SchedThread → Option SchedThread) : SchedTimes → List Nat → Option SchedTimes
  | s, [] => some s
  | s, td :: tds => (s.onThread td f).bind fun s => onThreads f s tds

end SchedTimes

inductive TimeOp
  /-- hardclock -/
  | advance (n : Int32)
  /-- the sysctl knobs interact and static_boost -/
  | tune (interact boost : Int)
  | clock (td : Nat)
  | switch (td newtd : Nat)
  | pctcpu (td : Nat)
  | sleep (td : Nat) (prio : Int)
  | wakeup (td : Nat)
  /-- the recalculation in sched_add -/
  | add (td : Nat)
  | fork (td child : Nat) (lend : UInt8)
  /-- sched_fork_thread alone -/
  | forkThread (td child : Nat) (lend : UInt8)
  | exit (td child : Nat)
  | nice (tds : List Nat) (nice : Int8)
  | schedClass (td : Nat) (timeshare fifo : Bool)
  | prio (td : Nat) (prio : UInt8)
  | lendPrio (td : Nat) (prio : UInt8)
  | unlendPrio (td : Nat) (prio : UInt8)
  | lendUserPrio (td : Nat) (prio : UInt8)
  | userret (td : Nat)
  /-- td_state, which others set -/
  | state (td : Nat) (st : TdState)
  | free (td : Nat)

def SchedTimes.next (R : Priorities) (K : Clock) (s : SchedTimes) : TimeOp → Option SchedTimes
  | .advance n => some { s with ticks := s.ticks + n }
  | .tune interact boost => some { s with interact, boost }
  | .clock td => s.onThread td (clockTimes R K s.interact s.ticks)
  | .switch td newtd =>
    (s.onThread td (updateTimes K s.ticks true)).bind fun s =>
      if td = newtd then some s else s.onThread newtd (updateTimes K s.ticks false)
  | .pctcpu td => s.onThread td fun t => updateTimes K s.ticks (t.state = .running) t
  | .sleep td prio => s.onThread td fun t => schedSleep R K s.interact s.boost s.ticks t prio
  | .wakeup td => s.onThread td (wakeupTimes R K s.interact s.ticks)
  | .add td => s.onThread td (schedPriority R K s.interact)
  | .fork td child lend =>
    (s.onThread td (updateTimes K s.ticks true)).bind fun s =>
      match s.thread td with
      | none => some s
      | some t =>
        let s := s.setThread child (schedForkThread t lend)
        (s.onThread child (forkChild R K s.interact)).bind fun s =>
          s.onThread td (forkParent R K s.interact)
  | .forkThread td child lend =>
    match s.thread td with
    | none => some s
    | some t => some (s.setThread child (schedForkThread t lend))
  | .exit td child =>
    match s.thread child with
    | none => some s
    | some c => s.onThread td (exitParent R K s.interact c.sched.runtime)
  | .nice tds nice => s.onThreads (niceThread R K s.interact nice) tds
  | .schedClass td timeshare fifo =>
    s.onThread td fun t => some { t with timeshare, fifo }
  | .prio td prio => s.onThread td fun t => schedPrio R K s.interact t prio
  | .lendPrio td prio => s.onThread td fun t => schedLendPrio R K s.interact t prio
  | .unlendPrio td prio => s.onThread td fun t => schedUnlendPrio R K s.interact t prio
  | .lendUserPrio td prio => s.onThread td fun t => schedLendUserPrio R K s.interact t prio
  | .userret td => s.onThread td userretPri
  | .state td st => s.onThread td fun t => some { t with state := st }
  | .free td => some { s with thread := Function.update s.thread td none }

/-- The states the times can be brought to, from one in which no thread exists but those of
`start`, by operations that all satisfy `ok`. -/
def TimesRun (R : Priorities) (K : Clock)
    (ok : List (TimeOp × Unit) → SchedTimes → TimeOp → Prop) (start : SchedTimes) :
    List (TimeOp × Unit) → SchedTimes → Prop :=
  GuardedRun (fun s op => (s.next R K op).map (·, ())) ok start

theorem timesRun_of_replay (R : Priorities) (K : Clock)
    (ok : List (TimeOp × Unit) → SchedTimes → TimeOp → Prop)
    [∀ h s op, Decidable (ok h s op)] (start : SchedTimes) (ops : List TimeOp)
    (check : List (TimeOp × Unit) → SchedTimes → Bool)
    (hp : (GuardedRun.replay (fun s op => (SchedTimes.next R K s op).map (·, ())) ok [] start
      ops).any (fun r => check r.1 r.2) = true) :
    ∃ h s, TimesRun R K ok start h s ∧ check h s = true :=
  GuardedRun.exists_of_replay hp

/-- thread0 as schedinit leaves it. -/
def schedinit (ticks : Int32) (t : Thread) : SchedThread :=
  { t with
    sched := ⟨0, 0, ticks, ticks, 0⟩
    slptick := 0
    fifo := false
    borrowing := false }

/-- The priorities may differ, and whether one is borrowed. -/
structure SchedThread.SameTimes (t t' : SchedThread) : Prop where
  sched : t'.sched = t.sched
  nice : t'.nice = t.nice

section

variable {R : Priorities} {K : Clock} {interact : Int} {t t' : SchedThread} {prio : UInt8}

theorem schedPriority_frame (h : schedPriority R K interact t = some t') :
    ∃ base user, t' = { t with baseUserPri := base, userPri := user } := by
  unfold schedPriority at h
  split at h
  next =>
    obtain ⟨pri, _, rfl⟩ := Option.map_eq_some_iff.mp h
    unfold schedUserPrio
    dsimp only
    split
    next => exact ⟨_, _, rfl⟩
    next => exact ⟨_, _, rfl⟩
  next =>
    cases h
    exact ⟨_, _, rfl⟩

theorem schedPriority_same (h : schedPriority R K interact t = some t') : t.SameTimes t' := by
  obtain ⟨_, _, rfl⟩ := schedPriority_frame h
  exact ⟨rfl, rfl⟩

theorem changePriority_same (h : changePriority R K interact t prio = some t') :
    t.SameTimes t' := by
  unfold changePriority at h
  split at h
  next =>
    cases h
    exact ⟨rfl, rfl⟩
  next =>
    split at h
    next =>
      obtain ⟨hs, hn⟩ := schedPriority_same h
      exact ⟨hs, hn⟩
    next =>
      cases h
      exact ⟨rfl, rfl⟩

theorem schedLendPrio_same (h : schedLendPrio R K interact t prio = some t') :
    t.SameTimes t' := by
  obtain ⟨hs, hn⟩ := changePriority_same h
  exact ⟨hs, hn⟩

theorem schedUnlendPrio_same (h : schedUnlendPrio R K interact t prio = some t') :
    t.SameTimes t' := by
  unfold schedUnlendPrio at h
  split at h
  next =>
    obtain ⟨hs, hn⟩ := changePriority_same h
    exact ⟨hs, hn⟩
  next => exact schedLendPrio_same h

theorem schedPrio_same (h : schedPrio R K interact t prio = some t') : t.SameTimes t' := by
  unfold schedPrio at h
  dsimp only at h
  split at h
  next =>
    cases h
    exact ⟨rfl, rfl⟩
  next =>
    obtain ⟨hs, hn⟩ := changePriority_same h
    exact ⟨hs, hn⟩

theorem schedLendUserPrio_same (h : schedLendUserPrio R K interact t prio = some t') :
    t.SameTimes t' := by
  unfold schedLendUserPrio at h
  dsimp only at h
  split at h
  next =>
    obtain ⟨hs, hn⟩ := schedPrio_same h
    exact ⟨hs, hn⟩
  next =>
    cases h
    exact ⟨rfl, rfl⟩

theorem userretPri_same (h : userretPri t = some t') : t.SameTimes t' := by
  unfold userretPri at h
  split at h
  next => cases h
  next =>
    split at h
    next =>
      cases h
      exact ⟨rfl, rfl⟩
    next =>
      cases h
      exact ⟨rfl, rfl⟩

theorem schedSleep_same {boost : Int} {now : Int32} {prio : Int}
    (h : schedSleep R K interact boost now t prio = some t') : t.SameTimes t' := by
  unfold schedSleep at h
  dsimp only at h
  split at h
  next =>
    split at h
    next =>
      obtain ⟨hs, hn⟩ := schedPrio_same h
      exact ⟨hs, hn⟩
    next =>
      split at h
      next =>
        obtain ⟨hs, hn⟩ := schedPrio_same h
        exact ⟨hs, hn⟩
      next =>
        cases h
        exact ⟨rfl, rfl⟩
  next =>
    cases h
    exact ⟨rfl, rfl⟩

end

end FreeBSDEdits
