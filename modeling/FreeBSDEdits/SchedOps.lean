import FreeBSDEdits.SchedUle
import FreeBSDEdits.GuardedRun

namespace FreeBSDEdits

/-- What an operation gets from outside: the value of random(), the CPU that sched_pickcpu picks,
and the user priority that sched_priority computes from the history of the thread. -/
structure Outside where
  random : UInt64
  pick : Nat
  userPri : UInt8

namespace Sched

variable (s : Sched)

/-- tdq_runq_add on CPU `c`. -/
def runqAdd (R : Priorities) (c td : Nat) (flags : SrqFlags) : Sched :=
  let r := tdqRunqAdd R c (s.tdq c) td (s.thread td) flags
  (s.setTdq c r.1).setThread td r.2

/-- tdq_runq_rem on CPU `c`. -/
def runqRem (c td : Nat) : Option Sched :=
  (tdqRunqRem (s.tdq c) td (s.thread td)).map fun r => (s.setTdq c r.1).setThread td r.2

/-- tdq_choose on CPU `c`. -/
def choose (c : Nat) (random : UInt64) : Option (Sched × Option Nat) :=
  (tdqChoose s.tickets (s.tdq c) random).map fun r => (s.setTdq c r.1, r.2)

/-- tdq_setlowpri on CPU `c`. -/
def setlowpri (c ctd : Nat) (random : UInt64) : Option Sched :=
  (tdqSetlowpri s.thread (s.tdq c) (s.thread ctd) random).map (s.setTdq c)

end Sched

/-- `none` is the idle thread of the CPU. -/
def schedChoose (R : Priorities) (s : Sched) (c : Nat) (random : UInt64) :
    Option (Sched × Option Nat) :=
  match s.choose c random with
  | none => none
  | some (s, none) => some (s.setTdq c { s.tdq c with lowpri := .ofNat R.maxIdle }, none)
  | some (s, some td) =>
    (s.runqRem c td).map fun s =>
      (s.setTdq c { s.tdq c with lowpri := (s.thread td).priority }, some td)

def tdqAdd (R : Priorities) (s : Sched) (c td : Nat) (flags : SrqFlags) : Sched :=
  let s :=
    if (s.thread td).priority < (s.tdq c).lowpri then
      s.setTdq c { s.tdq c with lowpri := (s.thread td).priority }
    else s
  let s := s.runqAdd R c td flags
  s.setTdq c (tdqLoadAdd (s.tdq c) (s.thread td))

def schedUserPrio (t : Thread) (prio : UInt8) : Thread :=
  let t := { t with baseUserPri := prio }
  if t.lendUserPri ≤ prio then t else { t with userPri := prio }

def schedAdd (R : Priorities) (s : Sched) (td : Nat) (flags : SrqFlags) (out : Outside) : Sched :=
  let s :=
    if (s.thread td).timeshare then s.setThread td (schedUserPrio (s.thread td) out.userPri) else s
  let s := s.setThread td { s.thread td with cpu := out.pick }
  tdqAdd R s out.pick td flags

def schedRem (s : Sched) (td : Nat) (random : UInt64) : Option Sched :=
  let c := (s.thread td).cpu
  match s.runqRem c td with
  | none => none
  | some s =>
    let s := s.setTdq c (tdqLoadRem (s.tdq c) (s.thread td))
    let s := s.setThread td { s.thread td with state := .canRun }
    if (s.thread td).priority = (s.tdq c).lowpri then s.setlowpri c (s.curthread c) random
    else some s

/-- The thread that is moved comes with the state; `none` when there was nothing to steal. -/
def tdqMove (R : Priorities) (s : Sched) (source target : Nat) (random : UInt64) :
    Option (Sched × Option Nat) :=
  match tdqSteal s.thread (s.tdq source) target with
  | none => some (s, none)
  | some td =>
    (schedRem s td random).map fun s =>
      (tdqAdd R (s.setThread td { s.thread td with cpu := target }) target td ⟨false, false⟩,
        some td)

def schedThreadPriority (R : Priorities) (s : Sched) (td : Nat) (prio : UInt8) (out : Outside) :
    Option Sched :=
  let t := s.thread td
  if t.priority = prio then some s
  else if t.state = .runq ∧ prio < t.priority then
    (schedRem s td out.random).map fun s =>
      schedAdd R (s.setThread td { s.thread td with priority := prio }) td ⟨false, true⟩ out
  else if t.state = .running then
    let s := s.setThread td { t with priority := prio }
    if prio < (s.tdq t.cpu).lowpri then
      some (s.setTdq t.cpu { s.tdq t.cpu with lowpri := prio })
    else if (s.tdq t.cpu).lowpri = t.priority then s.setlowpri t.cpu td out.random
    else some s
  else some (s.setThread td { t with priority := prio })

/-- On CPU `c`. -/
def schedUserret (s : Sched) (c td : Nat) (random : UInt64) : Option Sched :=
  let t := s.thread td
  if t.priority ≠ t.userPri then
    (s.setThread td { t with priority := t.userPri, basePri := t.userPri }).setlowpri c td random
  else some s

/-- The operations of the scheduler, and what the rest of the kernel does to threads meanwhile. -/
inductive SchedOp
  /-- tdq_runq_add and tdq_runq_rem on the CPU of the thread, as their callers use them -/
  | runqAdd (td : Nat) (flags : SrqFlags)
  | runqRem (td : Nat)
  | tdqChoose (c : Nat) (random : UInt64)
  | choose (c : Nat) (random : UInt64)
  | setlowpri (c ctd : Nat) (random : UInt64)
  | rem (td : Nat) (random : UInt64)
  | move (source target : Nat) (random : UInt64)
  | threadPriority (td : Nat) (prio : UInt8) (out : Outside)
  | userret (c td : Nat) (random : UInt64)
  | clock (c : Nat)
  /-- any change of the fields that do not belong to the run queues -/
  | outside (td : Nat) (t : Thread)
  /-- the same, and CPU, state and priority, for a thread on no run queue -/
  | offQueue (td : Nat) (t : Thread)
  | switchTo (c td : Nat)

/-- `new` in the fields that the rest of the kernel may change while the thread is queued. -/
def Thread.adopt (t new : Thread) : Thread :=
  { new with
    priority := t.priority
    state := t.state
    rqindex := t.rqindex
    tickets := t.tickets
    runq := t.runq
    xferable := t.xferable
    cpu := t.cpu }

def Thread.adoptAll (t new : Thread) : Thread :=
  { new with rqindex := t.rqindex, tickets := t.tickets, runq := t.runq, xferable := t.xferable }

/-- One operation; `none` is a trap. -/
def Sched.step (R : Priorities) (s : Sched) : SchedOp → Option (Sched × Option Nat)
  | .runqAdd td flags => some (s.runqAdd R (s.thread td).cpu td flags, none)
  | .runqRem td => (s.runqRem (s.thread td).cpu td).map (·, none)
  | .tdqChoose c random => s.choose c random
  | .choose c random => schedChoose R s c random
  | .setlowpri c ctd random => (s.setlowpri c ctd random).map (·, none)
  | .rem td random => (schedRem s td random).map (·, none)
  | .move source target random => tdqMove R s source target random
  | .threadPriority td prio out => (schedThreadPriority R s td prio out).map (·, none)
  | .userret c td random => (schedUserret s c td random).map (·, none)
  | .clock c => some (s.setTdq c (tdqClock (s.tdq c)), none)
  | .outside td t => some (s.setThread td ((s.thread td).adopt t), none)
  | .offQueue td t => some (s.setThread td ((s.thread td).adoptAll t), none)
  | .switchTo c td => some ({ s with curthread := Function.update s.curthread c td }, none)

/-- Only unqueued threads are added, and only queued ones removed. -/
def SchedOp.Proper (s : Sched) : SchedOp → Prop
  | .runqAdd td _ => ¬s.Queued td
  | .runqRem td => s.Queued td
  | .rem td _ => s.Queued td
  | .threadPriority td prio _ =>
    (s.thread td).state = .runq ∧ prio < (s.thread td).priority → s.Queued td
  | .offQueue td _ => ¬s.Queued td
  | _ => True

instance (s : Sched) (op : SchedOp) : Decidable (op.Proper s) := by
  rcases op <;> unfold SchedOp.Proper <;> infer_instance

/-- The state tdq_setup leaves; TSF_XFERABLE is clear in a new thread. -/
def Sched.setup (thread : Nat → Thread) (curthread : Nat → Nat) : Sched where
  thread td := { thread td with xferable := false }
  tdq _ := tdqSetup
  curthread := curthread

end FreeBSDEdits
