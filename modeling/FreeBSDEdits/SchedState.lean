import Mathlib.Data.List.Basic
import Mathlib.Logic.Function.Basic

namespace FreeBSDEdits

/-- The constants the scheduler takes from the priority and the resource headers. -/
structure Priorities where
  minTimeshare : Nat
  maxTimeshare : Nat
  minIdle : Nat
  maxIdle : Nat
  prioMin : Int
  prioMax : Int
  timeshare_le : minTimeshare ≤ maxTimeshare
  idle_le : maxTimeshare < minIdle ∧ minIdle ≤ maxIdle ∧ maxIdle < 256
  prio_le : prioMin ≤ prioMax

namespace Priorities

variable (R : Priorities)

def timeshareRange : Nat := R.maxTimeshare - R.minTimeshare + 1

def nresv : Nat := (R.prioMax - R.prioMin).toNat

def interactRange : Nat := (R.timeshareRange - R.nresv) / 2

def batchRange : Nat := R.timeshareRange - R.interactRange

def minBatch : Nat := R.minTimeshare + R.interactRange

def maxBatch : Nat := R.maxTimeshare

end Priorities

/-- The values of an amd64 kernel. -/
def amd64Priorities : Priorities where
  minTimeshare := 120
  maxTimeshare := 223
  minIdle := 224
  maxIdle := 255
  prioMin := -20
  prioMax := 20
  timeshare_le := by decide
  idle_le := by decide
  prio_le := by decide

/-- RQ_NQS -/
abbrev rqNqs : Nat := 64

/-- RQ_PPQ -/
abbrev rqPpq : UInt8 := 4

/-- The four run queues of a `struct tdq`. -/
inductive RunqName
  | realtime
  | timeshare
  | lottery
  | idle
  deriving DecidableEq

/-- A pointer to a run queue: the CPU whose `struct tdq` holds it, and which one it is. -/
structure RunqRef where
  cpu : Nat
  name : RunqName
  deriving DecidableEq

inductive TdState
  | inactive
  | inhibited
  | canRun
  | runq
  | running
  deriving DecidableEq

/-- What the scheduler reads and writes of a thread, its `struct td_sched` and its process. -/
structure Thread where
  priority : UInt8
  basePri : UInt8
  userPri : UInt8
  baseUserPri : UInt8
  lendUserPri : UInt8
  /-- PRI_BASE(td_pri_class) == PRI_TIMESHARE -/
  timeshare : Bool
  state : TdState
  noload : Bool
  rqindex : UInt8
  tickets : UInt64
  /-- td_retval[0] -/
  retval : Int64
  pinned : Int
  cpuset : Nat → Bool
  /-- real user id of the process -/
  ruid : UInt32
  nice : Int8
  /-- ts_runq -/
  runq : Option RunqRef
  /-- TSF_XFERABLE -/
  xferable : Bool
  /-- ts_cpu -/
  cpu : Nat

/-- A `struct runq`. Threads are numbered, and each bucket is the list of its threads. -/
structure Runq where
  status : BitVec 64
  queues : Nat → List Nat
  numTickets : UInt64
  totalProc : Int
  maxTickets : UInt64
  minTickets : UInt64

structure Tdq where
  load : Int
  sysload : Int
  transferable : Int
  switchcnt : Int
  oldswitchcnt : Int
  lowpri : UInt8
  idx : UInt8
  ridx : UInt8
  runq : RunqName → Runq

/-- All threads, the `struct tdq` of each CPU, and the thread each CPU runs. -/
structure Sched where
  thread : Nat → Thread
  tdq : Nat → Tdq
  curthread : Nat → Nat

/-- The SRQ_* flags that decide where a thread is queued. -/
structure SrqFlags where
  preempted : Bool
  borrowing : Bool

namespace Sched

variable (s : Sched)

def runq (r : RunqRef) : Runq := (s.tdq r.cpu).runq r.name

def setThread (td : Nat) (t : Thread) : Sched := { s with thread := Function.update s.thread td t }

def setTdq (c : Nat) (t : Tdq) : Sched := { s with tdq := Function.update s.tdq c t }

def tickets (td : Nat) : UInt64 := (s.thread td).tickets

/-- The thread is on the run queue and in the bucket that its own fields name. -/
def Queued (td : Nat) : Prop :=
  ∃ r ∈ (s.thread td).runq, td ∈ (s.runq r).queues (s.thread td).rqindex.toNat

instance (td : Nat) : Decidable (s.Queued td) := by
  unfold Queued
  infer_instance

end Sched

end FreeBSDEdits
