import FreeBSDEdits.SchedOps

namespace FreeBSDEdits

/-- The time constants of sched_initticks. `SCHED_TICK_MAX << SCHED_TICK_SHIFT` fits an int, and
`SCHED_SLP_RUN_FORK` is not zero. -/
structure Clock where
  hz : Nat
  /-- realstathz -/
  stathz : Nat
  one_lt_hz : 1 < hz
  hz_le : hz ≤ 190650
  stathz_pos : 0 < stathz

namespace Clock

variable (K : Clock)

def tickTarg : Nat := K.hz * 10

def tickMax : Nat := K.tickTarg + K.hz

def slpRunMax : Nat := K.hz * 5 * 1024

def slpRunFork : Nat := K.hz / 2 * 1024

def tickincr : Nat := if K.hz * 1024 / K.stathz = 0 then 1 else K.hz * 1024 / K.stathz

end Clock

/-- The times a `struct td_sched` keeps. -/
structure TdSched where
  slptime : UInt32
  runtime : UInt32
  ltick : Int32
  ftick : Int32
  ticks : Int32

/-- A thread with its times. -/
structure SchedThread extends Thread where
  sched : TdSched
  slptick : Int32
  /-- PRI_FIFO_BIT of td_pri_class -/
  fifo : Bool
  /-- TDF_BORROWING -/
  borrowing : Bool

/-- The division of two ints; `none` is a trap. -/
def intDiv (a b : Int32) : Option Int32 :=
  if b = 0 ∨ (a = Int32.minValue ∧ b = -1) then none else some (a / b)

/-- max() of libkern.h -/
def uMax (a b : UInt32) : UInt32 := if b < a then a else b

/-- min() of libkern.h -/
def uMin (a b : UInt32) : UInt32 := if a < b then a else b

def schedPctcpuUpdate (K : Clock) (t : Int32) (ts : TdSched) (run : Bool) : Option TdSched :=
  let kept :=
    if K.tickTarg ≤ (t - ts.ltick).toUInt32.toNat then
      some { ts with ticks := 0, ftick := t - .ofNat K.tickTarg }
    else if .ofNat K.tickMax ≤ t - ts.ftick then
      (intDiv ts.ticks (ts.ltick - ts.ftick)).map fun share =>
        { ts with
          ticks := share * (ts.ltick - (t - .ofNat K.tickTarg))
          ftick := t - .ofNat K.tickTarg }
    else some ts
  kept.map fun ts =>
    let ts := if run then { ts with ticks := ts.ticks + (t - ts.ltick) <<< 10 } else ts
    { ts with ltick := t }

/-- `interact` is sched_interact. -/
def schedInteractScore (interact : Int) (ts : TdSched) : Int :=
  if interact ≤ 50 ∧ ts.slptime ≤ ts.runtime then 50
  else if ts.slptime < ts.runtime then
    let div := uMax 1 (ts.runtime / 50)
    (50 + (50 - ts.slptime / div)).toInt32.toInt
  else if ts.runtime < ts.slptime then
    let div := uMax 1 (ts.slptime / 50)
    (ts.runtime / div).toInt32.toInt
  else if ts.runtime ≠ 0 then 50
  else 0

def schedInteractUpdate (K : Clock) (ts : TdSched) : TdSched :=
  let sum := (ts.runtime + ts.slptime).toNat
  if sum < K.slpRunMax then ts
  else if K.slpRunMax * 2 < sum then
    if ts.slptime < ts.runtime then { ts with runtime := .ofNat K.slpRunMax, slptime := 1 }
    else { ts with slptime := .ofNat K.slpRunMax, runtime := 1 }
  else if K.slpRunMax / 5 * 6 < sum then
    { ts with runtime := ts.runtime / 2, slptime := ts.slptime / 2 }
  else { ts with runtime := ts.runtime / 5 * 4, slptime := ts.slptime / 5 * 4 }

def schedInteractFork (K : Clock) (ts : TdSched) : TdSched :=
  let sum := (ts.runtime + ts.slptime).toInt32.toInt
  if K.slpRunFork < sum then
    let ratio := UInt32.ofNat (sum.toNat / K.slpRunFork)
    { ts with runtime := ts.runtime / ratio, slptime := ts.slptime / ratio }
  else ts

namespace Priorities

variable (R : Priorities)

def minInteract : Nat := R.minTimeshare

/-- PRI_MAX_INTERACT + 1 -/
def endInteract : Nat := R.minTimeshare + R.interactRange

def nhalf : Nat := R.nresv / 2

/-- SCHED_PRI_MIN -/
def schedPriMin : Nat := R.minBatch + R.nhalf

/-- SCHED_PRI_MAX -/
def schedPriMax : Nat := R.maxBatch - R.nhalf

/-- SCHED_PRI_RANGE -/
def schedPriRange : Nat := R.schedPriMax - R.schedPriMin + 1

end Priorities

/-- SCHED_TICK_TOTAL -/
def TdSched.tickTotal (K : Clock) (ts : TdSched) : UInt32 :=
  uMax (ts.ltick - ts.ftick).toUInt32 (.ofNat K.hz)

def roundup (x y : UInt32) : UInt32 := (x + (y - 1)) / y * y

/-- SCHED_PRI_TICKS; `none` is a division by zero. -/
def TdSched.priTicks (R : Priorities) (K : Clock) (ts : TdSched) : Option UInt32 :=
  let range := UInt32.ofNat R.schedPriRange
  let per := roundup (ts.tickTotal K) range / range
  if per = 0 then none else some ((ts.ticks >>> 10).toUInt32 / per)

/-- The priority that sched_priority computes; `none` is a trap or a failed KASSERT. -/
def computedPri (R : Priorities) (K : Clock) (interact : Int) (t : SchedThread) : Option Int :=
  let score := max 0 (schedInteractScore interact t.sched + t.nice.toInt)
  if score < interact then
    let pri := R.minInteract + (R.endInteract - R.minInteract : Int).tdiv interact * score
    if R.minInteract ≤ pri ∧ pri < R.endInteract then some pri else none
  else
    let share :=
      if t.sched.ticks ≠ 0 then
        (t.sched.priTicks R K).map fun n => uMin n (.ofNat (R.schedPriRange - 1))
      else some 0
    share.bind fun n =>
      let pri := R.schedPriMin + n.toNat + t.nice.toInt
      if R.minBatch ≤ pri ∧ pri ≤ R.maxBatch then some pri else none

def schedPriority (R : Priorities) (K : Clock) (interact : Int) (t : SchedThread) :
    Option SchedThread :=
  if t.timeshare then
    (computedPri R K interact t).map fun pri =>
      { t with toThread := schedUserPrio t.toThread (.ofInt pri) }
  else some t

end FreeBSDEdits
