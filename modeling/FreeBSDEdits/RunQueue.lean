import FreeBSDEdits.SchedState

namespace FreeBSDEdits

namespace Runq

variable (rq : Runq)

/-- runq_init, and lotteryq_init as well: its `bzero` clears what it set before. -/
def init : Runq where
  status := 0
  queues _ := []
  numTickets := 0
  totalProc := 0
  maxTickets := 0
  minTickets := 0

def setbit (pri : Nat) : Runq := { rq with status := rq.status ||| BitVec.twoPow 64 pri }

def clrbit (pri : Nat) : Runq := { rq with status := rq.status &&& ~~~BitVec.twoPow 64 pri }

/-- `none` stands for -1. -/
def findbit : Option Nat := (List.range rqNqs).find? (fun i => rq.status.getLsbD i)

def findbitFrom (pri : Nat) : Option Nat :=
  match (List.range' pri (rqNqs - pri)).find? (fun i => rq.status.getLsbD i) with
  | some i => some i
  | none => if pri = 0 then none else rq.findbit

def choose : Option Nat :=
  match rq.findbit with
  | some pri => (rq.queues pri).head?
  | none => none

def chooseFrom (idx : Nat) : Option Nat :=
  match rq.findbitFrom idx with
  | some pri => (rq.queues pri).head?
  | none => none

end Runq

def runqAddPri (rq : Runq) (td : Nat) (t : Thread) (pri : UInt8) (flags : SrqFlags) :
    Runq × Thread :=
  let rqh := rq.queues pri.toNat
  ({ rq.setbit pri.toNat with
      queues := Function.update rq.queues pri.toNat
        (if flags.preempted then td :: rqh else rqh ++ [td]) },
    { t with rqindex := pri })

def runqAdd (rq : Runq) (td : Nat) (t : Thread) (flags : SrqFlags) : Runq × Thread :=
  runqAddPri rq td t (t.priority / rqPpq) flags

/-- The last argument is what `idx` points to, if it is not NULL. -/
def runqRemoveIdx (rq : Runq) (td : Nat) (t : Thread) (idx : Option UInt8) :
    Runq × Option UInt8 :=
  let pri := t.rqindex
  let rqh := (rq.queues pri.toNat).erase td
  let rq := { rq with queues := Function.update rq.queues pri.toNat rqh }
  if rqh = [] then
    (rq.clrbit pri.toNat, idx.map (fun i => if i = pri then (pri + 1) % 64 else i))
  else (rq, idx)

/-- With what random() returned; `none` is a division by zero. -/
def rng (random maxnum : UInt64) : Option UInt64 :=
  if maxnum = 0 then none else some (random % maxnum + 1)

/-- The loop of lotteryq_choose over the queue. -/
def lotteryScan (tickets : Nat → UInt64) (winner : UInt64) : UInt64 → List Nat → Option Nat
  | _, [] => none
  | counter, td :: rest =>
    if counter + tickets td ≥ winner then some td
    else lotteryScan tickets winner (counter + tickets td) rest

/-- `none` is a trap. The thread that is chosen stays on the queue. -/
def lotteryqChoose (tickets : Nat → UInt64) (rq : Runq) (random : UInt64) :
    Option (Runq × Option Nat) :=
  if rq.totalProc ≠ 0 then
    match rng random rq.numTickets with
    | none => none
    | some winner =>
      match lotteryScan tickets winner 0 (rq.queues 0) with
      | some td =>
        some ({ rq with
          totalProc := rq.totalProc - 1
          numTickets := rq.numTickets - tickets td }, some td)
      | none => some (rq, none)
  else some (rq, none)

end FreeBSDEdits
