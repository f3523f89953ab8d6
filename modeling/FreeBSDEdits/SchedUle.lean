import FreeBSDEdits.RunQueue

namespace FreeBSDEdits

def Thread.canMigrate (t : Thread) : Bool := t.pinned = 0

def Thread.canSched (t : Thread) (cpu : Nat) : Bool := t.cpuset cpu

/-- What sys_getuid does to the calling thread. -/
def sysGetuid (t : Thread) : Thread := { t with retval := .ofInt t.ruid.toNat }

/-- Where tdq_runq_add puts a thread of the timeshare queue. -/
def timesharePri (R : Priorities) (d : Tdq) (pri : UInt8) (flags : SrqFlags) : UInt8 :=
  if flags.borrowing = false ∧ flags.preempted = false then
    let pri := rqNqs * (pri.toNat - R.minBatch) / R.batchRange
    let pri : UInt8 := .ofNat ((pri + d.idx.toNat) % rqNqs)
    if d.ridx ≠ d.idx ∧ pri = d.ridx then (pri - 1) % 64 else pri
  else d.ridx

/-- The lottery branch of tdq_runq_add from the `runq_add_pri` on. -/
def lotteryAdd (rq : Runq) (td : Nat) (t : Thread) (flags : SrqFlags) : Runq × Thread :=
  let (rq, t) := runqAddPri rq td t 0 flags
  let tickets : UInt64 := .ofInt (20 + t.nice.toInt)
  let max := if tickets > rq.maxTickets ∨ rq.maxTickets = 0 then tickets else rq.maxTickets
  let min := if tickets < rq.minTickets ∨ rq.minTickets = 0 then tickets else rq.minTickets
  ({ rq with
      maxTickets := max
      minTickets := min
      totalProc := rq.totalProc + 1
      numTickets := rq.numTickets + tickets },
    { t with tickets := tickets })

def Tdq.setRunq (d : Tdq) (k : RunqName) (rq : Runq) : Tdq :=
  { d with runq := Function.update d.runq k rq }

/-- The thread is `td`; the CPU of the `struct tdq` is `c`. -/
def tdqRunqAdd (R : Priorities) (c : Nat) (d : Tdq) (td : Nat) (t : Thread) (flags : SrqFlags) :
    Tdq × Thread :=
  let pri := t.priority
  let t := { t with state := .runq }
  let (d, t) :=
    if t.canMigrate then
      ({ d with transferable := d.transferable + 1 }, { t with xferable := true })
    else (d, t)
  if pri.toNat < R.minBatch then
    let (rq, t) := runqAdd (d.runq .realtime) td { t with runq := some ⟨c, .realtime⟩ } flags
    (d.setRunq .realtime rq, t)
  else if pri.toNat ≤ R.maxBatch then
    let t := sysGetuid t
    if t.retval ≠ 0 then
      let (rq, t) := lotteryAdd (d.runq .lottery) td { t with runq := some ⟨c, .lottery⟩ } flags
      (d.setRunq .lottery rq, t)
    else
      let (rq, t) := runqAddPri (d.runq .timeshare) td { t with runq := some ⟨c, .timeshare⟩ }
        (timesharePri R d pri flags) flags
      (d.setRunq .timeshare rq, t)
  else
    let (rq, t) := runqAdd (d.runq .idle) td { t with runq := some ⟨c, .idle⟩ } flags
    (d.setRunq .idle rq, t)

/-- `none` stands for a NULL `ts_runq`. The queue it names is one of `d`: a thread on a run queue
is locked by the `struct tdq` of its CPU. -/
def tdqRunqRem (d : Tdq) (td : Nat) (t : Thread) : Option (Tdq × Thread) :=
  match t.runq with
  | none => none
  | some r =>
    let (d, t) :=
      if t.xferable then
        ({ d with transferable := d.transferable - 1 }, { t with xferable := false })
      else (d, t)
    if r.name = .timeshare then
      if d.idx ≠ d.ridx then
        let (rq, idx) := runqRemoveIdx (d.runq .timeshare) td t (some d.ridx)
        some ({ d.setRunq .timeshare rq with ridx := idx.getD d.ridx }, t)
      else some (d.setRunq .timeshare (runqRemoveIdx (d.runq .timeshare) td t none).1, t)
    else some (d.setRunq r.name (runqRemoveIdx (d.runq r.name) td t none).1, t)

def tdqLoadAdd (d : Tdq) (t : Thread) : Tdq :=
  { d with
    load := d.load + 1
    sysload := if t.noload then d.sysload else d.sysload + 1 }

def tdqLoadRem (d : Tdq) (t : Thread) : Tdq :=
  { d with
    load := d.load - 1
    sysload := if t.noload then d.sysload else d.sysload - 1 }

/-- The scan of tdq_choose for the largest number of tickets. -/
def maxScan (tickets : Nat → UInt64) (l : List Nat) : UInt64 :=
  l.foldl (fun m td => if tickets td > m then tickets td else m) 0

def minScan (tickets : Nat → UInt64) (l : List Nat) : UInt64 :=
  l.foldl (fun m td => if tickets td < m ∨ m = 0 then tickets td else m) 0

/-- The first scan of tdq_choose after a draw. It leaves its variable NULL, which is the variable
that holds the winner; `none` is a read through NULL. -/
def refreshMax (tickets : Nat → UInt64) (rq : Runq) (td : Option Nat) :
    Option (Runq × Option Nat) :=
  td.map fun w =>
    if tickets w = rq.maxTickets ∨ rq.maxTickets = 0 then
      ({ rq with maxTickets := maxScan tickets (rq.queues 0) }, none)
    else (rq, td)

def refreshMin (tickets : Nat → UInt64) (rq : Runq) (td : Option Nat) :
    Option (Runq × Option Nat) :=
  td.map fun w =>
    if tickets w = rq.minTickets then
      ({ rq with minTickets := minScan tickets (rq.queues 0) }, none)
    else (rq, td)

/-- What tdq_choose does with the winner; at the end it prints the winner's tickets. -/
def lotteryDrawn (tickets : Nat → UInt64) (rq : Runq) (td : Option Nat) :
    Option (Runq × Option Nat) :=
  if rq.totalProc = 0 then some ({ rq with maxTickets := 0, minTickets := 0 }, td)
  else do
    let (rq, td) ← refreshMax tickets rq td
    let (rq, td) ← refreshMin tickets rq td
    td.map fun w => (rq, some w)

def tdqChoose (tickets : Nat → UInt64) (d : Tdq) (random : UInt64) : Option (Tdq × Option Nat) :=
  match (d.runq .realtime).choose with
  | some td => some (d, some td)
  | none =>
    match (d.runq .timeshare).chooseFrom d.ridx.toNat with
    | some td => some (d, some td)
    | none =>
      match lotteryqChoose tickets (d.runq .lottery) random with
      | none => none
      | some (rq, none) => some (d.setRunq .lottery rq, (d.runq .idle).choose)
      | some (rq, some td) =>
        (lotteryDrawn tickets rq (some td)).map fun r => (d.setRunq .lottery r.1, r.2)

def tdqSetup : Tdq where
  load := 0
  sysload := 0
  transferable := 0
  switchcnt := 0
  oldswitchcnt := 0
  lowpri := 0
  idx := 0
  ridx := 0
  runq _ := .init

/-- `ctd` is the current thread of the CPU, also where the source passes NULL. -/
def tdqSetlowpri (thread : Nat → Thread) (d : Tdq) (ctd : Thread) (random : UInt64) :
    Option Tdq :=
  (tdqChoose (fun i => (thread i).tickets) d random).map fun (d, td) =>
    match td with
    | none => { d with lowpri := ctd.priority }
    | some td =>
      { d with
        lowpri := if (thread td).priority > ctd.priority then ctd.priority
          else (thread td).priority }

/-- The threads of a queue in the order in which runq_steal_from comes to them in one pass. -/
def Runq.listed (rq : Runq) (start : Nat) : List Nat :=
  (List.range' start (rqNqs - start)).flatMap fun i =>
    if rq.status.getLsbD i then rq.queues i else []

/-- The loops of runq_steal_from: a thread to return, or the last value of `first`. -/
def stealScan (ok : Nat → Bool) : Option Nat → List Nat → Option Nat × Option Nat
  | first, [] => (none, first)
  | first, td :: rest =>
    if first.isSome ∧ ok td then (some td, first) else stealScan ok (some td) rest

def runqStealFrom (ok : Nat → Bool) (rq : Runq) (start : Nat) : Option Nat :=
  let passes := rq.listed start ++ if start = 0 then [] else rq.listed 0
  match stealScan ok none passes with
  | (some td, _) => some td
  | (none, first) => first.filter ok

def runqSteal (ok : Nat → Bool) (rq : Runq) : Option Nat := (rq.listed 0).find? ok

def tdqSteal (thread : Nat → Thread) (d : Tdq) (cpu : Nat) : Option Nat :=
  let ok := fun td => (thread td).canMigrate && (thread td).canSched cpu
  match runqSteal ok (d.runq .realtime) with
  | some td => some td
  | none =>
    match runqStealFrom ok (d.runq .timeshare) d.ridx.toNat with
    | some td => some td
    | none =>
      match runqStealFrom ok (d.runq .lottery) d.ridx.toNat with
      | some td => some td
      | none => runqSteal ok (d.runq .idle)

/-- The part of sched_clock that concerns the queues. -/
def tdqClock (d : Tdq) : Tdq :=
  let d := { d with oldswitchcnt := d.switchcnt, switchcnt := d.load }
  if d.idx = d.ridx then
    let d := { d with idx := (d.idx + 1) % 64 }
    let d := if (d.runq .timeshare).queues d.ridx.toNat = [] then { d with ridx := d.idx } else d
    if (d.runq .lottery).queues d.ridx.toNat = [] then { d with ridx := d.idx } else d
  else d

end FreeBSDEdits
