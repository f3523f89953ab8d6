import FreeBSDEdits.GuardedRun
import FreeBSDEdits.LaundrySqrt

namespace FreeBSDEdits

/-- What `vm_pageout_launder` does with a page of the laundry queue. -/
inductive LaundryVisit
  | passed
  | freed
  | requeued
  | cleaned (numpagedout : Int)
  | failed (deadlk : Bool)
deriving DecidableEq

/-- The scan of `vm_pageout_launder` over the pages it meets, with `launder` and `vnodes_skipped`
as it leaves them. -/
def launderScan : List LaundryVisit → Int → Int → Nat → Int × Nat
  | [], _, launder, vnodesSkipped => (launder, vnodesSkipped)
  | v :: vs, maxscan, launder, vnodesSkipped =>
    if 0 < maxscan ∧ 0 < launder then
      match v with
      | .cleaned numpagedout =>
        launderScan vs (maxscan - 1 - (numpagedout - 1)) (launder - numpagedout) vnodesSkipped
      | .failed deadlk =>
        launderScan vs (maxscan - 1) launder (if deadlk then vnodesSkipped + 1 else vnodesSkipped)
      | .passed | .freed | .requeued => launderScan vs (maxscan - 1) launder vnodesSkipped
    else (launder, vnodesSkipped)

/-- The pages laundered, and whether the syncer is sped up. -/
def vmPageoutLaunder (pqCnt : Int) (visits : List LaundryVisit) (launder : Int) : Int × Bool :=
  let scanned := launderScan visits pqCnt launder 0
  (launder - scanned.1, decide (0 < scanned.2 ∧ 0 < scanned.1))

inductive LaundryRequest
  | idle
  | background
  | shortfall
deriving DecidableEq

structure LaundryTunables where
  vmBackgroundLaunderTarget : UInt32
  vmBackgroundLaunderRate : UInt32
  vmBackgroundLaunderMax : UInt32
  vmPageoutPageCount : Nat
deriving DecidableEq

def vmLaunderRate : Int := 10
def vmInactScanRate : Int := 2

/-- `x * PAGE_SIZE / 1024` in unsigned integers, for pages of 4096 bytes. -/
def timesPageSize (x : UInt32) : UInt32 := x * 4096 / 1024

/-- An `int` assigned from an unsigned one. -/
def intOfUint (x : UInt32) : Int := x.toInt32.toInt

/-- The variables of `vm_pageout_laundry_worker`; `last_target` starts without a value. -/
structure LaundryWorker where
  target : Int
  lastTarget : Option Int
  shortfall : Int
  shortfallCycle : Int
  inShortfall : Bool
  lastLaunder : UInt32
deriving DecidableEq

/-- What one iteration of the worker reads of the rest of the kernel, and the tunables, which may be
set to other values between any two iterations. -/
structure LaundryInput where
  tunables : LaundryTunables
  wakeups : UInt32
  vmLaundryTarget : Int
  vInactiveCount : UInt32
  vFreeCount : UInt32
  vLaundryCount : UInt32
  pqCnt : Int
  visits : List LaundryVisit
  /-- After the sleep, if there was one. -/
  vmLaundryRequest : LaundryRequest
  vmLaundryTarget' : Int
  vmPageoutDeficit : Int
deriving DecidableEq

namespace LaundryWorker

def start : LaundryWorker := ⟨0, none, 0, 0, false, 0⟩

/-- A share of the target for this cycle; `none` is the division by zero. -/
def launderShare (w : LaundryWorker) (i : LaundryInput) : Option (LaundryWorker × Int) :=
  if w.shortfallCycle = 0 then none
  else some ({ w with lastLaunder := i.wakeups, shortfallCycle := w.shortfallCycle - 1 },
    w.target.tdiv w.shortfallCycle)

/-- The label `trybackground`; `none` is a read of `last_target` before its first assignment. -/
def trybackground (w : LaundryWorker) (i : LaundryInput) : Option (LaundryWorker × Int) :=
  let t := i.tunables
  let nclean := (i.vInactiveCount + i.vFreeCount).toUInt64
  let ndirty := i.vLaundryCount.toUInt64
  let target :=
    if w.target = 0 ∧ i.wakeups ≠ w.lastLaunder ∧
        nclean ≤ ndirty * (isqrt (i.wakeups - w.lastLaunder)).toUInt64 then
      intOfUint t.vmBackgroundLaunderTarget
    else w.target
  let rate := (intOfUint (timesPageSize t.vmBackgroundLaunderRate)).tdiv vmLaunderRate
  if 0 < target then
    if i.wakeups ≠ w.lastLaunder then
      some ({ w with target := target, lastLaunder := i.wakeups, lastTarget := some target },
        min rate target)
    else
      w.lastTarget.bind fun lastTarget =>
        if timesPageSize t.vmBackgroundLaunderMax ≤ UInt32.ofInt (lastTarget - target) then
          some ({ w with target := 0 }, min rate 0)
        else some ({ w with target := target }, min rate target)
  else some ({ w with target := target }, 0)

/-- The iteration up to the label `dolaundry`, with the number of pages to launder. -/
def determine (w : LaundryWorker) (i : LaundryInput) : Option (LaundryWorker × Int) :=
  if 0 < w.shortfall then
    launderShare { w with inShortfall := true, shortfallCycle := vmLaunderRate / vmInactScanRate,
                          target := w.shortfall } i
  else if w.inShortfall = false then trybackground w i
  else if w.shortfallCycle = 0 ∨ i.vmLaundryTarget ≤ 0 then
    -- The laundering run is over, or other activity has met the target.
    trybackground { w with inShortfall := false, target := 0 } i
  else launderShare w i

/-- The label `dolaundry` and the rest of the iteration, with the pages laundered. -/
def dolaundry (w : LaundryWorker) (launder : Int) (i : LaundryInput) : LaundryWorker × Int :=
  let laundered := if 0 < launder then (vmPageoutLaunder i.pqCnt i.visits launder).1 else 0
  -- `min` compares unsigned integers.
  let target := w.target - intOfUint (min (UInt32.ofInt laundered) (UInt32.ofInt w.target))
  if i.vmLaundryRequest = .shortfall ∧ (w.inShortfall = false ∨ w.shortfallCycle = 0) then
    ({ w with target := 0, shortfall := i.vmLaundryTarget' + i.vmPageoutDeficit }, laundered)
  else ({ w with target := target, shortfall := 0 }, laundered)

/-- One iteration; the reply has the pages laundered in the background. `none` is also a failed
assertion. -/
def iteration (w : LaundryWorker) (i : LaundryInput) : Option (LaundryWorker × Int) :=
  if 0 ≤ w.target ∧ 0 ≤ w.shortfallCycle then
    (determine w i).map fun d =>
      let r := dolaundry d.1 d.2 i
      (r.1, if d.1.inShortfall then 0 else r.2)
  else none

end LaundryWorker

/-- The target, an unsigned tunable, is in the range of the `int` it is assigned to, and so is the size
of a cluster. -/
structure LaundryTunables.Ok (t : LaundryTunables) : Prop where
  target : t.vmBackgroundLaunderTarget.toNat < 2 ^ 31
  pageCount : t.vmPageoutPageCount < 2 ^ 31

/-- A page is laundered in a cluster of so many at most, and the shortfall is an `int`. -/
structure LaundryInput.Ok (i : LaundryInput) : Prop where
  tunables : i.tunables.Ok
  visits : ∀ n : Int, .cleaned n ∈ i.visits → 1 ≤ n ∧ n ≤ i.tunables.vmPageoutPageCount
  shortfall : i.vmLaundryTarget' + i.vmPageoutDeficit < 2 ^ 31

namespace LaundryWorker

/-- The runs of the laundry thread, whatever the rest of the kernel does meanwhile. -/
abbrev Run (h : List (LaundryInput × Int)) (w : LaundryWorker) : Prop :=
  GuardedRun iteration (fun _ _ i => i.Ok) start h w

/-- The pages laundered in the background since the wakeup count last changed. -/
def sinceWakeup : List (LaundryInput × Int) → Int
  | [] => 0
  | (i, n) :: h => if (h.head?.map fun j => j.1.wakeups) = some i.wakeups then n + sinceWakeup h else n

end LaundryWorker

end FreeBSDEdits
