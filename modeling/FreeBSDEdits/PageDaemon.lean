import FreeBSDEdits.GuardedRun
import Mathlib.Logic.Function.Basic

namespace FreeBSDEdits

inductive AllocClass
  | normal
  | system
  | interrupt
deriving DecidableEq

/-- The thresholds on the number of free pages, and the threads of the page daemon's process. The
two tests are made on the free count alone. -/
structure FreeTargets (U : Type) where
  vFreeReserved : Nat
  vInterruptFreeMin : Nat
  vPageoutFreeMin : Nat
  vmPageCountMin : Nat → Bool
  vmPagingNeeded : Nat → Bool
  pageproc : U → Bool
  /-- The threads that run `vm_pageout_worker`. -/
  worker : U → Bool

/-- Where a thread is; each constructor but the sleeping ones stands before one access to what the
threads share. -/
inductive PagePc
  | idle
  | alloc (reqClass : AllocClass) (wait : Bool)
  | free (n : Nat)
  | freeWakeup
  | freeWaiters
  | vmWait
  | pageprocSleep
  | pageprocWaiting
  | waitTest
  | waitWanted
  | waitWakeup
  | waitNeeded
  | waitSleep
  | waiting
  | wakeTest
  | wakeWanted
  | wakeDaemon
  | lock
  | loopTest
  | loopWaiters
  | loopWanted
  | loopClear
  | loopReceive
  | loopNeeded
  | loopSleep
  | asleep
deriving DecidableEq

/-- The pcs inside the free queues mutex. -/
def PagePc.holds : PagePc → Bool
  | .idle | .pageprocWaiting | .waiting | .wakeTest | .wakeWanted | .wakeDaemon | .lock | .asleep =>
    false
  | _ => true

structure PageDaemon (U : Type) where
  vmPageoutWanted : Bool
  vmPagesNeeded : Bool
  vmPageoutPagesNeeded : Bool
  vFreeCount : Nat
  /-- The owner of `vm_page_queue_free_mtx`. -/
  owner : Option U
  pc : U → PagePc
  pass : U → Nat
  targetMet : U → Bool

inductive PageDaemonLabel (U : Type)
  | run (u : U)
  | alloc (u : U) (reqClass : AllocClass) (wait : Bool)
  | free (u : U) (n : Nat)
  | vmWait (u : U)
  | vmWaitpfault (u : U)
  | pagedaemonWakeup (u : U)
  | scanned (u : U) (targetMet : Bool)
  | timeout (u : U)
  | oomWakeup
deriving DecidableEq

namespace PageDaemon

variable {U : Type} [DecidableEq U]

def goto (s : PageDaemon U) (u : U) (p : PagePc) : PageDaemon U :=
  { s with pc := Function.update s.pc u p }

def acquire (s : PageDaemon U) (u : U) : PageDaemon U := { s with owner := some u }

def release (s : PageDaemon U) : PageDaemon U := { s with owner := none }

def setPass (s : PageDaemon U) (u : U) (n : Nat) : PageDaemon U :=
  { s with pass := Function.update s.pass u n }

/-- `wakeup` on a channel: every thread that sleeps there is runnable again. -/
def wakeup (s : PageDaemon U) (channel : PagePc) : PageDaemon U :=
  { s with pc := fun u => if s.pc u = channel then .idle else s.pc u }

/-- `wakeup(&vm_pageout_wanted)`: `mtx_sleep` returns zero, which makes the next pass the first. -/
def wakeupDaemons (s : PageDaemon U) : PageDaemon U :=
  { s.wakeup .asleep with pass := fun u => if s.pc u = .asleep then 1 else s.pass u }

/-- What a request may leave of the free pages. -/
def allocatable (c : FreeTargets U) (vFreeCount : Nat) (reqClass : AllocClass) : Bool :=
  decide (c.vFreeReserved < vFreeCount ∨
    (reqClass = .system ∧ c.vInterruptFreeMin < vFreeCount) ∨
    (reqClass = .interrupt ∧ 0 < vFreeCount))

/-- `vm_page_alloc_after` on the free count, with `vm_page_alloc_fail`. -/
def vmPageAlloc (c : FreeTargets U) (s : PageDaemon U) (u : U) (reqClass : AllocClass)
    (wait : Bool) : PageDaemon U × Bool :=
  -- The page daemon is allowed to dig deeper into the free page list.
  let reqClass := if c.pageproc u = true ∧ reqClass ≠ .interrupt then .system else reqClass
  if allocatable c s.vFreeCount reqClass then
    let freeCount := s.vFreeCount - 1
    (({ s with vFreeCount := freeCount }.release).goto u
      (if c.vmPagingNeeded freeCount then .wakeTest else .idle), true)
  else if wait then (s.goto u .vmWait, false)
  else (s.release.goto u .wakeTest, false)

/-- `vm_page_free_phys` of so many pages and the first half of `vm_page_free_wakeup`. -/
def vmPageFree (c : FreeTargets U) (s : PageDaemon U) (u : U) (n : Nat) : PageDaemon U :=
  let s' := { s with vFreeCount := s.vFreeCount + n }
  if s.vmPageoutPagesNeeded = true ∧ c.vPageoutFreeMin ≤ s'.vFreeCount then
    { s'.wakeup .pageprocWaiting with vmPageoutPagesNeeded := false }.goto u .freeWakeup
  else s'.goto u .freeWakeup

def waitersServed (c : FreeTargets U) (s : PageDaemon U) : Bool :=
  s.vmPagesNeeded && !c.vmPageCountMin s.vFreeCount

/-- One access by a thread inside one of the functions. The reply says whether a page was
allocated. -/
def run (c : FreeTargets U) (s : PageDaemon U) (u : U) : Option (PageDaemon U × Bool) :=
  match s.pc u with
  | .idle | .pageprocWaiting | .waiting | .asleep => none
  | .alloc reqClass wait => some (vmPageAlloc c s u reqClass wait)
  | .free n => some (vmPageFree c s u n, false)
  | .freeWakeup =>
    if waitersServed c s then some ({ s with vmPagesNeeded := false }.goto u .freeWaiters, false)
    else some (s.release.goto u .idle, false)
  | .freeWaiters => some ((s.wakeup .waiting).release.goto u .idle, false)
  -- `_vm_wait`
  | .vmWait =>
    if c.pageproc u then
      some ({ s with vmPageoutPagesNeeded := true }.goto u .pageprocSleep, false)
    else some (s.goto u .waitTest, false)
  | .pageprocSleep => some (s.release.goto u .pageprocWaiting, false)
  -- `pagedaemon_wait`
  | .waitTest =>
    if s.vmPageoutWanted = false ∨ s.vmPagesNeeded = false then some (s.goto u .waitWanted, false)
    else some (s.goto u .waitNeeded, false)
  | .waitWanted => some ({ s with vmPageoutWanted := true }.goto u .waitWakeup, false)
  | .waitWakeup => some (s.wakeupDaemons.goto u .waitNeeded, false)
  | .waitNeeded => some ({ s with vmPagesNeeded := true }.goto u .waitSleep, false)
  | .waitSleep => some (s.release.goto u .waiting, false)
  -- `pagedaemon_wakeup`, without the mutex
  | .wakeTest =>
    if s.vmPageoutWanted = false ∧ c.pageproc u = false then some (s.goto u .wakeWanted, false)
    else some (s.goto u .idle, false)
  | .wakeWanted => some ({ s with vmPageoutWanted := true }.goto u .wakeDaemon, false)
  | .wakeDaemon => some (s.wakeupDaemons.goto u .idle, false)
  -- the loop of `vm_pageout_worker`
  | .lock => if s.owner = none then some ((s.acquire u).goto u .loopTest, false) else none
  | .loopTest =>
    if waitersServed c s then some ({ s with vmPagesNeeded := false }.goto u .loopWaiters, false)
    else some (s.goto u .loopWanted, false)
  | .loopWaiters => some ((s.wakeup .waiting).goto u .loopWanted, false)
  | .loopWanted =>
    if s.vmPageoutWanted = true ∧ s.targetMet u = true then some (s.goto u .loopClear, false)
    else some (s.goto u .loopReceive, false)
  | .loopClear => some ({ s with vmPageoutWanted := false }.goto u .loopReceive, false)
  -- Might the page daemon receive a wakeup call?
  | .loopReceive =>
    if s.vmPageoutWanted then some ((s.release.setPass u (s.pass u + 1)).goto u .idle, false)
    else some (s.goto u .loopNeeded, false)
  | .loopNeeded =>
    if s.vmPagesNeeded then
      some ((s.release.setPass u (if s.pass u = 0 then 1 else s.pass u)).goto u .idle, false)
    else some (s.goto u .loopSleep, false)
  | .loopSleep => some (s.release.goto u .asleep, false)

/-- A thread outside the functions takes the mutex and goes in. -/
def enter (s : PageDaemon U) (u : U) (p : PagePc) : Option (PageDaemon U × Bool) :=
  if s.pc u = .idle ∧ s.owner = none then some ((s.acquire u).goto u p, false) else none

def step (c : FreeTargets U) (s : PageDaemon U) : PageDaemonLabel U → Option (PageDaemon U × Bool)
  | .run u => s.run c u
  | .alloc u reqClass wait => s.enter u (.alloc reqClass wait)
  | .free u n => s.enter u (.free n)
  | .vmWait u => s.enter u .vmWait
  | .vmWaitpfault u => s.enter u .waitTest
  | .pagedaemonWakeup u => if s.pc u = .idle then some (s.goto u .wakeTest, false) else none
  | .scanned u targetMet =>
    if s.pc u = .idle ∧ c.worker u = true then
      some ({ s with targetMet := Function.update s.targetMet u targetMet }.goto u .lock, false)
    else none
  | .timeout u => if s.pc u = .asleep then some ((s.setPass u 0).goto u .idle, false) else none
  -- `vm_pageout_oom` has killed a process
  | .oomWakeup => some (s.wakeup .waiting, false)

def start (c : FreeTargets U) (vFreeCount : Nat) : PageDaemon U where
  vmPageoutWanted := false
  vmPagesNeeded := false
  vmPageoutPagesNeeded := false
  vFreeCount := vFreeCount
  owner := none
  pc u := if c.worker u then .lock else .idle
  pass _ := 0
  targetMet _ := true

/-- The runs of allocating and freeing threads and page daemons, with any interleaving. -/
abbrev Run (c : FreeTargets U) (vFreeCount : Nat) (h : List (PageDaemonLabel U × Bool))
    (s : PageDaemon U) : Prop :=
  GuardedRun (step c) (fun _ _ _ => True) (start c vFreeCount) h s

/-- `u` runs alone for so many accesses. -/
inductive Alone (c : FreeTargets U) (u : U) : Nat → PageDaemon U → PageDaemon U → Prop
  | refl (s) : Alone c u 0 s s
  | run {n s s' s'' r} : s.run c u = some (s', r) → Alone c u n s' s'' → Alone c u (n + 1) s s''

end PageDaemon

end FreeBSDEdits
