import FreeBSDEdits.GuardedRun
import FreeBSDEdits.VmPage

namespace FreeBSDEdits

/-- What is decided outside in one turn of a scan loop. -/
structure Visit where
  /-- `none` when vm_page_trylock succeeds, else the calls of other threads until the page and the
  queue are locked -/
  pageLock : Option (List PageOp)
  /-- the same for the lock of the object -/
  objectLock : Option (List PageOp)
  /-- the calls of other threads while the page is in hand and the queue is not locked -/
  meanwhile : List PageOp
  /-- pmap_is_modified -/
  modified : Bool

/-- The locks are free and nothing else happens. -/
def Visit.plain : Visit := ⟨none, none, [], false⟩

def runOps : Vm → List PageOp → Option Vm
  | v, [] => some v
  | v, op :: ops => (op.run v).bind fun v => runOps v ops

/-- The way both lock functions drop and retake the lock of the queue, with a marker to hold the
place. The result is the next element, and whether nothing has changed. -/
def vmPageoutRelock (v : Vm) (m : Nat) (ops : List PageOp) (same : Page → Bool) :
    Option (Vm × Option Link × Bool) :=
  match (v.page m).queue with
  | none => none
  | some k =>
    let d := v.home m k
    let v := v.setPl d k (TailQueue.insertAfter (v.queue d k).pl (.page m) .lockMarker)
    (runOps v ops).bind fun v =>
      let pl := (v.queue d k).pl
      let unchanged := same (v.page m) ∧ TailQueue.prev pl .lockMarker = some (.page m)
      if unchanged ∧ (v.page m).queue ≠ some k then none
      else some (v.setPl d k (pl.erase .lockMarker), TailQueue.next pl .lockMarker,
        decide unchanged)

def vmPageoutFallbackObjectLock (v : Vm) (m : Nat) (ops : List PageOp) :
    Option (Vm × Option Link × Bool) :=
  let object := (v.page m).object
  vmPageoutRelock v m ops (fun p => p.object = object)

def vmPageoutPageLock (v : Vm) (m : Nat) (next : Option Link) (w : Visit) :
    Option (Vm × Option Link × Bool) :=
  match w.pageLock with
  | none => some (v, next, true)
  | some ops => vmPageoutRelock v m ops (fun _ => true)

/-- The loop over the inactive queue; `next` is the element that comes next. -/
structure InactiveScan where
  vm : Vm
  next : Option Link
  pageShortage : Int
  addlPageShortage : Int

namespace InactiveScan

/-- What becomes of a page in hand; the flag tells whether it is freed. -/
def dispose (v : Vm) (m o : Nat) (modified : Bool) : Option (Vm × Bool) :=
  if (v.page m).valid = 0 then (vmPageFree v m).map (·, true)
  else
    let v := if (v.object o).refCount ≠ 0 then vmPageTestDirty v m modified else v
    if (v.page m).dirty = 0 then (vmPageFree v m).map (·, true)
    else if (v.object o).dead = false then (vmPageLaunder v m).map (·, false)
    else some (v, false)

/-- From the insertion of vmd_marker to its removal. -/
def take (s : InactiveScan) (d m o : Nat) (w : Visit) : Option InactiveScan :=
  let pl := (s.vm.queue d .inactive).pl
  let v := s.vm.setPl d .inactive (TailQueue.insertAfter pl (.page m) (.marker d))
  (vmPageDequeueLocked v m).bind fun v => (runOps v w.meanwhile).bind fun v =>
    (dispose v m o w.modified).map fun r =>
      let pl := (r.1.queue d .inactive).pl
      { s with
        vm := r.1.setPl d .inactive (pl.erase (.marker d))
        next := TailQueue.next pl (.marker d)
        pageShortage := if r.2 then s.pageShortage - 1 else s.pageShortage }

def stuck (s : InactiveScan) : InactiveScan :=
  { s with addlPageShortage := s.addlPageShortage + 1 }

def examine (s : InactiveScan) (d m o : Nat) (w : Visit) : Option InactiveScan :=
  if (s.vm.page m).busyLock ≠ .unbusied then some s.stuck
  else if (s.vm.page m).holdCount ≠ 0 then none
  else s.take d m o w

/-- The body of the loop for a page. -/
def visit (s : InactiveScan) (d m : Nat) (w : Visit) : Option InactiveScan :=
  let p := s.vm.page m
  if p.queue ≠ some .inactive ∨ p.fictitious ∨ p.unmanaged then none
  else
    (vmPageoutPageLock s.vm m s.next w).bind fun (v, next, locked) =>
      let s := { s with vm := v, next := next }
      if locked = false then some s
      else if (v.page m).holdCount ≠ 0 then some s.stuck
      else
        match (v.page m).object, w.objectLock with
        | none, _ => none
        | some o, none => s.examine d m o w
        | some o, some ops =>
          (vmPageoutFallbackObjectLock v m ops).bind fun (v, next, unchanged) =>
            let s := { s with vm := v, next := next }
            if unchanged = false then some s
            else if (v.page m).holdCount ≠ 0 then some s.stuck
            else s.examine d m o w

/-- The first argument is `maxscan`. -/
def loop (d : Nat) : Nat → List Visit → InactiveScan → Option InactiveScan
  | 0, _, s => some s
  | n + 1, visits, s =>
    match s.next with
    | none => some s
    | some x =>
      if s.pageShortage > 0 then
        let s := { s with next := TailQueue.next (s.vm.queue d .inactive).pl x }
        match x with
        | .page m => (s.visit d m (visits.headD .plain)).bind (loop d n visits.tail)
        | _ => loop d n visits.tail s
      else some s

end InactiveScan

def inactiveScan (v : Vm) (d : Nat) (pageShortage : Int) (visits : List Visit) :
    Option InactiveScan :=
  let pq := v.queue d .inactive
  InactiveScan.loop d pq.cnt.toNat visits ⟨v, pq.pl.head?, pageShortage, 0⟩

/-- The loop over the active queue. -/
structure ActiveScan where
  vm : Vm
  next : Option Link
  scanned : Int
  inactqShortage : Int

namespace ActiveScan

/-- What the changed loop does with each page it has locked. -/
def take (s : ActiveScan) (m : Nat) (weight : Int) : Option ActiveScan :=
  (vmPageDequeueLocked s.vm m).bind fun v =>
    if s.inactqShortage ≤ 0 then (vmPageDeactivate v m).map fun v => { s with vm := v }
    else if (v.page m).dirty = 0 then
      (vmPageDeactivate v m).map fun v =>
        { s with
          vm := v
          inactqShortage := s.inactqShortage - weight }
    else
      (vmPageLaunder v m).map fun v =>
        { s with
          vm := v
          inactqShortage := s.inactqShortage - 1 }

def visit (s : ActiveScan) (m : Nat) (weight : Int) (w : Visit) : Option ActiveScan :=
  let p := s.vm.page m
  if p.queue ≠ some .active ∨ p.fictitious ∨ p.unmanaged then none
  else
    (vmPageoutPageLock s.vm m s.next w).bind fun (v, next, locked) =>
      let s := { s with vm := v, next := next }
      if locked = false then some s else s.take m weight

/-- The first argument of type `Nat` bounds the turns that `minScan` and `maxScan` allow. -/
def loop (d : Nat) (minScan maxScan weight : Int) :
    Nat → List Visit → ActiveScan → Option ActiveScan
  | 0, _, s => some s
  | n + 1, visits, s =>
    match s.next with
    | none => some s
    | some x =>
      if s.scanned < minScan ∨ s.inactqShortage > 0 ∧ s.scanned < maxScan then
        let s := { s with next := TailQueue.next (s.vm.queue d .active).pl x }
        match x with
        | .page m =>
          (s.visit m weight (visits.headD .plain)).bind fun s =>
            loop d minScan maxScan weight n visits.tail { s with scanned := s.scanned + 1 }
        | _ => loop d minScan maxScan weight n visits.tail { s with scanned := s.scanned + 1 }
      else some s

end ActiveScan

def activeScan (v : Vm) (d : Nat) (minScan inactqShortage weight : Int) (visits : List Visit) :
    Option ActiveScan :=
  let pq := v.queue d .active
  ActiveScan.loop d minScan pq.cnt weight (max minScan pq.cnt).toNat visits
    ⟨v, pq.pl.head?, 0, inactqShortage⟩

/-- What vm_pageout_scan gets from the page counts, the clock and the locks. -/
structure ScanArgs where
  pass : Nat
  /-- vm_paging_target() + deficit -/
  pageShortage : Int
  /-- inactq_shortage before addl_page_shortage is added and act_scan_laundry_weight multiplied -/
  inactqShortage : Int
  minScan : Int
  /-- act_scan_laundry_weight -/
  weight : Int
  inactiveVisits : List Visit
  activeVisits : List Visit

def vmPageoutScan (v : Vm) (d : Nat) (a : ScanArgs) : Option (Vm × Bool) :=
  let pageShortage := if a.pass > 0 then a.pageShortage else 0
  (inactiveScan v d pageShortage a.inactiveVisits).bind fun r =>
    (activeScan r.vm d a.minScan ((a.inactqShortage + r.addlPageShortage) * a.weight) a.weight
      a.activeVisits).map fun r' => (r'.vm, decide (r.pageShortage ≤ 0))

/-- The calls, and the loops of vm_pageout_scan also on their own. -/
inductive VmOp
  | page (op : PageOp)
  | inactiveScan (d : Nat) (pageShortage : Int) (visits : List Visit)
  | activeScan (d : Nat) (minScan inactqShortage weight : Int) (visits : List Visit)
  | pageoutScan (d : Nat) (a : ScanArgs)

/-- `none` is a panic or a failed assertion; the reply is what vm_pageout_scan returns. -/
def Vm.step (v : Vm) : VmOp → Option (Vm × Option Bool)
  | .page op => (op.run v).map (·, none)
  | .inactiveScan d pageShortage visits =>
    (FreeBSDEdits.inactiveScan v d pageShortage visits).map (·.vm, none)
  | .activeScan d minScan inactqShortage weight visits =>
    (FreeBSDEdits.activeScan v d minScan inactqShortage weight visits).map (·.vm, none)
  | .pageoutScan d a => (vmPageoutScan v d a).map fun r => (r.1, some r.2)

end FreeBSDEdits
