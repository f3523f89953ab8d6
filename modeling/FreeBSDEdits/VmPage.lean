import FreeBSDEdits.PageState
import Mathlib.Logic.Function.Basic

namespace FreeBSDEdits

/-- ACT_INIT and VM_PAGE_BITS_ALL -/
abbrev actInit : UInt8 := 5

abbrev vmPageBitsAll : UInt8 := 0xff

/-- VM_MEMATTR_DEFAULT of an amd64 kernel -/
abbrev vmMemattrDefault : UInt8 := 6

/-- vm_pagequeue_cnt_add -/
def Pagequeue.cntAdd (q : Pagequeue) (addend : Int) : Pagequeue := { q with cnt := q.cnt + addend }

/-- `none` is a page on no queue, as in the assertion of vm_page_dequeue. -/
def vmPageDequeueLocked (v : Vm) (m : Nat) : Option Vm :=
  match (v.page m).queue with
  | none => none
  | some k =>
    let d := v.home m k
    let pq := v.queue d k
    let v := v.setPage m { v.page m with queue := none }
    some (v.setQueue d k (.cntAdd { pq with pl := pq.pl.erase (.page m) } (-1)))

/-- The same with the lock of the queue taken here. -/
def vmPageDequeue (v : Vm) (m : Nat) : Option Vm := vmPageDequeueLocked v m

def vmPageEnqueue (v : Vm) (queue : PageQueue) (m : Nat) : Vm :=
  let d := v.home m queue
  let pq := v.queue d queue
  let v := v.setPage m { v.page m with queue := some queue }
  (v.setQueue d queue (.cntAdd { pq with pl := pq.pl ++ [.page m] } 1)).note
    (.tail m queue v.clock)

/-- `none` is a failed assertion, here and below. -/
def vmPageRequeue (v : Vm) (m : Nat) : Option Vm :=
  match (v.page m).queue with
  | none => none
  | some k =>
    let pq := v.queue (v.home m k) k
    some ((v.setPl (v.home m k) k (pq.pl.erase (.page m) ++ [.page m])).note (.tail m k v.clock))

def vmPageRemque (v : Vm) (m : Nat) : Option Vm :=
  if (v.page m).queue ≠ none then vmPageDequeue v m else some v

def Page.initAct (p : Page) : Page :=
  if p.actCount < actInit then { p with actCount := actInit } else p

def vmPageActivate (v : Vm) (m : Nat) : Option Vm :=
  if (v.page m).queue ≠ some .active then
    if (v.page m).wireCount = 0 ∧ (v.page m).unmanaged = false then do
      let v ← vmPageRemque (v.setPage m (v.page m).initAct) m
      let v := v.setPage m { v.page m with
        timestampSec := v.clock.sec
        timestampNsec := v.clock.nsec }
      some (vmPageEnqueue v .active m)
    else if (v.page m).queue = none then some v
    else none
  else some (v.setPage m (v.page m).initAct)

/-- vm_page_remove, as far as the page is concerned -/
def Page.remove (p : Page) : Page :=
  match p.object with
  | none => p
  | some _ =>
    { p with
      busyLock := if p.busyLock = .exclusive then .unbusied else p.busyLock
      object := none }

/-- What vm_page_free_prep does to the memory attribute of a page that can be freed. -/
def Page.restoreMemattr (p : Page) : Page :=
  if p.memattr ≠ vmMemattrDefault then { p with memattr := vmMemattrDefault } else p

theorem Page.restoreMemattr_eq (p : Page) :
    p.restoreMemattr = { p with memattr := vmMemattrDefault } := by
  unfold restoreMemattr
  split
  next => rfl
  next h => rw [← not_not.mp h]

/-- The flag tells whether the caller may return the page to the free list. -/
def vmPageFreePrep (v : Vm) (m : Nat) : Option (Vm × Bool) :=
  if (v.page m).unmanaged ∧ (v.page m).queue ≠ none then none
  else if (v.page m).busyLock = .shared then none
  else do
    let v ← vmPageRemque v m
    let v := v.setPage m (v.page m).remove
    if (v.page m).fictitious then some (v, false)
    else
      let v := v.setPage m { v.page m with valid := 0, dirty := 0 }
      if (v.page m).wireCount ≠ 0 then none
      else if (v.page m).holdCount ≠ 0 then
        if (v.page m).unholdfree then none
        else some (v.setPage m { v.page m with unholdfree := true }, false)
      else some (v.setPage m (v.page m).restoreMemattr, true)

/-- vm_page_free_toq, which is vm_page_free -/
def vmPageFree (v : Vm) (m : Nat) : Option Vm :=
  (vmPageFreePrep v m).map fun r => if r.2 then r.1.note (.freed m) else r.1

def vmPageWire (v : Vm) (m : Nat) : Option Vm :=
  if (v.page m).fictitious then if (v.page m).wireCount = 1 then some v else none
  else
    let unqueued :=
      if (v.page m).wireCount = 0 then
        if (v.page m).unmanaged ∧ (v.page m).queue ≠ none then none else vmPageRemque v m
      else some v
    unqueued.bind fun v =>
      let v := v.setPage m { v.page m with wireCount := (v.page m).wireCount + 1 }
      if (v.page m).wireCount ≠ 0 then some v else none

/-- `none` for the queue is PQ_NONE. -/
def vmPageUnwire (v : Vm) (m : Nat) (queue : Option PageQueue) : Option Vm :=
  if (v.page m).fictitious then if (v.page m).wireCount = 1 then some v else none
  else if (v.page m).wireCount > 0 then
    let v := v.setPage m { v.page m with wireCount := (v.page m).wireCount - 1 }
    if (v.page m).wireCount = 0 ∧ (v.page m).unmanaged = false ∧ (v.page m).object ≠ none then
      match queue with
      | some k => some (vmPageEnqueue v k m)
      | none => some v
    else some v
  else none

/-- _vm_page_deactivate -/
def vmPageDeactivateTo (v : Vm) (m : Nat) (noreuse : Bool) : Option Vm :=
  if (v.page m).queue = some .inactive ∧ noreuse = false then some v
  else if (v.page m).wireCount = 0 ∧ (v.page m).unmanaged = false then do
    let v ← vmPageRemque v m
    if noreuse then
      let d := (v.page m).domain
      let pq := v.queue d .inactive
      let v := v.setPage m { v.page m with queue := some .inactive }
      some (v.setQueue d .inactive
        (.cntAdd { pq with pl := TailQueue.insertBefore pq.pl (.inacthead d) (.page m) } 1))
    else some (vmPageEnqueue v .inactive m)
  else some v

def vmPageDeactivate (v : Vm) (m : Nat) : Option Vm := vmPageDeactivateTo v m false

def vmPageDeactivateNoreuse (v : Vm) (m : Nat) : Option Vm := vmPageDeactivateTo v m true

def vmPageLaunder (v : Vm) (m : Nat) : Option Vm :=
  if (v.page m).queue ≠ some .laundry then
    if (v.page m).wireCount = 0 ∧ (v.page m).unmanaged = false then
      (vmPageRemque v m).map fun v => vmPageEnqueue v .laundry m
    else if (v.page m).queue = none then some v
    else none
  else some v

def vmPageTestDirty (v : Vm) (m : Nat) (modified : Bool) : Vm :=
  if (v.page m).dirty ≠ vmPageBitsAll ∧ modified then
    v.setPage m { v.page m with dirty := vmPageBitsAll }
  else v

/-- The calls that move pages, and what the rest of the kernel does to pages and objects. -/
inductive PageOp
  | activate (m : Nat)
  | deactivate (m : Nat)
  | deactivateNoreuse (m : Nat)
  | launder (m : Nat)
  | wire (m : Nat)
  | unwire (m : Nat) (queue : Option PageQueue)
  | requeue (m : Nat)
  | free (m : Nat)
  | tick (now : Nanotime)
  /-- any change of the fields that do not decide where the page may be queued -/
  | outside (m : Nat) (p : Page)
  /-- the same, and wirings and flags, for a page on no queue -/
  | offQueue (m : Nat) (p : Page)
  | outsideObject (o : Nat) (x : VmObject)

/-- `new` in the fields that may change while the page is queued. -/
def Page.adopt (p new : Page) : Page :=
  { new with
    wireCount := p.wireCount
    fictitious := p.fictitious
    unmanaged := p.unmanaged
    queue := p.queue
    timestampSec := p.timestampSec
    timestampNsec := p.timestampNsec
    domain := p.domain }

def Page.adoptAll (p new : Page) : Page := { new with queue := p.queue, domain := p.domain }

def PageOp.run (v : Vm) : PageOp → Option Vm
  | .activate m => vmPageActivate v m
  | .deactivate m => vmPageDeactivate v m
  | .deactivateNoreuse m => vmPageDeactivateNoreuse v m
  | .launder m => vmPageLaunder v m
  | .wire m => vmPageWire v m
  | .unwire m queue => vmPageUnwire v m queue
  | .requeue m => vmPageRequeue v m
  | .free m => vmPageFree v m
  | .tick now => if v.clock.nanos ≤ now.nanos then some { v with clock := now } else none
  | .outside m p => some (v.setPage m ((v.page m).adopt p))
  | .offQueue m p => if (v.page m).queue = none then some (v.setPage m ((v.page m).adoptAll p)) else none
  | .outsideObject o x => some { v with object := Function.update v.object o x }

end FreeBSDEdits
