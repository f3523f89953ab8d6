import FreeBSDEdits.PageMoves
import FreeBSDEdits.GuardedRun

namespace FreeBSDEdits

/-- The page queues, the free lists and the counts of free and of wired pages. -/
structure PageLife where
  vm : Vm
  free : List Nat
  /-- v_free_count and v_wire_count -/
  freeCount : Int
  wireCount : Int

/-- vm_page_alloc_check -/
def Page.allocCheck (p : Page) : Prop :=
  p.object = none ∧ p.queue = none ∧ p.wireCount = 0 ∧ p.holdCount = 0 ∧
    p.busyLock = .unbusied ∧ p.dirty = 0 ∧ p.memattr = vmMemattrDefault ∧ p.valid = 0

instance Page.decidableAllocCheck (p : Page) : Decidable p.allocCheck := by
  unfold Page.allocCheck
  infer_instance

/-- The `req` flags of vm_page_alloc that decide what becomes of the page. -/
structure AllocReq where
  object : Option Nat
  /-- OBJ_UNMANAGED -/
  unmanaged : Bool
  nobusy : Bool
  sbusy : Bool
  wired : Bool

def AllocReq.consistent (req : AllocReq) : Prop :=
  (req.object = none → req.sbusy = false) ∧ ¬(req.nobusy = true ∧ req.sbusy = true)

instance AllocReq.decidableConsistent (req : AllocReq) : Decidable req.consistent := by
  unfold AllocReq.consistent
  infer_instance

def AllocReq.busyLock (req : AllocReq) : BusyLock :=
  if req.sbusy then .shared
  else if req.nobusy ∨ req.object = none then .unbusied
  else .exclusive

/-- A page freshly taken from a free list. -/
def AllocReq.init (req : AllocReq) (p : Page) : Page :=
  { p with
    fictitious := false
    unholdfree := false
    unmanaged := req.object = none ∨ req.unmanaged = true
    busyLock := req.busyLock
    wireCount := if req.wired then 1 else p.wireCount
    actCount := 0 }

/-- The end of vm_page_alloc for a page of an object; the pager sets the attribute for device objects. -/
def Page.inheritMemattr (p : Page) (x : VmObject) : Page :=
  if x.memattr ≠ vmMemattrDefault ∧ x.fictitious = false then { p with memattr := x.memattr } else p

theorem Page.inheritMemattr_eq (p : Page) (x : VmObject) :
    ∃ attr, p.inheritMemattr x = { p with memattr := attr } := by
  unfold inheritMemattr
  split
  next => exact ⟨_, rfl⟩
  next => exact ⟨p.memattr, rfl⟩

namespace PageLife

variable (s : PageLife)

def page (m : Nat) : Page := s.vm.page m

def setPage (m : Nat) (p : Page) : PageLife := { s with vm := s.vm.setPage m p }

/-- vm_page_free_phys -/
def freePhys (m : Nat) : PageLife := { s with free := m :: s.free, freeCount := s.freeCount + 1 }

/-- vm_page_free_toq, which is vm_page_free -/
def freeToq (m : Nat) : Option PageLife :=
  (vmPageFreePrep s.vm m).map fun r =>
    if r.2 then freePhys { s with vm := r.1 } m else { s with vm := r.1 }

def hold (m : Nat) : PageLife :=
  s.setPage m { s.page m with holdCount := (s.page m).holdCount + 1 }

def unhold (m : Nat) : Option PageLife :=
  if (s.page m).holdCount = 0 then none
  else
    let s := s.setPage m { s.page m with holdCount := (s.page m).holdCount - 1 }
    if (s.page m).holdCount = 0 ∧ (s.page m).unholdfree = true then s.freeToq m else some s

def unholdPages : PageLife → List Nat → Option PageLife
  | s, [] => some s
  | s, m :: ms => (s.unhold m).bind fun s => unholdPages s ms

def wire (m : Nat) : Option PageLife :=
  (vmPageWire s.vm m).map fun vm =>
    let first := (s.page m).fictitious = false ∧ (s.page m).wireCount = 0
    { s with vm, wireCount := if first then s.wireCount + 1 else s.wireCount }

def unwire (m : Nat) (queue : Option PageQueue) : Option PageLife :=
  (vmPageUnwire s.vm m queue).map fun vm =>
    let last := (s.page m).fictitious = false ∧ (s.page m).wireCount = 1
    { s with vm, wireCount := if last then s.wireCount - 1 else s.wireCount }

/-- `modified` is what pmap_remove_all finds. -/
def tryToFree (m : Nat) (modified : Bool) : Option PageLife :=
  let p := s.page m
  if p.dirty ≠ 0 ∨ p.holdCount ≠ 0 ∨ p.wireCount ≠ 0 ∨ p.unmanaged = true ∨
      p.busyLock ≠ .unbusied then some s
  else if (∃ o ∈ p.object, (s.vm.object o).refCount ≠ 0) ∧ modified = true then
    some (s.setPage m { p with dirty := vmPageBitsAll })
  else s.freeToq m

/-- Takes `m`, which the physical allocator picked; `none` is a failed assertion. -/
def takeFree (m : Nat) : Option PageLife :=
  if m ∈ s.free ∧ (s.page m).allocCheck then
    some { s with free := s.free.erase m, freeCount := s.freeCount - 1 }
  else none

/-- `inserted` is whether vm_page_insert_after got the memory it needs. -/
def alloc (m : Nat) (req : AllocReq) (inserted : Bool) : Option PageLife :=
  if req.consistent then
    (s.takeFree m).bind fun s =>
      let s := s.setPage m (req.init (s.page m))
      let s := { s with wireCount := if req.wired then s.wireCount + 1 else s.wireCount }
      match req.object with
      | none => some s
      | some o =>
        if inserted then
          let s := s.setPage m { s.page m with object := some o }
          some (s.setPage m ((s.page m).inheritMemattr (s.vm.object o)))
        else
          let p := { s.page m with
            wireCount := if req.wired then 0 else (s.page m).wireCount
            unmanaged := true
            busyLock := .unbusied }
          let s := { s with wireCount := if req.wired then s.wireCount - 1 else s.wireCount }
          (s.setPage m p).freeToq m
  else none

def allocFreelist (m : Nat) (wired : Bool) : Option PageLife :=
  (s.takeFree m).map fun s =>
    let s := s.setPage m { s.page m with
      fictitious := false
      unholdfree := false
      unmanaged := true
      wireCount := if wired then 1 else (s.page m).wireCount }
    { s with wireCount := if wired then s.wireCount + 1 else s.wireCount }

end PageLife

/-- What is done to pages. The queue calls are those of `PageOp`. -/
inductive LifeOp
  | alloc (m : Nat) (req : AllocReq) (inserted : Bool)
  | allocFreelist (m : Nat) (wired : Bool)
  | free (m : Nat)
  | tryToFree (m : Nat) (modified : Bool)
  | hold (m : Nat)
  | unhold (m : Nat)
  | unholdPages (ms : List Nat)
  | wire (m : Nat)
  | unwire (m : Nat) (queue : Option PageQueue)
  | activate (m : Nat)
  | deactivate (m : Nat) (noreuse : Bool)
  | launder (m : Nat)
  | requeue (m : Nat)
  /-- vm_page_insert_after and vm_page_remove -/
  | insert (m : Nat) (o : Nat)
  | remove (m : Nat)
  | busy (m : Nat) (b : BusyLock)
  | contents (m : Nat) (valid dirty : UInt8)
  /-- pmap_page_set_memattr -/
  | memattr (m : Nat) (attr : UInt8)

def PageLife.next (s : PageLife) : LifeOp → Option PageLife
  | .alloc m req inserted => s.alloc m req inserted
  | .allocFreelist m wired => s.allocFreelist m wired
  | .free m => s.freeToq m
  | .tryToFree m modified => s.tryToFree m modified
  | .hold m => some (s.hold m)
  | .unhold m => s.unhold m
  | .unholdPages ms => s.unholdPages ms
  | .wire m => s.wire m
  | .unwire m queue => s.unwire m queue
  | .activate m => (vmPageActivate s.vm m).map fun vm => { s with vm }
  | .deactivate m noreuse => (vmPageDeactivateTo s.vm m noreuse).map fun vm => { s with vm }
  | .launder m => (vmPageLaunder s.vm m).map fun vm => { s with vm }
  | .requeue m => (vmPageRequeue s.vm m).map fun vm => { s with vm }
  | .insert m o => some (s.setPage m { s.page m with object := some o })
  | .remove m => some (s.setPage m (s.page m).remove)
  | .busy m b => some (s.setPage m { s.page m with busyLock := b })
  | .contents m valid dirty => some (s.setPage m { s.page m with valid, dirty })
  | .memattr m attr => some (s.setPage m { s.page m with memattr := attr })

/-- vm_page_init_page -/
def initPage (domain : Nat) : Page where
  object := none
  wireCount := 0
  busyLock := .unbusied
  holdCount := 0
  fictitious := false
  unholdfree := false
  unmanaged := false
  queue := none
  actCount := 0
  valid := 0
  dirty := 0
  timestampSec := 0
  timestampNsec := 0
  domain := domain
  memattr := vmMemattrDefault

/-- vm_page_initfake -/
def initFake (domain : Nat) (memattr : UInt8) : Page :=
  { initPage domain with
    fictitious := true
    unmanaged := true
    busyLock := .exclusive
    wireCount := 1
    memattr := memattr }

/-- The first `n` pages are physical, and all of them are free. -/
def PageLife.boot (n : Nat) (domain : Nat → Nat) (object : Nat → VmObject) (clock : Nanotime) :
    PageLife where
  vm := .boot (fun m => if m < n then initPage (domain m)
    else initFake (domain m) vmMemattrDefault) object clock
  free := List.range n
  freeCount := n
  wireCount := 0

/-- Only pages that are not free are used, and only free ones are handed out; a hold count does
not overflow; pages outside of objects are not busied exclusively. -/
def LifeOp.Proper (s : PageLife) : LifeOp → Prop
  | .alloc m req _ => m ∈ s.free ∧ req.consistent
  | .allocFreelist m _ => m ∈ s.free
  | .unhold _ => True
  | .unholdPages _ => True
  | .hold m => m ∉ s.free ∧ (s.page m).holdCount ≠ 65535
  | .busy m b => m ∉ s.free ∧ (b = .exclusive → (s.page m).object ≠ none)
  | .free m => m ∉ s.free
  | .tryToFree m _ => m ∉ s.free
  | .wire m => m ∉ s.free
  | .unwire m _ => m ∉ s.free
  | .activate m => m ∉ s.free
  | .deactivate m _ => m ∉ s.free
  | .launder m => m ∉ s.free
  | .requeue m => m ∉ s.free
  | .insert m _ => m ∉ s.free
  | .remove m => m ∉ s.free
  | .contents m _ _ => m ∉ s.free
  | .memattr m _ => m ∉ s.free

instance LifeOp.decidableProper (s : PageLife) (op : LifeOp) : Decidable (op.Proper s) := by
  rcases op <;> unfold LifeOp.Proper <;> infer_instance

def properLife (_ : List (LifeOp × Unit)) (s : PageLife) (op : LifeOp) : Prop := op.Proper s

instance decidableProperLife (h : List (LifeOp × Unit)) (s : PageLife) (op : LifeOp) :
    Decidable (properLife h s op) :=
  inferInstanceAs (Decidable (op.Proper s))

/-- The states that proper operations lead to. -/
def LifeRun (ok : List (LifeOp × Unit) → PageLife → LifeOp → Prop) (start : PageLife) :
    List (LifeOp × Unit) → PageLife → Prop :=
  GuardedRun (fun s op => (s.next op).map (·, ())) ok start

theorem lifeRun_of_replay (ok : List (LifeOp × Unit) → PageLife → LifeOp → Prop)
    [∀ h s op, Decidable (ok h s op)] (start : PageLife) (ops : List LifeOp)
    (check : List (LifeOp × Unit) → PageLife → Bool)
    (hp : (GuardedRun.replay (fun s op => (PageLife.next s op).map (·, ())) ok [] start ops).any
      (fun r => check r.1 r.2) = true) :
    ∃ h s, LifeRun ok start h s ∧ check h s = true :=
  GuardedRun.exists_of_replay hp

end FreeBSDEdits
