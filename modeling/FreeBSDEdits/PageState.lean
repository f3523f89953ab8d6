import FreeBSDEdits.TailQueue

namespace FreeBSDEdits

/-- The `struct timespec` of getnanotime. -/
structure Nanotime where
  sec : Int
  nsec : Int
  deriving DecidableEq

def Nanotime.nanos (t : Nanotime) : Int := 1000000000 * t.sec + t.nsec

/-- PQ_INACTIVE, PQ_ACTIVE and PQ_LAUNDRY; PQ_NONE is `none`. -/
inductive PageQueue
  | inactive
  | active
  | laundry
  deriving DecidableEq

/-- What is linked on a page queue: pages and marker pages. -/
inductive Link
  | page (m : Nat)
  /-- vmd_marker and vmd_inacthead of a domain -/
  | marker (d : Nat)
  | inacthead (d : Nat)
  /-- the marker on the stack of the lock functions -/
  | lockMarker
  deriving DecidableEq

inductive BusyLock
  | unbusied
  | shared
  | exclusive
  deriving DecidableEq

/-- What the queue code reads and writes of a `struct vm_page`. -/
structure Page where
  object : Option Nat
  wireCount : UInt32
  busyLock : BusyLock
  holdCount : UInt16
  /-- PG_FICTITIOUS and PG_UNHOLDFREE -/
  fictitious : Bool
  unholdfree : Bool
  /-- VPO_UNMANAGED -/
  unmanaged : Bool
  queue : Option PageQueue
  actCount : UInt8
  valid : UInt8
  dirty : UInt8
  timestampSec : Int
  timestampNsec : Int
  /-- vm_phys_domain -/
  domain : Nat
  /-- pmap_page_get_memattr, a `vm_memattr_t` -/
  memattr : UInt8
  deriving DecidableEq

structure VmObject where
  refCount : Int
  /-- OBJ_DEAD and OBJ_FICTITIOUS -/
  dead : Bool
  fictitious : Bool
  memattr : UInt8

/-- A `struct vm_pagequeue`. -/
structure Pagequeue where
  pl : List Link
  cnt : Int

/-- What happened to pages, for the history. -/
inductive PageEvent
  /-- put at the tail of a queue -/
  | tail (m : Nat) (k : PageQueue) (now : Nanotime)
  | freed (m : Nat)

/-- All pages and objects, the page queues of each domain, and what getnanotime returns. -/
structure Vm where
  page : Nat → Page
  object : Nat → VmObject
  queue : Nat → PageQueue → Pagequeue
  clock : Nanotime
  log : List PageEvent

def Page.stamp (p : Page) : Nanotime := ⟨p.timestampSec, p.timestampNsec⟩

def Link.toPage : Link → Option Nat
  | .page m => some m
  | _ => none

/-- The pages among the elements of a queue. -/
def linkPages (pl : List Link) : List Nat := pl.filterMap Link.toPage

namespace Vm

variable (v : Vm)

def setPage (m : Nat) (p : Page) : Vm := { v with page := Function.update v.page m p }

def setQueue (d : Nat) (k : PageQueue) (q : Pagequeue) : Vm :=
  { v with queue := Function.update v.queue d (Function.update (v.queue d) k q) }

def setPl (d : Nat) (k : PageQueue) (pl : List Link) : Vm :=
  v.setQueue d k { v.queue d k with pl := pl }

def note (e : PageEvent) : Vm := { v with log := e :: v.log }

def pages (d : Nat) (k : PageQueue) : List Nat := linkPages (v.queue d k).pl

/-- The domain whose page queue takes the page. -/
def home (m : Nat) (k : PageQueue) : Nat := if k = .laundry then 0 else (v.page m).domain

/-- The state the page daemons start from: empty queues, vmd_inacthead on the inactive ones. -/
def boot (page : Nat → Page) (object : Nat → VmObject) (clock : Nanotime) : Vm where
  page m := { page m with queue := none }
  object := object
  queue d k := ⟨if k = .inactive then [.inacthead d] else [], 0⟩
  clock := clock
  log := []

end Vm

end FreeBSDEdits
