import FreeBSDEdits.ResidentQueries

namespace FreeBSDEdits

abbrev pqLaundry : UInt8 := 2

/-- What the tests of `vm_pageout_cluster` look at, `dirty` as `vm_page_test_dirty` leaves it. -/
structure PageLook where
  busyLock : UInt32
  dirty : UInt8
  queue : UInt8
  holdCount : UInt16

/-- A page can be clustered only if it is not clean, busy, or held, and is in the laundry queue. -/
def PageLook.eligible (x : PageLook) : Bool :=
  x.busyLock = vpbUnbusied && x.dirty != 0 && x.queue = pqLaundry && x.holdCount = 0

/-- The variables of `vm_pageout_cluster`; the entries of `mc` are `none` until they are stored. -/
structure Cluster (P : Type) where
  mc : Nat → Option P
  pb : P
  ps : P
  pageoutCount : Nat
  pageBase : Nat
  ib : Nat
  is : Nat
  /-- How many pages have been looked at. -/
  tests : Nat

namespace Cluster

variable {P : Type} (c : Cluster P) (p : P)

/-- `mc[--page_base] = pb = p`, with the counts. -/
def back : Cluster P :=
  { mc := Function.update c.mc (c.pageBase - 1) (some p), pb := p, ps := c.ps,
    pageoutCount := c.pageoutCount + 1, pageBase := c.pageBase - 1, ib := c.ib + 1, is := c.is,
    tests := c.tests + 1 }

/-- `mc[page_base + pageout_count] = ps = p`, with the counts. -/
def front : Cluster P :=
  { mc := Function.update c.mc (c.pageBase + c.pageoutCount) (some p), pb := c.pb, ps := p,
    pageoutCount := c.pageoutCount + 1, pageBase := c.pageBase, ib := c.ib, is := c.is + 1,
    tests := c.tests + 1 }

end Cluster

/-- What stays as it is during a call: the pages of the object, which is locked, the page the call
is for, and what the tests find of a page, each at its time. -/
structure ClusterCall (R P O : Type) where
  pages : Residency R P O
  m : P
  size : UInt64
  vmPageoutPageCount : Nat
  look : Nat → P → PageLook

namespace ClusterCall

variable {R P O : Type} [DecidableEq P] (k : ClusterCall R P O)

def pindex : UInt64 := (k.pages.page k.m).pindex

/-- The reverse scan; `none` is a store outside the array. -/
def reverse (c : Cluster P) : Option (Cluster P) :=
  if _h : c.ib ≠ 0 ∧ c.pageoutCount < k.vmPageoutPageCount then
    if k.pindex < .ofNat c.ib then some { c with ib := 0 }
    else
      match k.pages.vmPagePrev c.pb with
      | none => some { c with ib := 0 }
      | some p =>
        if (k.look c.tests p).eligible then
          if c.pageBase = 0 then none
          -- At an alignment boundary the direction is switched, with `ib` as it is.
          else if (k.pindex - .ofNat ((c.back p).ib - 1)) % .ofNat k.vmPageoutPageCount = 0 then
            some (c.back p)
          else reverse (c.back p)
        else some { c with ib := 0, tests := c.tests + 1 }
  else some c
termination_by k.vmPageoutPageCount - c.pageoutCount
decreasing_by
  simp only [Cluster.back]
  omega

/-- The forward scan. -/
def forward (c : Cluster P) : Option (Cluster P) :=
  if _h : c.pageoutCount < k.vmPageoutPageCount ∧ k.pindex + .ofNat c.is < k.size then
    match k.pages.vmPageNext c.ps with
    | none => some c
    | some p =>
      if (k.look c.tests p).eligible then
        if c.pageBase + c.pageoutCount < 2 * k.vmPageoutPageCount then forward (c.front p) else none
      else some { c with tests := c.tests + 1 }
  else some c
termination_by k.vmPageoutPageCount - c.pageoutCount
decreasing_by
  simp only [Cluster.front]
  omega

/-- The label `more`, gone to at most so many times. -/
def more : Nat → Cluster P → Option (Cluster P)
  | 0, _ => none
  | n + 1, c =>
    (k.reverse c).bind fun c =>
      (k.forward c).bind fun c =>
        if c.ib ≠ 0 ∧ c.pageoutCount < k.vmPageoutPageCount then more n c else some c

end ClusterCall

end FreeBSDEdits
