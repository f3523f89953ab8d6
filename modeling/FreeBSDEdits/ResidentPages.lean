import FreeBSDEdits.BusyLock
import FreeBSDEdits.OrderedQueue
import FreeBSDEdits.VmPage

namespace FreeBSDEdits

/-- `vm_radix`, as `vm_page.c` calls it. `insert` may fail for want of memory, `replace` panics
where nothing is to be replaced. -/
structure VmRadix (R Mem P : Type) where
  empty : R
  lookup : R → UInt64 → Option P
  lookupLe : R → UInt64 → Option P
  lookupGe : R → UInt64 → Option P
  insert : Mem → R → UInt64 → P → Option R
  remove : R → UInt64 → R × Option P
  replace : R → UInt64 → P → Option (R × P)

/-- A page index space with at most one page at an index. -/
structure VmRadix.Lawful {R Mem P : Type} (v : VmRadix R Mem P) : Prop where
  lookup_empty : ∀ i, v.lookup v.empty i = none
  lookup_insert : ∀ mem r i p r', v.lookup r i = none → v.insert mem r i p = some r' →
    ∀ j, v.lookup r' j = if j = i then some p else v.lookup r j
  remove_page : ∀ r i, (v.remove r i).2 = v.lookup r i
  lookup_remove : ∀ r i j, v.lookup (v.remove r i).1 j = if j = i then none else v.lookup r j
  replace_page : ∀ r i p old, v.lookup r i = some old → ∃ r', v.replace r i p = some (r', old) ∧
    ∀ j, v.lookup r' j = if j = i then some p else v.lookup r j
  lookupLe_iff : ∀ r i p, v.lookupLe r i = some p ↔
    ∃ j, j ≤ i ∧ v.lookup r j = some p ∧ ∀ k, k ≤ i → (v.lookup r k).isSome → k ≤ j
  lookupGe_iff : ∀ r i p, v.lookupGe r i = some p ↔
    ∃ j, i ≤ j ∧ v.lookup r j = some p ∧ ∀ k, i ≤ k → (v.lookup r k).isSome → j ≤ k

abbrev pqNone : UInt8 := 255

/-- The fields of `struct vm_page` that its place in an object touches. -/
structure ResidentPage (O : Type) where
  object : Option O
  pindex : UInt64
  valid : UInt8
  dirty : UInt8
  busyLock : UInt32
  queue : UInt8
  deriving DecidableEq

/-- `vnode` is `OBJT_VNODE`; `held` counts the `vhold`s not yet dropped, and `writeableDirty` the
calls of `vm_object_set_writeable_dirty`. -/
structure ResidentObject (R P : Type) where
  rtree : R
  memq : List P
  residentPageCount : Nat
  vnode : Bool
  held : Nat
  writeableDirty : Nat

structure Residency (R P O : Type) where
  page : P → ResidentPage O
  object : O → ResidentObject R P

namespace Residency

variable {R Mem P O : Type} [DecidableEq P] [DecidableEq O]

def setPage (s : Residency R P O) (m : P) (p : ResidentPage O) : Residency R P O :=
  { s with page := Function.update s.page m p }

def setObject (s : Residency R P O) (o : O) (x : ResidentObject R P) : Residency R P O :=
  { s with object := Function.update s.object o x }

/-- `vm_page_xunbusy_maybelocked` with nobody else at the busy lock; `none` is a failed assertion,
here and below. -/
def vmPageXunbusyMaybelocked (s : Residency R P O) (m : P) : Option (Residency R P O) :=
  if vmPageXbusied (s.page m).busyLock then
    some (s.setPage m { s.page m with busyLock := vpbUnbusied })
  else none

def vmPageDirtyKBI (s : Residency R P O) (m : P) : Option (Residency R P O) :=
  if (s.page m).valid = vmPageBitsAll then
    some (s.setPage m { s.page m with dirty := vmPageBitsAll })
  else none

variable (v : VmRadix R Mem P) (writeMapped : P → Bool)

/-- `mpred` is where the callers say that it is. -/
def predOk (s : Residency R P O) (o : O) (pindex : UInt64) : Option P → Bool
  | none => true
  | some q => (s.page q).object = some o ∧ (s.page q).pindex < pindex

/-- The page that the new one is to go before. -/
def msucc (s : Residency R P O) (o : O) : Option P → Option P
  | some q => TailQueue.next (s.object o).memq q
  | none => (s.object o).memq.head?

def vmPageInsertRadixdone (s : Residency R P O) (m : P) (o : O) (mpred : Option P) :
    Option (Residency R P O) :=
  if (s.page m).object = some o ∧ s.predOk o (s.page m).pindex mpred then
    let x := s.object o
    let memq := match mpred with
      | some q => TailQueue.insertAfter x.memq q m
      | none => m :: x.memq
    let count := x.residentPageCount + 1
    some (s.setObject o { x with
      memq := memq
      residentPageCount := count
      held := if count = 1 ∧ x.vnode then x.held + 1 else x.held
      writeableDirty := if writeMapped m then x.writeableDirty + 1 else x.writeableDirty })
  else none

/-- The answer is `true` where the C function returns 1, for want of memory. -/
def vmPageInsertAfter (mem : Mem) (s : Residency R P O) (m : P) (o : O) (pindex : UInt64)
    (mpred : Option P) : Option (Residency R P O × Bool) :=
  if (s.page m).object = none ∧ s.predOk o pindex mpred ∧
      (s.msucc o mpred).all (fun q => pindex < (s.page q).pindex) then
    let s := s.setPage m { s.page m with object := some o, pindex := pindex }
    match v.insert mem (s.object o).rtree pindex m with
    | none => some (s.setPage m { s.page m with object := none, pindex := 0 }, true)
    | some rtree =>
      let s := s.setObject o { s.object o with rtree := rtree }
      (vmPageInsertRadixdone writeMapped s m o mpred).map (·, false)
  else none

def vmPageInsert (mem : Mem) (s : Residency R P O) (m : P) (o : O) (pindex : UInt64) :
    Option (Residency R P O × Bool) :=
  vmPageInsertAfter v writeMapped mem s m o pindex (v.lookupLe (s.object o).rtree pindex)

def vmPageRemove (s : Residency R P O) (m : P) : Option (Residency R P O) :=
  match (s.page m).object with
  | none => some s
  | some o =>
    let unbusied := if vmPageXbusied (s.page m).busyLock then s.vmPageXunbusyMaybelocked m else some s
    unbusied.bind fun s =>
      let x := s.object o
      let mrem := v.remove x.rtree (s.page m).pindex
      if mrem.2 ≠ some m then none
      else
        let count := x.residentPageCount - 1
        let s := s.setObject o { x with
          rtree := mrem.1
          memq := x.memq.erase m
          residentPageCount := count
          held := if count = 0 ∧ x.vnode then x.held - 1 else x.held }
        some (s.setPage m { s.page m with object := none })

def vmPageLookup (s : Residency R P O) (o : O) (pindex : UInt64) : Option P :=
  v.lookup (s.object o).rtree pindex

def vmPageFindLeast (s : Residency R P O) (o : O) (pindex : UInt64) : Option P :=
  match (s.object o).memq.head? with
  | some m => if (s.page m).pindex < pindex then v.lookupGe (s.object o).rtree pindex else some m
  | none => none

def memqOf (s : Residency R P O) (m : P) : List P :=
  match (s.page m).object with
  | some o => (s.object o).memq
  | none => []

/-- The index arithmetic wraps, as in the C code. -/
def vmPageNext (s : Residency R P O) (m : P) : Option P :=
  match TailQueue.next (s.memqOf m) m with
  | some next => if (s.page next).pindex ≠ (s.page m).pindex + 1 then none else some next
  | none => none

def vmPagePrev (s : Residency R P O) (m : P) : Option P :=
  match TailQueue.prev (s.memqOf m) m with
  | some prev => if (s.page prev).pindex ≠ (s.page m).pindex - 1 then none else some prev
  | none => none

def vmPageReplace (s : Residency R P O) (mnew : P) (o : O) (pindex : UInt64) :
    Option (Residency R P O × P) :=
  if (s.page mnew).object = none ∧ (s.page mnew).queue = pqNone then
    let s := s.setPage mnew { s.page mnew with object := some o, pindex := pindex }
    (v.replace (s.object o).rtree pindex mnew).bind fun (rtree, mold) =>
      if (s.page mold).queue = pqNone then
        let x := s.object o
        let s := s.setObject o { x with
          rtree := rtree
          memq := (TailQueue.insertAfter x.memq mold mnew).erase mold }
        let s := s.setPage mold { s.page mold with object := none }
        (s.vmPageXunbusyMaybelocked mold).map fun s =>
          let x := s.object o
          (s.setObject o { x with
            writeableDirty := if writeMapped mnew then x.writeableDirty + 1
              else x.writeableDirty }, mold)
      else none
  else none

/-- The tree of the new object takes the page under its new index while the page still lies in the
old one. -/
def vmPageRename (mem : Mem) (s : Residency R P O) (m : P) (newObject : O) (newPindex : UInt64) :
    Option (Residency R P O × Bool) :=
  let mpred := v.lookupLe (s.object newObject).rtree newPindex
  if mpred.all (fun q => (s.page q).pindex ≠ newPindex) then
    let opidx := (s.page m).pindex
    let s := s.setPage m { s.page m with pindex := newPindex }
    match v.insert mem (s.object newObject).rtree newPindex m with
    | none => some (s.setPage m { s.page m with pindex := opidx }, true)
    | some rtree =>
      let s := s.setObject newObject { s.object newObject with rtree := rtree }
      let s := s.setPage m { s.page m with pindex := opidx }
      (vmPageRemove v s m).bind fun s =>
        let s := s.setPage m { s.page m with pindex := newPindex, object := some newObject }
        (vmPageInsertRadixdone writeMapped s m newObject mpred).bind fun s =>
          (s.vmPageDirtyKBI m).map (·, false)
  else none

end Residency

/-- The operations on an object's pages, and what the rest of the kernel does to a page without
moving it. -/
inductive ResidentOp (Mem P O : Type)
  | insert (mem : Mem) (m : P) (o : O) (pindex : UInt64)
  | remove (m : P)
  | rename (mem : Mem) (m : P) (o : O) (pindex : UInt64)
  | replace (mnew : P) (o : O) (pindex : UInt64)
  | outside (m : P) (p : ResidentPage O)

namespace Residency

variable {R Mem P O : Type} [DecidableEq P] [DecidableEq O] (v : VmRadix R Mem P)
  (writeMapped : P → Bool)

/-- The answer is the one of the C function, `false` where it has none. -/
def step (s : Residency R P O) : ResidentOp Mem P O → Option (Residency R P O × Bool)
  | .insert mem m o pindex => s.vmPageInsert v writeMapped mem m o pindex
  | .remove m => (s.vmPageRemove v m).map (·, false)
  | .rename mem m o pindex => s.vmPageRename v writeMapped mem m o pindex
  | .replace mnew o pindex => (s.vmPageReplace v writeMapped mnew o pindex).map fun r => (r.1, false)
  | .outside m p =>
    some (s.setPage m { p with object := (s.page m).object, pindex := (s.page m).pindex }, false)

/-- What the comments and assertions of the functions ask of their callers: the page to be put in
is in no object and its place is free; a page is renamed into another object, with all of it
valid; a replaced page is there, exclusive busied and off the paging queues. -/
def Asked (s : Residency R P O) : ResidentOp Mem P O → Prop
  | .insert _ m o pindex => (s.page m).object = none ∧ s.vmPageLookup v o pindex = none
  | .remove _ => True
  | .rename _ m o pindex =>
    (s.page m).object ≠ none ∧ (s.page m).object ≠ some o ∧ s.vmPageLookup v o pindex = none ∧
      (s.page m).valid = vmPageBitsAll
  | .replace mnew o pindex =>
    (s.page mnew).object = none ∧ (s.page mnew).queue = pqNone ∧
      (s.vmPageLookup v o pindex).any fun mold =>
        (s.page mold).queue = pqNone ∧ vmPageXbusied (s.page mold).busyLock
  | .outside _ _ => True

instance (s : Residency R P O) (op : ResidentOp Mem P O) : Decidable (s.Asked v op) := by
  rcases op <;> unfold Asked <;> infer_instance

/-- Pages in no object; `vnode` tells the objects that are vnodes. -/
def start (page : P → ResidentPage O) (vnode : O → Bool) : Residency R P O :=
  ⟨fun m => { page m with object := none }, fun o => ⟨v.empty, [], 0, vnode o, 0, 0⟩⟩

abbrev Run (page : P → ResidentPage O) (vnode : O → Bool)
    (h : List (ResidentOp Mem P O × Bool)) (s : Residency R P O) : Prop :=
  GuardedRun (step v writeMapped) (fun _ => Asked v) (start v page vnode) h s

end Residency

end FreeBSDEdits
