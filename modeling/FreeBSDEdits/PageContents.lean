import FreeBSDEdits.GuardedRun
import FreeBSDEdits.PageDirtyWord

namespace FreeBSDEdits

/-- The bytes of a page frame; `none` is a byte that nobody has written. -/
abbrev Frame := Nat → Option UInt8

/-- `pmap`, as `vm_page.c` calls it, over the mappings of one page. `removeAll` tells whether a
mapping it removed was modified, in which case it calls `vm_page_dirty`. -/
structure Pmap (X : Type) where
  zeroPageArea : Frame → Nat → Nat → Frame
  isMapped : X → Bool
  isWriteMapped : X → Bool
  isModified : X → Bool
  clearModify : X → X
  removeAll : X → X × Bool

structure Pmap.Lawful {X : Type} (pm : Pmap X) : Prop where
  zeroPageArea_eq : ∀ c off size,
    pm.zeroPageArea c off size = fun j => if off ≤ j ∧ j < off + size then some 0 else c j
  clearModify_mapped : ∀ x, pm.isMapped (pm.clearModify x) = pm.isMapped x
  clearModify_modified : ∀ x, pm.isModified (pm.clearModify x) = false
  removeAll_mapped : ∀ x, pm.isMapped (pm.removeAll x).1 = false
  removeAll_modified : ∀ x, pm.isModified (pm.removeAll x).1 = false

/-- A page with its contents and the fields of its object that these functions read. `memory` is
the `struct vm_page`, of which the byte at `dirtyAddr` is the field `dirty`. -/
structure ContentPage (X : Type) where
  contents : Frame
  valid : UInt8
  memory : Nat → UInt8
  dirtyAddr : Nat
  nosync : Bool
  xbusied : Bool
  pindex : Nat
  vnode : Bool
  vnpSize : Nat
  refCount : Nat
  pmap : X

namespace ContentPage

variable {X : Type} (pm : Pmap X)

def dirty (s : ContentPage X) : UInt8 := s.memory s.dirtyAddr

def setDirty (s : ContentPage X) (dirty : UInt8) : ContentPage X :=
  { s with memory := Function.update s.memory s.dirtyAddr dirty }

/-- `x & ~(DEV_BSIZE - 1)` -/
def rounddown2 (x : Nat) : Nat := x / devBsize * devBsize

def zeroPageArea (s : ContentPage X) (off size : Nat) : ContentPage X :=
  { s with contents := pm.zeroPageArea s.contents off size }

/-- The start of `vm_page_set_valid_range` and of `vm_page_set_validclean`. -/
def zeroFragments (s : ContentPage X) (base size : Nat) : ContentPage X :=
  let frag := rounddown2 base
  let s := if frag ≠ base ∧ s.valid.toNat &&& 1 <<< (base >>> devBshift) = 0 then
    s.zeroPageArea pm frag (base - frag) else s
  let endoff := base + size
  let frag := rounddown2 endoff
  if frag ≠ endoff ∧ s.valid.toNat &&& 1 <<< (endoff >>> devBshift) = 0 then
    s.zeroPageArea pm endoff (devBsize - endoff % devBsize) else s

/-- `none` is a failed assertion, here and below. -/
def vmPageSetValidRange (s : ContentPage X) (base size : Nat) : Option (ContentPage X) :=
  if size = 0 then some s
  else
    let s := s.zeroFragments pm base size
    (vmPageBits base size).bind fun bits =>
      if ~~~s.valid &&& bits &&& s.dirty = 0 then some { s with valid := s.valid ||| bits }
      else none

def vmPageClearDirtyMask (s : ContentPage X) (bigEndian : Bool) (pagebits : UInt8) :
    ContentPage X :=
  if s.xbusied = false ∧ pm.isWriteMapped s.pmap = false then
    s.setDirty (s.dirty &&& ~~~pagebits)
  else { s with memory := clearDirtyInWord bigEndian s.memory s.dirtyAddr pagebits }

def vmPageSetValidclean (s : ContentPage X) (bigEndian : Bool) (base size : Nat) :
    Option (ContentPage X) :=
  if size = 0 then some s
  else
    let s := s.zeroFragments pm base size
    let oldvalid := s.valid
    (vmPageBits base size).map fun pagebits =>
      let s := { s with valid := s.valid ||| pagebits }
      if base = 0 ∧ size = pageSize then
        let s := if oldvalid = vmPageBitsAll then { s with pmap := pm.clearModify s.pmap } else s
        { s.setDirty 0 with nosync := false }
      else if oldvalid ≠ vmPageBitsAll then s.setDirty (s.dirty &&& ~~~pagebits)
      else s.vmPageClearDirtyMask pm bigEndian pagebits

def vmPageClearDirty (s : ContentPage X) (bigEndian : Bool) (base size : Nat) :
    Option (ContentPage X) :=
  (vmPageBits base size).map (s.vmPageClearDirtyMask pm bigEndian)

def vmPageDirty (s : ContentPage X) : Option (ContentPage X) :=
  if s.valid = vmPageBitsAll then some (s.setDirty vmPageBitsAll) else none

def pmapRemoveAll (s : ContentPage X) : Option (ContentPage X) :=
  let removed := pm.removeAll s.pmap
  let s := { s with pmap := removed.1 }
  if removed.2 then s.vmPageDirty else some s

def vmPageSetInvalid (s : ContentPage X) (base size : Nat) : Option (ContentPage X) :=
  let bits := if s.vnode ∧ base = 0 ∧ s.pindex * pageSize + size ≥ s.vnpSize then
    some vmPageBitsAll else vmPageBits base size
  bits.bind fun bits =>
    let removed := if s.refCount ≠ 0 ∧ s.valid = vmPageBitsAll ∧ bits ≠ 0 then s.pmapRemoveAll pm
      else some s
    removed.bind fun s =>
      if (bits = 0 ∧ s.valid = vmPageBitsAll) ∨ pm.isMapped s.pmap = false then
        some ({ s with valid := s.valid &&& ~~~bits }.setDirty (s.dirty &&& ~~~bits))
      else none

/-- One turn of the loop of `vm_page_zero_invalid`, with `b` and the frame. -/
def zeroInvalidTurn (valid : UInt8) (st : Nat × Frame) (i : Nat) : Nat × Frame :=
  if i = pageSize / devBsize ∨ valid.toNat &&& 1 <<< i ≠ 0 then
    (i + 1, if i > st.1 then
      pm.zeroPageArea st.2 (st.1 <<< devBshift) ((i - st.1) <<< devBshift) else st.2)
  else st

def vmPageZeroInvalid (s : ContentPage X) (setvalid : Bool) : ContentPage X :=
  let contents := ((List.range (pageSize / devBsize + 1)).foldl (zeroInvalidTurn pm s.valid)
    (0, s.contents)).2
  { s with contents := contents, valid := if setvalid then vmPageBitsAll else s.valid }

def vmPageTestDirty (s : ContentPage X) : Option (ContentPage X) :=
  if s.dirty ≠ vmPageBitsAll ∧ pm.isModified s.pmap then s.vmPageDirty else some s

end ContentPage

/-- The functions above, and what the rest of the kernel does to the page: a device fills part of
the frame; its users map it and write to it; its object and its busy state change. -/
inductive ContentOp (X : Type)
  | setValidRange (base size : Nat)
  | setValidclean (base size : Nat)
  | clearDirty (base size : Nat)
  | setInvalid (base size : Nat)
  | zeroInvalid (setvalid : Bool)
  | testDirty
  | dirty
  | fill (base : Nat) (data : List UInt8)
  | use (pmap : X) (writes : Frame)
  | outside (xbusied nosync : Bool) (pindex : Nat) (vnode : Bool) (vnpSize refCount : Nat)

namespace ContentPage

variable {X : Type} (pm : Pmap X) (bigEndian : Bool)

def step (s : ContentPage X) : ContentOp X → Option (ContentPage X)
  | .setValidRange base size => s.vmPageSetValidRange pm base size
  | .setValidclean base size => s.vmPageSetValidclean pm bigEndian base size
  | .clearDirty base size => s.vmPageClearDirty pm bigEndian base size
  | .setInvalid base size => s.vmPageSetInvalid pm base size
  | .zeroInvalid setvalid => some (s.vmPageZeroInvalid pm setvalid)
  | .testDirty => s.vmPageTestDirty pm
  | .dirty => s.vmPageDirty
  | .fill base data =>
    some { s with contents := fun j => if base ≤ j ∧ j < base + data.length then data[j - base]?
      else s.contents j }
  | .use pmap writes =>
    some { s with pmap := pmap, contents := fun j => (writes j).or (s.contents j) }
  | .outside xbusied nosync pindex vnode vnpSize refCount =>
    some { s with
      xbusied := xbusied
      nosync := nosync
      pindex := pindex
      vnode := vnode
      vnpSize := vnpSize
      refCount := refCount }

/-- Ranges lie in the page; a range becomes valid once its bytes are there; a page is mapped and
used only when all of it is valid and its object is referenced, and modified only when mapped. -/
def Asked (s : ContentPage X) : ContentOp X → Prop
  | .setValidRange base size | .setValidclean base size =>
    base + size ≤ pageSize ∧ ∀ j < base + size, base ≤ j → s.contents j ≠ none
  | .clearDirty base size | .setInvalid base size => base + size ≤ pageSize
  | .zeroInvalid _ | .testDirty | .fill _ _ => True
  | .dirty => s.valid = vmPageBitsAll
  | .use pmap _ =>
    (pm.isMapped pmap → s.valid = vmPageBitsAll ∧ s.refCount ≠ 0) ∧
      (pm.isModified pmap → pm.isMapped pmap)
  | .outside _ _ _ _ _ refCount => pm.isMapped s.pmap → refCount ≠ 0

instance (s : ContentPage X) (op : ContentOp X) : Decidable (s.Asked pm op) := by
  rcases op <;> unfold Asked <;> infer_instance

/-- What a new page is: nothing in it is valid, and it is not mapped. -/
structure Fresh (s : ContentPage X) : Prop where
  valid : s.valid = 0
  dirty : s.dirty = 0
  mapped : pm.isMapped s.pmap = false
  modified : pm.isModified s.pmap = false

abbrev Run (s₀ : ContentPage X) (h : List (ContentOp X × Unit)) (s : ContentPage X) : Prop :=
  GuardedRun (fun s op => (step pm bigEndian s op).map (·, ())) (fun _ => Asked pm) s₀ h s

end ContentPage

end FreeBSDEdits
