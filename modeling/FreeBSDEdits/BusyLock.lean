import FreeBSDEdits.BusyWord
import FreeBSDEdits.GuardedRun
import Mathlib.Algebra.BigOperators.Group.Finset.Basic
import Mathlib.Algebra.GroupWithZero.Nat
import Mathlib.Data.Fintype.Basic

namespace FreeBSDEdits

inductive TrysbusyPc
  | load
  | cas (x : UInt32)
  deriving DecidableEq, Repr

inductive SunbusyPc
  | enter
  | load
  | casMore (x : UInt32)
  | casLast
  | lock (x : UInt32)
  | casWaiters (x : UInt32)
  | retry
  deriving DecidableEq, Repr

/-- `lockacq` is set where the function takes the page lock itself. -/
inductive XunbusyPc
  | hard
  | maybelocked
  | maybelockedCas
  | lock
  | locked (lockacq : Bool)
  | store (lockacq : Bool)
  deriving DecidableEq, Repr

inductive DowngradePc
  | enter
  | load (locked : Bool)
  | lock (x : UInt32)
  | cas (x : UInt32) (locked : Bool)
  | retry
  deriving DecidableEq, Repr

inductive BusySleepPc
  | enter
  | cas (x : UInt32)
  | msleep
  | asleep
  deriving DecidableEq, Repr

inductive FlashPc
  | enter
  | load
  | cas (x : UInt32)
  deriving DecidableEq, Repr

/-- Where a thread stands in the code; `wakeup` and `unlock` are the ends shared by several
functions. -/
inductive BusyPc
  | idle
  | trysbusy (p : TrysbusyPc)
  | sunbusy (p : SunbusyPc)
  | xunbusy (p : XunbusyPc)
  | downgrade (p : DowngradePc)
  | busySleep (nonshared : Bool) (p : BusySleepPc)
  | flash (p : FlashPc)
  | wakeup (unlock : Bool)
  | unlock
  | panicked
  deriving DecidableEq, Repr

/-- A page's busy lock and page lock among threads. `shares` and `xbusy` are not stored by the
code: they count the busies each thread has still to give back. -/
structure BusyPage (T : Type) where
  busyLock : UInt32
  owner : Option T
  pc : T → BusyPc
  shares : T → Nat
  xbusy : T → Bool

def vmPageSbusied (x : UInt32) : Bool := x &&& vpbBitShared != 0 && x != vpbUnbusied

def vmPageXbusied (x : UInt32) : Bool := x &&& vpbSingleExclusiver != 0

namespace BusyPage

variable {T : Type} [DecidableEq T]

def goto (s : BusyPage T) (t : T) (p : BusyPc) : BusyPage T :=
  { s with pc := Function.update s.pc t p }

def gainShare (s : BusyPage T) (t : T) : BusyPage T :=
  { s with shares := Function.update s.shares t (s.shares t + 1) }

def dropShare (s : BusyPage T) (t : T) : BusyPage T :=
  { s with shares := Function.update s.shares t (s.shares t - 1) }

def gainXbusy (s : BusyPage T) (t : T) : BusyPage T :=
  { s with xbusy := Function.update s.xbusy t true }

def dropXbusy (s : BusyPage T) (t : T) : BusyPage T :=
  { s with xbusy := Function.update s.xbusy t false }

def store (s : BusyPage T) (x : UInt32) : BusyPage T := { s with busyLock := x }

def acquire (s : BusyPage T) (t : T) : BusyPage T := { s with owner := some t }

def release (s : BusyPage T) : BusyPage T := { s with owner := none }

/-- `wakeup(m)`: every sleeper returns from `msleep` without the page lock (`PDROP`). -/
def wake (s : BusyPage T) : BusyPage T :=
  { s with pc := fun u => if s.pc u = .busySleep true .asleep ∨ s.pc u = .busySleep false .asleep
      then .idle else s.pc u }

/-- The second component is what the call returns in this step, if it returns a value. -/
abbrev Next (T : Type) := Option (BusyPage T × Option Bool)

def vmPageTrysbusy (s : BusyPage T) (t : T) : TrysbusyPc → Next T
  | .load =>
    if s.busyLock &&& vpbBitShared = 0 then some (s.goto t .idle, some false)
    else some (s.goto t (.trysbusy (.cas s.busyLock)), none)
  | .cas x =>
    if s.busyLock = x then
      some (((s.store (x + vpbOneSharer)).gainShare t).goto t .idle, some true)
    else some (s.goto t (.trysbusy .load), none)

def vmPageSunbusy (s : BusyPage T) (t : T) : SunbusyPc → Next T
  | .enter =>
    if s.owner = some t ∨ vmPageSbusied s.busyLock = false then some (s.goto t .panicked, none)
    else some (s.goto t (.sunbusy .load), none)
  | .load =>
    let x := s.busyLock
    if 1 < vpbSharers x then some (s.goto t (.sunbusy (.casMore x)), none)
    else if x &&& vpbBitWaiters = 0 then
      if x = vpbSharersWord 1 then some (s.goto t (.sunbusy .casLast), none)
      else some (s.goto t .panicked, none)
    else if x = vpbSharersWord 1 ||| vpbBitWaiters then some (s.goto t (.sunbusy (.lock x)), none)
    else some (s.goto t .panicked, none)
  | .casMore x =>
    if s.busyLock = x then
      some (((s.store (x - vpbOneSharer)).dropShare t).goto t .idle, none)
    else some (s.goto t (.sunbusy .load), none)
  | .casLast =>
    if s.busyLock = vpbSharersWord 1 then
      some (((s.store vpbUnbusied).dropShare t).goto t .idle, none)
    else some (s.goto t (.sunbusy .load), none)
  | .lock x =>
    if s.owner = none then some ((s.acquire t).goto t (.sunbusy (.casWaiters x)), none) else none
  | .casWaiters x =>
    if s.busyLock = x then
      some (((s.store vpbUnbusied).dropShare t).goto t (.wakeup true), none)
    else some (s.goto t (.sunbusy .retry), none)
  | .retry => some (s.release.goto t (.sunbusy .load), none)

/-- `vm_page_xunbusy_hard`, `vm_page_xunbusy_maybelocked` and the `vm_page_xunbusy_locked` that
both end in. -/
def vmPageXunbusy (s : BusyPage T) (t : T) : XunbusyPc → Next T
  | .hard =>
    if vmPageXbusied s.busyLock then some (s.goto t (.xunbusy .lock), none)
    else some (s.goto t .panicked, none)
  | .maybelocked =>
    if vmPageXbusied s.busyLock then some (s.goto t (.xunbusy .maybelockedCas), none)
    else some (s.goto t .panicked, none)
  | .maybelockedCas =>
    if s.busyLock = vpbSingleExclusiver then
      some (((s.store vpbUnbusied).dropXbusy t).goto t .idle, none)
    else if s.owner = some t then some (s.goto t (.xunbusy (.locked false)), none)
    else some (s.goto t (.xunbusy .lock), none)
  | .lock =>
    if s.owner = none then some ((s.acquire t).goto t (.xunbusy (.locked true)), none) else none
  | .locked lockacq =>
    if vmPageXbusied s.busyLock ∧ s.owner = some t then
      some (s.goto t (.xunbusy (.store lockacq)), none)
    else some (s.goto t .panicked, none)
  | .store lockacq =>
    some (((s.store vpbUnbusied).dropXbusy t).goto t (.wakeup lockacq), none)

def vmPageBusyDowngrade (s : BusyPage T) (t : T) : DowngradePc → Next T
  | .enter =>
    if vmPageXbusied s.busyLock then
      some (s.goto t (.downgrade (.load (s.owner = some t))), none)
    else some (s.goto t .panicked, none)
  | .load locked =>
    let x := s.busyLock &&& vpbBitWaiters
    if x ≠ 0 ∧ locked = false then some (s.goto t (.downgrade (.lock x)), none)
    else some (s.goto t (.downgrade (.cas x locked)), none)
  | .lock x =>
    if s.owner = none then some ((s.acquire t).goto t (.downgrade (.cas x false)), none) else none
  | .cas x locked =>
    if s.busyLock = vpbSingleExclusiver ||| x then
      let s' := ((s.store (vpbSharersWord 1)).dropXbusy t).gainShare t
      if x ≠ 0 then some (s'.goto t (.wakeup !locked), none) else some (s'.goto t .idle, none)
    else if x ≠ 0 ∧ locked = false then some (s.goto t (.downgrade .retry), none)
    else some (s.goto t (.downgrade (.load locked)), none)
  | .retry => some (s.release.goto t (.downgrade (.load false)), none)

def vmPageBusySleep (s : BusyPage T) (t : T) (nonshared : Bool) : BusySleepPc → Next T
  | .enter =>
    let x := s.busyLock
    if s.owner ≠ some t then some (s.goto t .panicked, none)
    else if x = vpbUnbusied ∨ (nonshared ∧ x &&& vpbBitShared ≠ 0) then
      some (s.goto t .unlock, none)
    else if x &&& vpbBitWaiters = 0 then some (s.goto t (.busySleep nonshared (.cas x)), none)
    else some (s.goto t (.busySleep nonshared .msleep), none)
  | .cas x =>
    if s.busyLock = x then
      some ((s.store (x ||| vpbBitWaiters)).goto t (.busySleep nonshared .msleep), none)
    else some (s.goto t .unlock, none)
  | .msleep => some (s.release.goto t (.busySleep nonshared .asleep), none)
  | .asleep => none

def vmPageFlash (s : BusyPage T) (t : T) : FlashPc → Next T
  | .enter =>
    if s.owner = some t then some (s.goto t (.flash .load), none)
    else some (s.goto t .panicked, none)
  | .load =>
    if s.busyLock &&& vpbBitWaiters = 0 then some (s.goto t .idle, none)
    else some (s.goto t (.flash (.cas s.busyLock)), none)
  | .cas x =>
    if s.busyLock = x then some ((s.store (x &&& ~~~vpbBitWaiters)).goto t (.wakeup false), none)
    else some (s.goto t (.flash .load), none)

/-- One access to shared memory by a thread that is inside a call. -/
def run (s : BusyPage T) (t : T) : Next T :=
  match s.pc t with
  | .idle => none
  | .trysbusy p => s.vmPageTrysbusy t p
  | .sunbusy p => s.vmPageSunbusy t p
  | .xunbusy p => s.vmPageXunbusy t p
  | .downgrade p => s.vmPageBusyDowngrade t p
  | .busySleep nonshared p => s.vmPageBusySleep t nonshared p
  | .flash p => s.vmPageFlash t p
  | .wakeup unlock => some (s.wake.goto t (if unlock then .unlock else .idle), none)
  | .unlock => some (s.release.goto t .idle, none)
  | .panicked => none

end BusyPage

inductive BusyCall (T : Type)
  | trysbusy
  | tryxbusy
  | sunbusy
  | xunbusy
  | xunbusyMaybelocked
  | busyDowngrade
  | busySleep (nonshared : Bool)
  | flash
  | lock
  | unlock
  | passShare (u : T)
  | passXbusy (u : T)

inductive BusyLabel (T : Type)
  | run (t : T)
  | call (t : T) (c : BusyCall T)

namespace BusyPage

variable {T : Type} [DecidableEq T]

/-- A call by a thread that keeps to the rules the functions' comments and assertions give: it
gives back a busy it has, and it holds the page lock where the function wants it and nowhere
else. A busy may be handed to another thread, as at the end of an I/O. -/
def call (s : BusyPage T) (t : T) : BusyCall T → Next T
  | .trysbusy => some (s.goto t (.trysbusy .load), none)
  | .tryxbusy =>
    if s.busyLock = vpbUnbusied then
      some ((s.store vpbSingleExclusiver).gainXbusy t, some true)
    else some (s, some false)
  | .sunbusy =>
    if 0 < s.shares t ∧ s.owner ≠ some t then some (s.goto t (.sunbusy .enter), none) else none
  | .xunbusy =>
    if s.xbusy t ∧ s.owner ≠ some t then
      if s.busyLock = vpbSingleExclusiver then some ((s.store vpbUnbusied).dropXbusy t, none)
      else some (s.goto t (.xunbusy .hard), none)
    else none
  | .xunbusyMaybelocked =>
    if s.xbusy t then some (s.goto t (.xunbusy .maybelocked), none) else none
  | .busyDowngrade => if s.xbusy t then some (s.goto t (.downgrade .enter), none) else none
  | .busySleep nonshared =>
    if s.owner = some t then some (s.goto t (.busySleep nonshared .enter), none) else none
  | .flash => if s.owner = some t then some (s.goto t (.flash .enter), none) else none
  | .lock => if s.owner = none then some (s.acquire t, none) else none
  | .unlock => if s.owner = some t then some (s.release, none) else none
  | .passShare u =>
    if 0 < s.shares t then some ((s.dropShare t).gainShare u, none) else none
  | .passXbusy u =>
    if s.xbusy t then some ((s.dropXbusy t).gainXbusy u, none) else none

def step (s : BusyPage T) : BusyLabel T → Next T
  | .run t => s.run t
  | .call t c => if s.pc t = .idle then s.call t c else none

def start : BusyPage T := ⟨vpbUnbusied, none, fun _ => .idle, fun _ => 0, fun _ => false⟩

variable [Fintype T]

def sharers (s : BusyPage T) : Nat := ∑ t, s.shares t

def xbusied (s : BusyPage T) : Bool := decide (∃ t, s.xbusy t = true)

/-- One more sharer still fits the count of the word. -/
def Fits (_ : List (BusyLabel T × Option Bool)) (s : BusyPage T) (_ : BusyLabel T) : Prop :=
  s.sharers + 1 < 2 ^ 29

/-- The runs of a page, with any interleaving of the threads' accesses. -/
abbrev Run (h : List (BusyLabel T × Option Bool)) (s : BusyPage T) : Prop :=
  GuardedRun step Fits start h s

end BusyPage

end FreeBSDEdits
