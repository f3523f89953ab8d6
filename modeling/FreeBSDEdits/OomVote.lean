import FreeBSDEdits.GuardedRun
import Mathlib.Algebra.BigOperators.Ring.Finset
import Mathlib.Data.Fintype.BigOperators

namespace FreeBSDEdits

/-- Where a page daemon is in `vm_pageout_mightbe_oom`: outside it, or before the access that the
constructor is named after. -/
inductive OomPc
  | idle
  | fetchadd
  | pageoutOom
  | subtract
deriving DecidableEq

/-- The fields of a memory domain that its page daemon votes with. -/
structure OomDomain where
  vmdOom : Bool
  vmdOomSeq : Int
  pc : OomPc
deriving DecidableEq

/-- Whether a pass of the daemon freed nothing of what it was short of. -/
def stalled (pageShortage startingPageShortage : Int) : Bool :=
  !decide (startingPageShortage ≤ 0 ∨ startingPageShortage ≠ pageShortage)

/-- `vm_pageout_mightbe_oom` up to its first access to the vote. -/
def vmPageoutMightbeOom (vmPageoutOomSeq : Int) (vmd : OomDomain)
    (pageShortage startingPageShortage : Int) : OomDomain :=
  let seq := if stalled pageShortage startingPageShortage then vmd.vmdOomSeq + 1 else 0
  if seq < vmPageoutOomSeq then
    if vmd.vmdOom then ⟨false, seq, .subtract⟩ else ⟨false, seq, .idle⟩
  -- The sequence is not followed until the condition is cleared.
  else if vmd.vmdOom then ⟨true, 0, .idle⟩
  else ⟨true, 0, .fetchadd⟩

structure OomVote (T : Type) where
  vmPageoutOomVote : Int
  vmPageoutOomSeq : Int
  vmd : T → OomDomain

inductive OomLabel (T : Type)
  | mightbeOom (d : T) (pageShortage startingPageShortage : Int)
  | fetchadd (d : T)
  | pageoutOom (d : T)
  | subtract (d : T)
  | sysctl (v : Int)
deriving DecidableEq

namespace OomVote

variable {T : Type} [DecidableEq T]

def put (s : OomVote T) (d : T) (v : OomDomain) : OomVote T :=
  { s with vmd := Function.update s.vmd d v }

/-- One access by the daemon of a domain, or a new value for the tunable. The reply says whether
`vm_pageout_oom` was started. -/
def step [Fintype T] (s : OomVote T) : OomLabel T → Option (OomVote T × Bool)
  | .mightbeOom d pageShortage startingPageShortage =>
    if (s.vmd d).pc = .idle then
      some (s.put d (vmPageoutMightbeOom s.vmPageoutOomSeq (s.vmd d) pageShortage
        startingPageShortage), false)
    else none
  | .fetchadd d =>
    if (s.vmd d).pc = .fetchadd then
      let oldVote := s.vmPageoutOomVote
      let s' := { s with vmPageoutOomVote := oldVote + 1 }
      if oldVote ≠ Fintype.card T - 1 then some (s'.put d { s.vmd d with pc := .idle }, false)
      else some (s'.put d { s.vmd d with pc := .pageoutOom }, true)
    else none
  | .pageoutOom d =>
    if (s.vmd d).pc = .pageoutOom then
      some (s.put d { s.vmd d with vmdOom := false, pc := .subtract }, false)
    else none
  | .subtract d =>
    if (s.vmd d).pc = .subtract then
      some ({ s with vmPageoutOomVote := s.vmPageoutOomVote - 1 }.put d
        { s.vmd d with pc := .idle }, false)
    else none
  | .sysctl v => some ({ s with vmPageoutOomSeq := v }, false)

/-- The domains as `vm_page_domain_init` leaves them, with the tunable of the boot. -/
def start (vmPageoutOomSeq : Int) : OomVote T := ⟨0, vmPageoutOomSeq, fun _ => ⟨false, 0, .idle⟩⟩

/-- The runs of the page daemons, with any interleaving of their accesses. -/
abbrev Run [Fintype T] (seq : Int) (h : List (OomLabel T × Bool)) (s : OomVote T) : Prop :=
  GuardedRun step (fun _ _ _ => True) (start seq) h s

/-- Whether each pass of a daemon stalled, the newest first. -/
def passes : List (OomLabel T × Bool) → T → List Bool
  | [], _ => []
  | (.mightbeOom d pageShortage startingPageShortage, _) :: h, e =>
    if d = e then stalled pageShortage startingPageShortage :: passes h e else passes h e
  | _ :: h, e => passes h e

def streak (ps : List Bool) : Nat := (ps.takeWhile id).length

/-- The votes a daemon has cast. -/
def votes : List (OomLabel T × Bool) → T → Nat
  | [], _ => 0
  | (.fetchadd d, _) :: h, e => votes h e + if d = e then 1 else 0
  | _ :: h, e => votes h e

/-- A lower bound of all values the tunable has had. -/
def Tuned (k : Nat) (seq : Int) (h : List (OomLabel T × Bool)) : Prop :=
  k ≤ seq ∧ ∀ v r, (.sysctl v, r) ∈ h → (k : Int) ≤ v

end OomVote

/-- The vote of a domain is in the tally: it was added and has yet to be taken away. -/
def OomDomain.counted (v : OomDomain) : Bool :=
  match v.pc with
  | .idle => v.vmdOom
  | .fetchadd => false
  | .pageoutOom | .subtract => true

end FreeBSDEdits
