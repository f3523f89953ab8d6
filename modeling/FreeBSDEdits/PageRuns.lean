import FreeBSDEdits.PageMoves

namespace FreeBSDEdits

/-- The calls of other threads during one turn. -/
def Visit.calls (w : Visit) : List PageOp := w.pageLock.getD [] ++ w.objectLock.getD [] ++ w.meanwhile

/-- `T` allows these calls at any time. -/
def CallsWithin (T : Nanotime → Nanotime → Prop) (ops : List PageOp) : Prop :=
  ∀ op ∈ ops, ∀ v, op.Within T v

namespace Vm

variable {T : Nanotime → Nanotime → Prop} {v v' : Vm} {m d : Nat}

theorem runOps_moves (h : v.Represents) (hT : ∀ t, T t t) {ops : List PageOp}
    (hw : CallsWithin T ops) (hs : runOps v ops = some v') : Moves T v v' := by
  induction ops generalizing v with
  | nil =>
    cases hs
    exact .refl
  | cons op ops ih =>
    obtain ⟨v₁, h₁, h₂⟩ := Option.bind_eq_some_iff.mp hs
    have hm := PageOp.run_moves h hT (hw op List.mem_cons_self v) h₁
    exact hm.trans (ih (hm.represents h) (fun op hop => hw op (List.mem_cons_of_mem _ hop)) h₂)

theorem mark_insertAfter (v : Vm) (d : Nat) (k : PageQueue) (y : Link) {x : Link}
    (hx : x.toPage = none) : Move T v (v.setPl d k (TailQueue.insertAfter (v.queue d k).pl y x)) := by
  refine .mark (linkPages_insertAfter_marker hx _) (fun c hc => ?_)
  by_cases hy : y ∈ (v.queue d k).pl
  · exact (TailQueue.insertAfter_perm hy).mem_iff.mpr (List.mem_cons_of_mem _ hc)
  · rwa [TailQueue.insertAfter_of_not_mem hy]

theorem mark_erase {k : PageQueue} {x : Link} (hx : x.toPage = none) (hi : ∀ c, x ≠ .inacthead c)
    (v : Vm) : Move T v (v.setPl d k ((v.queue d k).pl.erase x)) :=
  .mark (linkPages_erase_marker hx _) (fun c hc => (List.mem_erase_of_ne (hi c).symm).mpr hc)

theorem relock_moves (h : v.Represents) (hT : ∀ t, T t t) {ops : List PageOp}
    (hw : CallsWithin T ops) {same : Page → Bool} {r : Vm × Option Link × Bool}
    (hs : vmPageoutRelock v m ops same = some r) : Moves T v r.1 := by
  unfold vmPageoutRelock at hs
  split at hs
  next => cases hs
  next k hk =>
    obtain ⟨v₁, h₁, he⟩ := Option.bind_eq_some_iff.mp hs
    have hx : Link.lockMarker.toPage = none := rfl
    have hm : Moves T v _ := .single (mark_insertAfter v (v.home m k) k (.page m) hx)
    have hm₁ := hm.trans (runOps_moves (hm.represents h) hT hw h₁)
    simp only at he
    split at he
    next => cases he
    next =>
      cases he
      exact hm₁.tail (mark_erase rfl (by simp) v₁)

theorem pageLock_moves (h : v.Represents) (hT : ∀ t, T t t) {w : Visit}
    (hw : CallsWithin T w.calls) {next : Option Link} {r : Vm × Option Link × Bool}
    (hs : vmPageoutPageLock v m next w = some r) : Moves T v r.1 := by
  unfold vmPageoutPageLock at hs
  split at hs
  next =>
    cases hs
    exact .refl
  next ops hl =>
    refine relock_moves h hT (fun op hop => hw op ?_) hs
    simp [Visit.calls, hl, hop]

theorem dispose_moves {o : Nat} {modified b : Bool}
    (hs : InactiveScan.dispose v m o modified = some (v', b)) : Moves T v v' := by
  have hdirty : ∀ b, Moves T v (vmPageTestDirty v m b) := by
    intro b
    unfold vmPageTestDirty
    split
    next => exact .single (.page ⟨rfl, rfl, rfl, rfl, rfl, rfl⟩)
    next => exact .refl
  unfold InactiveScan.dispose at hs
  split at hs
  next =>
    obtain ⟨v₁, h₁, he⟩ := Option.map_eq_some_iff.mp hs
    cases he
    exact free_moves h₁
  next =>
    obtain ⟨v₁, hm, hv₁⟩ : ∃ v₁, Moves T v v₁ ∧ v₁ = if (v.object o).refCount ≠ 0 then
        vmPageTestDirty v m modified else v := by
      refine ⟨_, ?_, rfl⟩
      split
      next => exact hdirty modified
      next => exact .refl
    simp only [← hv₁] at hs
    split at hs
    next =>
      obtain ⟨v₂, h₂, he⟩ := Option.map_eq_some_iff.mp hs
      cases he
      exact hm.trans (free_moves h₂)
    next =>
      split at hs
      next =>
        obtain ⟨v₂, h₂, he⟩ := Option.map_eq_some_iff.mp hs
        cases he
        exact hm.trans (launder_moves h₂)
      next =>
        cases hs
        exact hm

end Vm

namespace InactiveScan

variable {T : Nanotime → Nanotime → Prop} {s s' : InactiveScan} {m d o : Nat} {w : Visit}

theorem take_moves (h : s.vm.Represents) (hT : ∀ t, T t t) (hw : CallsWithin T w.calls)
    (hs : s.take d m o w = some s') : s.vm.Moves T s'.vm := by
  obtain ⟨v₁, h₁, he⟩ := Option.bind_eq_some_iff.mp hs
  obtain ⟨v₂, h₂, he⟩ := Option.bind_eq_some_iff.mp he
  obtain ⟨r, h₃, he⟩ := Option.map_eq_some_iff.mp he
  cases he
  have hx : (Link.marker d).toPage = none := rfl
  have hm : s.vm.Moves T _ := .single (Vm.mark_insertAfter s.vm d .inactive (.page m) hx)
  have hm₁ : s.vm.Moves T v₁ := hm.tail (.dequeue h₁)
  have hops : CallsWithin T w.meanwhile := fun op hop => hw op (by simp [Visit.calls, hop])
  have hm₂ := hm₁.trans (Vm.runOps_moves (hm₁.represents h) hT hops h₂)
  exact (hm₂.trans (Vm.dispose_moves h₃)).tail (Vm.mark_erase rfl (by simp) r.1)

theorem examine_moves (h : s.vm.Represents) (hT : ∀ t, T t t) (hw : CallsWithin T w.calls)
    (hs : s.examine d m o w = some s') : s.vm.Moves T s'.vm := by
  unfold examine at hs
  split at hs
  next =>
    cases hs
    exact .refl
  next =>
    split at hs
    next => cases hs
    next => exact take_moves h hT hw hs

theorem visit_moves (h : s.vm.Represents) (hT : ∀ t, T t t) (hw : CallsWithin T w.calls)
    (hs : s.visit d m w = some s') : s.vm.Moves T s'.vm := by
  unfold visit at hs
  simp only at hs
  split at hs
  next => cases hs
  next =>
    obtain ⟨⟨v₁, next₁, b⟩, h₁, he⟩ := Option.bind_eq_some_iff.mp hs
    have hm : s.vm.Moves T v₁ := Vm.pageLock_moves h hT hw h₁
    have hr := hm.represents h
    simp only at he
    split at he
    next =>
      cases he
      exact hm
    next =>
      split at he
      next =>
        cases he
        exact hm
      next =>
        split at he
        next => cases he
        next o _ _ => exact hm.trans (examine_moves hr hT hw he)
        next o ops _ hl =>
          obtain ⟨⟨v₂, next₂, b₂⟩, h₂, he⟩ := Option.bind_eq_some_iff.mp he
          have hops : CallsWithin T ops := fun op hop => hw op (by simp [Visit.calls, hl, hop])
          unfold vmPageoutFallbackObjectLock at h₂
          have hm₂ : v₁.Moves T v₂ := Vm.relock_moves hr hT hops h₂
          simp only at he
          split at he
          next =>
            cases he
            exact hm.trans hm₂
          next =>
            split at he
            next =>
              cases he
              exact hm.trans hm₂
            next => exact (hm.trans hm₂).trans (examine_moves (hm₂.represents hr) hT hw he)

theorem loop_moves (hT : ∀ t, T t t) {n : Nat} {visits : List Visit}
    (hw : ∀ w ∈ visits, CallsWithin T w.calls) (h : s.vm.Represents)
    (hs : loop d n visits s = some s') : s.vm.Moves T s'.vm := by
  induction n generalizing visits s with
  | zero =>
    cases hs
    exact .refl
  | succ n ih =>
    have htail : ∀ w ∈ visits.tail, CallsWithin T w.calls := fun w hm => hw w (List.mem_of_mem_tail hm)
    have hhead : CallsWithin T (visits.headD .plain).calls := by
      cases visits with
      | nil => exact fun op hop => absurd hop (by simp [Visit.calls, Visit.plain])
      | cons w ws => exact hw w List.mem_cons_self
    simp only [loop] at hs
    split at hs
    next =>
      cases hs
      exact .refl
    next x _ =>
      split at hs
      next =>
        split at hs
        next m _ =>
          obtain ⟨s₁, h₁, h₂⟩ := Option.bind_eq_some_iff.mp hs
          have hm : s.vm.Moves T s₁.vm := visit_moves (s := { s with
            next := TailQueue.next (s.vm.queue d .inactive).pl (.page m) }) h hT hhead h₁
          exact hm.trans (ih htail (hm.represents h) h₂)
        next => exact ih (s := { s with
            next := TailQueue.next (s.vm.queue d .inactive).pl x }) htail h hs
      next =>
        cases hs
        exact .refl

end InactiveScan

namespace ActiveScan

variable {T : Nanotime → Nanotime → Prop} {s s' : ActiveScan} {m d : Nat} {w : Visit} {weight : Int}

theorem take_moves (hs : s.take m weight = some s') : s.vm.Moves T s'.vm := by
  obtain ⟨v₁, h₁, he⟩ := Option.bind_eq_some_iff.mp hs
  have hm : s.vm.Moves T v₁ := .single (.dequeue h₁)
  split at he
  next =>
    obtain ⟨v₂, h₂, he⟩ := Option.map_eq_some_iff.mp he
    cases he
    exact hm.trans (Vm.deactivateTo_moves h₂)
  next =>
    split at he
    next =>
      obtain ⟨v₂, h₂, he⟩ := Option.map_eq_some_iff.mp he
      cases he
      exact hm.trans (Vm.deactivateTo_moves h₂)
    next =>
      obtain ⟨v₂, h₂, he⟩ := Option.map_eq_some_iff.mp he
      cases he
      exact hm.trans (Vm.launder_moves h₂)

theorem visit_moves (h : s.vm.Represents) (hT : ∀ t, T t t) (hw : CallsWithin T w.calls)
    (hs : s.visit m weight w = some s') : s.vm.Moves T s'.vm := by
  unfold visit at hs
  simp only at hs
  split at hs
  next => cases hs
  next =>
    obtain ⟨⟨v₁, next₁, b⟩, h₁, he⟩ := Option.bind_eq_some_iff.mp hs
    have hm : s.vm.Moves T v₁ := Vm.pageLock_moves h hT hw h₁
    simp only at he
    split at he
    next =>
      cases he
      exact hm
    next => exact hm.trans (take_moves he)

theorem loop_moves (hT : ∀ t, T t t) {n : Nat} {visits : List Visit} {minScan maxScan : Int}
    (hw : ∀ w ∈ visits, CallsWithin T w.calls) (h : s.vm.Represents)
    (hs : loop d minScan maxScan weight n visits s = some s') : s.vm.Moves T s'.vm := by
  induction n generalizing visits s with
  | zero =>
    cases hs
    exact .refl
  | succ n ih =>
    have htail : ∀ w ∈ visits.tail, CallsWithin T w.calls := fun w hm => hw w (List.mem_of_mem_tail hm)
    have hhead : CallsWithin T (visits.headD .plain).calls := by
      cases visits with
      | nil => exact fun op hop => absurd hop (by simp [Visit.calls, Visit.plain])
      | cons w ws => exact hw w List.mem_cons_self
    simp only [loop] at hs
    split at hs
    next =>
      cases hs
      exact .refl
    next x _ =>
      split at hs
      next =>
        split at hs
        next m _ =>
          obtain ⟨s₁, h₁, h₂⟩ := Option.bind_eq_some_iff.mp hs
          have hm : s.vm.Moves T s₁.vm := visit_moves (s := { s with
            next := TailQueue.next (s.vm.queue d .active).pl (.page m) }) h hT hhead h₁
          exact hm.trans (ih (s := { s₁ with scanned := s₁.scanned + 1 }) htail (hm.represents h) h₂)
        next => exact ih (s := { s with
            next := TailQueue.next (s.vm.queue d .active).pl x
            scanned := s.scanned + 1 }) htail h hs
      next =>
        cases hs
        exact .refl

end ActiveScan

/-- What `T` has to allow for an operation. -/
def VmOp.Within (T : Nanotime → Nanotime → Prop) (v : Vm) : VmOp → Prop
  | .page op => op.Within T v
  | .inactiveScan _ _ visits | .activeScan _ _ _ _ visits => ∀ w ∈ visits, CallsWithin T w.calls
  | .pageoutScan _ a =>
    (∀ w ∈ a.inactiveVisits, CallsWithin T w.calls) ∧ ∀ w ∈ a.activeVisits, CallsWithin T w.calls

/-- Every operation is a chain of moves. -/
theorem Vm.step_moves {T : Nanotime → Nanotime → Prop} {v v' : Vm} {op : VmOp} {r : Option Bool}
    (h : v.Represents) (hT : ∀ t, T t t) (hw : op.Within T v) (hs : v.step op = some (v', r)) :
    v.Moves T v' := by
  cases op with
  | page op =>
    obtain ⟨v₁, h₁, he⟩ := Option.map_eq_some_iff.mp hs
    cases he
    exact PageOp.run_moves h hT hw h₁
  | inactiveScan d pageShortage visits =>
    obtain ⟨s, h₁, he⟩ := Option.map_eq_some_iff.mp hs
    cases he
    exact InactiveScan.loop_moves hT hw h h₁
  | activeScan d minScan inactqShortage weight visits =>
    obtain ⟨s, h₁, he⟩ := Option.map_eq_some_iff.mp hs
    cases he
    exact ActiveScan.loop_moves hT hw h h₁
  | pageoutScan d a =>
    obtain ⟨q, h₁, he⟩ := Option.map_eq_some_iff.mp hs
    cases he
    obtain ⟨s, h₂, he⟩ := Option.bind_eq_some_iff.mp h₁
    obtain ⟨s', h₃, he⟩ := Option.map_eq_some_iff.mp he
    cases he
    have hm : v.Moves T s.vm := InactiveScan.loop_moves hT hw.1 h h₂
    exact hm.trans (ActiveScan.loop_moves hT hw.2 (hm.represents h) h₃)

theorem Vm.boot_represents (page : Nat → Page) (object : Nat → VmObject) (clock : Nanotime) :
    (boot page object clock).Represents := by
  have hempty : ∀ d k, (boot page object clock).pages d k = [] := by
    intro d k
    cases k <;> rfl
  refine ⟨fun d k m => ?_, fun _ _ => rfl, fun d k => ?_, fun d => List.mem_cons_self⟩
  · rw [hempty]
    exact (if_neg (by simp [boot])).symm
  · rw [hempty]
    rfl

abbrev VmHistory := List (VmOp × Option Bool)

/-- The states the calls lead to from empty queues when every step satisfies `ok`. -/
def VmRun (ok : VmHistory → Vm → VmOp → Prop) (page : Nat → Page) (object : Nat → VmObject)
    (clock : Nanotime) : VmHistory → Vm → Prop :=
  GuardedRun Vm.step ok (.boot page object clock)

def anyOp (_ : VmHistory) (_ : Vm) (_ : VmOp) : Prop := True

instance : ∀ h v op, Decidable (anyOp h v op) := fun _ _ _ => inferInstanceAs (Decidable True)

section

variable {ok : VmHistory → Vm → VmOp → Prop} {page : Nat → Page} {object : Nat → VmObject}
  {clock : Nanotime} {h : VmHistory} {v : Vm}

theorem VmOp.within_any (v : Vm) (op : VmOp) : op.Within (fun _ _ => True) v := by
  have hc : ∀ ops, CallsWithin (fun _ _ => True) ops := fun _ op _ v => by
    cases op with
    | unwire m queue => exact fun _ _ _ _ _ => trivial
    | requeue m => exact fun _ => trivial
    | _ => trivial
  cases op with
  | page op => exact hc [op] op List.mem_cons_self v
  | inactiveScan | activeScan => exact fun _ _ => hc _
  | pageoutScan => exact ⟨fun _ _ => hc _, fun _ _ => hc _⟩

theorem VmRun.represents (hr : VmRun ok page object clock h v) : v.Represents := by
  unfold VmRun at hr
  refine GuardedRun.invariant (P := fun _ v => v.Represents) (Vm.boot_represents page object clock)
    (fun _ v op v' _ _ hv _ hs => ?_) hr
  exact (Vm.step_moves hv (fun _ => trivial) (op.within_any v) hs).represents hv

theorem vmRun_of_replay (ok : VmHistory → Vm → VmOp → Prop) [∀ h v op, Decidable (ok h v op)]
    (page : Nat → Page) (object : Nat → VmObject) (ops : List VmOp) (check : Vm → Bool)
    (hp : (GuardedRun.replay Vm.step ok [] (.boot page object ⟨1, 0⟩) ops).any
      (fun r => check r.2) = true) :
    ∃ h v, VmRun ok page object ⟨1, 0⟩ h v ∧ check v = true := GuardedRun.exists_of_replay hp

end

/-- A managed page of object 0, valid and clean, in domain 0. -/
def plainPage : Page where
  object := some 0
  wireCount := 0
  busyLock := .unbusied
  holdCount := 0
  fictitious := false
  unholdfree := false
  unmanaged := false
  queue := none
  actCount := 0
  valid := vmPageBitsAll
  dirty := 0
  timestampSec := 0
  timestampNsec := 0
  domain := 0
  memattr := vmMemattrDefault

def plainObject : VmObject where
  refCount := 1
  dead := false
  fictitious := false
  memattr := vmMemattrDefault

/-- The page queues after any run of the calls and the scan loops. -/
theorem page_queues_represented {page : Nat → Page} {object : Nat → VmObject} {clock : Nanotime}
    {h : VmHistory} {v : Vm} (hr : VmRun anyOp page object clock h v) :
    (∀ d k m, m ∈ v.pages d k →
      (v.pages d k).count m = 1 ∧ (v.page m).queue = some k ∧ v.home m k = d) ∧
    (∀ m, (v.page m).queue = none ↔ ∀ d k, m ∉ v.pages d k) ∧
    (∀ m, (v.page m).wireCount ≠ 0 ∨ (v.page m).unmanaged = true → ∀ d k, m ∉ v.pages d k) ∧
    ∀ d k, (v.queue d k).cnt = (v.pages d k).length := by
  have hv := hr.represents
  have hnone : ∀ m, (v.page m).queue = none → ∀ d k, m ∉ v.pages d k := by
    intro m hn d k hm
    have hq := (hv.mem_pages.mp hm).1
    rw [hn] at hq
    cases hq
  refine ⟨fun d k m hm => ?_, fun m => ⟨hnone m, fun hall => ?_⟩,
    fun m ho => hnone m (hv.off m ho), hv.cnt⟩
  · obtain ⟨hq, hd⟩ := hv.mem_pages.mp hm
    exact ⟨List.count_eq_one_of_mem (hv.nodup d k) hm, hq, hd⟩
  · cases hq : (v.page m).queue with
    | none => rfl
    | some k => exact absurd (hv.mem_pages.mpr ⟨hq, rfl⟩) (hall _ k)

/-- One page is freed, one is wired meanwhile, and one ends on the inactive queue. -/
theorem page_queues_represented_scan : ∃ h v,
    VmRun anyOp (fun _ => plainPage) (fun _ => plainObject) ⟨1, 0⟩ h v ∧
    v.pages 0 .inactive = [3] ∧ (v.queue 0 .inactive).cnt = 1 ∧
      (∀ d k, 1 ∉ v.pages d k) ∧ ∀ d k, 2 ∉ v.pages d k := by
  obtain ⟨h, v, hr, hc⟩ := vmRun_of_replay anyOp (fun _ => plainPage) (fun _ => plainObject)
    [.page (.activate 1), .page (.activate 2), .page (.activate 3), .activeScan 0 3 0 3 [],
      .inactiveScan 0 1 [.plain, ⟨some [.wire 2], none, [], false⟩]]
    (fun v => v.pages 0 .inactive = [3] ∧ (v.page 1).queue = none ∧ (v.page 2).wireCount = 1)
    (by decide +kernel)
  obtain ⟨hi, h1, h2⟩ := of_decide_eq_true hc
  obtain ⟨_, hnone, hoff, hcnt⟩ := page_queues_represented hr
  refine ⟨h, v, hr, hi, by rw [hcnt, hi]; rfl, (hnone 1).mp h1, hoff 2 (Or.inl ?_)⟩
  rw [h2]
  decide

end FreeBSDEdits
