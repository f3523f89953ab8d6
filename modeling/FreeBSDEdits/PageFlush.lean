import Mathlib.Data.List.TakeWhile
import Mathlib.Logic.Function.Basic

namespace FreeBSDEdits

/-- The codes that a pager answers with, VM_PAGER_OK to VM_PAGER_AGAIN. -/
inductive PagerStatus
  | ok
  | bad
  | fail
  | pend
  | error
  | again
deriving DecidableEq

/-- What becomes of a page in the queues. -/
inductive FlushMove
  | stay
  | deactivateNoreuse
  | activate
deriving DecidableEq

/-- What `vm_pageout_flush` keeps account of; `pip` is the count of paging in progress of the
object, and the maps are by the index in `mc`. -/
structure PageFlush where
  numpagedout : Nat
  runlen : Int
  eio : Bool
  pip : Nat
  sbusied : Nat → Bool
  undirtied : Nat → Bool
  move : Nat → FlushMove

namespace PageFlush

/-- `vm_page_deactivate_noreuse`, of a page that is still in the laundry queue. -/
def leaveLaundry (inLaundry : Nat → Bool) (i : Nat) : FlushMove :=
  if inLaundry i then .deactivateNoreuse else .stay

/-- The `switch` on the status of page `i`. -/
def switch (inLaundry : Nat → Bool) (mreq : Nat) (f : PageFlush) (i : Nat) : PagerStatus → PageFlush
  | .ok => { f with move := Function.update f.move i (leaveLaundry inLaundry i)
                    numpagedout := f.numpagedout + 1 }
  | .pend => { f with numpagedout := f.numpagedout + 1 }
  | .bad => { f with undirtied := Function.update f.undirtied i true
                     move := Function.update f.move i (leaveLaundry inLaundry i) }
  | .error | .fail => { f with move := Function.update f.move i .activate
                               eio := f.eio || decide (mreq ≤ i ∧ (i : Int) - mreq < f.runlen) }
  | .again => { f with runlen := if mreq ≤ i ∧ (i : Int) - mreq < f.runlen then i - mreq else f.runlen }

/-- One round of the second loop: a page whose operation is over is not busy any more. -/
def page (inLaundry : Nat → Bool) (mreq : Nat) (f : PageFlush) (i : Nat) (status : PagerStatus) :
    PageFlush :=
  let f := f.switch inLaundry mreq i status
  if status ≠ .pend then { f with pip := f.pip - 1, sbusied := Function.update f.sbusied i false }
  else f

def loop (inLaundry : Nat → Bool) (mreq : Nat) : Nat → List PagerStatus → PageFlush → PageFlush
  | _, [], f => f
  | i, status :: rest, f => loop inLaundry mreq (i + 1) rest (f.page inLaundry mreq i status)

end PageFlush

/-- `vm_pageout_flush` of as many pages as the pager gives a status for; `inLaundry` is what
`vm_page_in_laundry` says of them once the pager has answered. -/
def vmPageoutFlush (inLaundry : Nat → Bool) (pageoutStatus : List PagerStatus) (mreq : Nat) :
    PageFlush :=
  let count := pageoutStatus.length
  PageFlush.loop inLaundry mreq 0 pageoutStatus
    ⟨0, count - mreq, false, count, fun i => decide (i < count), fun _ => false, fun _ => .stay⟩

namespace PageFlush

variable {inLaundry : Nat → Bool} {mreq : Nat} {f : PageFlush} {i j : Nat} {status : PagerStatus}
  {rest : List PagerStatus}

def pagedOut (status : PagerStatus) : Bool := status = .ok || status = .pend

def failed (status : PagerStatus) : Bool := status = .error || status = .fail

@[simp] theorem page_numpagedout : (f.page inLaundry mreq i status).numpagedout =
    f.numpagedout + if pagedOut status then 1 else 0 := by
  cases status <;> rfl

theorem page_pip (inLaundry : Nat → Bool) (mreq : Nat) (f : PageFlush) (i : Nat) (status : PagerStatus) :
    (f.page inLaundry mreq i status).pip = f.pip - if status = .pend then 0 else 1 := by
  cases status <;> rfl

theorem page_runlen : (f.page inLaundry mreq i status).runlen =
    if status = .again ∧ mreq ≤ i ∧ (i : Int) - mreq < f.runlen then (i : Int) - mreq else f.runlen := by
  cases status with
  | again => simp [page, switch]
  | _ => rfl

theorem page_eio : (f.page inLaundry mreq i status).eio =
    (f.eio || (failed status && decide (mreq ≤ i ∧ (i : Int) - mreq < f.runlen))) := by
  cases status with
  | error => rfl
  | fail => rfl
  | _ => exact (Bool.or_false _).symm

theorem page_sbusied : (f.page inLaundry mreq i status).sbusied =
    if status = .pend then f.sbusied else Function.update f.sbusied i false := by
  cases status <;> rfl

theorem loop_numpagedout :
    (loop inLaundry mreq i rest f).numpagedout = f.numpagedout + rest.countP pagedOut := by
  induction rest generalizing i f with
  | nil => rfl
  | cons status rest ih =>
    rw [loop, ih, page_numpagedout, List.countP_cons]
    omega

/-- The paging in progress is what the rest of the loop ends and what stays pending. -/
theorem loop_pip (inLaundry : Nat → Bool) (mreq i : Nat) {f : PageFlush} {rest : List PagerStatus}
    (hpip : rest.length ≤ f.pip) :
    (loop inLaundry mreq i rest f).pip + rest.length = f.pip + rest.count .pend := by
  induction rest generalizing i f with
  | nil => rfl
  | cons status rest ih =>
    have hlen : rest.length + 1 ≤ f.pip := hpip
    have hpage := page_pip inLaundry mreq f i status
    have hrest : rest.length ≤ (f.page inLaundry mreq i status).pip := by
      rw [hpage]
      split <;> omega
    have h := ih (i := i + 1) hrest
    rw [loop, List.length_cons]
    by_cases hp : status = .pend
    · subst hp
      rw [if_pos rfl] at hpage
      rw [List.count_cons_self]
      omega
    · rw [if_neg hp] at hpage
      rw [List.count_cons_of_ne hp]
      omega

theorem loop_sbusied_of_lt {mreq i j : Nat} {f : PageFlush} {rest : List PagerStatus} (hj : j < i) :
    (loop inLaundry mreq i rest f).sbusied j = f.sbusied j := by
  induction rest generalizing i f with
  | nil => rfl
  | cons status rest ih =>
    rw [loop, ih (Nat.lt_succ_of_lt hj), page_sbusied]
    split
    next => rfl
    next => exact Function.update_of_ne (Nat.ne_of_lt hj) ..

theorem loop_sbusied (inLaundry : Nat → Bool) (mreq : Nat) {i j : Nat} {f : PageFlush}
    {rest : List PagerStatus} (hb : ∀ j < rest.length, f.sbusied (i + j) = true)
    (hj : j < rest.length) :
    (loop inLaundry mreq i rest f).sbusied (i + j) = decide (rest[j]? = some .pend) := by
  induction rest generalizing i f j with
  | nil => exact absurd hj (Nat.not_lt_zero j)
  | cons status rest ih =>
    rw [loop]
    cases j with
    | zero =>
      have hself := hb 0 hj
      rw [Nat.add_zero] at hself
      change (loop inLaundry mreq (i + 1) rest (f.page inLaundry mreq i status)).sbusied i = _
      rw [loop_sbusied_of_lt (Nat.lt_succ_self i), page_sbusied]
      by_cases hp : status = .pend
      · rw [if_pos hp, hself]
        simp [hp]
      · rw [if_neg hp, Function.update_self]
        simp [hp]
    | succ j =>
      have hidx : i + (j + 1) = i + 1 + j := by omega
      rw [hidx]
      refine ih (fun j' hj' => ?_) (Nat.lt_of_succ_lt_succ hj)
      have hback := hb (j' + 1) (Nat.succ_lt_succ hj')
      have hidx' : i + (j' + 1) = i + 1 + j' := by omega
      rw [hidx'] at hback
      have hne : i + 1 + j' ≠ i := by omega
      rw [page_sbusied]
      split
      next => exact hback
      next => rwa [Function.update_of_ne hne]

theorem page_move (inLaundry : Nat → Bool) (mreq : Nat) (f : PageFlush) (status : PagerStatus)
    (hne : i ≠ j) : (f.page inLaundry mreq i status).move j = f.move j ∧
    (f.page inLaundry mreq i status).undirtied j = f.undirtied j := by
  have hj := Ne.symm hne
  cases status with
  | ok => exact ⟨Function.update_of_ne hj .., rfl⟩
  | bad => exact ⟨Function.update_of_ne hj .., Function.update_of_ne hj ..⟩
  | error => exact ⟨Function.update_of_ne hj .., rfl⟩
  | fail => exact ⟨Function.update_of_ne hj .., rfl⟩
  | pend => exact ⟨rfl, rfl⟩
  | again => exact ⟨rfl, rfl⟩

theorem loop_move_of_lt (hj : j < i) : (loop inLaundry mreq i rest f).move j = f.move j ∧
    (loop inLaundry mreq i rest f).undirtied j = f.undirtied j := by
  induction rest generalizing i f with
  | nil => exact ⟨rfl, rfl⟩
  | cons status rest ih =>
    obtain ⟨hm, hu⟩ := ih (f := f.page inLaundry mreq i status) (Nat.lt_succ_of_lt hj)
    obtain ⟨hm', hu'⟩ := page_move inLaundry mreq f status (Nat.ne_of_gt hj)
    exact ⟨hm.trans hm', hu.trans hu'⟩

/-- Only its own round decides what becomes of a page. -/
theorem loop_move (inLaundry : Nat → Bool) (mreq i : Nat) (f : PageFlush)
    (hj : rest[j]? = some status) :
    ∃ f', f'.move (i + j) = f.move (i + j) ∧ f'.undirtied (i + j) = f.undirtied (i + j) ∧
      (loop inLaundry mreq i rest f).move (i + j) =
        (page inLaundry mreq f' (i + j) status).move (i + j) ∧
      (loop inLaundry mreq i rest f).undirtied (i + j) =
        (page inLaundry mreq f' (i + j) status).undirtied (i + j) := by
  induction rest generalizing i f j with
  | nil => simp at hj
  | cons first rest ih =>
    cases j with
    | zero =>
      obtain rfl : first = status := by simpa using hj
      exact ⟨f, rfl, rfl, loop_move_of_lt (Nat.lt_succ_self _)⟩
    | succ j =>
      have hidx : i + (j + 1) = i + 1 + j := by omega
      rw [hidx]
      obtain ⟨f', hm, hu, hloop⟩ := ih (i := i + 1) (f := f.page inLaundry mreq i first)
        (by simpa using hj)
      obtain ⟨hm', hu'⟩ := page_move inLaundry mreq f first (by omega : i ≠ i + 1 + j)
      exact ⟨f', hm.trans hm', hu.trans hu', hloop⟩

/-- Past the run neither its length nor the error changes. -/
theorem loop_after (rest : List PagerStatus) {f : PageFlush} {i : Nat}
    (h : f.runlen ≤ (i : Int) - mreq) :
    (loop inLaundry mreq i rest f).runlen = f.runlen ∧ (loop inLaundry mreq i rest f).eio = f.eio := by
  induction rest generalizing i f with
  | nil => exact ⟨rfl, rfl⟩
  | cons status rest ih =>
    have hrun : (f.page inLaundry mreq i status).runlen = f.runlen := by
      rw [page_runlen]
      exact if_neg (by omega)
    have heio : (f.page inLaundry mreq i status).eio = f.eio := by
      have hout : decide (mreq ≤ i ∧ (i : Int) - mreq < f.runlen) = false := by
        simp only [decide_eq_false_iff_not]
        omega
      rw [page_eio, hout, Bool.and_false, Bool.or_false]
    obtain ⟨h₁, h₂⟩ := ih (i := i + 1) (f := f.page inLaundry mreq i status) (by rw [hrun]; omega)
    rw [loop]
    exact ⟨h₁.trans hrun, h₂.trans heio⟩

/-- The pages from `mreq` to the first one to try again. -/
def run (statuses : List PagerStatus) : List PagerStatus := statuses.takeWhile (· ≠ .again)

/-- Within the run, with all that is left of the pages still counted. -/
theorem loop_within (inLaundry : Nat → Bool) (hi : mreq ≤ i)
    (h : f.runlen = (i : Int) - mreq + rest.length) :
    (loop inLaundry mreq i rest f).runlen = (i : Int) - mreq + (run rest).length ∧
      (loop inLaundry mreq i rest f).eio = (f.eio || (run rest).any failed) := by
  induction rest generalizing i f with
  | nil => exact ⟨h, (Bool.or_false _).symm⟩
  | cons status rest ih =>
    rw [List.length_cons] at h
    have hin : mreq ≤ i ∧ (i : Int) - mreq < f.runlen := by omega
    rw [loop]
    by_cases hagain : status = .again
    · subst hagain
      have hrun : (f.page inLaundry mreq i .again).runlen = i - mreq := by
        rw [page_runlen]
        exact if_pos ⟨rfl, hin⟩
      have heio : (f.page inLaundry mreq i .again).eio = f.eio := rfl
      have hpast : (f.page inLaundry mreq i .again).runlen ≤ ((i + 1 : Nat) : Int) - mreq := by
        rw [hrun]
        omega
      obtain ⟨h₁, h₂⟩ := loop_after rest hpast
      have hnil : run (.again :: rest) = [] := rfl
      rw [h₁, h₂, hrun, heio, hnil]
      exact ⟨(Int.add_zero _).symm, (Bool.or_false _).symm⟩
    · have hrun : (f.page inLaundry mreq i status).runlen = f.runlen := by
        rw [page_runlen]
        exact if_neg fun h => hagain h.1
      have heio : (f.page inLaundry mreq i status).eio = (f.eio || failed status) := by
        rw [page_eio, decide_eq_true hin, Bool.and_true]
      have hcons : run (status :: rest) = status :: run rest :=
        List.takeWhile_cons_of_pos (by simpa using hagain)
      obtain ⟨h₁, h₂⟩ := ih (i := i + 1) (f := f.page inLaundry mreq i status) (by omega)
        (by rw [hrun]; push_cast at h ⊢; omega)
      rw [h₁, h₂, hcons, List.length_cons, List.any_cons, heio, Bool.or_assoc]
      refine ⟨?_, rfl⟩
      push_cast
      omega

/-- Before `mreq` neither the run nor the error changes. -/
theorem loop_before (inLaundry : Nat → Bool) (rest : List PagerStatus) (f : PageFlush) {i : Nat}
    (hi : i ≤ mreq) (hlen : mreq - i ≤ rest.length) :
    ∃ f', loop inLaundry mreq i rest f = loop inLaundry mreq mreq (rest.drop (mreq - i)) f' ∧
      f'.runlen = f.runlen ∧ f'.eio = f.eio := by
  by_cases heq : i = mreq
  · subst heq
    rw [Nat.sub_self]
    exact ⟨f, rfl, rfl, rfl⟩
  · induction rest generalizing i f with
    | nil =>
      rw [List.length_nil] at hlen
      omega
    | cons status rest ih =>
      have hout : ¬mreq ≤ i := by omega
      have hrun : (f.page inLaundry mreq i status).runlen = f.runlen := by
        rw [page_runlen]
        exact if_neg fun h => hout h.2.1
      have heio : (f.page inLaundry mreq i status).eio = f.eio := by
        have hfalse : decide (mreq ≤ i ∧ (i : Int) - mreq < f.runlen) = false := by simp [hout]
        rw [page_eio, hfalse, Bool.and_false, Bool.or_false]
      have hd : mreq - i = mreq - (i + 1) + 1 := by omega
      rw [List.length_cons] at hlen
      rw [loop, hd, List.drop_succ_cons]
      by_cases hnext : i + 1 = mreq
      · rw [hnext, Nat.sub_self]
        exact ⟨_, rfl, hrun, heio⟩
      · obtain ⟨f', h₁, h₂, h₃⟩ :=
          ih (f.page inLaundry mreq i status) (i := i + 1) (by omega) (by omega) hnext
        exact ⟨f', h₁, h₂.trans hrun, h₃.trans heio⟩

end PageFlush

/-- What `vm_pageout_flush` reports of any answer of the pager: the pages paged out or on their
way, the distance from `mreq` to the first page to try again, whether a page before that failed;
and just the pages on their way stay busy, each with its share of the paging in progress. -/
theorem flush_reports (inLaundry : Nat → Bool) (statuses : List PagerStatus) {mreq : Nat}
    (hm : mreq ≤ statuses.length) :
    (vmPageoutFlush inLaundry statuses mreq).numpagedout = statuses.countP PageFlush.pagedOut ∧
      (vmPageoutFlush inLaundry statuses mreq).runlen =
        ((statuses.drop mreq).takeWhile (· ≠ .again)).length ∧
      ((vmPageoutFlush inLaundry statuses mreq).eio = true ↔
        ∃ st ∈ (statuses.drop mreq).takeWhile (· ≠ .again), st = .error ∨ st = .fail) ∧
      (vmPageoutFlush inLaundry statuses mreq).pip = statuses.count .pend ∧
      ∀ j < statuses.length,
        ((vmPageoutFlush inLaundry statuses mreq).sbusied j = true ↔ statuses[j]? = some .pend) := by
  rw [vmPageoutFlush]
  generalize hf : (⟨0, statuses.length - mreq, false, statuses.length,
    fun i => decide (i < statuses.length), fun _ => false, fun _ => .stay⟩ : PageFlush) = f
  have hpip := PageFlush.loop_pip inLaundry mreq 0 (f := f)
    (Nat.le_of_eq (by rw [← hf] : statuses.length = f.pip))
  have hpip₀ : f.pip = statuses.length := by rw [← hf]
  obtain ⟨f', heq, hrun, heio⟩ := PageFlush.loop_before inLaundry statuses f (Nat.zero_le mreq) hm
  rw [Nat.sub_zero] at heq
  have hlen : f'.runlen = (mreq : Int) - mreq + (statuses.drop mreq).length := by
    rw [hrun, ← hf, List.length_drop]
    dsimp only
    omega
  obtain ⟨h₁, h₂⟩ := PageFlush.loop_within inLaundry (Nat.le_refl mreq) hlen
  refine ⟨?_, ?_, ?_, by omega, fun j hj => ?_⟩
  · rw [PageFlush.loop_numpagedout, ← hf]
    exact Nat.zero_add _
  · rw [heq, h₁, Int.sub_self, Int.zero_add]
    rfl
  · have hf₀ : f.eio = false := by rw [← hf]
    rw [heq, h₂, heio, hf₀, Bool.false_or, List.any_eq_true]
    change (∃ st ∈ (statuses.drop mreq).takeWhile (· ≠ .again), PageFlush.failed st = true) ↔ _
    simp only [PageFlush.failed, Bool.or_eq_true, decide_eq_true_eq]
  · have hb := PageFlush.loop_sbusied inLaundry mreq (i := 0) (f := f)
      (fun j hj => by rw [← hf]; simpa using hj) hj
    rw [Nat.zero_add] at hb
    rw [hb, decide_eq_true_iff]

theorem flush_reports_mixed :
    (vmPageoutFlush (fun _ => true) [.ok, .error, .pend, .again, .fail] 1).runlen = 2 ∧
      (vmPageoutFlush (fun _ => true) [.ok, .error, .pend, .again, .fail] 1).eio = true := by
  have hm : 1 ≤ [PagerStatus.ok, .error, .pend, .again, .fail].length := by decide
  obtain ⟨-, hrun, heio, -⟩ := flush_reports (fun _ => true) _ hm
  exact ⟨hrun, heio.mpr ⟨.error, by decide, .inl rfl⟩⟩

/-- The pages leave the laundry queue by their own status: a page paged out or out of range goes to
the inactive queue, unless it was moved meanwhile, and only one that failed to the active queue. -/
theorem flush_moves (inLaundry : Nat → Bool) {statuses : List PagerStatus} (mreq : Nat) {j : Nat}
    {status : PagerStatus} (hj : statuses[j]? = some status) :
    ((vmPageoutFlush inLaundry statuses mreq).move j = .deactivateNoreuse ↔
        inLaundry j = true ∧ (status = .ok ∨ status = .bad)) ∧
      ((vmPageoutFlush inLaundry statuses mreq).move j = .activate ↔
        status = .error ∨ status = .fail) ∧
      ((vmPageoutFlush inLaundry statuses mreq).undirtied j = true ↔ status = .bad) := by
  rw [vmPageoutFlush]
  generalize hf : (⟨0, statuses.length - mreq, false, statuses.length,
    fun i => decide (i < statuses.length), fun _ => false, fun _ => .stay⟩ : PageFlush) = f
  obtain ⟨f', hm, hu, hmove, hundirtied⟩ := PageFlush.loop_move inLaundry mreq 0 f hj
  rw [Nat.zero_add] at hm hu hmove hundirtied
  have hstay : f'.move j = .stay := by rw [hm, ← hf]
  have hdirty : f'.undirtied j = false := by rw [hu, ← hf]
  rw [hmove, hundirtied]
  cases status <;> cases hl : inLaundry j <;>
    simp [PageFlush.page, PageFlush.switch, PageFlush.leaveLaundry, hstay, hdirty, hl]

end FreeBSDEdits
