import FreeBSDEdits.PageRuns

namespace FreeBSDEdits

/-- The time at which a page was last put at the tail of an active queue. -/
def lastPlaced : List PageEvent → Nat → Option Nanotime
  | .tail x .active now :: log, m => if x = m then some now else lastPlaced log m
  | _ :: log, m => lastPlaced log m
  | [], _ => none

/-- The age that vm_pageout_scan computes from a stamp. -/
def Nanotime.age (stamp current : Nanotime) : Int :=
  1000000000 * (current.sec - stamp.sec) + current.nsec - stamp.nsec

namespace Vm

/-- Every active page carries the time of its last placement, in the order of the queue. -/
structure Stamped (v : Vm) : Prop where
  placed : ∀ d, ∀ m ∈ v.pages d .active, lastPlaced v.log m = some (v.page m).stamp
  ordered : ∀ d, (v.pages d .active).Pairwise
    (fun p q => (v.page p).stamp.nanos ≤ (v.page q).stamp.nanos)
  past : ∀ d, ∀ m ∈ v.pages d .active, (v.page m).stamp.nanos ≤ v.clock.nanos

variable {v v' : Vm} {m d : Nat}

/-- The active queues keep their pages, or lose some. -/
theorem Stamped.of_sublist (hv : v.Stamped)
    (hp : ∀ d, (v'.pages d .active).Sublist (v.pages d .active))
    (hs : ∀ d, ∀ m ∈ v'.pages d .active, (v'.page m).stamp = (v.page m).stamp)
    (hl : ∀ m, lastPlaced v'.log m = lastPlaced v.log m) (hc : v.clock.nanos ≤ v'.clock.nanos) :
    v'.Stamped := by
  refine ⟨fun d m hm => ?_, fun d => ?_, fun d m hm => ?_⟩
  · rw [hl, hs d m hm]
    exact hv.placed d m ((hp d).subset hm)
  · refine ((hv.ordered d).sublist (hp d)).imp_of_mem (fun hx hy hle => ?_)
    rwa [hs d _ hx, hs d _ hy]
  · rw [hs d m hm]
    exact Int.le_trans (hv.past d m ((hp d).subset hm)) hc

/-- A page whose stamp is the time of the clock goes to the tail of an active queue. -/
theorem Stamped.append (hv : v.Stamped) {e : Nat} (hstamp : (v.page m).stamp = v.clock)
    (hhere : ∃ l, l.Sublist (v.pages e .active) ∧ m ∉ l ∧ v'.pages e .active = l ++ [m])
    (hthere : ∀ d, d ≠ e → v'.pages d .active = v.pages d .active ∧ m ∉ v.pages d .active)
    (hs : ∀ x, (v'.page x).stamp = (v.page x).stamp)
    (hl : v'.log = .tail m .active v.clock :: v.log) (hc : v'.clock = v.clock) : v'.Stamped := by
  have hlast : ∀ x, lastPlaced v'.log x = if m = x then some v.clock else lastPlaced v.log x := by
    intro x
    rw [hl]
    rfl
  have hother : ∀ {x d}, x ≠ m → x ∈ v.pages d .active →
      lastPlaced v'.log x = some (v'.page x).stamp := by
    intro x d hx hm
    rw [hlast, if_neg (Ne.symm hx), hs]
    exact hv.placed d x hm
  obtain ⟨l, hsub, hm, hpages⟩ := hhere
  refine ⟨fun d x hx => ?_, fun d => ?_, fun d x hx => ?_⟩
  · by_cases hxm : x = m
    · subst x
      rw [hlast, if_pos rfl, hs, hstamp]
    · by_cases hd : d = e
      · subst hd
        rw [hpages, List.mem_append] at hx
        exact hother hxm (hsub.subset (hx.resolve_right (by simpa using hxm)))
      · rw [(hthere d hd).1] at hx
        exact hother hxm hx
  · simp only [hs]
    by_cases hd : d = e
    · subst hd
      rw [hpages, List.pairwise_append]
      refine ⟨(hv.ordered d).sublist hsub, List.pairwise_singleton _ _, fun x hx y hy => ?_⟩
      rw [List.mem_singleton.mp hy, hstamp]
      exact hv.past d x (hsub.subset hx)
    · rw [(hthere d hd).1]
      exact hv.ordered d
  · rw [hs, hc]
    by_cases hd : d = e
    · subst hd
      rw [hpages, List.mem_append] at hx
      rcases hx with hx | hx
      · exact hv.past d x (hsub.subset hx)
      · obtain rfl := List.mem_singleton.mp hx
        exact Int.le_of_eq (congrArg Nanotime.nanos hstamp)
    · rw [(hthere d hd).1] at hx
      exact hv.past d x hx

theorem setPage_stamp {p : Page} (hp : p.stamp = (v.page m).stamp) (x : Nat) :
    ((v.setPage m p).page x).stamp = (v.page x).stamp := by
  by_cases hx : x = m
  · subst x
    rw [setPage_page_self, hp]
  · rw [setPage_page_of_ne v hx]

theorem enqueue_stamp (v : Vm) (m : Nat) (k : PageQueue) (x : Nat) :
    ((vmPageEnqueue v k m).page x).stamp = (v.page x).stamp :=
  setPage_stamp (p := { v.page m with queue := some k }) rfl x

theorem lastPlaced_of_ne {k : PageQueue} (hk : k ≠ .active) (now : Nanotime) (log : List PageEvent)
    (x : Nat) : lastPlaced (.tail m k now :: log) x = lastPlaced log x := by
  cases k with
  | active => exact absurd rfl hk
  | inactive | laundry => rfl

/-- Pages keep their stamps, and only pages with the right stamp go to the tail. -/
theorem Move.stamped (hm : Move Eq v v') (h : v.Represents) (hv : v.Stamped) : v'.Stamped := by
  cases hm with
  | @page m p hp =>
    have hstamp : p.stamp = (v.page m).stamp := by
      rw [Page.stamp, hp.timestampSec, hp.timestampNsec]
      rfl
    exact hv.of_sublist (fun _ => .refl _) (fun _ x _ => setPage_stamp hstamp x) (fun _ => rfl)
      (Int.le_refl _)
  | @offQueue m p hn hn' _ =>
    refine hv.of_sublist (fun _ => .refl _) (fun d x hx => ?_) (fun _ => rfl) (Int.le_refl _)
    have hne : x ≠ m := by
      rintro rfl
      have hq := (h.mem_pages.mp (show x ∈ v.pages d .active from hx)).1
      rw [hn] at hq
      cases hq
    rw [setPage_page_of_ne v hne]
  | @dequeue _ m hs =>
    obtain ⟨k, hu⟩ := dequeueLocked_unlinks hs
    refine hv.of_sublist (fun d => ?_) (fun d x _ => ?_) (fun x => by rw [hu.log])
      (hu.clock ▸ Int.le_refl _)
    · by_cases hd : d = v.home m k ∧ PageQueue.active = k
      · obtain ⟨rfl, rfl⟩ := hd
        rw [pages, hu.here, linkPages_erase]
        exact List.erase_sublist
      · rw [pages, hu.there d .active hd]
        exact .refl _
    · by_cases hx : x = m
      · subst x
        rw [hu.page, Function.update_self]
        rfl
      · rw [hu.of_ne hx]
  | @enqueue m k hn _ _ hT =>
    by_cases hk : k = .active
    · subst k
      have hout : ∀ d, m ∉ v.pages d .active := by
        intro d hx
        have hq := (h.mem_pages.mp hx).1
        rw [hn] at hq
        cases hq
      refine hv.append (hT rfl) ⟨v.pages (v.home m .active) .active, .refl _, hout _, ?_⟩
        (fun d hd => ⟨?_, hout d⟩) (enqueue_stamp v m .active) rfl rfl
      · rw [enqueue_pages, if_pos ⟨rfl, rfl⟩]
      · rw [enqueue_pages, if_neg (fun hc => hd hc.1)]
    · refine hv.of_sublist (fun d => ?_) (fun _ x _ => enqueue_stamp v m k x)
        (fun x => lastPlaced_of_ne hk _ _ x) (Int.le_refl _)
      rw [enqueue_pages, if_neg (fun hc => hk hc.2.symm)]
  | @noreuse m hn _ _ =>
    refine hv.of_sublist (fun d => ?_) (fun _ x _ => ?_) (fun _ => rfl) (Int.le_refl _)
    · rw [pages, setQueue_queue_of_ne _ (by simp), setPage_queue]
      exact .refl _
    · exact setPage_stamp (p := { v.page m with queue := some .inactive }) rfl x
  | @requeue _ m hT hs =>
    obtain ⟨k, hk, rfl⟩ := requeue_eq hs
    by_cases hka : k = .active
    · subst k
      refine hv.append (e := v.home m .active) (hT hk)
        ⟨(v.pages (v.home m .active) .active).erase m, List.erase_sublist, ?_, ?_⟩
        (fun d hd => ⟨?_, fun hm => hd (h.mem_pages.mp hm).2.symm⟩) (fun _ => rfl) rfl rfl
      · exact fun hm => ((h.nodup _ _).mem_erase_iff.mp hm).1 rfl
      · rw [pages, note_queue, setPl, setQueue_queue_self, linkPages_append, linkPages_erase]
        rfl
      · rw [pages, note_queue, setPl, setQueue_queue_of_ne _ (fun hc => hd hc.1), pages]
    · refine hv.of_sublist (fun d => ?_) (fun _ _ _ => rfl) (fun x => lastPlaced_of_ne hka _ _ x)
        (Int.le_refl _)
      rw [pages, note_queue, setPl, setQueue_queue_of_ne _ (fun hc => hka hc.2.symm)]
      exact .refl _
  | @mark d k pl hpl _ =>
    refine hv.of_sublist (fun d' => ?_) (fun _ _ _ => rfl) (fun _ => rfl) (Int.le_refl _)
    by_cases hd : d' = d ∧ PageQueue.active = k
    · obtain ⟨rfl, rfl⟩ := hd
      rw [pages, setPl, setQueue_queue_self, hpl]
    · rw [pages, setPl, setQueue_queue_of_ne _ hd]
      exact .refl _
  | freed => exact ⟨hv.placed, hv.ordered, hv.past⟩
  | tick hle =>
    exact hv.of_sublist (fun _ => .refl _) (fun _ _ _ => rfl) (fun _ => rfl) hle
  | object => exact ⟨hv.placed, hv.ordered, hv.past⟩

theorem Moves.stamped (hm : Moves Eq v v') (h : v.Represents) (hv : v.Stamped) : v'.Stamped := by
  induction hm with
  | refl => exact hv
  | tail hms hm ih => exact hm.stamped (Moves.represents hms h) ih

end Vm

/-- The calls that may put a page at the tail of the active queue without a stamp. -/
def PageOp.Unstamped : PageOp → Prop
  | .unwire _ queue => queue = some .active
  | .requeue _ => True
  | _ => False

/-- What vm_page_unwire and vm_page_requeue put at the tail of an active queue has the time of the
clock as its stamp. -/
def VmOp.StampsTail (v : Vm) : VmOp → Prop
  | .page op => op.Within Eq v
  | .inactiveScan _ _ visits | .activeScan _ _ _ _ visits =>
    ∀ w ∈ visits, ∀ op ∈ w.calls, ¬op.Unstamped
  | .pageoutScan _ a => (∀ w ∈ a.inactiveVisits, ∀ op ∈ w.calls, ¬op.Unstamped) ∧
    ∀ w ∈ a.activeVisits, ∀ op ∈ w.calls, ¬op.Unstamped

def stampsTail (_ : VmHistory) (v : Vm) (op : VmOp) : Prop := op.StampsTail v

instance (op : PageOp) : Decidable op.Unstamped := by
  rcases op <;> unfold PageOp.Unstamped <;> infer_instance

instance (v : Vm) (op : PageOp) : Decidable (op.Within Eq v) := by
  rcases op <;> unfold PageOp.Within <;> infer_instance

instance (v : Vm) (op : VmOp) : Decidable (op.StampsTail v) := by
  rcases op <;> unfold VmOp.StampsTail <;> infer_instance

instance : ∀ h v op, Decidable (stampsTail h v op) := fun _ v op =>
  inferInstanceAs (Decidable (op.StampsTail v))

theorem VmOp.StampsTail.within {v : Vm} {op : VmOp} (ho : op.StampsTail v) : op.Within Eq v := by
  have hcalls : ∀ ops : List PageOp, (∀ op ∈ ops, ¬op.Unstamped) → CallsWithin Eq ops := by
    intro ops hops op hop v
    cases op with
    | unwire m queue => exact fun hq => absurd hq (hops _ hop)
    | requeue m => exact absurd trivial (hops _ hop)
    | _ => trivial
  cases op with
  | page op => exact ho
  | inactiveScan | activeScan => exact fun w hw => hcalls _ (ho w hw)
  | pageoutScan => exact ⟨fun w hw => hcalls _ (ho.1 w hw), fun w hw => hcalls _ (ho.2 w hw)⟩

section

variable {page : Nat → Page} {object : Nat → VmObject} {clock : Nanotime} {h : VmHistory} {v : Vm}

theorem VmRun.stamped (hr : VmRun stampsTail page object clock h v) : v.Stamped := by
  have hstep : v.Represents ∧ v.Stamped := by
    unfold VmRun at hr
    refine GuardedRun.invariant (P := fun _ v => v.Represents ∧ v.Stamped)
      ⟨Vm.boot_represents page object clock, ?_⟩ (fun _ v op v' _ _ hv hok hs => ?_) hr
    · refine ⟨fun d m hm => ?_, fun d => .nil, fun d m hm => ?_⟩
      · exact absurd hm (by simp [Vm.pages, Vm.boot, linkPages])
      · exact absurd hm (by simp [Vm.pages, Vm.boot, linkPages])
    · have hm := Vm.step_moves hv.1 (fun _ => rfl) (VmOp.StampsTail.within hok) hs
      exact ⟨hm.represents hv.1, hm.stamped hv.1 hv.2⟩
  exact hstep.2

/-- The last element of a queue that is ordered by stamps has the least age. -/
theorem Vm.Stamped.youngest (hv : v.Stamped) {d t m : Nat}
    (ht : (v.pages d .active).getLast? = some t) (hm : m ∈ v.pages d .active) (current : Nanotime) :
    (v.page t).stamp.age current ≤ (v.page m).stamp.age current := by
  obtain ⟨l, hl⟩ := List.getLast?_eq_some_iff.mp ht
  have hle : (v.page m).stamp.nanos ≤ (v.page t).stamp.nanos := by
    have hord := hv.ordered d
    rw [hl] at hord hm
    rcases List.mem_append.mp hm with hm | hm
    · exact (List.pairwise_append.mp hord).2.2 m hm t List.mem_cons_self
    · exact Int.le_of_eq (congrArg (fun x => (v.page x).stamp.nanos) (List.mem_singleton.mp hm))
  simp only [Nanotime.nanos, Nanotime.age] at hle ⊢
  omega

theorem timestamps_ordered (hr : VmRun stampsTail page object clock h v) :
    (∀ d, ∀ m ∈ v.pages d .active, lastPlaced v.log m = some (v.page m).stamp) ∧
    (∀ d, (v.pages d .active).Pairwise
      (fun p q => (v.page p).stamp.nanos ≤ (v.page q).stamp.nanos)) ∧
    ∀ d t m current, (v.pages d .active).getLast? = some t → m ∈ v.pages d .active →
      (v.page t).stamp.age current ≤ (v.page m).stamp.age current :=
  ⟨hr.stamped.placed, hr.stamped.ordered, fun _ _ _ current ht hm => hr.stamped.youngest ht hm current⟩

end

/-- Page 3 wired once, the others plain. -/
def wiredThird (sec : Int) (m : Nat) : Page :=
  if m = 3 then { plainPage with wireCount := 1, timestampSec := sec } else plainPage

/-- Page 3 is wired at first, and goes to the active queue at the time of its stamp. -/
theorem timestamps_ordered_run : ∃ h v,
    VmRun stampsTail (wiredThird 2) (fun _ => plainObject) ⟨1, 0⟩ h v ∧
    v.pages 0 .active = [2, 3, 4] ∧ lastPlaced v.log 3 = some (v.page 3).stamp ∧
      ∀ current, (v.page 4).stamp.age current ≤ (v.page 2).stamp.age current := by
  obtain ⟨h, v, hr, hc⟩ := vmRun_of_replay stampsTail (wiredThird 2) (fun _ => plainObject)
    [.page (.activate 1), .page (.activate 2), .page (.tick ⟨2, 0⟩), .page (.unwire 3 (some .active)),
      .activeScan 0 1 0 3 [], .page (.tick ⟨4, 0⟩), .page (.activate 4)]
    (fun v => v.pages 0 .active = [2, 3, 4]) (by decide +kernel)
  have hp := of_decide_eq_true hc
  obtain ⟨hplaced, _, hage⟩ := timestamps_ordered hr
  refine ⟨h, v, hr, hp, hplaced 0 3 ?_, fun current => hage 0 4 2 current ?_ ?_⟩
  · rw [hp]
    decide
  · rw [hp]
    rfl
  · rw [hp]
    decide

/-- Page 3 is unwired to the tail, where its stamp is older than that of page 2 before it, and its
age is taken for that of the youngest page. -/
theorem unwire_keeps_stamp : ∃ h v,
    VmRun anyOp (wiredThird 0) (fun _ => plainObject) ⟨1, 0⟩ h v ∧
    v.pages 0 .active = [2, 3] ∧ lastPlaced v.log 3 = some ⟨1, 0⟩ ∧ (v.page 3).stamp = ⟨0, 0⟩ ∧
      (v.page 2).stamp = ⟨1, 0⟩ ∧
      (v.page 2).stamp.age ⟨1, 0⟩ < (v.page 3).stamp.age ⟨1, 0⟩ := by
  obtain ⟨h, v, hr, hc⟩ := vmRun_of_replay anyOp (wiredThird 0) (fun _ => plainObject)
    [.page (.activate 2), .page (.unwire 3 (some .active))]
    (fun v => v.pages 0 .active = [2, 3] ∧ lastPlaced v.log 3 = some ⟨1, 0⟩ ∧
      (v.page 3).stamp = ⟨0, 0⟩ ∧ (v.page 2).stamp = ⟨1, 0⟩ ∧
      (v.page 2).stamp.age ⟨1, 0⟩ < (v.page 3).stamp.age ⟨1, 0⟩) (by decide +kernel)
  exact ⟨h, v, hr, of_decide_eq_true hc⟩

end FreeBSDEdits
