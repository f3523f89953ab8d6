import FreeBSDEdits.SchedRuns

namespace FreeBSDEdits

namespace Sched

/-- The thread waits on the timeshare queue of CPU `c`. -/
def WaitsOn (s : Sched) (c td : Nat) : Prop := ∃ i, td ∈ ((s.tdq c).runq .timeshare).queues i

/-- (td_rqindex - tdq_ridx) mod RQ_NQS -/
def rotation (s : Sched) (c td : Nat) : Nat :=
  (((s.thread td).rqindex.toNat : Int) - (s.tdq c).ridx.toNat) % rqNqs |>.toNat

/-- No waiting thread moves back, and the removal index passes empty buckets only. -/
def RotatesTo (s s' : Sched) (c : Nat) : Prop :=
  (∀ td, s.WaitsOn c td → s'.WaitsOn c td → s'.rotation c td ≤ s.rotation c td) ∧
  ((s'.tdq c).ridx ≠ (s.tdq c).ridx →
    ((s'.tdq c).runq .timeshare).queues (s.tdq c).ridx.toNat = [])

variable {s s' : Sched} {c : Nat}

/-- Where the removal index stays, waiting threads stay where they are. -/
theorem RotatesTo.of_ridx (hr : (s'.tdq c).ridx = (s.tdq c).ridx)
    (hi : ∀ td, s.WaitsOn c td → s'.WaitsOn c td →
      (s'.thread td).rqindex = (s.thread td).rqindex) : s.RotatesTo s' c := by
  refine ⟨fun td h h' => ?_, fun hne => absurd hr hne⟩
  have heq : s'.rotation c td = s.rotation c td := by rw [rotation, rotation, hr, hi td h h']
  exact Nat.le_of_eq heq

/-- The removal index moves on by one, past a bucket that is empty by then. -/
theorem RotatesTo.of_advance (h : s.Represents) (hr : (s'.tdq c).ridx = ((s.tdq c).ridx + 1) % 64)
    (hi : ∀ td, s.WaitsOn c td → s'.WaitsOn c td →
      (s'.thread td).rqindex = (s.thread td).rqindex)
    (hq : ∀ td, s.WaitsOn c td → s'.WaitsOn c td →
      (s.thread td).rqindex.toNat ≠ (s.tdq c).ridx.toNat)
    (he : ((s'.tdq c).runq .timeshare).queues (s.tdq c).ridx.toNat = []) : s.RotatesTo s' c := by
  refine ⟨fun td hw hw' => ?_, fun _ => he⟩
  obtain ⟨i, hm⟩ := hw
  obtain ⟨_, hidx, hlt, _⟩ := h.place ⟨c, .timeshare⟩ i td hm
  have hne := hq td ⟨i, hm⟩ hw'
  have hridx := (h.rotates c).ridx
  rw [UInt8.lt_iff_toNat_lt] at hridx
  have h64 : (64 : UInt8).toNat = 64 := rfl
  have h1 : (1 : UInt8).toNat = 1 := rfl
  have hnext : (s'.tdq c).ridx.toNat = ((s.tdq c).ridx.toNat + 1) % 64 := by
    rw [hr, UInt8.toNat_mod, UInt8.toNat_add, h64, h1]
    omega
  rw [rotation, rotation, hi td ⟨i, hm⟩ hw', hnext]
  change ((_ : Int) % 64).toNat ≤ (_ % 64 : Int).toNat
  omega

end Sched

/-- A tick does not pass a bucket in which a thread waits. -/
def SchedOp.KeepsRotation (s : Sched) : SchedOp → Prop
  | .clock c => (s.tdq c).idx ≠ (s.tdq c).ridx ∨
    ((s.tdq c).runq .timeshare).queues (s.tdq c).ridx.toNat = [] ∨
    ((s.tdq c).runq .lottery).queues (s.tdq c).ridx.toNat ≠ []
  | _ => True

/-- sched_clock, tdq_runq_add and tdq_runq_rem. -/
def SchedOp.Rotates : SchedOp → Prop
  | .clock _ | .runqAdd _ _ | .runqRem _ => True
  | _ => False

namespace Sched

variable {R : Priorities} {s s' : Sched}

theorem rotatesTo_runqAdd (h : s.Represents) {td : Nat} (hn : ¬s.Queued td) (flags : SrqFlags)
    (c : Nat) : s.RotatesTo (s.runqAdd R (s.thread td).cpu td flags) c := by
  have he := tdqRunqAdd_enters R (s.thread td).cpu (s.tdq (s.thread td).cpu) td (s.thread td) flags
  unfold runqAdd
  dsimp only
  generalize tdqRunqAdd R (s.thread td).cpu (s.tdq (s.thread td).cpu) td (s.thread td) flags = r at he
  refine .of_ridx ?_ (fun x hx _ => ?_)
  · by_cases hc : c = (s.thread td).cpu
    · subst c
      rw [setThread_tdq, setTdq_tdq_self]
      exact he.ridx
    · rw [setThread_tdq, setTdq_tdq_of_ne _ hc]
  · obtain ⟨i, hm⟩ := hx
    have hq : s.Queued x := h.queued_iff.mpr ⟨⟨c, .timeshare⟩, i, hm⟩
    have hne : x ≠ td := fun hxt => hn (hxt ▸ hq)
    rw [setThread_thread_of_ne _ hne]
    rfl

theorem rotatesTo_runqRem (h : s.Represents) {td : Nat} (hq : s.Queued td)
    (hs : s.runqRem (s.thread td).cpu td = some s') (c : Nat) : s.RotatesTo s' c := by
  obtain ⟨k, d, hl⟩ := h.leaving hq
  cases hs.symm.trans hl.eq_some
  have hi : ∀ x, (((s.setTdq (s.thread td).cpu d).setThread td
      { s.thread td with xferable := false }).thread x).rqindex = (s.thread x).rqindex := by
    intro x
    by_cases hx : x = td
    · subst x
      rw [setThread_thread_self]
    · rw [setThread_thread_of_ne _ hx]
      rfl
  by_cases hc : c = (s.thread td).cpu
  · subst c
    have hridx := hl.leaves.ridx
    split at hridx
    next hadv =>
      obtain ⟨rfl, _, he, hr⟩ := hadv
      -- the thread was the last one of the bucket at the removal index
      refine .of_advance h ?_ (fun x _ _ => hi x) (fun x hx hx' heq => ?_) ?_
      · rw [setThread_tdq, setTdq_tdq_self, hridx, hr]
      · obtain ⟨i, hm⟩ := hx'
        have hmem := (h.leave_mem hl x ⟨_, .timeshare⟩ i).mp hm
        obtain ⟨_, hxi, _⟩ := h.place _ i x hmem.2
        rw [setThread_tdq, setTdq_tdq_self, hl.leaves.loses.queues, ← hxi, heq, hr,
          Function.update_self, he] at hm
        exact List.not_mem_nil hm
      · rw [setThread_tdq, setTdq_tdq_self, hr, hl.leaves.loses.queues, Function.update_self, he]
    next =>
      refine .of_ridx ?_ (fun x _ _ => hi x)
      rw [setThread_tdq, setTdq_tdq_self, hridx]
  · refine .of_ridx ?_ (fun x _ _ => hi x)
    rw [setThread_tdq, setTdq_tdq_of_ne _ hc]

theorem rotatesTo_clock (h : s.Represents) (a c : Nat) (hk : (SchedOp.clock a).KeepsRotation s) :
    s.RotatesTo (s.setTdq a (tdqClock (s.tdq a))) c := by
  by_cases hc : c = a
  · subst c
    have hridx := tdqClock_ridx (s.tdq a)
    split at hridx
    next hadv =>
      have hempty : ((s.tdq a).runq .timeshare).queues (s.tdq a).ridx.toNat = [] := by
        rcases hk with hne | he | hl
        · exact absurd hadv.1 hne
        · exact he
        · exact hadv.2.resolve_right hl
      refine .of_advance h ?_ (fun _ _ _ => rfl) (fun x hx _ heq => ?_) ?_
      · rw [setTdq_tdq_self, hridx, hadv.1]
      · obtain ⟨i, hm⟩ := hx
        obtain ⟨_, hxi, _⟩ := h.place ⟨a, .timeshare⟩ i x hm
        have hm' : x ∈ ((s.tdq a).runq .timeshare).queues i := hm
        rw [← hxi, heq, hempty] at hm'
        exact List.not_mem_nil hm'
      · rw [setTdq_tdq_self, tdqClock_runq, hempty]
    next =>
      refine .of_ridx ?_ (fun _ _ _ => rfl)
      rw [setTdq_tdq_self, hridx]
  · refine .of_ridx ?_ (fun _ _ _ => rfl)
    rw [setTdq_tdq_of_ne _ hc]

/-- A tick that passes a bucket with a waiting thread sends this thread to the end of the round. -/
theorem not_rotatesTo_clock (h : s.Represents) {c : Nat}
    (hk : ¬(SchedOp.clock c).KeepsRotation s) :
    ¬s.RotatesTo (s.setTdq c (tdqClock (s.tdq c))) c := by
  simp only [SchedOp.KeepsRotation, not_or, not_not] at hk
  obtain ⟨hidx, hts, hlot⟩ := hk
  obtain ⟨td, hm⟩ := List.exists_mem_of_ne_nil _ hts
  obtain ⟨_, hi, _⟩ := h.place ⟨c, .timeshare⟩ _ td hm
  intro hrot
  have hw' : (s.setTdq c (tdqClock (s.tdq c))).WaitsOn c td := by
    refine ⟨(s.tdq c).ridx.toNat, ?_⟩
    rwa [setTdq_tdq_self, tdqClock_runq]
  have hle := hrot.1 td ⟨_, hm⟩ hw'
  have hridx := tdqClock_ridx (s.tdq c)
  rw [if_pos ⟨hidx, Or.inr hlot⟩, hidx] at hridx
  have hlt := (h.rotates c).ridx
  rw [UInt8.lt_iff_toNat_lt] at hlt
  have h64 : (64 : UInt8).toNat = 64 := rfl
  have h1 : (1 : UInt8).toNat = 1 := rfl
  have hnext : ((s.setTdq c (tdqClock (s.tdq c))).tdq c).ridx.toNat =
      ((s.tdq c).ridx.toNat + 1) % 64 := by
    rw [setTdq_tdq_self, hridx, UInt8.toNat_mod, UInt8.toNat_add, h64, h1]
    omega
  rw [rotation, rotation, hnext, setTdq_thread, hi] at hle
  have hle' : (((s.tdq c).ridx.toNat - ((((s.tdq c).ridx.toNat + 1) % 64 : Nat) : Int)) % 64).toNat ≤
      (((s.tdq c).ridx.toNat - (s.tdq c).ridx.toNat : Int) % 64).toNat := hle
  omega

end Sched

/-- In every reachable state, exactly the ticks that pass a bucket in use move waiting threads back. -/
theorem rotatesTo_iff {R : Priorities} {thread : Nat → Thread} {curthread : Nat → Nat}
    {h : SchedHistory} {s s' : Sched} {op : SchedOp} {o : Option Nat}
    (hr : SchedRun R properOp thread curthread h s) (hp : op.Proper s) (hop : op.Rotates)
    (hs : s.step R op = some (s', o)) : (∀ c, s.RotatesTo s' c) ↔ op.KeepsRotation s := by
  have hrep := hr.represents (fun _ _ _ hp => hp)
  cases op with
  | runqAdd td flags =>
    cases hs
    exact iff_of_true (Sched.rotatesTo_runqAdd hrep hp flags) trivial
  | runqRem td =>
    obtain ⟨s₁, hs₁, he⟩ := Option.map_eq_some_iff.mp hs
    cases he
    exact iff_of_true (Sched.rotatesTo_runqRem hrep hp hs₁) trivial
  | clock a =>
    cases hs
    refine ⟨fun hall => ?_, fun hk c => Sched.rotatesTo_clock hrep a c hk⟩
    by_contra hk
    exact Sched.not_rotatesTo_clock hrep hk (hall a)
  | _ => exact hop.elim

theorem rotatesTo_iff_tick : ∃ h s,
    SchedRun amd64Priorities properOp (fun td => batchThread (if td = 1 then 0 else 1001) 0)
      (fun _ => 0) h s ∧
    ((s.tdq 0).runq .timeshare).queues 0 = [1] ∧ (s.tdq 0).idx = 1 ∧ (s.tdq 0).ridx = 0 ∧
      ∀ c, s.RotatesTo (s.setTdq 0 (tdqClock (s.tdq 0))) c := by
  obtain ⟨h, s, hr, hc⟩ := schedRun_of_replay amd64Priorities properOp
    (fun td => batchThread (if td = 1 then 0 else 1001) 0)
    [.runqAdd 1 noFlags, .runqAdd 2 noFlags, .clock 0]
    (fun _ s => ((s.tdq 0).runq .timeshare).queues 0 = [1] ∧ (s.tdq 0).idx = 1 ∧
      (s.tdq 0).ridx = 0) (by decide +kernel)
  obtain ⟨hq, hidx, hridx⟩ := of_decide_eq_true hc
  have hk : (SchedOp.clock 0).KeepsRotation s := Or.inl (by rw [hidx, hridx]; decide)
  have hp : (SchedOp.clock 0).Proper s := trivial
  have hop : (SchedOp.clock 0).Rotates := trivial
  exact ⟨h, s, hr, hq, hidx, hridx, (rotatesTo_iff hr hp hop rfl).mpr hk⟩

/-- The bucket at the removal index is in use, but bucket 0 of the lottery queue is empty. -/
theorem tick_skips_waiting : ∃ h s,
    SchedRun amd64Priorities properOp (fun _ => batchThread 0 0) (fun _ => 0) h s ∧
    s.WaitsOn 0 1 ∧ (s.setTdq 0 (tdqClock (s.tdq 0))).WaitsOn 0 1 ∧ s.rotation 0 1 = 0 ∧
      (s.setTdq 0 (tdqClock (s.tdq 0))).rotation 0 1 = 63 := by
  obtain ⟨h, s, hr, hc⟩ := schedRun_of_replay amd64Priorities properOp
    (fun _ => batchThread 0 0) [.runqAdd 1 noFlags]
    (fun _ s => 1 ∈ ((s.tdq 0).runq .timeshare).queues 0 ∧
      1 ∈ (((s.setTdq 0 (tdqClock (s.tdq 0))).tdq 0).runq .timeshare).queues 0 ∧
      s.rotation 0 1 = 0 ∧ (s.setTdq 0 (tdqClock (s.tdq 0))).rotation 0 1 = 63) (by decide +kernel)
  obtain ⟨hq, hq', h0, h63⟩ := of_decide_eq_true hc
  exact ⟨h, s, hr, ⟨0, hq⟩, ⟨0, hq'⟩, h0, h63⟩

end FreeBSDEdits
