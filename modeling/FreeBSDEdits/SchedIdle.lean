import FreeBSDEdits.SchedLottery

namespace FreeBSDEdits

/-- The draw ends at the first thread up to which enough tickets are counted. -/
theorem lotteryScan_eq_some {tickets : Nat → UInt64} {winner counter : UInt64} {l : List Nat}
    {td : Nat} : lotteryScan tickets winner counter l = some td ↔
      ∃ i, l[i]? = some td ∧ winner ≤ counter + ((l.take (i + 1)).map tickets).sum ∧
        ∀ j < i, counter + ((l.take (j + 1)).map tickets).sum < winner := by
  induction l generalizing counter with
  | nil => simp [lotteryScan]
  | cons x rest ih =>
    rw [lotteryScan]
    have hsum : ∀ i, counter + (((x :: rest).take (i + 1)).map tickets).sum =
        counter + tickets x + ((rest.take i).map tickets).sum := by
      intro i
      rw [List.take_succ_cons, List.map_cons, List.sum_cons, add_assoc]
    simp only [hsum]
    split
    next hge =>
      constructor
      · intro he
        cases he
        exact ⟨0, rfl, by simpa using hge, by simp⟩
      · rintro ⟨i, hi, _, hlt⟩
        cases i with
        | zero => simpa using hi
        | succ i =>
          have h0 := hlt 0 (Nat.succ_pos i)
          rw [List.take_zero, List.map_nil, List.sum_nil, add_zero] at h0
          exact absurd hge (UInt64.not_le.mpr h0)
    next hge =>
      rw [ih]
      constructor
      · rintro ⟨i, hi, hle, hlt⟩
        refine ⟨i + 1, hi, hle, fun j hj => ?_⟩
        cases j with
        | zero => simpa using UInt64.not_le.mp hge
        | succ j => exact hlt j (Nat.lt_of_succ_lt_succ hj)
      · rintro ⟨i, hi, hle, hlt⟩
        cases i with
        | zero =>
          rw [List.take_zero, List.map_nil, List.sum_nil, add_zero] at hle
          exact absurd hle hge
        | succ i => exact ⟨i, hi, hle, fun j hj => hlt (j + 1) (Nat.succ_lt_succ hj)⟩

/-- The thread holds the ticket with this number, counted from the front of the queue. -/
def HoldsTicket (tickets : Nat → UInt64) (l : List Nat) (ticket : UInt64) (td : Nat) : Prop :=
  ∃ i, l[i]? = some td ∧ ticket ≤ ((l.take (i + 1)).map tickets).sum ∧
    ∀ j < i, ((l.take (j + 1)).map tickets).sum < ticket

theorem holdsTicket_iff {tickets : Nat → UInt64} {l : List Nat} {ticket : UInt64} {td : Nat} :
    HoldsTicket tickets l ticket td ↔ lotteryScan tickets ticket 0 l = some td := by
  rw [lotteryScan_eq_some]
  simp only [zero_add]
  rfl

theorem rng_eq_some {random maxnum n : UInt64} :
    rng random maxnum = some n ↔ maxnum ≠ 0 ∧ n = random % maxnum + 1 := by
  unfold rng
  split
  next h0 => simp [h0]
  next h0 => simp [h0, eq_comm]

namespace Sched

/-- The thread that a draw on CPU `c` picks holds the winning ticket. -/
def Wins (s : Sched) (c : Nat) (random : UInt64) (td : Nat) : Prop :=
  HoldsTicket s.tickets (s.lotteryQueue c) (random % ((s.tdq c).runq .lottery).numTickets + 1) td

/-- tdq_choose finds a thread on CPU `c`: one that is ready, the drawn one, or an idle one. -/
def CanPick (s : Sched) (c : Nat) (random : UInt64) : Prop :=
  let lottery := (s.tdq c).runq .lottery
  let idle := ∃ i, ((s.tdq c).runq .idle).queues i ≠ []
  (∃ k ∈ [RunqName.realtime, .timeshare], ∃ i, ((s.tdq c).runq k).queues i ≠ []) ∨
  lottery.totalProc = 0 ∧ idle ∨
  lottery.totalProc ≠ 0 ∧ lottery.numTickets ≠ 0 ∧
    ((∃ td, s.Wins c random td ∧ (lottery.totalProc = 1 ∨
      s.tickets td ≠ lottery.maxTickets ∧ lottery.maxTickets ≠ 0 ∧
        s.tickets td ≠ lottery.minTickets)) ∨
      (∀ td, ¬s.Wins c random td) ∧ idle)

/-- sched_choose returns a thread that was queued on CPU `c` and takes exactly this one away. -/
def PicksQueued (s : Sched) (R : Priorities) (c : Nat) (random : UInt64) : Prop :=
  ∃ s' td, schedChoose R s c random = some (s', some td) ∧
    (∃ k i, td ∈ ((s.tdq c).runq k).queues i) ∧
    ∀ r i, (s'.runq r).queues i = ((s.runq r).queues i).erase td

variable {R : Priorities} {s s' : Sched} {c td : Nat} {random : UInt64}

theorem Represents.bucket_lt (h : s.Represents) {k : RunqName} {i : Nat}
    (hne : ((s.tdq c).runq k).queues i ≠ []) : i < rqNqs := by
  obtain ⟨td, hm⟩ := List.exists_mem_of_ne_nil _ hne
  exact (h.place ⟨c, k⟩ i td hm).2.2.1

theorem Represents.choose_some_iff (h : s.Represents) {k : RunqName} :
    (∃ td, ((s.tdq c).runq k).choose = some td) ↔ ∃ i, ((s.tdq c).runq k).queues i ≠ [] := by
  have hn : ((s.tdq c).runq k).choose = none ↔
      ∀ i < rqNqs, ((s.tdq c).runq k).queues i = [] := Runq.choose_eq_none (h.marks ⟨c, k⟩)
  rw [← Option.ne_none_iff_exists', ne_eq, hn]
  push Not
  exact exists_congr (fun i => and_iff_right_of_imp (fun hne => h.bucket_lt hne))

theorem Represents.not_waits_iff (h : s.Represents) : ¬(s.tdq c).Waits ↔
    ∃ k ∈ [RunqName.realtime, .timeshare], ∃ i, ((s.tdq c).runq k).queues i ≠ [] := by
  rw [h.waits_iff]
  push Not
  exact exists_congr (fun k => and_congr_right (fun _ => exists_congr (fun i =>
    and_iff_right_of_imp (fun hne => h.bucket_lt hne))))

/-- A call of tdq_choose finds a thread exactly where `CanPick` says so. -/
theorem Represents.chooses_some_iff (h : s.Represents) :
    (∃ d td, (s.tdq c).Chooses s.tickets random d (some td)) ↔ s.CanPick c random := by
  constructor
  · rintro ⟨d, td, hc⟩
    generalize ho : some td = o at hc
    cases hc with
    | realtime hr =>
      obtain ⟨i, hm⟩ := Runq.mem_of_choose hr
      exact Or.inl ⟨.realtime, by simp, i, List.ne_nil_of_mem hm⟩
    | timeshare _ ht =>
      obtain ⟨i, hm⟩ := Runq.mem_of_chooseFrom ht
      exact Or.inl ⟨.timeshare, by simp, i, List.ne_nil_of_mem hm⟩
    | unused _ hp => exact Or.inr (Or.inl ⟨hp, h.choose_some_iff.mp ⟨td, ho.symm⟩⟩)
    | missed _ hp hr hs =>
      obtain ⟨hn, rfl⟩ := rng_eq_some.mp hr
      refine Or.inr (Or.inr ⟨hp, hn, Or.inr ⟨fun x hx => ?_, h.choose_some_iff.mp ⟨td, ho.symm⟩⟩⟩)
      exact absurd (hs.symm.trans (holdsTicket_iff.mp hx)) (by simp)
    | last _ hp hr hs =>
      obtain ⟨hn, rfl⟩ := rng_eq_some.mp hr
      exact Or.inr (Or.inr ⟨by omega, hn, Or.inl ⟨_, holdsTicket_iff.mpr hs, Or.inl hp⟩⟩)
    | draw _ hp _ hr hs hmax hmax0 hmin =>
      obtain ⟨hn, rfl⟩ := rng_eq_some.mp hr
      exact Or.inr (Or.inr ⟨hp, hn, Or.inl ⟨_, holdsTicket_iff.mpr hs, Or.inr ⟨hmax, hmax0, hmin⟩⟩⟩)
  · intro hp
    by_cases hw : (s.tdq c).Waits
    · rcases hp with hready | ⟨h0, hidle⟩ | ⟨h0, hn, hpick⟩
      · exact absurd hw (h.not_waits_iff.mpr hready)
      · obtain ⟨td, htd⟩ := h.choose_some_iff.mpr hidle
        refine ⟨s.tdq c, td, ?_⟩
        rw [← htd]
        exact .unused hw h0
      · have hr : rng random ((s.tdq c).runq .lottery).numTickets =
            some (random % ((s.tdq c).runq .lottery).numTickets + 1) := rng_eq_some.mpr ⟨hn, rfl⟩
        rcases hpick with ⟨td, hx, hok⟩ | ⟨hx, hidle⟩
        · have hs := holdsTicket_iff.mp hx
          by_cases h1 : ((s.tdq c).runq .lottery).totalProc = 1
          · exact ⟨_, td, .last hw h1 hr hs⟩
          · obtain ⟨hmax, hmax0, hmin⟩ := hok.resolve_left h1
            exact ⟨_, td, .draw hw h0 h1 hr hs hmax hmax0 hmin⟩
        · obtain ⟨td, htd⟩ := h.choose_some_iff.mpr hidle
          refine ⟨s.tdq c, td, ?_⟩
          rw [← htd]
          refine .missed hw h0 hr ?_
          exact Option.eq_none_iff_forall_ne_some.mpr (fun x hs => hx x (holdsTicket_iff.mpr hs))
    · obtain ⟨k, hk, hi⟩ := h.not_waits_iff.mp hw
      cases hr : ((s.tdq c).runq .realtime).choose with
      | some td => exact ⟨_, td, .realtime hr⟩
      | none =>
        cases ht : ((s.tdq c).runq .timeshare).chooseFrom (s.tdq c).ridx.toNat with
        | some td => exact ⟨_, td, .timeshare hr ht⟩
        | none => exact absurd ⟨hr, ht⟩ hw

/-- What sched_choose picks comes off its queue, and nothing else does. -/
theorem Represents.picksQueued_iff (h : s.Represents) :
    s.PicksQueued R c random ↔ ∃ d td, (s.tdq c).Chooses s.tickets random d (some td) := by
  constructor
  · rintro ⟨s', td, hs, _⟩
    obtain ⟨d, hc⟩ := schedChoose_chooses hs
    exact ⟨d, td, hc⟩
  · rintro ⟨d, td, hc⟩
    obtain ⟨h₁, rfl, k, d', hl, he⟩ := schedChoose_some (R := R) h hc
    refine ⟨_, td, he, hc.mem, fun r i => ?_⟩
    have hq := h₁.leave_queues hl r i
    rw [(runq_same hc.same.toSameQueues r).2] at hq
    rw [← hq]
    by_cases hcpu : r.cpu = (s.thread td).cpu
    · obtain ⟨c, j⟩ := r
      cases hcpu
      change _ = (((s.setTdq (s.thread td).cpu d).setTdq (s.thread td).cpu d').runq ⟨_, j⟩).queues i
      rw [setTdq_runq_self, setTdq_runq_self]
    · rw [setTdq_runq_of_ne _ hcpu]
      rfl

end Sched

/-- In every reachable state sched_choose serves the queues exactly where `CanPick` says so. -/
theorem picksQueued_iff_canPick {R : Priorities} {thread : Nat → Thread} {curthread : Nat → Nat}
    {h : SchedHistory} {s : Sched} (hr : SchedRun R properOp thread curthread h s) (c : Nat)
    (random : UInt64) : s.PicksQueued R c random ↔ s.CanPick c random := by
  have hs := hr.represents (fun _ _ _ hp => hp)
  rw [hs.picksQueued_iff, hs.chooses_some_iff]

theorem picksQueued_iff_canPick_drawn : ∃ h s,
    SchedRun amd64Priorities properOp (fun _ => batchThread 1001 0) (fun _ => 0) h s ∧
    s.lotteryQueue 0 = [1] ∧ s.PicksQueued amd64Priorities 0 5 := by
  obtain ⟨h, s, hr, hc⟩ := schedRun_of_replay amd64Priorities properOp (fun _ => batchThread 1001 0)
    [.runqAdd 1 noFlags]
    (fun _ s => s.lotteryQueue 0 = [1] ∧ s.tickets 1 = 20 ∧
      ((s.tdq 0).runq .lottery).totalProc = 1 ∧ ((s.tdq 0).runq .lottery).numTickets = 20)
    (by decide +kernel)
  obtain ⟨hq, ht, hp, hn⟩ := of_decide_eq_true hc
  refine ⟨h, s, hr, hq, (picksQueued_iff_canPick hr 0 5).mpr ?_⟩
  have hholds : s.Wins 0 5 1 := by
    refine ⟨0, by rw [hq]; rfl, ?_, by simp⟩
    rw [hq, hn]
    simp only [List.take_succ_cons, List.take_zero, List.map_cons, List.map_nil, ht]
    decide
  exact Or.inr (Or.inr ⟨by rw [hp]; decide, by rw [hn]; decide, Or.inl ⟨1, hholds, Or.inl hp⟩⟩)

/-- After tdq_setlowpri has drawn the only thread, sched_choose returns the idle thread. -/
theorem idles_with_thread_queued : ∃ h s,
    SchedRun amd64Priorities properOp (fun _ => batchThread 1001 0) (fun _ => 0) h s ∧
    s.lotteryQueue 0 = [1] ∧ (∃ s', schedChoose amd64Priorities s 0 0 = some (s', none)) ∧
      ¬s.PicksQueued amd64Priorities 0 0 := by
  obtain ⟨h, s, hr, hc⟩ := schedRun_of_replay amd64Priorities properOp (fun _ => batchThread 1001 0)
    [.runqAdd 1 noFlags, .setlowpri 0 0 0]
    (fun _ s => s.lotteryQueue 0 = [1] ∧
      (schedChoose amd64Priorities s 0 0).map Prod.snd = some none)
    (by decide +kernel)
  obtain ⟨hq, hnone⟩ := of_decide_eq_true hc
  obtain ⟨⟨s', o⟩, hs, ho⟩ := Option.map_eq_some_iff.mp hnone
  cases ho
  refine ⟨h, s, hr, hq, ⟨s', hs⟩, ?_⟩
  rintro ⟨s'', td, hs', _⟩
  cases hs.symm.trans hs'

end FreeBSDEdits
