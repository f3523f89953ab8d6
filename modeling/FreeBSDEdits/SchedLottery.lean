import FreeBSDEdits.SchedRuns
import Mathlib.Algebra.BigOperators.Group.List.Basic
import Mathlib.Data.UInt

namespace FreeBSDEdits

namespace Runq

variable {rq : Runq}

theorem findbit_eq_none (hm : BitmapMarks rq.status rq.queues) :
    rq.findbit = none ↔ ∀ i < rqNqs, rq.queues i = [] := by
  rw [findbit, hm.find?_eq_none (fun i hi => List.mem_range.mp hi)]
  simp only [List.mem_range]

theorem choose_eq_none (hm : BitmapMarks rq.status rq.queues) :
    rq.choose = none ↔ ∀ i < rqNqs, rq.queues i = [] := by
  rw [← findbit_eq_none hm, choose]
  split
  next pri hf =>
    obtain ⟨_, hne⟩ := hm.of_find? (fun i hi => List.mem_range.mp hi) hf
    simp [hf, hne]
  next hf => simp [hf]

theorem chooseFrom_eq_none (hm : BitmapMarks rq.status rq.queues) {idx : Nat} (hi : idx < rqNqs) :
    rq.chooseFrom idx = none ↔ ∀ i < rqNqs, rq.queues i = [] := by
  have hlt : ∀ i ∈ List.range' idx (rqNqs - idx), i < rqNqs := by
    intro i h
    have h' := (List.mem_range'_1.mp h).2
    omega
  unfold chooseFrom findbitFrom
  cases hf : (List.range' idx (rqNqs - idx)).find? (fun i => rq.status.getLsbD i) with
  | some pri =>
    obtain ⟨hp, hne⟩ := hm.of_find? hlt hf
    refine iff_of_false (by simp [hne]) (fun h => hne (h pri (hlt pri hp)))
  | none =>
    have hhigh := (hm.find?_eq_none hlt).mp hf
    by_cases h0 : idx = 0
    · subst idx
      refine iff_of_true (by simp) (fun i h => hhigh i (List.mem_range'_1.mpr ⟨i.zero_le, by omega⟩))
    · simp only [if_neg h0]
      rw [← findbit_eq_none hm]
      split
      next pri hb =>
        obtain ⟨_, hne⟩ := hm.of_find? (fun i hi => List.mem_range.mp hi) hb
        simp [hb, hne]
      next hb => simp [hb]

end Runq

/-- tdq_choose passes the realtime and the timeshare queue when both are empty. -/
theorem Sched.Represents.waits_iff {s : Sched} (h : s.Represents) (c : Nat) :
    (s.tdq c).Waits ↔
      ∀ k ∈ [RunqName.realtime, .timeshare], ∀ i < rqNqs, ((s.tdq c).runq k).queues i = [] := by
  have hridx := (h.rotates c).ridx
  rw [UInt8.lt_iff_toNat_lt] at hridx
  have hr := Runq.choose_eq_none (h.marks ⟨c, .realtime⟩)
  have ht := Runq.chooseFrom_eq_none (h.marks ⟨c, .timeshare⟩) hridx
  simp only [List.mem_cons, List.not_mem_nil, or_false, forall_eq_or_imp, forall_eq]
  exact and_congr hr ht

namespace Sched

def lotteryQueue (s : Sched) (c : Nat) : List Nat := ((s.tdq c).runq .lottery).queues 0

/-- num_tickets and total_proc describe the threads of bucket 0. -/
structure Accounts (s : Sched) (c : Nat) : Prop where
  numTickets : ((s.tdq c).runq .lottery).numTickets = ((s.lotteryQueue c).map s.tickets).sum
  totalProc : ((s.tdq c).runq .lottery).totalProc = (s.lotteryQueue c).length

/-- Without the thread `gone`, tdq_choose on CPU `c` comes to the lottery draw. -/
def Draws (s : Sched) (c : Nat) (gone : Option Nat) : Prop :=
  ((s.tdq c).runq .lottery).totalProc ≠ 0 ∧
    ∀ k ∈ [RunqName.realtime, .timeshare], ∀ i < rqNqs, ∀ td ∈ ((s.tdq c).runq k).queues i,
      some td = gone

instance (s : Sched) (c : Nat) (gone : Option Nat) : Decidable (s.Draws c gone) := by
  unfold Draws
  infer_instance

def OffLottery (s : Sched) (td : Nat) : Prop := ∀ r ∈ (s.thread td).runq, r.name ≠ .lottery

instance (s : Sched) (td : Nat) : Decidable (s.OffLottery td) := by
  unfold OffLottery
  infer_instance

/-- sched_rem takes no thread off the lottery queue and does not draw. -/
def RemovesQuietly (s : Sched) (td : Nat) : Prop :=
  s.OffLottery td ∧ ((s.thread td).priority = (s.tdq (s.thread td).cpu).lowpri →
    ¬s.Draws (s.thread td).cpu (some td))

instance (s : Sched) (td : Nat) : Decidable (s.RemovesQuietly td) := by
  unfold RemovesQuietly
  infer_instance

end Sched

/-- Threads leave the lottery queue, and tickets are drawn, in sched_choose only. -/
def SchedOp.DrawsOnlyToRun (s : Sched) : SchedOp → Prop
  | .runqRem td => s.OffLottery td
  | .tdqChoose c _ | .setlowpri c _ _ => ¬s.Draws c none
  | .rem td _ => s.RemovesQuietly td
  | .move source target _ =>
    ∀ td ∈ tdqSteal s.thread (s.tdq source) target, s.RemovesQuietly td
  | .threadPriority td prio _ =>
    ((s.thread td).state = .runq ∧ prio < (s.thread td).priority → s.RemovesQuietly td) ∧
    ((s.thread td).state = .running ∧ ¬prio < (s.tdq (s.thread td).cpu).lowpri ∧
      (s.tdq (s.thread td).cpu).lowpri = (s.thread td).priority ∧ (s.thread td).priority ≠ prio →
        ¬s.Draws (s.thread td).cpu none)
  | .userret c td _ => (s.thread td).priority ≠ (s.thread td).userPri → ¬s.Draws c none
  | _ => True

instance (s : Sched) (op : SchedOp) : Decidable (op.DrawsOnlyToRun s) := by
  rcases op <;> unfold SchedOp.DrawsOnlyToRun <;> infer_instance

def drawsOnlyToRun (_ : SchedHistory) (s : Sched) (op : SchedOp) : Prop :=
  op.Proper s ∧ op.DrawsOnlyToRun s

instance : ∀ h s op, Decidable (drawsOnlyToRun h s op) := fun _ s op =>
  inferInstanceAs (Decidable (op.Proper s ∧ op.DrawsOnlyToRun s))

namespace Sched

variable {R : Priorities} {s s' : Sched} {c td : Nat}

theorem Represents.not_mem_lotteryQueue (h : s.Represents) (ho : s.OffLottery td) (c : Nat) :
    td ∉ s.lotteryQueue c := by
  intro hm
  exact ho ⟨c, .lottery⟩ (h.place ⟨c, .lottery⟩ 0 td hm).1 rfl

theorem Represents.lottery_unique (h : s.Represents) (hc : c ≠ (s.thread td).cpu) :
    td ∉ s.lotteryQueue c := by
  intro hm
  exact hc (h.place ⟨c, .lottery⟩ 0 td hm).2.2.2.2.symm

theorem Represents.offLottery_of_mem (h : s.Represents) {k : RunqName} {i : Nat}
    (hk : k ≠ .lottery) (hm : td ∈ ((s.tdq c).runq k).queues i) : s.OffLottery td := by
  intro r hr
  cases Option.some.inj ((h.place ⟨c, k⟩ i td hm).1.symm.trans hr)
  exact hk

/-- The removal of a thread leaves the counters alone. -/
theorem Leaving.counters {k : RunqName} {d : Tdq} (hl : s.Leaving td k d) :
    (d.runq .lottery).numTickets = ((s.tdq (s.thread td).cpu).runq .lottery).numTickets ∧
    (d.runq .lottery).totalProc = ((s.tdq (s.thread td).cpu).runq .lottery).totalProc ∧
    (d.runq .lottery).maxTickets = ((s.tdq (s.thread td).cpu).runq .lottery).maxTickets ∧
    (d.runq .lottery).minTickets = ((s.tdq (s.thread td).cpu).runq .lottery).minTickets := by
  by_cases hk : k = .lottery
  · subst k
    have hq := hl.leaves.loses
    exact ⟨hq.numTickets, hq.totalProc, hq.maxTickets, hq.minTickets⟩
  · rw [hl.leaves.others _ (Ne.symm hk)]
    exact ⟨rfl, rfl, rfl, rfl⟩

theorem Accounts.congr (ha : s.Accounts c)
    (hn : ((s'.tdq c).runq .lottery).numTickets = ((s.tdq c).runq .lottery).numTickets)
    (hp : ((s'.tdq c).runq .lottery).totalProc = ((s.tdq c).runq .lottery).totalProc)
    (hq : s'.lotteryQueue c = s.lotteryQueue c)
    (ht : ∀ x ∈ s.lotteryQueue c, s'.tickets x = s.tickets x) : s'.Accounts c := by
  refine ⟨?_, ?_⟩
  · rw [hn, hq, ha.numTickets, List.map_congr_left ht]
  · rw [hp, hq, ha.totalProc]

theorem setTdq_lottery {c' : Nat} {d : Tdq} (hd : d.runq .lottery = (s.tdq c').runq .lottery)
    (c : Nat) : ((s.setTdq c' d).tdq c).runq .lottery = (s.tdq c).runq .lottery := by
  by_cases hc : c = c'
  · subst c'
    rw [setTdq_tdq_self, hd]
  · rw [setTdq_tdq_of_ne s hc]

theorem Accounts.setTdq (ha : s.Accounts c) {c' : Nat} {d : Tdq}
    (hd : d.runq .lottery = (s.tdq c').runq .lottery) : (s.setTdq c' d).Accounts c := by
  have hr := setTdq_lottery hd c
  refine ha.congr (by rw [hr]) (by rw [hr]) ?_ (fun _ _ => rfl)
  rw [lotteryQueue, hr, lotteryQueue]

/-- A thread joins the lottery queue of CPU `c`. -/
structure Joins (s s' : Sched) (c td : Nat) : Prop where
  queue : (s'.lotteryQueue c).Perm (td :: s.lotteryQueue c)
  tickets : s'.tickets td = (s.thread td).startTickets
  numTickets : ((s'.tdq c).runq .lottery).numTickets =
    ((s.tdq c).runq .lottery).numTickets + (s.thread td).startTickets
  totalProc : ((s'.tdq c).runq .lottery).totalProc = ((s.tdq c).runq .lottery).totalProc + 1
  maxTickets : ((s'.tdq c).runq .lottery).maxTickets =
    if (s.thread td).startTickets > ((s.tdq c).runq .lottery).maxTickets ∨
        ((s.tdq c).runq .lottery).maxTickets = 0 then
      (s.thread td).startTickets else ((s.tdq c).runq .lottery).maxTickets
  minTickets : ((s'.tdq c).runq .lottery).minTickets =
    if (s.thread td).startTickets < ((s.tdq c).runq .lottery).minTickets ∨
        ((s.tdq c).runq .lottery).minTickets = 0 then
      (s.thread td).startTickets else ((s.tdq c).runq .lottery).minTickets

/-- tdq_runq_add lets the thread join the lottery queue of its CPU, or leaves that queue alone. -/
theorem Represents.enter_lottery (h : s.Represents) (hn : ¬s.Queued td) (flags : SrqFlags) (c : Nat) :
    (∀ x ∈ s.lotteryQueue c, (s.runqAdd R (s.thread td).cpu td flags).tickets x = s.tickets x) ∧
    ((c = (s.thread td).cpu ∧ R.route (s.thread td) = .lottery) ∧
        s.Joins (s.runqAdd R (s.thread td).cpu td flags) c td ∨
      ¬(c = (s.thread td).cpu ∧ R.route (s.thread td) = .lottery) ∧
        ((s.runqAdd R (s.thread td).cpu td flags).tdq c).runq .lottery =
          (s.tdq c).runq .lottery) := by
  have hout : td ∉ s.lotteryQueue c := fun hm => hn (h.queued_iff.mpr ⟨⟨c, .lottery⟩, 0, hm⟩)
  have he := tdqRunqAdd_enters R (s.thread td).cpu (s.tdq (s.thread td).cpu) td (s.thread td) flags
  unfold runqAdd
  dsimp only
  generalize tdqRunqAdd R (s.thread td).cpu (s.tdq (s.thread td).cpu) td (s.thread td) flags = r at he
  constructor
  · intro x hx
    rw [tickets, setThread_thread_of_ne _ (ne_of_mem_of_not_mem hx hout)]
    rfl
  · by_cases hc : c = (s.thread td).cpu ∧ R.route (s.thread td) = .lottery
    · refine Or.inl ⟨hc, ?_⟩
      obtain ⟨rfl, hk⟩ := hc
      refine ⟨?_, ?_, ?_, ?_, ?_, ?_⟩
      · have hp := enter_perm he
        rw [hk, he.lotteryIndex hk] at hp
        rw [lotteryQueue, setThread_tdq, setTdq_tdq_self]
        exact hp
      · rw [tickets, setThread_thread_self, he.tickets, if_pos hk]
      · rw [setThread_tdq, setTdq_tdq_self, he.numTickets hk]
      · rw [setThread_tdq, setTdq_tdq_self, he.totalProc hk]
      · rw [setThread_tdq, setTdq_tdq_self, he.maxTickets hk]
      · rw [setThread_tdq, setTdq_tdq_self, he.minTickets hk]
    · refine Or.inr ⟨hc, ?_⟩
      rw [setThread_tdq]
      by_cases hcpu : c = (s.thread td).cpu
      · subst c
        have hk : R.route (s.thread td) ≠ .lottery := fun hk => hc ⟨rfl, hk⟩
        rw [setTdq_tdq_self, he.others _ (Ne.symm hk)]
      · rw [setTdq_tdq_of_ne s hcpu]

theorem Accounts.enter (ha : s.Accounts c) (h : s.Represents) (hn : ¬s.Queued td)
    (flags : SrqFlags) : (s.runqAdd R (s.thread td).cpu td flags).Accounts c := by
  obtain ⟨ht, ⟨_, hj⟩ | ⟨_, hr⟩⟩ := h.enter_lottery (R := R) hn flags c
  · refine ⟨?_, ?_⟩
    · rw [(hj.queue.map _).sum_eq, List.map_cons, List.sum_cons, List.map_congr_left ht, hj.tickets,
        hj.numTickets, ha.numTickets, add_comm]
    · rw [hj.queue.length_eq, List.length_cons, hj.totalProc, ha.totalProc]
      rfl
  · exact ha.congr (by rw [hr]) (by rw [hr]) (by rw [lotteryQueue, hr, lotteryQueue]) ht

/-- A thread is off the lottery queue of CPU `c`, and the counters are what they were. -/
structure Sheds (s s' : Sched) (c td : Nat) : Prop where
  queue : s'.lotteryQueue c = (s.lotteryQueue c).erase td
  tickets : s'.tickets = s.tickets
  numTickets : ((s'.tdq c).runq .lottery).numTickets = ((s.tdq c).runq .lottery).numTickets
  totalProc : ((s'.tdq c).runq .lottery).totalProc = ((s.tdq c).runq .lottery).totalProc
  maxTickets : ((s'.tdq c).runq .lottery).maxTickets = ((s.tdq c).runq .lottery).maxTickets
  minTickets : ((s'.tdq c).runq .lottery).minTickets = ((s.tdq c).runq .lottery).minTickets

theorem Sheds.setTdq (hs : s.Sheds s' c td) {c' : Nat} {d : Tdq}
    (hd : d.runq .lottery = (s'.tdq c').runq .lottery) : s.Sheds (s'.setTdq c' d) c td := by
  have hr := setTdq_lottery hd c
  refine ⟨?_, hs.tickets, ?_, ?_, ?_, ?_⟩
  · rw [lotteryQueue, hr]
    exact hs.queue
  all_goals rw [hr]
  · exact hs.numTickets
  · exact hs.totalProc
  · exact hs.maxTickets
  · exact hs.minTickets

theorem Represents.leave_lottery (h : s.Represents) {k : RunqName} {d : Tdq}
    (hl : s.Leaving td k d) (c : Nat) :
    s.Sheds ((s.setTdq (s.thread td).cpu d).setThread td
      { s.thread td with xferable := false }) c td := by
  obtain ⟨hn, hp, hmax, hmin⟩ := hl.counters
  have hq : ((s.setTdq (s.thread td).cpu d).setThread td
      { s.thread td with xferable := false }).lotteryQueue c = (s.lotteryQueue c).erase td :=
    h.leave_queues hl ⟨c, .lottery⟩ 0
  refine ⟨hq, tickets_setThread rfl, ?_, ?_, ?_, ?_⟩
  all_goals
    rw [setThread_tdq]
    by_cases hc : c = (s.thread td).cpu
    · subst c
      rw [setTdq_tdq_self]
      assumption
    · rw [setTdq_tdq_of_ne _ hc]

theorem Accounts.leave_off (ha : s.Accounts c) (h : s.Represents) {k : RunqName} {d : Tdq}
    (hl : s.Leaving td k d) (ho : s.OffLottery td) :
    ((s.setTdq (s.thread td).cpu d).setThread td
      { s.thread td with xferable := false }).Accounts c := by
  have hs := h.leave_lottery hl c
  have he := List.erase_of_not_mem (h.not_mem_lotteryQueue ho c)
  exact ha.congr hs.numTickets hs.totalProc (hs.queue.trans he) (fun x _ => congrFun hs.tickets x)

theorem Move.accounts (hm : Move R (fun d d' => d'.runq = d.runq) OffLottery s s')
    (h : s.Represents) (ha : ∀ c, s.Accounts c) (c : Nat) : s'.Accounts c := by
  cases hm with
  | quiet hd => exact (ha c).setTdq (by rw [hd.runq])
  | peek _ hT => exact (ha c).setTdq (by rw [hT])
  | thread ht _ =>
    refine (ha c).congr rfl rfl rfl (fun x _ => ?_)
    rw [tickets_setThread ht.tickets]
  | switchTo => exact (ha c).congr rfl rfl rfl (fun _ _ => rfl)
  | add flags hn => exact (ha c).enter h hn flags
  | rem hq ho hr =>
    obtain ⟨k, d, hl⟩ := h.leaving hq
    cases hr.symm.trans hl.eq_some
    exact (ha c).leave_off h hl ho
  | tick => exact (ha c).setTdq (by rw [tdqClock_runq])

theorem Moves.accounts (hm : Moves R (fun d d' => d'.runq = d.runq) OffLottery s s')
    (h : s.Represents) (ha : ∀ c, s.Accounts c) : ∀ c, s'.Accounts c := by
  induction hm with
  | refl => exact ha
  | tail hms hm ih => exact hm.accounts (Moves.represents hms h) ih

/-- What tdq_choose does to the lottery queue: nothing, or a draw. -/
theorem Represents.chooses_cases (h : s.Represents) {random : UInt64} {d : Tdq} {o : Option Nat}
    (hc : (s.tdq c).Chooses s.tickets random d o) :
    (d = s.tdq c ∧ ∀ w ∈ o, s.OffLottery w) ∨
    (s.Draws c none ∧ ∃ w ∈ s.lotteryQueue c, o = some w ∧
      (d.runq .lottery).numTickets = ((s.tdq c).runq .lottery).numTickets - s.tickets w ∧
      (d.runq .lottery).totalProc = ((s.tdq c).runq .lottery).totalProc - 1) := by
  have hoff : ∀ {w : Nat} {k : RunqName}, k ≠ .lottery → (∃ i, w ∈ ((s.tdq c).runq k).queues i) →
      s.OffLottery w := fun hk ⟨_, hm⟩ => h.offLottery_of_mem hk hm
  have hdraws : (s.tdq c).Waits → ((s.tdq c).runq .lottery).totalProc ≠ 0 → s.Draws c none := by
    refine fun hw hp => ⟨hp, fun k hk i hi td hm => ?_⟩
    rw [(h.waits_iff c).mp hw k hk i hi] at hm
    exact absurd hm List.not_mem_nil
  cases hc with
  | realtime hr =>
    refine Or.inl ⟨rfl, fun w hw => hoff (k := .realtime) (by decide) ?_⟩
    cases hw
    exact Runq.mem_of_choose hr
  | timeshare _ ht =>
    refine Or.inl ⟨rfl, fun w hw => hoff (k := .timeshare) (by decide) ?_⟩
    cases hw
    exact Runq.mem_of_chooseFrom ht
  | unused | missed =>
    exact Or.inl ⟨rfl, fun w hw => hoff (k := .idle) (by decide) (Runq.mem_of_choose hw)⟩
  | last hw hp _ hs =>
    refine Or.inr ⟨hdraws hw (by omega), _, lotteryScan_mem hs, rfl, rfl, ?_⟩
    rw [hp]
    rfl
  | draw hw hp _ _ hs => exact Or.inr ⟨hdraws hw hp, _, lotteryScan_mem hs, rfl, rfl, rfl⟩

theorem Represents.peeks (h : s.Represents) (hd : ¬s.Draws c none) (random : UInt64) :
    Peeks (fun d d' => d'.runq = d.runq) s c random := by
  intro d o hc
  rcases h.chooses_cases hc with ⟨rfl, _⟩ | ⟨hdraw, _⟩
  · rfl
  · exact absurd hdraw hd

theorem removed_queues (h : s.Represents) {k : RunqName} {d : Tdq} (hl : s.Leaving td k d)
    (r : RunqRef) (i : Nat) :
    ((s.removed td d).runq r).queues i = ((s.runq r).queues i).erase td := by
  rw [← h.leave_queues hl, removed, setThread_runq]
  by_cases hc : r.cpu = (s.thread td).cpu
  · obtain ⟨c, j⟩ := r
    cases hc
    rw [setTdq_runq_self, setTdq_runq_self]
    rfl
  · rw [setTdq_runq_of_ne _ hc, setThread_runq]

theorem Represents.removed (h : s.Represents) {k : RunqName} {d : Tdq} (hl : s.Leaving td k d) :
    (s.removed td d).Represents := by
  have hq : s.Queued td := h.queued_iff.mpr ⟨⟨(s.thread td).cpu, k⟩, _, hl.mem⟩
  exact (removed_moves (R := amd64Priorities) (T := fun _ _ => True) (Q := fun _ _ => True) h hq
    trivial hl).1.represents h

theorem removed_tdq_of_ne (d : Tdq) (hc : c ≠ (s.thread td).cpu) :
    (s.removed td d).tdq c = s.tdq c := by
  rw [Sched.removed, setThread_tdq, setTdq_tdq_of_ne _ hc, setThread_tdq, setTdq_tdq_of_ne _ hc]

theorem removed_lottery (h : s.Represents) {k : RunqName} {d : Tdq} (hl : s.Leaving td k d)
    (c : Nat) : s.Sheds (s.removed td d) c td := by
  have ht : (s.removed td d).tickets = s.tickets := by
    funext x
    rw [tickets, removed_thread]
    by_cases hx : x = td
    · subst x
      rw [Function.update_self]
      rfl
    · rw [Function.update_of_ne hx]
      rfl
  obtain ⟨hn, hp, hmax, hmin⟩ := hl.counters
  refine ⟨removed_queues h hl ⟨c, .lottery⟩ 0, ht, ?_, ?_, ?_, ?_⟩
  all_goals
    by_cases hc : c = (s.thread td).cpu
    · subst c
      rw [removed_tdq]
      assumption
    · rw [removed_tdq_of_ne d hc]

theorem removed_draws (h : s.Represents) {k : RunqName} {d : Tdq} (hl : s.Leaving td k d) :
    (s.removed td d).Draws (s.thread td).cpu none ↔ s.Draws (s.thread td).cpu (some td) := by
  rw [Draws, Draws, (removed_lottery h hl _).totalProc]
  refine and_congr_right (fun _ => forall₂_congr (fun j hj => forall₂_congr (fun i hi => ?_)))
  have hq := removed_queues h hl ⟨(s.thread td).cpu, j⟩ i
  have hn := h.nodup ⟨(s.thread td).cpu, j⟩ i
  simp only [runq] at hq hn
  simp only [hq, hn.mem_erase_iff, reduceCtorEq, Option.some.injEq]
  exact forall_congr' (fun x => by tauto)

theorem RemovesQuietly.within (h : s.Represents) (hq : s.RemovesQuietly td) (random : UInt64) :
    RemWithin (fun d d' => d'.runq = d.runq) OffLottery s td random := by
  refine ⟨hq.1, fun k d hl hlow => (h.removed hl).peeks ?_ random⟩
  rw [removed_draws h hl]
  exact hq.2 hlow

theorem choose_of_chooses {random : UInt64} {d : Tdq} {o : Option Nat}
    (hc : (s.tdq c).Chooses s.tickets random d o) : s.choose c random = some (s.setTdq c d, o) := by
  rw [choose, tdqChoose_iff.mpr hc]
  rfl

theorem schedChoose_none {random : UInt64} {d : Tdq}
    (hc : (s.tdq c).Chooses s.tickets random d none) :
    schedChoose R s c random =
      some (s.setTdq c { d with lowpri := .ofNat R.maxIdle }, none) := by
  simp only [schedChoose, choose_of_chooses hc, setTdq_tdq_self, setTdq_setTdq]

/-- The state of sched_choose when the chosen thread has left its queue. -/
theorem schedChoose_some (h : s.Represents) {random : UInt64} {d : Tdq} {w : Nat}
    (hc : (s.tdq c).Chooses s.tickets random d (some w)) :
    (s.setTdq c d).Represents ∧ (s.thread w).cpu = c ∧
    ∃ k d', (s.setTdq c d).Leaving w k d' ∧ schedChoose R s c random =
      some ((((s.setTdq c d).setTdq c d').setThread w { s.thread w with xferable := false }).setTdq c
        { d' with lowpri := (s.thread w).priority }, some w) := by
  have h₁ := h.setTdq hc.same
  obtain ⟨hq, hcpu⟩ := h.queued_of_mem hc.mem
  obtain ⟨k, d', hl⟩ := h₁.leaving ((queued_setTdq hc.same.toSameQueues w).mpr hq)
  refine ⟨h₁, hcpu, k, d', hl, ?_⟩
  have he := hl.eq_some
  subst hcpu
  rw [setTdq_thread] at he
  simp [schedChoose, choose_of_chooses hc, he]

theorem schedChoose_chooses {random : UInt64} {o : Option Nat}
    (hs : schedChoose R s c random = some (s', o)) :
    ∃ d, (s.tdq c).Chooses s.tickets random d o := by
  cases hc : s.choose c random with
  | none => simp [schedChoose, hc] at hs
  | some r =>
    obtain ⟨s₁, o₁⟩ := r
    obtain ⟨d, hd, rfl⟩ := choose_eq_some hc
    cases o₁ with
    | none =>
      cases (schedChoose_none hd).symm.trans hs
      exact ⟨d, hd⟩
    | some w =>
      simp only [schedChoose, hc] at hs
      obtain ⟨s₂, _, he⟩ := Option.map_eq_some_iff.mp hs
      cases he
      exact ⟨d, hd⟩

/-- tdq_choose leaves the threads where they are. -/
theorem chooses_lotteryQueue {random : UInt64} {d : Tdq} {o : Option Nat}
    (hc : (s.tdq c).Chooses s.tickets random d o) (c' : Nat) :
    (s.setTdq c d).lotteryQueue c' = s.lotteryQueue c' :=
  congrFun (runq_same hc.same.toSameQueues ⟨c', .lottery⟩).2 0

/-- The rest of sched_choose takes the thread that was chosen off its queue. -/
theorem Represents.schedChoose_sheds (h : s.Represents) {random : UInt64} {d : Tdq} {w : Nat}
    (hc : (s.tdq c).Chooses s.tickets random d (some w))
    (hs : schedChoose R s c random = some (s', some w)) :
    (s.thread w).cpu = c ∧ ∀ c', (s.setTdq c d).Sheds s' c' w := by
  obtain ⟨h₁, rfl, k, d', hl, he⟩ := schedChoose_some (R := R) h hc
  cases he.symm.trans hs
  refine ⟨rfl, fun c' => ?_⟩
  have hleft := h₁.leave_lottery hl c'
  refine hleft.setTdq ?_
  rw [setThread_tdq, setTdq_thread, setTdq_tdq_self]

/-- After sched_choose a lottery queue is what it was, or without a winner and its tickets. -/
theorem Represents.schedChoose_lottery (h : s.Represents) {random : UInt64} {o : Option Nat}
    (hs : schedChoose R s c random = some (s', o)) (c' : Nat) : s'.tickets = s.tickets ∧
      (s'.lotteryQueue c' = s.lotteryQueue c' ∧
        ((s'.tdq c').runq .lottery).numTickets = ((s.tdq c').runq .lottery).numTickets ∧
        ((s'.tdq c').runq .lottery).totalProc = ((s.tdq c').runq .lottery).totalProc ∨
      ∃ w ∈ s.lotteryQueue c', s'.lotteryQueue c' = (s.lotteryQueue c').erase w ∧
        ((s'.tdq c').runq .lottery).numTickets =
          ((s.tdq c').runq .lottery).numTickets - s.tickets w ∧
        ((s'.tdq c').runq .lottery).totalProc = ((s.tdq c').runq .lottery).totalProc - 1) := by
  obtain ⟨d, hc⟩ := schedChoose_chooses hs
  have hcases := h.chooses_cases hc
  cases o with
  | none =>
    rcases hcases with ⟨rfl, _⟩ | ⟨_, w, _, hw, _⟩
    · cases (schedChoose_none hc).symm.trans hs
      have hr : ((s.setTdq c { s.tdq c with lowpri := .ofNat R.maxIdle }).tdq c').runq .lottery =
          (s.tdq c').runq .lottery := setTdq_lottery (by rfl) c'
      exact ⟨rfl, Or.inl ⟨by rw [lotteryQueue, hr, lotteryQueue], by rw [hr], by rw [hr]⟩⟩
    · cases hw
  | some w =>
    obtain ⟨rfl, hsheds⟩ := h.schedChoose_sheds hc hs
    have hleft := hsheds c'
    refine ⟨hleft.tickets, ?_⟩
    rw [hleft.queue, hleft.numTickets, hleft.totalProc, chooses_lotteryQueue hc]
    -- only the queue the winner was drawn from loses anything
    by_cases hm : w ∈ s.lotteryQueue c'
    · have hc' : c' = (s.thread w).cpu := by
        by_contra hne
        exact h.lottery_unique hne hm
      subst c'
      rcases hcases with ⟨_, hoff⟩ | ⟨_, x, _, hx, hn, hp⟩
      · exact absurd hm (h.not_mem_lotteryQueue (hoff w rfl) _)
      · cases hx
        rw [setTdq_tdq_self]
        exact Or.inr ⟨w, hm, rfl, hn, hp⟩
    · rw [List.erase_of_not_mem hm]
      refine Or.inl ⟨rfl, ?_⟩
      by_cases hc' : c' = (s.thread w).cpu
      · subst c'
        rw [setTdq_tdq_self]
        rcases hcases with ⟨rfl, _⟩ | ⟨_, x, hx, he, _⟩
        · exact ⟨rfl, rfl⟩
        · cases he
          exact absurd hx hm
      · rw [setTdq_tdq_of_ne s hc']
        exact ⟨rfl, rfl⟩

/-- sched_choose takes the thread it has drawn off the queue. -/
theorem accounts_schedChoose (h : s.Represents) (ha : ∀ c, s.Accounts c) {random : UInt64}
    {o : Option Nat} (hs : schedChoose R s c random = some (s', o)) (c' : Nat) : s'.Accounts c' := by
  obtain ⟨ht, ⟨hq, hn, hp⟩ | ⟨w, hw, hq, hn, hp⟩⟩ := h.schedChoose_lottery hs c'
  · exact (ha c').congr hn hp hq (fun x _ => congrFun ht x)
  · refine ⟨?_, ?_⟩
    · rw [hn, hq, ht, (ha c').numTickets, ← List.sum_map_erase s.tickets hw, add_sub_cancel_left]
    · have hpos := List.length_pos_of_mem hw
      rw [hp, hq, (ha c').totalProc, List.length_erase_of_mem hw]
      omega

theorem Accounts.step {op : SchedOp} {o : Option Nat} (h : s.Represents) (ha : ∀ c, s.Accounts c)
    (hp : op.Proper s) (hd : op.DrawsOnlyToRun s) (hs : s.step R op = some (s', o)) :
    ∀ c, s'.Accounts c := by
  by_cases hchoose : ∃ c random, op = .choose c random
  · obtain ⟨c, random, rfl⟩ := hchoose
    exact accounts_schedChoose h ha hs
  · suffices hw : op.Within (fun d d' => d'.runq = d.runq) OffLottery s from
      Moves.accounts (step_moves h hp hw hs) h ha
    cases op with
    | runqAdd | clock | outside | offQueue | switchTo => trivial
    | runqRem td => exact hd
    | tdqChoose c random | setlowpri c ctd random => exact h.peeks hd random
    | choose c random => exact absurd ⟨c, random, rfl⟩ hchoose
    | rem td random => exact RemovesQuietly.within h hd random
    | move source target random => exact fun td hm => RemovesQuietly.within h (hd td hm) random
    | threadPriority td prio out =>
      refine ⟨fun hr => RemovesQuietly.within h (hd.1 hr) out.random, fun hr hl hlow hne => ?_⟩
      exact h.peeks (hd.2 ⟨hr, hl, hlow, hne⟩) out.random
    | userret c td random => exact fun hne => h.peeks (hd hne) random

theorem setup_accounts (thread : Nat → Thread) (curthread : Nat → Nat) (c : Nat) :
    (setup thread curthread).Accounts c := ⟨rfl, rfl⟩

end Sched

/-- The counters of the lottery queue count its threads and their tickets. -/
theorem lottery_accounts {R : Priorities} {thread : Nat → Thread} {curthread : Nat → Nat}
    {h : SchedHistory} {s : Sched} (hr : SchedRun R drawsOnlyToRun thread curthread h s) (c : Nat) :
    ((s.tdq c).runq .lottery).numTickets = ((s.lotteryQueue c).map s.tickets).sum ∧
      ((s.tdq c).runq .lottery).totalProc = (s.lotteryQueue c).length := by
  have ha : ∀ c, s.Accounts c := by
    refine SchedRun.invariant (P := fun s => ∀ c, s.Accounts c) (Sched.setup_accounts _ _)
      (fun _ _ _ hok => hok.1) (fun _ s op s' o hrep ha hok hs => ?_) hr
    exact Sched.Accounts.step hrep ha hok.1 hok.2 hs
  exact ⟨(ha c).numTickets, (ha c).totalProc⟩

theorem lottery_accounts_drawn : ∃ h s,
    SchedRun amd64Priorities drawsOnlyToRun (fun td => batchThread 1001 (.ofNat td)) (fun _ => 0)
      h s ∧
    s.lotteryQueue 0 = [1, 3] ∧ ((s.tdq 0).runq .lottery).totalProc = 2 ∧
      ((s.tdq 0).runq .lottery).numTickets = 44 := by
  obtain ⟨h, s, hr, hc⟩ := schedRun_of_replay amd64Priorities drawsOnlyToRun
    (fun td => batchThread 1001 (.ofNat td))
    [.runqAdd 1 noFlags, .runqAdd 2 noFlags, .runqAdd 3 noFlags, .choose 0 22]
    (fun _ s => s.lotteryQueue 0 = [1, 3] ∧ s.tickets 1 = 21 ∧ s.tickets 3 = 23)
    (by decide +kernel)
  obtain ⟨hq, h1, h3⟩ := of_decide_eq_true hc
  obtain ⟨hn, hp⟩ := lottery_accounts hr 0
  refine ⟨h, s, hr, hq, by rw [hp, hq]; rfl, ?_⟩
  rw [hn, hq, List.map_cons, List.map_cons, h1, h3]
  rfl

/-- tdq_setlowpri draws the only thread of the lottery queue, which stays on the queue. -/
theorem peek_loses_account : ∃ h s,
    SchedRun amd64Priorities properOp (fun _ => batchThread 1001 0) (fun _ => 0) h s ∧
    s.lotteryQueue 0 = [1] ∧ s.tickets 1 = 20 ∧ ((s.tdq 0).runq .lottery).totalProc = 0 ∧
      ((s.tdq 0).runq .lottery).numTickets = 0 := by
  obtain ⟨h, s, hr, hc⟩ := schedRun_of_replay amd64Priorities properOp (fun _ => batchThread 1001 0)
    [.runqAdd 1 noFlags, .setlowpri 0 0 0]
    (fun _ s => s.lotteryQueue 0 = [1] ∧ s.tickets 1 = 20 ∧
      ((s.tdq 0).runq .lottery).totalProc = 0 ∧ ((s.tdq 0).runq .lottery).numTickets = 0)
    (by decide +kernel)
  obtain ⟨hq, ht, hp, hn⟩ := of_decide_eq_true hc
  exact ⟨h, s, hr, hq, ht, hp, hn⟩

end FreeBSDEdits
