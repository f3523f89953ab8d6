import FreeBSDEdits.SchedDraw

namespace FreeBSDEdits

/-- The counters cover the tickets of the queue, and those of threads that left it uncounted:
each of the threads counted in `total` has 1 to 40 tickets. -/
structure Funded (tickets : Nat → UInt64) (l : List Nat) (num : UInt64) (total : Int) : Prop where
  paid : ∀ td ∈ l, 1 ≤ (tickets td).toNat ∧ (tickets td).toNat ≤ 40
  length : l.length ≤ total
  covered : ticketSum tickets l + (total - l.length) ≤ num.toNat
  bounded : num.toNat ≤ ticketSum tickets l + 40 * (total - l.length)

theorem ticketSum_cons (tickets : Nat → UInt64) (td : Nat) (l : List Nat) :
    ticketSum tickets (td :: l) = (tickets td).toNat + ticketSum tickets l := by
  rw [ticketSum, List.map_cons, List.sum_cons, ticketSum]

theorem ticketSum_congr {tickets tickets' : Nat → UInt64} {l : List Nat}
    (h : ∀ x ∈ l, tickets' x = tickets x) : ticketSum tickets' l = ticketSum tickets l :=
  congrArg List.sum (List.map_congr_left (fun x hx => congrArg UInt64.toNat (h x hx)))

namespace Funded

variable {tickets tickets' : Nat → UInt64} {l l' : List Nat} {num t : UInt64} {total : Int} {td : Nat}

theorem empty : Funded tickets [] 0 0 := by
  refine ⟨fun _ h => absurd h List.not_mem_nil, Int.le_refl 0, ?_, ?_⟩ <;> simp [ticketSum]

theorem congr (h : Funded tickets l num total) (ht : ∀ x ∈ l, tickets' x = tickets x) :
    Funded tickets' l num total := by
  refine ⟨fun x hx => ?_, h.length, ?_, ?_⟩
  · rw [ht x hx]
    exact h.paid x hx
  · rw [ticketSum_congr ht]
    exact h.covered
  · rw [ticketSum_congr ht]
    exact h.bounded

theorem sum_bounds (h : ∀ td ∈ l, 1 ≤ (tickets td).toNat ∧ (tickets td).toNat ≤ 40) :
    l.length ≤ ticketSum tickets l ∧ ticketSum tickets l ≤ 40 * l.length := by
  induction l with
  | nil => exact ⟨Nat.le_refl 0, Nat.le_refl 0⟩
  | cons x l ih =>
    obtain ⟨hlo, hhi⟩ := ih (fun td hm => h td (List.mem_cons_of_mem x hm))
    have hx := h x List.mem_cons_self
    rw [ticketSum_cons, List.length_cons]
    omega

theorem ne_zero (h : Funded tickets l num total) (h0 : total ≠ 0) : num ≠ 0 := by
  rintro rfl
  have hsum := (sum_bounds h.paid).1
  have hlen := h.length
  have hcov := h.covered
  rw [UInt64.toNat_zero] at hcov
  omega

/-- A thread joins the queue with 1 to 40 tickets. -/
theorem insert (h : Funded tickets l num total) (hl : l'.Perm (td :: l))
    (ht : ∀ x ∈ l, tickets' x = tickets x) (htd : tickets' td = t) (h1 : 1 ≤ t.toNat)
    (h40 : t.toNat ≤ 40) (hmax : total + 1 < 2 ^ 31) : Funded tickets' l' (num + t) (total + 1) := by
  have hsum : ticketSum tickets' l' = t.toNat + ticketSum tickets l := by
    rw [← htd, ← ticketSum_congr ht, ← ticketSum_cons]
    exact (hl.map _).sum_eq
  have hlen : l'.length = l.length + 1 := hl.length_eq
  have hfew := (sum_bounds h.paid).2
  have hlow := h.length
  have hcov := h.covered
  have hbound := h.bounded
  have hadd : (num + t).toNat = num.toNat + t.toNat := by
    rw [UInt64.toNat_add]
    exact Nat.mod_eq_of_lt (by omega)
  refine ⟨fun x hx => ?_, by omega, ?_, ?_⟩
  · rcases List.mem_cons.mp (hl.mem_iff.mp hx) with rfl | hx
    · rw [htd]
      exact ⟨h1, h40⟩
    · rw [ht x hx]
      exact h.paid x hx
  · rw [hsum, hadd, hlen]
    omega
  · rw [hsum, hadd, hlen]
    omega

/-- A thread leaves the queue, and the counters count it still. -/
theorem shed (h : Funded tickets l num total) (td : Nat) : Funded tickets (l.erase td) num total := by
  by_cases hm : td ∈ l
  · have hpaid := h.paid td hm
    have hsum := ticketSum_erase tickets hm
    have hlen := List.length_erase_of_mem hm
    have hpos := List.length_pos_of_mem hm
    have hlow := h.length
    have hcov := h.covered
    have hbound := h.bounded
    refine ⟨fun x hx => h.paid x (List.mem_of_mem_erase hx), by omega, by omega, by omega⟩
  · rwa [List.erase_of_not_mem hm]

/-- A thread is drawn and leaves the queue. -/
theorem draw (h : Funded tickets l num total) (hm : td ∈ l) :
    Funded tickets (l.erase td) (num - tickets td) (total - 1) := by
  have hsum := ticketSum_erase tickets hm
  have hlen := List.length_erase_of_mem hm
  have hpos := List.length_pos_of_mem hm
  have hlow := h.length
  have hcov := h.covered
  have hbound := h.bounded
  have hle : tickets td ≤ num := by
    rw [UInt64.le_iff_toNat_le]
    omega
  have hsub := UInt64.toNat_sub_of_le _ _ hle
  have hnat := UInt64.le_iff_toNat_le.mp hle
  refine ⟨fun x hx => h.paid x (List.mem_of_mem_erase hx), by omega, by omega, by omega⟩

end Funded

namespace Sched

def FundedOn (s : Sched) (c : Nat) : Prop :=
  Funded s.tickets (s.lotteryQueue c) ((s.tdq c).runq .lottery).numTickets
    ((s.tdq c).runq .lottery).totalProc

/-- A thread that tdq_runq_add puts on the lottery queue of CPU `c` gets tickets, at most 40, and
total_proc stays an int. -/
def Funds (s : Sched) (R : Priorities) (c td : Nat) : Prop :=
  R.route (s.thread td) = .lottery → -20 < (s.thread td).nice.toInt ∧
    (s.thread td).nice.toInt ≤ 20 ∧ ((s.tdq c).runq .lottery).totalProc + 1 < 2 ^ 31

instance (s : Sched) (R : Priorities) (c td : Nat) : Decidable (s.Funds R c td) := by
  unfold Funds
  infer_instance

/-- sched_rem of the thread does not draw. -/
def RemovesUndrawn (s : Sched) (td : Nat) : Prop :=
  (s.thread td).priority = (s.tdq (s.thread td).cpu).lowpri → ¬s.Draws (s.thread td).cpu (some td)

instance (s : Sched) (td : Nat) : Decidable (s.RemovesUndrawn td) := by
  unfold RemovesUndrawn
  infer_instance

end Sched

/-- tdq_runq_add, sched_choose, tdq_setlowpri, sched_rem and tdq_move, and what happens to threads
meanwhile. -/
def SchedOp.OnQueues : SchedOp → Prop
  | .runqAdd _ _ | .choose _ _ | .setlowpri _ _ _ | .rem _ _ | .move _ _ _ | .outside _ _
  | .offQueue _ _ | .switchTo _ _ => True
  | _ => False

/-- Nobody joins a lottery queue without tickets, and only sched_choose draws. -/
def SchedOp.KeepsFunds (R : Priorities) (s : Sched) : SchedOp → Prop
  | .runqAdd td _ => s.Funds R (s.thread td).cpu td
  | .setlowpri c _ _ => ¬s.Draws c none
  | .rem td _ => s.RemovesUndrawn td
  | .move source target _ =>
    ∀ td ∈ tdqSteal s.thread (s.tdq source) target, s.RemovesUndrawn td ∧ s.Funds R target td
  | _ => True

instance (op : SchedOp) : Decidable op.OnQueues := by
  rcases op <;> unfold SchedOp.OnQueues <;> infer_instance

instance (R : Priorities) (s : Sched) (op : SchedOp) : Decidable (op.KeepsFunds R s) := by
  rcases op <;> unfold SchedOp.KeepsFunds <;> infer_instance

def keepsFunds (R : Priorities) (_ : SchedHistory) (s : Sched) (op : SchedOp) : Prop :=
  op.Proper s ∧ op.OnQueues ∧ op.KeepsFunds R s

instance (R : Priorities) : ∀ h s op, Decidable (keepsFunds R h s op) := fun _ s op =>
  inferInstanceAs (Decidable (op.Proper s ∧ op.OnQueues ∧ op.KeepsFunds R s))

theorem Thread.startTickets_toNat {t : Thread} (hlo : -20 < t.nice.toInt) (hhi : t.nice.toInt ≤ 20) :
    1 ≤ t.startTickets.toNat ∧ t.startTickets.toNat ≤ 40 := by
  have he : t.startTickets.toNat = (20 + t.nice.toInt).toNat := by
    rw [Thread.startTickets, UInt64.ofInt, Int.emod_eq_of_lt (by omega) (by omega)]
    exact UInt64.toNat_ofNat_of_lt' (show _ < 2 ^ 64 by omega)
  rw [he]
  omega

namespace Sched

variable {R : Priorities} {s s' : Sched} {c td : Nat} {random : UInt64}

theorem FundedOn.setTdq (ha : s.FundedOn c) {c' : Nat} {d : Tdq}
    (hd : d.runq .lottery = (s.tdq c').runq .lottery) : (s.setTdq c' d).FundedOn c := by
  have hr := setTdq_lottery hd c
  rw [FundedOn, lotteryQueue, hr]
  exact ha

theorem FundedOn.setThread (ha : s.FundedOn c) {t : Thread} (ht : t.tickets = s.tickets td) :
    (s.setThread td t).FundedOn c := by
  rw [FundedOn, tickets_setThread ht]
  exact ha

theorem FundedOn.sheds (ha : s.FundedOn c) (hs : s.Sheds s' c td) : s'.FundedOn c := by
  rw [FundedOn, hs.tickets, hs.queue, hs.numTickets, hs.totalProc]
  exact ha.shed td

theorem fundedOn_runqAdd (h : s.Represents) (ha : ∀ c, s.FundedOn c) (hn : ¬s.Queued td)
    (hf : s.Funds R (s.thread td).cpu td) (flags : SrqFlags) (c : Nat) :
    (s.runqAdd R (s.thread td).cpu td flags).FundedOn c := by
  obtain ⟨ht, ⟨⟨rfl, hk⟩, hj⟩ | ⟨_, hr⟩⟩ := h.enter_lottery (R := R) hn flags c
  · obtain ⟨hlo, hhi, hmax⟩ := hf hk
    obtain ⟨h1, h40⟩ := Thread.startTickets_toNat hlo hhi
    rw [FundedOn, hj.numTickets, hj.totalProc]
    exact (ha _).insert hj.queue ht hj.tickets h1 h40 hmax
  · rw [FundedOn, lotteryQueue, hr]
    exact Funded.congr (ha c) ht

theorem fundedOn_tdqAdd (h : s.Represents) (ha : ∀ c, s.FundedOn c) (hn : ¬s.Queued td)
    (hf : s.Funds R (s.thread td).cpu td) (flags : SrqFlags) (c : Nat) :
    (tdqAdd R s (s.thread td).cpu td flags).FundedOn c := by
  unfold tdqAdd
  by_cases hlow : (s.thread td).priority < (s.tdq (s.thread td).cpu).lowpri
  · simp only [if_pos hlow]
    have hq := quiet_lowpri (s.tdq (s.thread td).cpu) (s.thread td).priority
    have hn₁ := (queued_setTdq hq.same.toSameQueues td).not.mpr hn
    have hf₁ : (s.setTdq (s.thread td).cpu { s.tdq (s.thread td).cpu with
        lowpri := (s.thread td).priority }).Funds R (s.thread td).cpu td := by
      intro hk
      rw [setTdq_tdq_self]
      exact hf hk
    refine FundedOn.setTdq ?_ rfl
    exact fundedOn_runqAdd (h.setTdq hq.same) (fun c => (ha c).setTdq (by rfl)) hn₁ hf₁ flags c
  · simp only [if_neg hlow]
    refine FundedOn.setTdq ?_ rfl
    exact fundedOn_runqAdd h ha hn hf flags c

/-- A call of tdq_setlowpri that does not draw changes only tdq_lowpri. -/
theorem Represents.setlowpri_eq (h : s.Represents) (hd : ¬s.Draws c none) {ctd : Nat}
    (hs : s.setlowpri c ctd random = some s') :
    ∃ l, s' = s.setTdq c { s.tdq c with lowpri := l } := by
  obtain ⟨d, o, l, hc, rfl⟩ := setlowpri_eq_some hs
  rcases h.chooses_cases hc with ⟨rfl, _⟩ | ⟨hdraw, _⟩
  · exact ⟨l, rfl⟩
  · exact absurd hdraw hd

/-- sched_rem without a draw takes the thread off its queue and leaves the counters. -/
theorem Represents.schedRem_sheds (h : s.Represents) (hq : s.Queued td) (hu : s.RemovesUndrawn td)
    (hs : schedRem s td random = some s') (c : Nat) : s.Sheds s' c td := by
  obtain ⟨k, d, hl, he⟩ := schedRem_eq h hq random
  have hleft := removed_lottery h hl c
  rw [he] at hs
  split at hs
  next hlow =>
    have hd : ¬(s.removed td d).Draws (s.thread td).cpu none := by
      rw [removed_draws h hl]
      exact hu hlow
    obtain ⟨l, rfl⟩ := (h.removed hl).setlowpri_eq hd hs
    exact hleft.setTdq rfl
  next =>
    cases hs
    exact hleft

theorem fundedOn_schedChoose (h : s.Represents) (ha : ∀ c, s.FundedOn c) {o : Option Nat}
    (hs : schedChoose R s c random = some (s', o)) (c' : Nat) : s'.FundedOn c' := by
  obtain ⟨ht, ⟨hq, hn, hp⟩ | ⟨w, hw, hq, hn, hp⟩⟩ := h.schedChoose_lottery hs c'
  · rw [FundedOn, ht, hq, hn, hp]
    exact ha c'
  · rw [FundedOn, ht, hq, hn, hp]
    exact (ha c').draw hw

theorem fundedOn_tdqMove (h : s.Represents) (ha : ∀ c, s.FundedOn c) {source target : Nat}
    {o : Option Nat} (hk : (SchedOp.move source target random).KeepsFunds R s)
    (hs : tdqMove R s source target random = some (s', o)) (c : Nat) : s'.FundedOn c := by
  unfold tdqMove at hs
  split at hs
  next =>
    cases hs
    exact ha c
  next td hsteal =>
    obtain ⟨s₁, hs₁, he⟩ := Option.map_eq_some_iff.mp hs
    cases he
    obtain ⟨hu, hf⟩ := hk td hsteal
    obtain ⟨hq, _⟩ := h.queued_of_mem (mem_of_tdqSteal hsteal)
    have hsheds := h.schedRem_sheds hq hu hs₁
    obtain ⟨hm, hn, hthread⟩ := schedRem_moves (R := R) (T := fun _ _ => True)
      (Q := fun _ _ => True) h hq trivial (fun _ _ _ _ _ _ _ => trivial) hs₁
    have hsame : (s₁.thread td).Same { s₁.thread td with cpu := target } := ⟨rfl, rfl, rfl, rfl⟩
    have hcpu : ((s₁.setThread td { s₁.thread td with cpu := target }).thread td).cpu = target := by
      rw [setThread_thread_self]
    have htd : s₁.thread td = { s.thread td with xferable := false, state := .canRun } := by
      rw [hthread, Function.update_self]
    have hf₁ : (s₁.setThread td { s₁.thread td with cpu := target }).Funds R target td := by
      intro hroute
      rw [setThread_thread_self, htd] at hroute ⊢
      rw [setThread_tdq, (hsheds target).totalProc]
      exact hf hroute
    have hadd := fundedOn_tdqAdd (R := R) ((hm.represents h).setThread hsame (Or.inr hn))
      (fun c => ((ha c).sheds (hsheds c)).setThread rfl) (by rwa [queued_setThread hsame]) (by rwa [hcpu])
        ⟨false, false⟩ c
    rwa [hcpu] at hadd

theorem fundedOn_step {op : SchedOp} {o : Option Nat} (h : s.Represents) (ha : ∀ c, s.FundedOn c)
    (hp : op.Proper s) (hop : op.OnQueues) (hk : op.KeepsFunds R s)
    (hs : s.step R op = some (s', o)) (c : Nat) : s'.FundedOn c := by
  cases op with
  | runqAdd td flags =>
    cases hs
    exact fundedOn_runqAdd h ha hp hk flags c
  | choose c' random => exact fundedOn_schedChoose h ha hs c
  | setlowpri c' ctd random =>
    obtain ⟨s₁, hs₁, he⟩ := Option.map_eq_some_iff.mp hs
    cases he
    obtain ⟨l, rfl⟩ := h.setlowpri_eq hk hs₁
    exact (ha c).setTdq rfl
  | rem td random =>
    obtain ⟨s₁, hs₁, he⟩ := Option.map_eq_some_iff.mp hs
    cases he
    exact (ha c).sheds (h.schedRem_sheds hp hk hs₁ c)
  | move source target random => exact fundedOn_tdqMove h ha hk hs c
  | outside td t =>
    cases hs
    exact (ha c).setThread rfl
  | offQueue td t =>
    cases hs
    exact (ha c).setThread rfl
  | switchTo c' td =>
    cases hs
    exact ha c
  | _ => exact hop.elim

end Sched

/-- In such runs lotteryq_choose has tickets to draw from whenever it counts a thread. -/
theorem divisor_ne_zero {R : Priorities} {thread : Nat → Thread} {curthread : Nat → Nat}
    {h : SchedHistory} {s : Sched} (hr : SchedRun R (keepsFunds R) thread curthread h s) (c : Nat) :
    (((s.tdq c).runq .lottery).totalProc ≠ 0 → ((s.tdq c).runq .lottery).numTickets ≠ 0) ∧
      ∀ random, lotteryqChoose s.tickets ((s.tdq c).runq .lottery) random ≠ none := by
  have ha : ∀ c, s.FundedOn c := by
    refine SchedRun.invariant (P := fun s => ∀ c, s.FundedOn c) (fun c => .empty)
      (fun _ _ _ hok => hok.1) (fun _ s op s' o hrep ha hok hs => ?_) hr
    exact Sched.fundedOn_step hrep ha hok.1 hok.2.1 hok.2.2 hs
  refine ⟨(ha c).ne_zero, fun random => ?_⟩
  unfold lotteryqChoose
  by_cases h0 : ((s.tdq c).runq .lottery).totalProc ≠ 0
  · have hrng : rng random ((s.tdq c).runq .lottery).numTickets =
        some (random % ((s.tdq c).runq .lottery).numTickets + 1) :=
      rng_eq_some.mpr ⟨(ha c).ne_zero h0, rfl⟩
    simp only [if_pos h0, hrng]
    split <;> exact Option.some_ne_none _
  · rw [if_neg h0]
    exact Option.some_ne_none _

theorem divisor_ne_zero_drawn : ∃ h s,
    SchedRun amd64Priorities (keepsFunds amd64Priorities)
      (fun td => batchThread 1001 (.ofNat td)) (fun _ => 0) h s ∧
    ((s.tdq 0).runq .lottery).totalProc = 2 ∧ ((s.tdq 0).runq .lottery).numTickets ≠ 0 := by
  obtain ⟨h, s, hr, hc⟩ := schedRun_of_replay amd64Priorities (keepsFunds amd64Priorities)
    (fun td => batchThread 1001 (.ofNat td))
    [.runqAdd 1 noFlags, .runqAdd 2 noFlags, .runqAdd 3 noFlags, .choose 0 22]
    (fun _ s => ((s.tdq 0).runq .lottery).totalProc = 2) (by decide +kernel)
  have hp : ((s.tdq 0).runq .lottery).totalProc = 2 := of_decide_eq_true hc
  exact ⟨h, s, hr, hp, (divisor_ne_zero hr 0).1 (by rw [hp]; decide)⟩

/-- Nice values that give the threads 1 to 5 the tickets 10, 1, 1, 11 and 7. -/
def fiveNices (td : Nat) : Int8 :=
  if td = 1 then -10 else if td = 4 then -9 else if td = 5 then -13 else -19

/-- A thread with nice -20 has no tickets; and three calls of tdq_setlowpri that draw the same
thread can use up the tickets of all five. -/
theorem draw_divides_by_zero :
    (∃ h s, SchedRun amd64Priorities properOp (fun _ => batchThread 1001 (-20)) (fun _ => 0) h s ∧
      ((s.tdq 0).runq .lottery).totalProc = 1 ∧ ((s.tdq 0).runq .lottery).numTickets = 0 ∧
        schedChoose amd64Priorities s 0 0 = none) ∧
    ∃ h s, SchedRun amd64Priorities properOp (fun td => batchThread 1001 (fiveNices td))
      (fun _ => 0) h s ∧
      ((s.tdq 0).runq .lottery).totalProc = 2 ∧ ((s.tdq 0).runq .lottery).numTickets = 0 ∧
        schedChoose amd64Priorities s 0 0 = none := by
  constructor
  · obtain ⟨h, s, hr, hc⟩ := schedRun_of_replay amd64Priorities properOp
      (fun _ => batchThread 1001 (-20)) [.runqAdd 1 noFlags]
      (fun _ s => ((s.tdq 0).runq .lottery).totalProc = 1 ∧
        ((s.tdq 0).runq .lottery).numTickets = 0 ∧ (schedChoose amd64Priorities s 0 0).isNone)
      (by decide +kernel)
    obtain ⟨hp, hn, hnone⟩ := of_decide_eq_true hc
    exact ⟨h, s, hr, hp, hn, Option.isNone_iff_eq_none.mp hnone⟩
  · obtain ⟨h, s, hr, hc⟩ := schedRun_of_replay amd64Priorities properOp
      (fun td => batchThread 1001 (fiveNices td))
      [.runqAdd 1 noFlags, .runqAdd 2 noFlags, .runqAdd 3 noFlags, .runqAdd 4 noFlags,
        .runqAdd 5 noFlags, .setlowpri 0 0 0, .setlowpri 0 0 0, .setlowpri 0 0 0]
      (fun _ s => ((s.tdq 0).runq .lottery).totalProc = 2 ∧
        ((s.tdq 0).runq .lottery).numTickets = 0 ∧ (schedChoose amd64Priorities s 0 0).isNone)
      (by decide +kernel)
    obtain ⟨hp, hn, hnone⟩ := of_decide_eq_true hc
    exact ⟨h, s, hr, hp, hn, Option.isNone_iff_eq_none.mp hnone⟩

end FreeBSDEdits
