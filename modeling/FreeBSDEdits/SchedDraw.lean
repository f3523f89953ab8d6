import FreeBSDEdits.SchedIdle
import FreeBSDEdits.WeightedDraw

namespace FreeBSDEdits

/-- The thread lotteryq_choose selects with this draw. -/
def lotteryWinner (tickets : Nat → UInt64) (rq : Runq) (winner : UInt64) : Option Nat :=
  lotteryScan tickets winner 0 (rq.queues 0)

def ticketSum (tickets : Nat → UInt64) (l : List Nat) : Nat :=
  (l.map fun td => (tickets td).toNat).sum

theorem ticketSum_erase (tickets : Nat → UInt64) {td : Nat} {l : List Nat} (hm : td ∈ l) :
    (tickets td).toNat + ticketSum tickets (l.erase td) = ticketSum tickets l :=
  List.sum_map_erase (fun td => (tickets td).toNat) hm

/-- A lottery queue whose counters count its threads and their tickets. -/
structure Runq.Consistent (tickets : Nat → UInt64) (rq : Runq) : Prop where
  nodup : (rq.queues 0).Nodup
  numTickets : rq.numTickets.toNat = ticketSum tickets (rq.queues 0)
  totalProc : rq.totalProc = (rq.queues 0).length

instance (tickets : Nat → UInt64) (rq : Runq) : Decidable (rq.Consistent tickets) :=
  decidable_of_iff ((rq.queues 0).Nodup ∧ rq.numTickets.toNat = ticketSum tickets (rq.queues 0) ∧
    rq.totalProc = (rq.queues 0).length)
    ⟨fun ⟨hn, hs, hp⟩ => ⟨hn, hs, hp⟩, fun h => ⟨h.nodup, h.numTickets, h.totalProc⟩⟩

/-- As long as the counter cannot wrap, the scan hands out the tickets one by one. -/
theorem lotteryScan_eq_drawn {tickets : Nat → UInt64} {winner counter : UInt64} {l : List Nat}
    (hsum : counter.toNat + ticketSum tickets l < 2 ^ 64) (hlt : counter < winner) :
    lotteryScan tickets winner counter l =
      drawn (fun td => (tickets td).toNat) (winner.toNat - counter.toNat) l := by
  induction l generalizing counter with
  | nil => rfl
  | cons td rest ih =>
    rw [ticketSum, List.map_cons, List.sum_cons] at hsum
    have hadd : (counter + tickets td).toNat = counter.toNat + (tickets td).toNat := by
      rw [UInt64.toNat_add]
      exact Nat.mod_eq_of_lt (by omega)
    rw [UInt64.lt_iff_toNat_lt] at hlt
    have hstop : counter + tickets td ≥ winner ↔
        winner.toNat - counter.toNat ≤ (tickets td).toNat := by
      rw [ge_iff_le, UInt64.le_iff_toNat_le, hadd]
      omega
    rw [lotteryScan, drawn]
    by_cases hle : winner.toNat - counter.toNat ≤ (tickets td).toNat
    · rw [if_pos (hstop.mpr hle), if_pos hle]
    · rw [if_neg (mt hstop.mp hle), if_neg hle, ih]
      · rw [hadd, Nat.sub_add_eq]
      · rw [hadd, Nat.add_assoc]
        exact hsum
      · rw [UInt64.lt_iff_toNat_lt, hadd]
        omega

theorem rng_range {random maxnum n : UInt64} (h : rng random maxnum = some n) :
    1 ≤ n ∧ n ≤ maxnum := by
  obtain ⟨h0, rfl⟩ := rng_eq_some.mp h
  have hpos : 0 < maxnum.toNat := by
    apply Nat.pos_of_ne_zero
    intro he
    exact h0 (UInt64.toNat_inj.mp he)
  have hmod := Nat.mod_lt random.toNat hpos
  have hlt := maxnum.toNat_lt
  have hadd : (random % maxnum + 1).toNat = random.toNat % maxnum.toNat + 1 := by
    rw [UInt64.toNat_add, UInt64.toNat_mod]
    exact Nat.mod_eq_of_lt (by change _ + 1 < 2 ^ 64; omega)
  rw [UInt64.le_iff_toNat_le, UInt64.le_iff_toNat_le, hadd]
  change 1 ≤ _ ∧ _
  omega

/-- rng yields every number of its range. -/
theorem rng_surjective {maxnum w : UInt64} (h1 : 1 ≤ w) (hle : w ≤ maxnum) :
    ∃ random, rng random maxnum = some w := by
  rw [UInt64.le_iff_toNat_le] at h1 hle
  change 1 ≤ w.toNat at h1
  have hsub : (w - 1).toNat = w.toNat - 1 :=
    UInt64.toNat_sub_of_le _ _ (UInt64.le_iff_toNat_le.mpr h1)
  have h0 : maxnum ≠ 0 := by
    rintro rfl
    change w.toNat ≤ 0 at hle
    omega
  refine ⟨w - 1, rng_eq_some.mpr ⟨h0, ?_⟩⟩
  have hmod : (w - 1) % maxnum = w - 1 := by
    apply UInt64.toNat_inj.mp
    rw [UInt64.toNat_mod, hsub]
    exact Nat.mod_eq_of_lt (by omega)
  rw [hmod, sub_add_cancel]

namespace Runq.Consistent

variable {tickets : Nat → UInt64} {rq : Runq}

theorem winner_eq (hc : rq.Consistent tickets) {w : UInt64} (h1 : 1 ≤ w) :
    lotteryWinner tickets rq w =
      drawn (fun td => (tickets td).toNat) w.toNat (rq.queues 0) := by
  have hlt := rq.numTickets.toNat_lt
  rw [hc.numTickets] at hlt
  have h0 : (0 : UInt64).toNat + ticketSum tickets (rq.queues 0) < 2 ^ 64 := by
    rw [UInt64.toNat_zero, Nat.zero_add]
    exact hlt
  exact lotteryScan_eq_drawn h0 (UInt64.lt_of_lt_of_le (by decide) h1)

theorem winner_exists (hc : rq.Consistent tickets) {w : UInt64} (h1 : 1 ≤ w)
    (hle : w ≤ rq.numTickets) : ∃ td ∈ rq.queues 0, lotteryWinner tickets rq w = some td := by
  have hle' := UInt64.le_iff_toNat_le.mp hle
  rw [hc.numTickets] at hle'
  obtain ⟨td, hd⟩ := drawn_exists (UInt64.le_iff_toNat_le.mp h1) hle'
  exact ⟨td, drawn_mem hd, (hc.winner_eq h1).trans hd⟩

theorem totalProc_ne_zero (hc : rq.Consistent tickets) {td : Nat} (hm : td ∈ rq.queues 0) :
    rq.totalProc ≠ 0 := by
  have hpos := List.length_pos_of_mem hm
  rw [hc.totalProc]
  omega

theorem numTickets_ne_zero (hc : rq.Consistent tickets) {td : Nat} (hm : td ∈ rq.queues 0)
    (h1 : 1 ≤ tickets td) : rq.numTickets ≠ 0 := by
  intro h0
  have hsum := ticketSum_erase tickets hm
  have hone := UInt64.le_iff_toNat_le.mp h1
  have hnum := hc.numTickets
  rw [h0] at hnum
  change 1 ≤ _ at hone
  change 0 = _ at hnum
  omega

/-- lotteryq_choose with a draw that selects a queued thread. -/
theorem choose_eq (hc : rq.Consistent tickets) {random w : UInt64} {td : Nat}
    (hm : td ∈ rq.queues 0) (hr : rng random rq.numTickets = some w)
    (hw : lotteryWinner tickets rq w = some td) :
    lotteryqChoose tickets rq random = some ({ rq with
      totalProc := rq.totalProc - 1
      numTickets := rq.numTickets - tickets td }, some td) := by
  rw [lotteryWinner] at hw
  rw [lotteryqChoose, if_pos (hc.totalProc_ne_zero hm)]
  simp only [hr, hw]

/-- Without a thread that is on the queue, the counters count the others. -/
theorem counters_erase (hc : rq.Consistent tickets) {td : Nat} (hm : td ∈ rq.queues 0) :
    (rq.numTickets - tickets td).toNat = ticketSum tickets ((rq.queues 0).erase td) ∧
      rq.totalProc - 1 = ((rq.queues 0).erase td).length := by
  have hsum := ticketSum_erase tickets hm
  have hle : tickets td ≤ rq.numTickets := by
    rw [UInt64.le_iff_toNat_le, hc.numTickets]
    omega
  have hpos := List.length_pos_of_mem hm
  constructor
  · rw [UInt64.toNat_sub_of_le _ _ hle, hc.numTickets]
    omega
  · rw [hc.totalProc, List.length_erase_of_mem hm]
    omega

/-- The draws that select a thread are as many as it has tickets. -/
theorem card_draws (hc : rq.Consistent tickets) {td : Nat} (hm : td ∈ rq.queues 0) :
    ((Finset.Icc 1 rq.numTickets.toNat).filter
      (fun w => lotteryWinner tickets rq (.ofNat w) = some td)).card = (tickets td).toNat := by
  have hlt := rq.numTickets.toNat_lt
  have hcard : ((Finset.Icc 1 (ticketSum tickets (rq.queues 0))).filter
      (fun w => drawn (fun td => (tickets td).toNat) w (rq.queues 0) = some td)).card =
        (tickets td).toNat := card_drawn hc.nodup hm
  rw [← hcard, hc.numTickets]
  refine congrArg Finset.card (Finset.filter_congr (fun w hw => ?_))
  obtain ⟨h1, hle⟩ := Finset.mem_Icc.mp hw
  rw [← hc.numTickets] at hle
  have hw : (UInt64.ofNat w).toNat = w :=
    UInt64.toNat_ofNat_of_lt' (show w < 2 ^ 64 by omega)
  rw [hc.winner_eq (by rw [UInt64.le_iff_toNat_le, hw]; exact h1), hw]

end Runq.Consistent

/-- Every draw selects a thread, and each thread is selected by as many draws as it has tickets. -/
theorem lottery_proportional {tickets : Nat → UInt64} {rq : Runq} (hc : rq.Consistent tickets)
    (h1 : 1 ≤ rq.numTickets) :
    (∀ random, ∃ w, rng random rq.numTickets = some w ∧ 1 ≤ w ∧ w ≤ rq.numTickets) ∧
    (∀ w, 1 ≤ w → w ≤ rq.numTickets → (∃ random, rng random rq.numTickets = some w) ∧
      ∃ td ∈ rq.queues 0, lotteryWinner tickets rq w = some td ∧
        ∀ random, rng random rq.numTickets = some w → ∃ rq',
          lotteryqChoose tickets rq random = some (rq', some td) ∧
          rq'.numTickets.toNat = ticketSum tickets ((rq.queues 0).erase td) ∧
          rq'.totalProc = ((rq.queues 0).erase td).length) ∧
    ∀ td ∈ rq.queues 0, ((Finset.Icc 1 rq.numTickets.toNat).filter
      (fun w => lotteryWinner tickets rq (.ofNat w) = some td)).card = (tickets td).toNat := by
  refine ⟨fun random => ?_, fun w hw hle => ⟨rng_surjective hw hle, ?_⟩, fun td hm => hc.card_draws hm⟩
  · have h0 : rq.numTickets ≠ 0 := by
      intro he
      rw [he] at h1
      exact absurd h1 (by decide)
    have hr : rng random rq.numTickets = some (random % rq.numTickets + 1) :=
      rng_eq_some.mpr ⟨h0, rfl⟩
    exact ⟨_, hr, rng_range hr⟩
  · obtain ⟨td, hm, hd⟩ := hc.winner_exists hw hle
    refine ⟨td, hm, hd, fun random hr => ?_⟩
    exact ⟨_, hc.choose_eq hm hr hd, hc.counters_erase hm⟩

/-- The queue 1, 2, 3 with 0, 4 and 8 tickets. -/
theorem lottery_proportional_three : ∃ rq : Runq, rq.queues 0 = [1, 2, 3] ∧ rq.numTickets = 12 ∧
    ∀ td ∈ rq.queues 0, ((Finset.Icc 1 rq.numTickets.toNat).filter (fun w =>
      lotteryWinner (fun td => .ofNat (4 * (td - 1))) rq (.ofNat w) = some td)).card =
        4 * (td - 1) := by
  let rq : Runq := { Runq.init with
    queues := fun i => if i = 0 then [1, 2, 3] else []
    numTickets := 12
    totalProc := 3 }
  have hc : rq.Consistent (fun td => .ofNat (4 * (td - 1))) := by decide
  obtain ⟨_, _, hcard⟩ := lottery_proportional hc (by decide)
  have hnat : ∀ td ∈ [1, 2, 3], (UInt64.ofNat (4 * (td - 1))).toNat = 4 * (td - 1) := by decide
  refine ⟨rq, rfl, rfl, fun td hm => ?_⟩
  rw [hcard td hm]
  exact hnat td hm

def Runq.Empty (rq : Runq) : Prop := ∀ i, rq.queues i = []

theorem Tdq.waits_of_empty {d : Tdq} (hr : (d.runq .realtime).Empty)
    (ht : (d.runq .timeshare).Empty) : d.Waits := by
  refine ⟨Option.eq_none_iff_forall_ne_some.mpr (fun td h => ?_),
    Option.eq_none_iff_forall_ne_some.mpr (fun td h => ?_)⟩
  · obtain ⟨i, hm⟩ := Runq.mem_of_choose h
    rw [hr i] at hm
    exact absurd hm List.not_mem_nil
  · obtain ⟨i, hm⟩ := Runq.mem_of_chooseFrom h
    rw [ht i] at hm
    exact absurd hm List.not_mem_nil

/-- tdq_choose returns the thread that lotteryq_choose picks, and reads nothing through NULL. -/
def Tdq.ReturnsWinner (tickets : Nat → UInt64) (d : Tdq) (random : UInt64) : Prop :=
  ∃ rq td d', lotteryqChoose tickets (d.runq .lottery) random = some (rq, some td) ∧
    tdqChoose tickets d random = some (d', some td)

/-- tdq_choose returns the winner exactly if it was the only thread, or neither scan of the queue
runs: the variable that holds the winner is their iterator. -/
theorem returnsWinner_iff {tickets : Nat → UInt64} {d : Tdq}
    (hr : (d.runq .realtime).Empty) (ht : (d.runq .timeshare).Empty)
    (hc : (d.runq .lottery).Consistent tickets) (hne : (d.runq .lottery).queues 0 ≠ [])
    (h1 : ∀ td ∈ (d.runq .lottery).queues 0, 1 ≤ tickets td) (random : UInt64) :
    d.ReturnsWinner tickets random ↔ (d.runq .lottery).totalProc = 1 ∨
      ∀ td, HoldsTicket tickets ((d.runq .lottery).queues 0)
        (random % (d.runq .lottery).numTickets + 1) td →
          tickets td ≠ (d.runq .lottery).maxTickets ∧ (d.runq .lottery).maxTickets ≠ 0 ∧
            tickets td ≠ (d.runq .lottery).minTickets := by
  have hw := Tdq.waits_of_empty hr ht
  obtain ⟨x, hx⟩ := List.exists_mem_of_ne_nil _ hne
  have hp := hc.totalProc_ne_zero hx
  have hn := hc.numTickets_ne_zero hx (h1 x hx)
  have hrng : rng random (d.runq .lottery).numTickets =
      some (random % (d.runq .lottery).numTickets + 1) := rng_eq_some.mpr ⟨hn, rfl⟩
  obtain ⟨td, hm, hd⟩ := hc.winner_exists (rng_range hrng).1 (rng_range hrng).2
  have hholds : ∀ t, HoldsTicket tickets ((d.runq .lottery).queues 0)
      (random % (d.runq .lottery).numTickets + 1) t ↔ t = td := by
    intro t
    rw [holdsTicket_iff]
    change lotteryWinner tickets _ _ = _ ↔ _
    rw [hd, Option.some.injEq, eq_comm]
  have hpick := hc.choose_eq hm hrng hd
  simp only [hholds, forall_eq]
  constructor
  · rintro ⟨rq, t, d', hl, hchoose⟩
    cases hpick.symm.trans hl
    generalize ho : some td = o at hchoose
    cases tdqChoose_iff.mp hchoose with
    | realtime h => cases hw.1.symm.trans h
    | timeshare _ h => cases hw.2.symm.trans h
    | unused _ h0 => exact absurd h0 hp
    | missed _ _ hr' hs =>
      cases hrng.symm.trans hr'
      cases hd.symm.trans hs
    | last _ hone => exact Or.inl hone
    | draw _ _ _ _ _ hmax hmax0 hmin =>
      cases ho
      exact Or.inr ⟨hmax, hmax0, hmin⟩
  · intro hcond
    by_cases hone : (d.runq .lottery).totalProc = 1
    · exact ⟨_, td, _, hpick, tdqChoose_iff.mpr (.last hw hone hrng hd)⟩
    · obtain ⟨hmax, hmax0, hmin⟩ := hcond.resolve_left hone
      exact ⟨_, td, _, hpick, tdqChoose_iff.mpr (.draw hw hp hone hrng hd hmax hmax0 hmin)⟩

/-- Two threads with 20 tickets each on the lottery queue, and the statistics `max` and `min`. -/
def twoThreads (max min : UInt64) : Tdq :=
  tdqSetup.setRunq .lottery { Runq.init with
    queues := fun i => if i = 0 then [1, 2] else []
    numTickets := 40
    totalProc := 2
    maxTickets := max
    minTickets := min }

theorem returnsWinner_iff_between :
    (twoThreads 30 10).ReturnsWinner (fun _ => 20) 25 := by
  refine (returnsWinner_iff (fun _ => rfl) (fun _ => rfl) (by decide) (by decide) (by decide) 25).mpr
    (Or.inr (fun td _ => ?_))
  decide

/-- With the tickets that every thread starts with, the winner has the largest number. -/
theorem draw_loses_winner : ¬∀ (tickets : Nat → UInt64) (d : Tdq) (random : UInt64),
    (d.runq .realtime).Empty → (d.runq .timeshare).Empty → (d.runq .lottery).Consistent tickets →
      (d.runq .lottery).queues 0 ≠ [] → (∀ td ∈ (d.runq .lottery).queues 0, 1 ≤ tickets td) →
        d.ReturnsWinner tickets random := by
  intro hall
  obtain ⟨_, _, _, _, hchoose⟩ := hall (fun _ => 20) (twoThreads 20 20) 0 (fun _ => rfl)
    (fun _ => rfl) (by decide) (by decide) (by decide)
  have htrap : (tdqChoose (fun _ => 20) (twoThreads 20 20) 0).isNone := by decide
  rw [hchoose] at htrap
  cases htrap

end FreeBSDEdits
