import FreeBSDEdits.SchedIdle

namespace FreeBSDEdits

/-- The largest and the smallest number of tickets in a queue, both 0 when it is empty. -/
structure TicketRange (tickets : Nat → UInt64) (l : List Nat) (max min : UInt64) : Prop where
  empty : l = [] → max = 0 ∧ min = 0
  le_max : ∀ td ∈ l, tickets td ≤ max
  max_mem : l ≠ [] → ∃ td ∈ l, tickets td = max
  min_le : ∀ td ∈ l, min ≤ tickets td
  min_mem : l ≠ [] → ∃ td ∈ l, tickets td = min

namespace TicketRange

variable {tickets tickets' : Nat → UInt64} {l l' : List Nat} {max min : UInt64} {td : Nat}

theorem nil : TicketRange tickets [] 0 0 :=
  ⟨fun _ => ⟨rfl, rfl⟩, by simp, by simp, by simp, by simp⟩

theorem congr (h : TicketRange tickets l max min) (hl : ∀ x, x ∈ l' ↔ x ∈ l)
    (ht : ∀ x ∈ l, tickets' x = tickets x) : TicketRange tickets' l' max min := by
  have hne : l' = [] ↔ l = [] := by
    simp only [List.eq_nil_iff_forall_not_mem, hl]
  refine ⟨fun hn => h.empty (hne.mp hn), fun x hx => ?_, fun hn => ?_, fun x hx => ?_, fun hn => ?_⟩
  · rw [ht x ((hl x).mp hx)]
    exact h.le_max x ((hl x).mp hx)
  · obtain ⟨x, hx, he⟩ := h.max_mem (fun hn' => hn (hne.mpr hn'))
    exact ⟨x, (hl x).mpr hx, (ht x hx).trans he⟩
  · rw [ht x ((hl x).mp hx)]
    exact h.min_le x ((hl x).mp hx)
  · obtain ⟨x, hx, he⟩ := h.min_mem (fun hn' => hn (hne.mpr hn'))
    exact ⟨x, (hl x).mpr hx, (ht x hx).trans he⟩

theorem zero_iff : TicketRange tickets l 0 0 ↔ ∀ x ∈ l, tickets x = 0 := by
  constructor
  · exact fun h x hx => UInt64.le_antisymm (h.le_max x hx) (UInt64.zero_le)
  · intro h
    have hmem : l ≠ [] → ∃ x ∈ l, tickets x = 0 := fun hne =>
      let ⟨x, hx⟩ := List.exists_mem_of_ne_nil l hne
      ⟨x, hx, h x hx⟩
    refine ⟨fun _ => ⟨rfl, rfl⟩, fun x hx => ?_, hmem, fun x hx => ?_, hmem⟩
    · rw [h x hx]
      exact UInt64.le_refl 0
    · rw [h x hx]
      exact UInt64.le_refl 0

/-- Where 0 stands for "unset", a minimum of 0 is lost when tickets are added. -/
theorem insert_iff (h : TicketRange tickets l max min) (t : UInt64) (htd : tickets' td = t)
    (ht : ∀ x ∈ l, tickets' x = tickets x) (hl : ∀ x, x ∈ l' ↔ x = td ∨ x ∈ l) :
    TicketRange tickets' l' (if t > max ∨ max = 0 then t else max)
      (if t < min ∨ min = 0 then t else min) ↔ t = 0 ∨ l = [] ∨ min ≠ 0 := by
  have htd' : td ∈ l' := (hl td).mpr (Or.inl rfl)
  constructor
  · intro h'
    by_contra hn
    obtain ⟨ht0, hne, hmin⟩ : t ≠ 0 ∧ l ≠ [] ∧ min = 0 := by tauto
    obtain ⟨x, hx, hx0⟩ := h.min_mem hne
    have hle := h'.min_le x ((hl x).mpr (Or.inr hx))
    rw [if_pos (Or.inr hmin), ht x hx, hx0, hmin] at hle
    exact ht0 (UInt64.le_antisymm hle UInt64.zero_le)
  · intro hok
    refine ⟨fun hn => absurd (hn ▸ htd') List.not_mem_nil, fun x hx => ?_, fun _ => ?_,
      fun x hx => ?_, fun _ => ?_⟩
    · rcases (hl x).mp hx with rfl | hx
      · rw [htd]
        split
        next => exact UInt64.le_refl t
        next hmax => exact UInt64.not_lt.mp (fun hlt => hmax (Or.inl hlt))
      · rw [ht x hx]
        have hle := h.le_max x hx
        split
        next hmax =>
          rcases hmax with hlt | h0
          · exact UInt64.le_trans hle (UInt64.le_of_lt hlt)
          · exact UInt64.le_trans hle (h0 ▸ UInt64.zero_le)
        next => exact hle
    · split
      next => exact ⟨td, htd', htd⟩
      next hmax =>
        obtain ⟨x, hx, he⟩ := h.max_mem (fun hn => hmax (Or.inr (h.empty hn).1))
        exact ⟨x, (hl x).mpr (Or.inr hx), (ht x hx).trans he⟩
    · rcases (hl x).mp hx with rfl | hx
      · rw [htd]
        split
        next => exact UInt64.le_refl t
        next hmin => exact UInt64.not_lt.mp (fun hlt => hmin (Or.inl hlt))
      · rw [ht x hx]
        have hle := h.min_le x hx
        split
        next hmin =>
          by_cases hlt : t < min
          · exact UInt64.le_trans (UInt64.le_of_lt hlt) hle
          · -- only a thread without tickets leaves a minimum of 0 as it is
            have h0 := hmin.resolve_left hlt
            rcases hok with rfl | hnil | hne
            · exact UInt64.zero_le
            · exact absurd (hnil ▸ hx) List.not_mem_nil
            · exact absurd h0 hne
        next => exact hle
    · split
      next => exact ⟨td, htd', htd⟩
      next hmin =>
        obtain ⟨x, hx, he⟩ := h.min_mem (fun hn => hmin (Or.inr (h.empty hn).2))
        exact ⟨x, (hl x).mpr (Or.inr hx), (ht x hx).trans he⟩

/-- The values stay those of the queue without a thread when another thread is as extreme. -/
theorem erase_iff (h : TicketRange tickets l max min) (hm : td ∈ l) :
    TicketRange tickets (l.erase td) max min ↔
      l.erase td = [] ∧ tickets td = 0 ∨
      (∃ x ∈ l.erase td, tickets td ≤ tickets x) ∧ ∃ x ∈ l.erase td, tickets x ≤ tickets td := by
  constructor
  · intro h'
    by_cases hn : l.erase td = []
    · have hle := h.le_max td hm
      rw [(h'.empty hn).1] at hle
      exact Or.inl ⟨hn, UInt64.le_antisymm hle UInt64.zero_le⟩
    · obtain ⟨x, hx, hxe⟩ := h'.max_mem hn
      obtain ⟨y, hy, hye⟩ := h'.min_mem hn
      exact Or.inr ⟨⟨x, hx, hxe ▸ h.le_max td hm⟩, ⟨y, hy, hye ▸ h.min_le td hm⟩⟩
  · have hne := List.ne_nil_of_mem hm
    have hother : ∀ {x}, x ∈ l → x = td ∨ x ∈ l.erase td := fun {x} hx =>
      (em (x = td)).imp_right (fun hne' => (List.mem_erase_of_ne hne').mpr hx)
    rintro (⟨hnil, h0⟩ | ⟨⟨y, hy, hyt⟩, ⟨z, hz, hzt⟩⟩)
    · have hall : ∀ {x}, x ∈ l → tickets x = 0 := by
        intro x hx
        rcases hother hx with rfl | hx
        · exact h0
        · exact absurd (hnil ▸ hx) List.not_mem_nil
      obtain ⟨x, hx, hxe⟩ := h.max_mem hne
      obtain ⟨y, hy, hye⟩ := h.min_mem hne
      rw [hall hx] at hxe
      rw [hall hy] at hye
      rw [hnil, ← hxe, ← hye]
      exact .nil
    · refine ⟨fun hn => absurd (hn ▸ hy) List.not_mem_nil,
        fun x hx => h.le_max x (List.mem_of_mem_erase hx), fun _ => ?_,
        fun x hx => h.min_le x (List.mem_of_mem_erase hx), fun _ => ?_⟩
      · obtain ⟨x, hx, hxe⟩ := h.max_mem hne
        rcases hother hx with rfl | hx
        · exact ⟨y, hy, UInt64.le_antisymm (h.le_max y (List.mem_of_mem_erase hy)) (hxe ▸ hyt)⟩
        · exact ⟨x, hx, hxe⟩
      · obtain ⟨x, hx, hxe⟩ := h.min_mem hne
        rcases hother hx with rfl | hx
        · exact ⟨z, hz, UInt64.le_antisymm (hxe ▸ hzt) (h.min_le z (List.mem_of_mem_erase hz))⟩
        · exact ⟨x, hx, hxe⟩

/-- A thread whose tickets are neither extreme leaves both as they are. -/
theorem erase_inner (h : TicketRange tickets l max min) (hmax : tickets td ≠ max)
    (hmin : tickets td ≠ min) (hm : td ∈ l) : TicketRange tickets (l.erase td) max min := by
  obtain ⟨x, hx, hxe⟩ := h.max_mem (List.ne_nil_of_mem hm)
  obtain ⟨y, hy, hye⟩ := h.min_mem (List.ne_nil_of_mem hm)
  have hx' := (List.mem_erase_of_ne (fun he : x = td => hmax (he ▸ hxe))).mpr hx
  have hy' := (List.mem_erase_of_ne (fun he : y = td => hmin (he ▸ hye))).mpr hy
  exact (h.erase_iff hm).mpr
    (Or.inr ⟨⟨x, hx', hxe ▸ h.le_max td hm⟩, ⟨y, hy', hye ▸ h.min_le td hm⟩⟩)

end TicketRange

namespace Sched

/-- max_tickets and min_tickets are right. -/
def Extremes (s : Sched) (c : Nat) : Prop :=
  TicketRange s.tickets (s.lotteryQueue c) ((s.tdq c).runq .lottery).maxTickets
    ((s.tdq c).runq .lottery).minTickets

/-- Without the thread `gone`, tdq_choose draws what total_proc takes for the last thread. -/
def Resets (s : Sched) (c : Nat) (gone : Option Nat) (random : UInt64) (td : Nat) : Prop :=
  s.Draws c gone ∧ ((s.tdq c).runq .lottery).totalProc = 1 ∧
    HoldsTicket s.tickets (gone.elim (s.lotteryQueue c) (s.lotteryQueue c).erase)
      (random % ((s.tdq c).runq .lottery).numTickets + 1) td

/-- The lottery queue has another thread with as many tickets and one with as few, or the thread
is the only one and has none. -/
def Spares (s : Sched) (c td : Nat) : Prop :=
  td ∈ s.lotteryQueue c →
    (s.lotteryQueue c).erase td = [] ∧ s.tickets td = 0 ∨
    (∃ x ∈ (s.lotteryQueue c).erase td, s.tickets td ≤ s.tickets x) ∧
      ∃ x ∈ (s.lotteryQueue c).erase td, s.tickets x ≤ s.tickets td

end Sched

/-- When tdq_runq_add, sched_choose and sched_rem leave the extremes right. -/
def SchedOp.KeepsExtremes (R : Priorities) (s : Sched) : SchedOp → Prop
  | .runqAdd td _ =>
    let c := (s.thread td).cpu
    R.route (s.thread td) = .lottery → (s.thread td).startTickets = 0 ∨ s.lotteryQueue c = [] ∨
      ((s.tdq c).runq .lottery).minTickets ≠ 0
  | .choose c random =>
    ∀ td, s.Resets c none random td → ∀ x ∈ (s.lotteryQueue c).erase td, s.tickets x = 0
  | .rem td random =>
    let c := (s.thread td).cpu
    let resets := (s.thread td).priority = (s.tdq c).lowpri ∧ ∃ w, s.Resets c (some td) random w
    (resets → ∀ x ∈ (s.lotteryQueue c).erase td, s.tickets x = 0) ∧ (¬resets → s.Spares c td)
  | _ => True

/-- The three operations, and what happens to threads meanwhile. -/
def SchedOp.AddsOrTakes : SchedOp → Prop
  | .runqAdd _ _ | .choose _ _ | .rem _ _ | .outside _ _ | .offQueue _ _ | .switchTo _ _ => True
  | _ => False

section Decide

variable (s : Sched) (c : Nat) (gone : Option Nat) (random : UInt64)

theorem Sched.resets_iff (td : Nat) : s.Resets c gone random td ↔
    (s.Draws c gone ∧ ((s.tdq c).runq .lottery).totalProc = 1) ∧
      lotteryScan s.tickets (random % ((s.tdq c).runq .lottery).numTickets + 1) 0
        (gone.elim (s.lotteryQueue c) (s.lotteryQueue c).erase) = some td := by
  rw [Sched.Resets, holdsTicket_iff, and_assoc]

instance : Decidable (∃ td, s.Resets c gone random td) :=
  decidable_of_iff ((s.Draws c gone ∧ ((s.tdq c).runq .lottery).totalProc = 1) ∧
    (lotteryScan s.tickets (random % ((s.tdq c).runq .lottery).numTickets + 1) 0
      (gone.elim (s.lotteryQueue c) (s.lotteryQueue c).erase)).isSome) (by
    simp only [Sched.resets_iff, Option.isSome_iff_exists, exists_and_left])

instance (p : Nat → Prop) [DecidablePred p] : Decidable (∀ td, s.Resets c gone random td → p td) :=
  decidable_of_iff (s.Draws c gone ∧ ((s.tdq c).runq .lottery).totalProc = 1 →
    (lotteryScan s.tickets (random % ((s.tdq c).runq .lottery).numTickets + 1) 0
      (gone.elim (s.lotteryQueue c) (s.lotteryQueue c).erase)).all (fun td => decide (p td)) = true)
    (by
      simp only [Sched.resets_iff, Option.all_eq_true, decide_eq_true_eq, and_imp]
      exact ⟨fun h td hd hp hs => h hd hp td hs, fun h hd hp td hs => h td hd hp hs⟩)

instance (td : Nat) : Decidable (s.Spares c td) := by
  unfold Sched.Spares
  infer_instance

instance (R : Priorities) (op : SchedOp) : Decidable (op.KeepsExtremes R s) := by
  rcases op <;> unfold SchedOp.KeepsExtremes <;> infer_instance

instance (op : SchedOp) : Decidable op.AddsOrTakes := by
  rcases op <;> unfold SchedOp.AddsOrTakes <;> infer_instance

end Decide

def keepsExtremes (R : Priorities) (_ : SchedHistory) (s : Sched) (op : SchedOp) : Prop :=
  op.Proper s ∧ op.AddsOrTakes ∧ op.KeepsExtremes R s

instance (R : Priorities) : ∀ h s op, Decidable (keepsExtremes R h s op) := fun _ s op =>
  inferInstanceAs (Decidable (op.Proper s ∧ op.AddsOrTakes ∧ op.KeepsExtremes R s))

namespace Sched

variable {R : Priorities} {s s' : Sched} {c td : Nat} {random : UInt64}

theorem Extremes.congr (ha : s.Extremes c)
    (hmax : ((s'.tdq c).runq .lottery).maxTickets = ((s.tdq c).runq .lottery).maxTickets)
    (hmin : ((s'.tdq c).runq .lottery).minTickets = ((s.tdq c).runq .lottery).minTickets)
    (hq : s'.lotteryQueue c = s.lotteryQueue c)
    (ht : ∀ x ∈ s.lotteryQueue c, s'.tickets x = s.tickets x) : s'.Extremes c := by
  rw [Extremes, hmax, hmin]
  exact TicketRange.congr ha (fun x => by rw [hq]) ht

theorem extremes_enter (h : s.Represents) (ha : ∀ c, s.Extremes c) (hn : ¬s.Queued td)
    (flags : SrqFlags) : (∀ c, (s.runqAdd R (s.thread td).cpu td flags).Extremes c) ↔
      (SchedOp.runqAdd td flags).KeepsExtremes R s := by
  have hother : ∀ c, ¬(c = (s.thread td).cpu ∧ R.route (s.thread td) = .lottery) →
      (s.runqAdd R (s.thread td).cpu td flags).Extremes c := by
    intro c hc
    obtain ⟨ht, ⟨hc', _⟩ | ⟨_, hr⟩⟩ := h.enter_lottery (R := R) hn flags c
    · exact absurd hc' hc
    · exact (ha c).congr (by rw [hr]) (by rw [hr]) (by rw [lotteryQueue, hr, lotteryQueue]) ht
  by_cases hk : R.route (s.thread td) = .lottery
  · have hiff : (s.runqAdd R (s.thread td).cpu td flags).Extremes (s.thread td).cpu ↔
        (s.thread td).startTickets = 0 ∨ s.lotteryQueue (s.thread td).cpu = [] ∨
          ((s.tdq (s.thread td).cpu).runq .lottery).minTickets ≠ 0 := by
      obtain ⟨ht, ⟨_, hj⟩ | ⟨hc, _⟩⟩ := h.enter_lottery (R := R) hn flags (s.thread td).cpu
      · have hl : ∀ x, x ∈ (s.runqAdd R (s.thread td).cpu td flags).lotteryQueue (s.thread td).cpu ↔
            x = td ∨ x ∈ s.lotteryQueue (s.thread td).cpu := fun x =>
          hj.queue.mem_iff.trans List.mem_cons
        rw [← (ha (s.thread td).cpu).insert_iff _ hj.tickets ht hl]
        rw [Extremes, hj.maxTickets, hj.minTickets]
      · exact absurd ⟨rfl, hk⟩ hc
    refine ⟨fun hall _ => hiff.mp (hall _), fun hok c => ?_⟩
    by_cases hc : c = (s.thread td).cpu
    · subst c
      exact hiff.mpr (hok hk)
    · exact hother c (fun hc' => hc hc'.1)
  · exact iff_of_true (fun c => hother c (fun hc => hk hc.2)) (fun hr => absurd hr hk)

theorem Extremes.spares_iff (ha : s.Extremes c) :
    TicketRange s.tickets ((s.lotteryQueue c).erase td) ((s.tdq c).runq .lottery).maxTickets
      ((s.tdq c).runq .lottery).minTickets ↔ s.Spares c td := by
  by_cases hm : td ∈ s.lotteryQueue c
  · rw [ha.erase_iff hm]
    exact ⟨fun he _ => he, fun he => he hm⟩
  · rw [List.erase_of_not_mem hm]
    exact iff_of_true ha (fun hm' => absurd hm' hm)

theorem Represents.draws_iff (h : s.Represents) :
    s.Draws c none ↔ (s.tdq c).Waits ∧ ((s.tdq c).runq .lottery).totalProc ≠ 0 := by
  rw [h.waits_iff, and_comm, Draws]
  refine and_congr_right (fun _ => forall₂_congr (fun k _ => forall₂_congr (fun i _ => ?_)))
  rw [List.eq_nil_iff_forall_not_mem]
  simp

/-- The extremes after a call of tdq_choose: reset, or as they were. -/
theorem Represents.chooses_extremes (h : s.Represents) {d : Tdq} {o : Option Nat}
    (hc : (s.tdq c).Chooses s.tickets random d o) :
    (∃ w, o = some w ∧ s.Resets c none random w ∧ (d.runq .lottery).maxTickets = 0 ∧
      (d.runq .lottery).minTickets = 0) ∨
    (¬∃ w, s.Resets c none random w) ∧
      (d.runq .lottery).maxTickets = ((s.tdq c).runq .lottery).maxTickets ∧
      (d.runq .lottery).minTickets = ((s.tdq c).runq .lottery).minTickets ∧
      ∀ w ∈ o, w ∈ s.lotteryQueue c →
        s.tickets w ≠ ((s.tdq c).runq .lottery).maxTickets ∧
          s.tickets w ≠ ((s.tdq c).runq .lottery).minTickets := by
  have hoff : ∀ {w : Nat} {k : RunqName}, k ≠ .lottery → (∃ i, w ∈ ((s.tdq c).runq k).queues i) →
      w ∉ s.lotteryQueue c := fun hk ⟨_, hm⟩ =>
    h.not_mem_lotteryQueue (h.offLottery_of_mem hk hm) c
  have hready : ∀ {w}, ¬(s.tdq c).Waits → ¬s.Resets c none random w := fun hw hr =>
    hw (h.draws_iff.mp hr.1).1
  have hscan : ∀ {w}, s.Resets c none random w ↔ s.Draws c none ∧
      ((s.tdq c).runq .lottery).totalProc = 1 ∧ lotteryScan s.tickets
        (random % ((s.tdq c).runq .lottery).numTickets + 1) 0 (s.lotteryQueue c) = some w := by
    intro w
    rw [← holdsTicket_iff]
    rfl
  cases hc with
  | realtime hr =>
    have hw : ¬(s.tdq c).Waits := fun hw => by simp [hw.1] at hr
    refine Or.inr ⟨fun ⟨_, hx⟩ => hready hw hx, rfl, rfl, fun w hwo hm => ?_⟩
    cases hwo
    exact absurd hm (hoff (k := .realtime) (by decide) (Runq.mem_of_choose hr))
  | timeshare _ ht =>
    have hw : ¬(s.tdq c).Waits := fun hw => by simp [hw.2] at ht
    refine Or.inr ⟨fun ⟨_, hx⟩ => hready hw hx, rfl, rfl, fun w hwo hm => ?_⟩
    cases hwo
    exact absurd hm (hoff (k := .timeshare) (by decide) (Runq.mem_of_chooseFrom ht))
  | unused _ hp =>
    refine Or.inr ⟨fun ⟨_, hx⟩ => hx.1.1 hp, rfl, rfl, fun w hwo hm => ?_⟩
    exact absurd hm (hoff (k := .idle) (by decide) (Runq.mem_of_choose hwo))
  | missed _ _ hr hs =>
    obtain ⟨_, rfl⟩ := rng_eq_some.mp hr
    refine Or.inr ⟨fun ⟨w, hx⟩ => ?_, rfl, rfl, fun w hwo hm => ?_⟩
    · exact absurd (hs.symm.trans (hscan.mp hx).2.2) (by simp)
    · exact absurd hm (hoff (k := .idle) (by decide) (Runq.mem_of_choose hwo))
  | last hw hp hr hs =>
    obtain ⟨_, rfl⟩ := rng_eq_some.mp hr
    refine Or.inl ⟨_, rfl, hscan.mpr ⟨h.draws_iff.mpr ⟨hw, by omega⟩, hp, hs⟩, rfl, rfl⟩
  | draw _ _ h1 _ _ hmax _ hmin =>
    refine Or.inr ⟨fun ⟨_, hx⟩ => h1 hx.2.1, rfl, rfl, fun w hwo _ => ?_⟩
    cases hwo
    exact ⟨hmax, hmin⟩

theorem Resets.unique {gone : Option Nat} {w w' : Nat} (hw : s.Resets c gone random w)
    (hw' : s.Resets c gone random w') : w = w' :=
  Option.some.inj ((holdsTicket_iff.mp hw.2.2).symm.trans (holdsTicket_iff.mp hw'.2.2))

theorem extremes_choose (h : s.Represents) (ha : ∀ c, s.Extremes c) {o : Option Nat}
    (hs : schedChoose R s c random = some (s', o)) : (∀ c', s'.Extremes c') ↔
      (SchedOp.choose c random).KeepsExtremes R s := by
  obtain ⟨d, hc⟩ := schedChoose_chooses hs
  have hcases := h.chooses_extremes hc
  cases o with
  | none =>
    rcases hcases with ⟨w, hw, _⟩ | ⟨hno, hmax, hmin, _⟩
    · cases hw
    · cases (schedChoose_none hc).symm.trans hs
      refine iff_of_true (fun c' => ?_) (fun w hw => absurd ⟨w, hw⟩ hno)
      by_cases hc' : c' = c
      · subst c'
        refine (ha c).congr ?_ ?_ ?_ (fun _ _ => rfl)
        · rw [setTdq_tdq_self, hmax]
        · rw [setTdq_tdq_self, hmin]
        · rw [lotteryQueue, setTdq_tdq_self, hc.same.queues, lotteryQueue]
      · exact (ha c').congr (by rw [setTdq_tdq_of_ne _ hc']) (by rw [setTdq_tdq_of_ne _ hc'])
          (by rw [lotteryQueue, setTdq_tdq_of_ne _ hc', lotteryQueue]) (fun _ _ => rfl)
  | some w =>
    obtain ⟨rfl, hsheds⟩ := h.schedChoose_sheds hc hs
    have hleft : ∀ c', s'.Extremes c' ↔ TicketRange s.tickets ((s.lotteryQueue c').erase w)
        (((s.setTdq (s.thread w).cpu d).tdq c').runq .lottery).maxTickets
        (((s.setTdq (s.thread w).cpu d).tdq c').runq .lottery).minTickets := by
      intro c'
      have hw := hsheds c'
      rw [Extremes, hw.tickets, hw.queue, hw.maxTickets, hw.minTickets, chooses_lotteryQueue hc]
      exact Iff.rfl
    have hother : ∀ c', c' ≠ (s.thread w).cpu →
        TicketRange s.tickets ((s.lotteryQueue c').erase w)
          (((s.setTdq (s.thread w).cpu d).tdq c').runq .lottery).maxTickets
          (((s.setTdq (s.thread w).cpu d).tdq c').runq .lottery).minTickets := by
      intro c' hc'
      rw [setTdq_tdq_of_ne _ hc', List.erase_of_not_mem (h.lottery_unique hc')]
      exact ha c'
    simp only [hleft]
    rcases hcases with ⟨x, hx, hres, hmax, hmin⟩ | ⟨hno, hmax, hmin, hinner⟩
    · cases hx
      constructor
      · intro hall x hx
        obtain rfl := hres.unique hx
        have hz := hall (s.thread w).cpu
        rw [setTdq_tdq_self, hmax, hmin, TicketRange.zero_iff] at hz
        exact hz
      · intro hk c'
        by_cases hc' : c' = (s.thread w).cpu
        · subst c'
          rw [setTdq_tdq_self, hmax, hmin, TicketRange.zero_iff]
          exact hk w hres
        · exact hother c' hc'
    · refine iff_of_true (fun c' => ?_) (fun x hx => absurd ⟨x, hx⟩ hno)
      by_cases hc' : c' = (s.thread w).cpu
      · subst c'
        rw [setTdq_tdq_self, hmax, hmin]
        by_cases hm : w ∈ s.lotteryQueue (s.thread w).cpu
        · exact (ha _).erase_inner (hinner w rfl hm).1 (hinner w rfl hm).2 hm
        · rw [List.erase_of_not_mem hm]
          exact ha _
      · exact hother c' hc'

theorem removed_resets (h : s.Represents) {k : RunqName} {d : Tdq} (hl : s.Leaving td k d)
    (w : Nat) : (s.removed td d).Resets (s.thread td).cpu none random w ↔
      s.Resets (s.thread td).cpu (some td) random w := by
  have hr := removed_lottery h hl (s.thread td).cpu
  rw [Resets, Resets, removed_draws h hl, hr.totalProc, hr.numTickets, hr.tickets]
  simp only [Option.elim_none, Option.elim_some, hr.queue]

theorem extremes_rem (h : s.Represents) (ha : ∀ c, s.Extremes c) (hq : s.Queued td)
    (hs : schedRem s td random = some s') : (∀ c, s'.Extremes c) ↔
      (SchedOp.rem td random).KeepsExtremes R s := by
  obtain ⟨k, d, hl, he⟩ := schedRem_eq h hq random
  have hrem : ∀ c, (s.removed td d).Extremes c ↔ s.Spares c td := by
    intro c
    have hr := removed_lottery h hl c
    rw [Extremes, hr.tickets, hr.queue, hr.maxTickets, hr.minTickets]
    exact (ha c).spares_iff
  have hother : ∀ c, c ≠ (s.thread td).cpu → s.Spares c td := fun c hc hm =>
    absurd hm (h.lottery_unique hc)
  have hall : (∀ c, (s.removed td d).Extremes c) ↔ s.Spares (s.thread td).cpu td := by
    simp only [hrem]
    refine ⟨fun hsp => hsp _, fun hsp c => ?_⟩
    by_cases hc : c = (s.thread td).cpu
    · exact hc ▸ hsp
    · exact hother c hc
  rw [he] at hs
  split at hs
  next hlow =>
    obtain ⟨d', o, l, hc, rfl⟩ := setlowpri_eq_some hs
    have hsame : ((s.removed td d).tdq (s.thread td).cpu).SameQueues { d' with lowpri := l } :=
      ⟨hc.same.status, hc.same.queues, hc.same.transferable⟩
    have hat : ∀ c, ((s.removed td d).setTdq (s.thread td).cpu { d' with lowpri := l }).Extremes c ↔
        TicketRange s.tickets ((s.lotteryQueue c).erase td)
          ((((s.removed td d).setTdq (s.thread td).cpu { d' with lowpri := l }).tdq c).runq
            .lottery).maxTickets
          ((((s.removed td d).setTdq (s.thread td).cpu { d' with lowpri := l }).tdq c).runq
            .lottery).minTickets := by
      intro c
      have hq' : ((s.removed td d).setTdq (s.thread td).cpu { d' with lowpri := l }).lotteryQueue c =
          (s.lotteryQueue c).erase td :=
        (congrFun (runq_same hsame ⟨c, .lottery⟩).2 0).trans (removed_lottery h hl c).queue
      have ht' : ((s.removed td d).setTdq (s.thread td).cpu { d' with lowpri := l }).tickets =
          s.tickets := (removed_lottery h hl c).tickets
      rw [Extremes, hq', ht']
    have hoff : ∀ c, c ≠ (s.thread td).cpu →
        ((s.removed td d).setTdq (s.thread td).cpu { d' with lowpri := l }).Extremes c := by
      intro c hc
      rw [hat, setTdq_tdq_of_ne _ hc, removed_tdq_of_ne d hc, (ha c).spares_iff]
      exact hother c hc
    have hcpu := hat (s.thread td).cpu
    rw [setTdq_tdq_self] at hcpu
    suffices hk : ((s.removed td d).setTdq (s.thread td).cpu { d' with lowpri := l }).Extremes
        (s.thread td).cpu ↔ (SchedOp.rem td random).KeepsExtremes R s by
      refine ⟨fun hx => hk.mp (hx _), fun hx c => ?_⟩
      by_cases hc : c = (s.thread td).cpu
      · exact hc ▸ hk.mpr hx
      · exact hoff c hc
    rw [hcpu]
    rcases (h.removed hl).chooses_extremes hc with ⟨w, _, hres, hmax, hmin⟩ | ⟨hno, hmax, hmin, _⟩
    · have hresets := (removed_resets h hl w).mp hres
      rw [hmax, hmin, TicketRange.zero_iff]
      refine ⟨fun hz => ⟨fun _ => hz, fun hn => absurd ⟨hlow, w, hresets⟩ hn⟩, fun hk => ?_⟩
      exact hk.1 ⟨hlow, w, hresets⟩
    · have hnot : ¬∃ w, s.Resets (s.thread td).cpu (some td) random w := fun ⟨w, hw⟩ =>
        hno ⟨w, (removed_resets h hl w).mpr hw⟩
      have hr := removed_lottery h hl (s.thread td).cpu
      rw [hmax, hmin, hr.maxTickets, hr.minTickets, (ha _).spares_iff]
      refine ⟨fun hsp => ⟨fun hr => absurd hr.2 hnot, fun _ => hsp⟩, fun hk => hk.2 ?_⟩
      exact fun hr => hnot hr.2
  next hlow =>
    cases hs
    rw [hall]
    refine ⟨fun hsp => ⟨fun hres => absurd hres.1 hlow, fun _ => hsp⟩, fun hk => hk.2 ?_⟩
    exact fun hres => hlow hres.1

end Sched

/-- Each of the three operations leaves the extremes right exactly where the condition holds. -/
theorem Sched.extremes_step {R : Priorities} {s s' : Sched} {op : SchedOp} {o : Option Nat}
    (h : s.Represents) (ha : ∀ c, s.Extremes c) (hp : op.Proper s) (hop : op.AddsOrTakes)
    (hs : s.step R op = some (s', o)) : (∀ c, s'.Extremes c) ↔ op.KeepsExtremes R s := by
  cases op with
  | runqAdd td flags =>
    cases hs
    exact extremes_enter h ha hp flags
  | choose c random => exact extremes_choose h ha hs
  | rem td random =>
    obtain ⟨s₁, hs₁, he⟩ := Option.map_eq_some_iff.mp hs
    cases he
    exact extremes_rem h ha hp hs₁
  | outside td t =>
    cases hs
    have ht : (s.setThread td ((s.thread td).adopt t)).tickets = s.tickets := tickets_setThread rfl
    exact iff_of_true (fun c => (ha c).congr rfl rfl rfl (fun x _ => congrFun ht x)) trivial
  | offQueue td t =>
    cases hs
    have ht : (s.setThread td ((s.thread td).adoptAll t)).tickets = s.tickets := tickets_setThread rfl
    exact iff_of_true (fun c => (ha c).congr rfl rfl rfl (fun x _ => congrFun ht x)) trivial
  | switchTo c td =>
    cases hs
    exact iff_of_true (fun c => (ha c).congr rfl rfl rfl (fun _ _ => rfl)) trivial
  | _ => exact hop.elim

/-- The extremes stay right after such steps, and the next step keeps them exactly where the
condition holds. -/
theorem extremes_exact {R : Priorities} {thread : Nat → Thread} {curthread : Nat → Nat}
    {h : SchedHistory} {s : Sched} (hr : SchedRun R (keepsExtremes R) thread curthread h s) :
    (∀ c, s.Extremes c) ∧ ∀ op s' o, op.Proper s → op.AddsOrTakes →
      s.step R op = some (s', o) → ((∀ c, s'.Extremes c) ↔ op.KeepsExtremes R s) := by
  have hrep := hr.represents (fun _ _ _ hok => hok.1)
  have ha : ∀ c, s.Extremes c := by
    refine SchedRun.invariant (P := fun s => ∀ c, s.Extremes c) (fun c => .nil)
      (fun _ _ _ hok => hok.1) (fun _ s op s' o hrep ha hok hs => ?_) hr
    exact (Sched.extremes_step hrep ha hok.1 hok.2.1 hs).mpr hok.2.2
  exact ⟨ha, fun op s' o hp hop hs => Sched.extremes_step hrep ha hp hop hs⟩

theorem extremes_exact_drawn : ∃ h s,
    SchedRun amd64Priorities (keepsExtremes amd64Priorities)
      (fun td => batchThread 1001 (.ofNat td)) (fun _ => 0) h s ∧
    s.lotteryQueue 0 = [1, 3] ∧ s.Extremes 0 := by
  obtain ⟨h, s, hr, hc⟩ := schedRun_of_replay amd64Priorities (keepsExtremes amd64Priorities)
    (fun td => batchThread 1001 (.ofNat td))
    [.runqAdd 1 noFlags, .runqAdd 2 noFlags, .runqAdd 3 noFlags, .choose 0 22]
    (fun _ s => s.lotteryQueue 0 = [1, 3]) (by decide +kernel)
  exact ⟨h, s, hr, of_decide_eq_true hc, (extremes_exact hr).1 0⟩

/-- sched_rem takes the only thread of the lottery queue and leaves its tickets as the extremes. -/
theorem removal_leaves_extremes : ∃ h s,
    SchedRun amd64Priorities properOp (fun _ => batchThread 1001 0) (fun _ => 0) h s ∧
    s.lotteryQueue 0 = [1] ∧ s.Extremes 0 ∧
      ∃ s', schedRem s 1 0 = some s' ∧ s'.lotteryQueue 0 = [] ∧ ¬s'.Extremes 0 := by
  obtain ⟨h, s, hr, hc⟩ := schedRun_of_replay amd64Priorities properOp (fun _ => batchThread 1001 0)
    [.runqAdd 1 noFlags]
    (fun _ s => s.lotteryQueue 0 = [1] ∧ s.tickets 1 = 20 ∧
      ((s.tdq 0).runq .lottery).maxTickets = 20 ∧ ((s.tdq 0).runq .lottery).minTickets = 20 ∧
      (schedRem s 1 0).any (fun s' => s'.lotteryQueue 0 = [] ∧
        ((s'.tdq 0).runq .lottery).maxTickets = 20)) (by decide +kernel)
  obtain ⟨hq, ht, hmax, hmin, hrem⟩ := of_decide_eq_true hc
  obtain ⟨s', hs', he⟩ := (Option.any_eq_true _ _).mp hrem
  obtain ⟨hq', hmax'⟩ := of_decide_eq_true he
  refine ⟨h, s, hr, hq, ?_, s', hs', hq', fun hx => ?_⟩
  · rw [Sched.Extremes, hq, hmax, hmin]
    refine ⟨by simp, ?_, fun _ => ⟨1, by simp, ht⟩, ?_, fun _ => ⟨1, by simp, ht⟩⟩ <;>
      simp [ht]
  · have h0 := (hx.empty hq').1
    rw [hmax'] at h0
    exact absurd h0 (by decide)

end FreeBSDEdits
