import FreeBSDEdits.SchedIdle

namespace FreeBSDEdits

/-- tdq_choose draws nobody from the lottery queue, and does not divide by zero: there is a realtime
or timeshare thread, no thread is counted, or nobody holds the ticket. -/
def Tdq.DrawsNobody (d : Tdq) (tickets : Nat → UInt64) (random : UInt64) : Prop :=
  ¬d.Waits ∨ (d.runq .lottery).totalProc = 0 ∨
    (d.runq .lottery).numTickets ≠ 0 ∧ ∀ td, ¬HoldsTicket tickets ((d.runq .lottery).queues 0)
      (random % (d.runq .lottery).numTickets + 1) td

namespace Tdq

variable {tickets : Nat → UInt64} {d d' : Tdq} {random : UInt64} {o : Option Nat}

theorem DrawsNobody.chooses (h : d.DrawsNobody tickets random) :
    ∃ o, d.Chooses tickets random d o := by
  cases hr : (d.runq .realtime).choose with
  | some td => exact ⟨some td, .realtime hr⟩
  | none =>
    cases ht : (d.runq .timeshare).chooseFrom d.ridx.toNat with
    | some td => exact ⟨some td, .timeshare hr ht⟩
    | none =>
      by_cases h0 : (d.runq .lottery).totalProc = 0
      · exact ⟨_, .unused ⟨hr, ht⟩ h0⟩
      · rcases h with hw | hp | ⟨hn, hno⟩
        · exact absurd ⟨hr, ht⟩ hw
        · exact absurd hp h0
        · refine ⟨_, .missed ⟨hr, ht⟩ h0 (rng_eq_some.mpr ⟨hn, rfl⟩) ?_⟩
          exact Option.eq_none_iff_forall_ne_some.mpr (fun td hs => hno td (holdsTicket_iff.mpr hs))

/-- A call of tdq_choose either draws nobody and leaves the `struct tdq` alone, or one thread less
is counted. -/
theorem Chooses.draws_cases (h : d.Chooses tickets random d' o) :
    d' = d ∧ d.DrawsNobody tickets random ∨
      (d'.runq .lottery).totalProc = (d.runq .lottery).totalProc - 1 := by
  cases h with
  | realtime hr =>
    refine Or.inl ⟨rfl, Or.inl (fun hw => ?_)⟩
    cases hw.1.symm.trans hr
  | timeshare _ ht =>
    refine Or.inl ⟨rfl, Or.inl (fun hw => ?_)⟩
    cases hw.2.symm.trans ht
  | unused _ h0 => exact Or.inl ⟨rfl, Or.inr (Or.inl h0)⟩
  | missed _ _ hr hs =>
    obtain ⟨hn, rfl⟩ := rng_eq_some.mp hr
    refine Or.inl ⟨rfl, Or.inr (Or.inr ⟨hn, fun td htd => ?_⟩)⟩
    cases hs.symm.trans (holdsTicket_iff.mp htd)
  | last _ h1 =>
    refine Or.inr ?_
    show 0 = _
    rw [h1]
    rfl
  | draw => exact Or.inr rfl

end Tdq

/-- tdq_choose does not look at tdq_lowpri. -/
theorem tdqChoose_lowpri (tickets : Nat → UInt64) (d : Tdq) (l : UInt8) (random : UInt64) :
    (tdqChoose tickets { d with lowpri := l } random).map Prod.snd =
      (tdqChoose tickets d random).map Prod.snd := by
  unfold tdqChoose
  cases hr : (d.runq .realtime).choose with
  | some td => rfl
  | none =>
    cases ht : (d.runq .timeshare).chooseFrom d.ridx.toNat with
    | some td => rfl
    | none =>
      dsimp only
      split <;> simp only [Option.map_none, Option.map_some, Option.map_map, Function.comp_def]

namespace Sched

/-- Calls of tdq_setlowpri on CPU `c`, each with the current thread and the value of random(). -/
def setlowpris (s : Sched) (c : Nat) : List (Nat × UInt64) → Option Sched
  | [] => some s
  | (ctd, random) :: calls => (s.setlowpri c ctd random).bind fun s => s.setlowpris c calls

/-- The calls change nothing but tdq_lowpri, and tdq_choose chooses as before. -/
def PeeksFree (s : Sched) (c : Nat) (calls : List (Nat × UInt64)) : Prop :=
  ∃ s', s.setlowpris c calls = some s' ∧
    s' = s.setTdq c { s.tdq c with lowpri := (s'.tdq c).lowpri } ∧
    ∀ random, (s'.choose c random).map Prod.snd = (s.choose c random).map Prod.snd

variable {s s' : Sched} {c ctd : Nat} {random : UInt64}

theorem setlowpri_of_chooses {d : Tdq} {o : Option Nat} (ctd : Nat)
    (h : (s.tdq c).Chooses s.tickets random d o) :
    ∃ l, s.setlowpri c ctd random = some (s.setTdq c { d with lowpri := l }) := by
  have hc := tdqChoose_iff.mpr h
  change tdqChoose (fun i => (s.thread i).tickets) _ _ = _ at hc
  unfold setlowpri tdqSetlowpri
  rw [hc]
  cases o with
  | none => exact ⟨_, rfl⟩
  | some td => exact ⟨_, rfl⟩

/-- One call leaves the counters alone and draws nobody, or counts one thread less. -/
theorem setlowpri_cases (h : s.setlowpri c ctd random = some s') :
    (∃ l, s' = s.setTdq c { s.tdq c with lowpri := l }) ∧ (s.tdq c).DrawsNobody s.tickets random ∨
      ((s'.tdq c).runq .lottery).totalProc = ((s.tdq c).runq .lottery).totalProc - 1 := by
  obtain ⟨d, o, l, hc, rfl⟩ := setlowpri_eq_some h
  rcases hc.draws_cases with ⟨rfl, hno⟩ | hp
  · exact Or.inl ⟨⟨l, rfl⟩, hno⟩
  · refine Or.inr ?_
    rw [setTdq_tdq_self]
    exact hp

theorem choose_lowpri (l : UInt8) (random : UInt64) :
    ((s.setTdq c { s.tdq c with lowpri := l }).choose c random).map Prod.snd =
      (s.choose c random).map Prod.snd := by
  rw [choose, choose, setTdq_tdq_self, Option.map_map, Option.map_map]
  exact tdqChoose_lowpri s.tickets (s.tdq c) l random

/-- The calls never count more threads, and count as many only if none of them draws. -/
theorem setlowpris_totalProc {calls : List (Nat × UInt64)} (h : s.setlowpris c calls = some s') :
    ((s'.tdq c).runq .lottery).totalProc ≤ ((s.tdq c).runq .lottery).totalProc ∧
      (((s'.tdq c).runq .lottery).totalProc = ((s.tdq c).runq .lottery).totalProc →
        ∀ call ∈ calls, (s.tdq c).DrawsNobody s.tickets call.2) := by
  induction calls generalizing s with
  | nil =>
    cases h
    exact ⟨Int.le_refl _, fun _ _ hm => absurd hm List.not_mem_nil⟩
  | cons call calls ih =>
    obtain ⟨s₁, h₁, h⟩ := Option.bind_eq_some_iff.mp h
    obtain ⟨hle, hall⟩ := ih h
    rcases setlowpri_cases h₁ with ⟨⟨l, rfl⟩, hno⟩ | hp
    · rw [setTdq_tdq_self] at hle hall
      refine ⟨hle, fun he x hx => ?_⟩
      rcases List.mem_cons.mp hx with rfl | hx
      · exact hno
      · exact hall he x hx
    · exact ⟨by omega, fun he => by omega⟩

/-- Calls that draw nobody leave everything but tdq_lowpri. -/
theorem setlowpris_quiet {calls : List (Nat × UInt64)}
    (h : ∀ call ∈ calls, (s.tdq c).DrawsNobody s.tickets call.2) :
    ∃ l, s.setlowpris c calls = some (s.setTdq c { s.tdq c with lowpri := l }) := by
  induction calls generalizing s with
  | nil => exact ⟨(s.tdq c).lowpri, by simp [setlowpris, setTdq]⟩
  | cons call calls ih =>
    obtain ⟨o, hc⟩ := (h call List.mem_cons_self).chooses
    obtain ⟨l, hl⟩ := setlowpri_of_chooses call.1 hc
    obtain ⟨l', hl'⟩ := ih (s := s.setTdq c { s.tdq c with lowpri := l }) (fun x hx => by
      rw [setTdq_tdq_self]
      exact h x (List.mem_cons_of_mem call hx))
    refine ⟨l', ?_⟩
    rw [setlowpris, hl, Option.bind_some, hl', setTdq_tdq_self, setTdq_setTdq]

end Sched

/-- Calls of tdq_setlowpri are free of side effects exactly if none of them draws. -/
theorem peeksFree_iff (s : Sched) (c : Nat) (calls : List (Nat × UInt64)) :
    s.PeeksFree c calls ↔ ∀ call ∈ calls, (s.tdq c).DrawsNobody s.tickets call.2 := by
  constructor
  · rintro ⟨s', hs, he, _⟩
    have hp : ((s'.tdq c).runq .lottery).totalProc = ((s.tdq c).runq .lottery).totalProc := by
      rw [he, Sched.setTdq_tdq_self]
    exact (Sched.setlowpris_totalProc hs).2 hp
  · intro h
    obtain ⟨l, hl⟩ := Sched.setlowpris_quiet h
    refine ⟨_, hl, ?_, Sched.choose_lowpri l⟩
    rw [Sched.setTdq_tdq_self]

/-- One call of tdq_setlowpri takes the only thread of the lottery queue out of the counters. -/
theorem peek_changes_counters : ∃ h s,
    SchedRun amd64Priorities properOp (fun _ => batchThread 1001 0) (fun _ => 0) h s ∧
    ((s.tdq 0).runq .lottery).totalProc = 1 ∧ ¬s.PeeksFree 0 [(0, 0)] := by
  obtain ⟨h, s, hr, hc⟩ := schedRun_of_replay amd64Priorities properOp (fun _ => batchThread 1001 0)
    [.runqAdd 1 noFlags]
    (fun _ s => ((s.tdq 0).runq .lottery).totalProc = 1 ∧
      (s.setlowpris 0 [(0, 0)]).any (fun s' => ((s'.tdq 0).runq .lottery).totalProc = 0))
    (by decide +kernel)
  obtain ⟨hp, hafter⟩ := of_decide_eq_true hc
  obtain ⟨s₁, hs₁, hp₁⟩ := (Option.any_eq_true _ _).mp hafter
  refine ⟨h, s, hr, hp, ?_⟩
  rintro ⟨s', hs', he, _⟩
  cases hs₁.symm.trans hs'
  have hsame : ((s₁.tdq 0).runq .lottery).totalProc = 1 := by
    rw [he, Sched.setTdq_tdq_self]
    exact hp
  rw [of_decide_eq_true hp₁] at hsame
  exact absurd hsame (by decide)

end FreeBSDEdits
