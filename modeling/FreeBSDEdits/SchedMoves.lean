import FreeBSDEdits.SchedQueues

namespace FreeBSDEdits

theorem lotteryScan_mem {tickets : Nat → UInt64} {winner : UInt64} {counter : UInt64} {l : List Nat}
    {td : Nat} (h : lotteryScan tickets winner counter l = some td) : td ∈ l := by
  induction l generalizing counter with
  | nil => simp [lotteryScan] at h
  | cons x rest ih =>
    simp only [lotteryScan] at h
    split at h
    next =>
      cases h
      exact List.mem_cons_self
    next => exact List.mem_cons_of_mem x (ih h)

theorem stealScan_mem {ok : Nat → Bool} {first : Option Nat} {l : List Nat} {o₁ o₂ : Option Nat}
    (h : stealScan ok first l = (o₁, o₂)) :
    (∀ td ∈ o₁, td ∈ l) ∧ ∀ td ∈ o₂, td ∈ first ∨ td ∈ l := by
  induction l generalizing first with
  | nil =>
    cases h
    exact ⟨fun _ hn => absurd hn (by simp), fun _ hf => Or.inl hf⟩
  | cons x rest ih =>
    simp only [stealScan] at h
    split at h
    next =>
      cases h
      exact ⟨fun td ht => by simp [Option.mem_some.mp ht], fun _ hf => Or.inl hf⟩
    next =>
      obtain ⟨h₁, h₂⟩ := ih h
      refine ⟨fun td ht => List.mem_cons_of_mem x (h₁ td ht), fun td ht => Or.inr ?_⟩
      rcases h₂ td ht with hx | hr
      · simp [Option.mem_some.mp hx]
      · exact List.mem_cons_of_mem x hr

namespace Runq

variable {rq : Runq} {td : Nat}

theorem mem_of_choose (h : rq.choose = some td) : ∃ i, td ∈ rq.queues i := by
  unfold choose at h
  split at h
  next pri _ => exact ⟨pri, List.mem_of_mem_head? h⟩
  next => cases h

theorem mem_of_chooseFrom {idx : Nat} (h : rq.chooseFrom idx = some td) : ∃ i, td ∈ rq.queues i := by
  unfold chooseFrom at h
  split at h
  next pri _ => exact ⟨pri, List.mem_of_mem_head? h⟩
  next => cases h

theorem mem_of_listed {start : Nat} (h : td ∈ rq.listed start) : ∃ i, td ∈ rq.queues i := by
  obtain ⟨i, _, hi⟩ := List.mem_flatMap.mp h
  split at hi
  next => exact ⟨i, hi⟩
  next => exact absurd hi List.not_mem_nil

theorem mem_of_steal {ok : Nat → Bool} (h : runqSteal ok rq = some td) : ∃ i, td ∈ rq.queues i :=
  mem_of_listed (List.mem_of_find?_eq_some h)

theorem mem_of_stealFrom {ok : Nat → Bool} {start : Nat} (h : runqStealFrom ok rq start = some td) :
    ∃ i, td ∈ rq.queues i := by
  have hmem : ∀ x ∈ rq.listed start ++ (if start = 0 then [] else rq.listed 0),
      ∃ i, x ∈ rq.queues i := by
    intro x hx
    rcases List.mem_append.mp hx with hx | hx
    · exact mem_of_listed hx
    · split at hx
      next => exact absurd hx List.not_mem_nil
      next => exact mem_of_listed hx
  unfold runqStealFrom at h
  simp only at h
  generalize rq.listed start ++ (if start = 0 then [] else rq.listed 0) = passes at hmem h
  split at h
  next w first hs =>
    cases h
    exact hmem td ((stealScan_mem hs).1 td rfl)
  next first hs =>
    have hf : td ∈ first := (Option.mem_filter_iff.mp h).1
    rcases (stealScan_mem hs).2 td hf with hn | hm
    · cases hn
    · exact hmem td hm

end Runq

theorem mem_of_tdqSteal {thread : Nat → Thread} {d : Tdq} {cpu td : Nat}
    (h : tdqSteal thread d cpu = some td) : ∃ k i, td ∈ (d.runq k).queues i := by
  unfold tdqSteal at h
  simp only at h
  split at h
  next hs =>
    cases h
    exact ⟨_, Runq.mem_of_steal hs⟩
  next =>
    split at h
    next hs =>
      cases h
      exact ⟨_, Runq.mem_of_stealFrom hs⟩
    next =>
      split at h
      next hs =>
        cases h
        exact ⟨_, Runq.mem_of_stealFrom hs⟩
      next => exact ⟨_, Runq.mem_of_steal h⟩

theorem Tdq.Chooses.mem {tickets : Nat → UInt64} {d d' : Tdq} {random : UInt64} {td : Nat}
    (h : d.Chooses tickets random d' (some td)) : ∃ k i, td ∈ (d.runq k).queues i := by
  generalize ho : some td = o at h
  cases h with
  | realtime hr =>
    cases ho
    exact ⟨_, Runq.mem_of_choose hr⟩
  | timeshare _ ht =>
    cases ho
    exact ⟨_, Runq.mem_of_chooseFrom ht⟩
  | unused | missed => exact ⟨_, Runq.mem_of_choose ho.symm⟩
  | last _ _ _ hs | draw _ _ _ _ hs =>
    cases ho
    exact ⟨.lottery, 0, lotteryScan_mem hs⟩

namespace Sched

/-- The pieces every operation is made of. `T` limits what a call of tdq_choose may leave behind,
and `Q` which threads may be taken off a queue. -/
inductive Move (R : Priorities) (T : Tdq → Tdq → Prop) (Q : Sched → Nat → Prop) :
    Sched → Sched → Prop
  | quiet {s c d} : (s.tdq c).Quiet d → Move R T Q s (s.setTdq c d)
  | peek {s c d} : (s.tdq c).Same d → T (s.tdq c) d → Move R T Q s (s.setTdq c d)
  | thread {s td t} : (s.thread td).Same t → t.cpu = (s.thread td).cpu ∨ ¬s.Queued td →
      Move R T Q s (s.setThread td t)
  | switchTo {s f} : Move R T Q s { s with curthread := f }
  | add {s td} (flags) : ¬s.Queued td → Move R T Q s (s.runqAdd R (s.thread td).cpu td flags)
  | rem {s s' td} : s.Queued td → Q s td → s.runqRem (s.thread td).cpu td = some s' →
      Move R T Q s s'
  | tick {s c} : Move R T Q s (s.setTdq c (tdqClock (s.tdq c)))

abbrev Moves (R : Priorities) (T : Tdq → Tdq → Prop) (Q : Sched → Nat → Prop) :
    Sched → Sched → Prop := Relation.ReflTransGen (Move R T Q)

/-- `T` allows all that tdq_choose can do on CPU `c`. -/
def Peeks (T : Tdq → Tdq → Prop) (s : Sched) (c : Nat) (random : UInt64) : Prop :=
  ∀ d o, (s.tdq c).Chooses s.tickets random d o → T (s.tdq c) d

variable {R : Priorities} {T : Tdq → Tdq → Prop} {Q : Sched → Nat → Prop} {s s' : Sched}

theorem Move.represents (hm : Move R T Q s s') (h : s.Represents) : s'.Represents := by
  cases hm with
  | quiet hd => exact h.setTdq hd.same
  | peek hd _ => exact h.setTdq hd
  | thread ht hc => exact h.setThread ht hc
  | switchTo => exact ⟨h.marks, h.place, h.nodup, h.flag, h.transferable, h.rotates⟩
  | @add td flags hn => exact h.enter hn rfl (tdqRunqAdd_enters R _ _ td _ flags)
  | rem hq _ hr =>
    obtain ⟨k, d, hl⟩ := h.leaving hq
    cases hr.symm.trans hl.eq_some
    exact h.leave hl
  | tick => exact h.tick _

theorem Moves.represents (hm : Moves R T Q s s') (h : s.Represents) : s'.Represents := by
  induction hm with
  | refl => exact h
  | tail _ hm ih => exact hm.represents ih

theorem quiet_lowpri (d : Tdq) (l : UInt8) : d.Quiet { d with lowpri := l } := ⟨rfl, rfl, rfl, rfl⟩

theorem quiet_loadAdd (d : Tdq) (t : Thread) : d.Quiet (tdqLoadAdd d t) := ⟨rfl, rfl, rfl, rfl⟩

theorem quiet_loadRem (d : Tdq) (t : Thread) : d.Quiet (tdqLoadRem d t) := ⟨rfl, rfl, rfl, rfl⟩

theorem choose_eq_some {c : Nat} {random : UInt64} {o : Option Nat}
    (h : s.choose c random = some (s', o)) :
    ∃ d, (s.tdq c).Chooses s.tickets random d o ∧ s' = s.setTdq c d := by
  obtain ⟨⟨d, o'⟩, hc, he⟩ := Option.map_eq_some_iff.mp h
  cases he
  exact ⟨d, tdqChoose_iff.mp hc, rfl⟩

theorem setlowpri_eq_some {c ctd : Nat} {random : UInt64}
    (h : s.setlowpri c ctd random = some s') :
    ∃ d o l, (s.tdq c).Chooses s.tickets random d o ∧ s' = s.setTdq c { d with lowpri := l } := by
  obtain ⟨d', hd, rfl⟩ := Option.map_eq_some_iff.mp h
  obtain ⟨⟨d, o⟩, hc, he⟩ := Option.map_eq_some_iff.mp hd
  have hc' := tdqChoose_iff.mp hc
  cases o with
  | none =>
    cases he
    exact ⟨d, none, _, hc', rfl⟩
  | some w =>
    cases he
    exact ⟨d, some w, _, hc', rfl⟩

theorem setlowpri_moves {c ctd : Nat} {random : UInt64} (hT : Peeks T s c random)
    (h : s.setlowpri c ctd random = some s') : Moves R T Q s s' := by
  obtain ⟨d, o, l, hc, rfl⟩ := setlowpri_eq_some h
  refine .tail (.single (.peek (c := c) hc.same (hT d o hc))) ?_
  have hq := quiet_lowpri d l
  have hm := Move.quiet (R := R) (T := T) (Q := Q) (s := s.setTdq c d) (c := c)
    (d := { d with lowpri := l }) (by rwa [setTdq_tdq_self])
  rwa [setTdq_setTdq] at hm

theorem tdqAdd_moves {c td : Nat} (flags : SrqFlags) (hn : ¬s.Queued td)
    (hc : (s.thread td).cpu = c) : Moves R T Q s (tdqAdd R s c td flags) := by
  unfold tdqAdd
  subst hc
  by_cases hlow : (s.thread td).priority < (s.tdq (s.thread td).cpu).lowpri
  · simp only [if_pos hlow]
    have hq := quiet_lowpri (s.tdq (s.thread td).cpu) (s.thread td).priority
    have hn₁ := (queued_setTdq hq.same.toSameQueues td).not.mpr hn
    exact .tail (.tail (.single (.quiet hq)) (.add flags hn₁)) (.quiet (quiet_loadAdd _ _))
  · simp only [if_neg hlow]
    exact .tail (.single (.add flags hn)) (.quiet (quiet_loadAdd _ _))

theorem Represents.queued_of_mem (h : s.Represents) {c td : Nat}
    (hm : ∃ k i, td ∈ ((s.tdq c).runq k).queues i) : s.Queued td ∧ (s.thread td).cpu = c := by
  obtain ⟨k, i, hq⟩ := hm
  exact ⟨h.queued_iff.mpr ⟨⟨c, k⟩, i, hq⟩, (h.place ⟨c, k⟩ i td hq).2.2.2.2⟩

theorem schedChoose_moves (h : s.Represents) {c : Nat} {random : UInt64} {o : Option Nat}
    (hT : Peeks T s c random)
    (hQ : ∀ s₁ td, s.choose c random = some (s₁, some td) → Q s₁ td)
    (hr : schedChoose R s c random = some (s', o)) : Moves R T Q s s' := by
  unfold schedChoose at hr
  split at hr
  next => cases hr
  next s₁ hc =>
    cases hr
    obtain ⟨d, hd, rfl⟩ := choose_eq_some hc
    exact .tail (.single (.peek hd.same (hT d none hd))) (.quiet (quiet_lowpri _ _))
  next s₁ td hc =>
    obtain ⟨d, hd, rfl⟩ := choose_eq_some hc
    obtain ⟨s₂, hs₂, he⟩ := Option.map_eq_some_iff.mp hr
    cases he
    obtain ⟨hq, hcpu⟩ := h.queued_of_mem hd.mem
    subst hcpu
    have hq₁ := (queued_setTdq hd.same.toSameQueues td).mpr hq
    refine .tail (.tail (.single (.peek hd.same (hT d _ hd))) (.rem hq₁ (hQ _ td hc) hs₂)) ?_
    exact .quiet (quiet_lowpri _ _)

/-- The state of sched_rem before its last statement. -/
def removed (s : Sched) (td : Nat) (d : Tdq) : Sched :=
  ((s.setTdq (s.thread td).cpu d).setThread td { s.thread td with xferable := false }).setTdq
    (s.thread td).cpu (tdqLoadRem d { s.thread td with xferable := false }) |>.setThread td
      { s.thread td with xferable := false, state := .canRun }

theorem schedRem_eq (h : s.Represents) {td : Nat} (hq : s.Queued td) (random : UInt64) :
    ∃ k d, s.Leaving td k d ∧ schedRem s td random =
      if (s.thread td).priority = (s.tdq (s.thread td).cpu).lowpri then
        (s.removed td d).setlowpri (s.thread td).cpu (s.curthread (s.thread td).cpu) random
      else some (s.removed td d) := by
  obtain ⟨k, d, hl⟩ := h.leaving hq
  refine ⟨k, d, hl, ?_⟩
  have hlow : (tdqLoadRem d { s.thread td with xferable := false }).lowpri =
      (s.tdq (s.thread td).cpu).lowpri := hl.leaves.lowpri
  unfold schedRem
  simp only [hl.eq_some, setThread_tdq, setTdq_tdq_self, setTdq_thread, setThread_thread_self, hlow]
  rfl

theorem removed_thread (s : Sched) (td : Nat) (d : Tdq) : (s.removed td d).thread =
    Function.update s.thread td { s.thread td with xferable := false, state := .canRun } := by
  simp [removed, setThread, setTdq]

theorem removed_tdq (s : Sched) (td : Nat) (d : Tdq) :
    (s.removed td d).tdq (s.thread td).cpu =
      tdqLoadRem d { s.thread td with xferable := false } := by
  simp [removed]

theorem removed_moves (h : s.Represents) {td : Nat} (hq : s.Queued td) (hQ : Q s td)
    {k : RunqName} {d : Tdq} (hl : s.Leaving td k d) :
    Moves R T Q s (s.removed td d) ∧ ¬(s.removed td d).Queued td := by
  have hm₁ : Move R T Q s _ := .rem hq hQ hl.eq_some
  have hn₁ : ¬((s.setTdq (s.thread td).cpu d).setThread td
      { s.thread td with xferable := false }).Queued td := fun hq' =>
    ((h.leave_queued hl td).mp hq').1 rfl
  generalize hs₁ : (s.setTdq (s.thread td).cpu d).setThread td
    { s.thread td with xferable := false } = s₁ at hm₁ hn₁
  have htd : s₁.thread td = { s.thread td with xferable := false } := by simp [← hs₁]
  have hd₁ : s₁.tdq (s.thread td).cpu = d := by simp [← hs₁]
  have hquiet : (s₁.tdq (s.thread td).cpu).Quiet
      (tdqLoadRem d { s.thread td with xferable := false }) := hd₁ ▸ quiet_loadRem _ _
  have hsame : ((s₁.setTdq (s.thread td).cpu
      (tdqLoadRem d { s.thread td with xferable := false })).thread td).Same
        { s.thread td with xferable := false, state := .canRun } := by
    rw [setTdq_thread, htd]
    exact ⟨rfl, rfl, rfl, rfl⟩
  rw [removed, hs₁]
  refine ⟨.tail (.tail (.single hm₁) (.quiet hquiet)) (.thread hsame (Or.inl ?_)), ?_⟩
  · rw [setTdq_thread, htd]
  · rwa [queued_setThread hsame, queued_setTdq hquiet.same.toSameQueues]

/-- sched_rem, where `hT` is about the call of tdq_choose at its end. -/
theorem schedRem_moves (h : s.Represents) {td : Nat} {random : UInt64} (hq : s.Queued td)
    (hQ : Q s td)
    (hT : ∀ k d, s.Leaving td k d → (s.thread td).priority = (s.tdq (s.thread td).cpu).lowpri →
      Peeks T (s.removed td d) (s.thread td).cpu random)
    (hr : schedRem s td random = some s') : Moves R T Q s s' ∧ ¬s'.Queued td ∧ s'.thread =
      Function.update s.thread td { s.thread td with xferable := false, state := .canRun } := by
  obtain ⟨k, d, hl, he⟩ := schedRem_eq h hq random
  obtain ⟨hm, hn⟩ := removed_moves (R := R) (T := T) h hq hQ hl
  rw [he] at hr
  split at hr
  next hlow =>
    refine ⟨hm.trans (setlowpri_moves (hT k d hl hlow) hr), ?_⟩
    obtain ⟨d', o, l, hc, rfl⟩ := setlowpri_eq_some hr
    have hs : ((s.removed td d).tdq (s.thread td).cpu).SameQueues { d' with lowpri := l } :=
      ⟨hc.same.status, hc.same.queues, hc.same.transferable⟩
    exact ⟨by rwa [queued_setTdq hs], by rw [setTdq_thread, removed_thread]⟩
  next =>
    cases hr
    exact ⟨hm, hn, removed_thread s td d⟩

/-- sched_add stores a user priority and a CPU in the thread before it calls tdq_add. -/
theorem schedAdd_eq (R : Priorities) (s : Sched) (td : Nat) (flags : SrqFlags) (out : Outside) :
    ∃ t, (s.thread td).Same t ∧ schedAdd R s td flags out =
      tdqAdd R ((s.setThread td t).setThread td { t with cpu := out.pick }) out.pick td flags := by
  by_cases hts : (s.thread td).timeshare
  · refine ⟨schedUserPrio (s.thread td) out.userPri, ?_, ?_⟩
    · unfold schedUserPrio
      dsimp only
      split <;> exact ⟨rfl, rfl, rfl, rfl⟩
    · simp only [schedAdd, if_pos hts, setThread_thread_self]
  · refine ⟨s.thread td, ⟨rfl, rfl, rfl, rfl⟩, ?_⟩
    have hself : s.setThread td (s.thread td) = s := by simp [setThread]
    simp only [schedAdd, if_neg hts, hself]

theorem schedAdd_moves {td : Nat} (flags : SrqFlags) (out : Outside) (hn : ¬s.Queued td) :
    Moves R T Q s (schedAdd R s td flags out) := by
  obtain ⟨t, ht, he⟩ := schedAdd_eq R s td flags out
  have hn₁ : ¬(s.setThread td t).Queued td := by rwa [queued_setThread ht]
  have ht₁ : ((s.setThread td t).thread td).Same { t with cpu := out.pick } := by
    rw [setThread_thread_self]
    exact ⟨rfl, rfl, rfl, rfl⟩
  rw [he]
  refine .trans (.tail (.single (.thread ht (Or.inr hn))) (.thread ht₁ (Or.inr hn₁))) ?_
  exact tdqAdd_moves flags (by rwa [queued_setThread ht₁]) (by rw [setThread_thread_self])

theorem peeks_congr {c : Nat} {random : UInt64} (ht : s'.tickets = s.tickets)
    (hd : s'.tdq c = s.tdq c) (hT : Peeks T s c random) : Peeks T s' c random := by
  intro d o hc
  rw [ht, hd] at hc
  rw [hd]
  exact hT d o hc

theorem tickets_setThread {td : Nat} {t : Thread} (h : t.tickets = (s.thread td).tickets) :
    (s.setThread td t).tickets = s.tickets := by
  funext x
  by_cases hx : x = td
  · subst x
    simpa [tickets] using h
  · simp [tickets, setThread_thread_of_ne s hx]

/-- What `T` and `Q` have to allow for sched_rem. -/
structure RemWithin (T : Tdq → Tdq → Prop) (Q : Sched → Nat → Prop) (s : Sched) (td : Nat)
    (random : UInt64) : Prop where
  rem : Q s td
  peek : ∀ k d, s.Leaving td k d → (s.thread td).priority = (s.tdq (s.thread td).cpu).lowpri →
    Peeks T (s.removed td d) (s.thread td).cpu random

theorem tdqMove_moves (h : s.Represents) {source target : Nat} {random : UInt64} {o : Option Nat}
    (hw : ∀ td ∈ tdqSteal s.thread (s.tdq source) target, RemWithin T Q s td random)
    (hr : tdqMove R s source target random = some (s', o)) : Moves R T Q s s' := by
  unfold tdqMove at hr
  split at hr
  next =>
    cases hr
    exact .refl
  next td hs =>
    obtain ⟨s₁, hs₁, he⟩ := Option.map_eq_some_iff.mp hr
    cases he
    obtain ⟨hq, _⟩ := h.queued_of_mem (mem_of_tdqSteal hs)
    obtain ⟨hm, hn, _⟩ := schedRem_moves (R := R) h hq (hw td hs).rem (hw td hs).peek hs₁
    have ht : (s₁.thread td).Same { s₁.thread td with cpu := target } := ⟨rfl, rfl, rfl, rfl⟩
    refine (hm.tail (.thread ht (Or.inr hn))).trans (tdqAdd_moves _ ?_ ?_)
    · rwa [queued_setThread ht]
    · rw [setThread_thread_self]

theorem schedThreadPriority_moves (h : s.Represents) {td : Nat} {prio : UInt8} {out : Outside}
    (hq : (s.thread td).state = .runq ∧ prio < (s.thread td).priority →
      s.Queued td ∧ RemWithin T Q s td out.random)
    (hT : (s.thread td).state = .running → ¬prio < (s.tdq (s.thread td).cpu).lowpri →
      (s.tdq (s.thread td).cpu).lowpri = (s.thread td).priority → (s.thread td).priority ≠ prio →
        Peeks T s (s.thread td).cpu out.random)
    (hr : schedThreadPriority R s td prio out = some s') : Moves R T Q s s' := by
  have hsame : (s.thread td).Same { s.thread td with priority := prio } := ⟨rfl, rfl, rfl, rfl⟩
  have hset : Moves R T Q s (s.setThread td { s.thread td with priority := prio }) :=
    .single (.thread hsame (Or.inl rfl))
  unfold schedThreadPriority at hr
  simp only at hr
  split at hr
  next =>
    cases hr
    exact .refl
  next hne =>
    split at hr
    next hrq =>
      obtain ⟨s₁, hs₁, rfl⟩ := Option.map_eq_some_iff.mp hr
      obtain ⟨hqd, hw⟩ := hq hrq
      obtain ⟨hm, hn, _⟩ := schedRem_moves (R := R) h hqd hw.rem hw.peek hs₁
      have ht : (s₁.thread td).Same { s₁.thread td with priority := prio } := ⟨rfl, rfl, rfl, rfl⟩
      refine (hm.tail (.thread ht (Or.inl rfl))).trans (schedAdd_moves _ _ ?_)
      rwa [queued_setThread ht]
    next =>
      split at hr
      next hrun =>
        split at hr
        next =>
          cases hr
          exact hset.tail (.quiet (quiet_lowpri _ _))
        next hlt =>
          split at hr
          next hlow =>
            refine hset.trans (setlowpri_moves ?_ hr)
            exact peeks_congr (tickets_setThread rfl) rfl (hT hrun hlt hlow hne)
          next =>
            cases hr
            exact hset
      next =>
        cases hr
        exact hset

theorem schedUserret_moves {c td : Nat} {random : UInt64}
    (hT : (s.thread td).priority ≠ (s.thread td).userPri → Peeks T s c random)
    (hr : schedUserret s c td random = some s') : Moves R T Q s s' := by
  unfold schedUserret at hr
  simp only at hr
  split at hr
  next hne =>
    have hsame : (s.thread td).Same { s.thread td with
        priority := (s.thread td).userPri, basePri := (s.thread td).userPri } := ⟨rfl, rfl, rfl, rfl⟩
    refine (Relation.ReflTransGen.single (.thread hsame (Or.inl rfl))).trans (setlowpri_moves ?_ hr)
    exact peeks_congr (tickets_setThread rfl) rfl (hT hne)
  next =>
    cases hr
    exact .refl

end Sched

/-- What `T` and `Q` have to allow for an operation. -/
def SchedOp.Within (T : Tdq → Tdq → Prop) (Q : Sched → Nat → Prop) (s : Sched) : SchedOp → Prop
  | .runqRem td => Q s td
  | .tdqChoose c random => s.Peeks T c random
  | .choose c random =>
    s.Peeks T c random ∧ ∀ s₁ td, s.choose c random = some (s₁, some td) → Q s₁ td
  | .setlowpri c _ random => s.Peeks T c random
  | .rem td random => s.RemWithin T Q td random
  | .move source target random =>
    ∀ td ∈ tdqSteal s.thread (s.tdq source) target, s.RemWithin T Q td random
  | .threadPriority td prio out =>
    ((s.thread td).state = .runq ∧ prio < (s.thread td).priority →
      s.RemWithin T Q td out.random) ∧
    ((s.thread td).state = .running → ¬prio < (s.tdq (s.thread td).cpu).lowpri →
      (s.tdq (s.thread td).cpu).lowpri = (s.thread td).priority → (s.thread td).priority ≠ prio →
        s.Peeks T (s.thread td).cpu out.random)
  | .userret c td random =>
    (s.thread td).priority ≠ (s.thread td).userPri → s.Peeks T c random
  | _ => True

theorem SchedOp.within_any (s : Sched) (op : SchedOp) :
    op.Within (fun _ _ => True) (fun _ _ => True) s := by
  have hp : ∀ s c random, Sched.Peeks (fun _ _ => True) s c random := fun _ _ _ _ _ _ => trivial
  have hr : ∀ s td random, Sched.RemWithin (fun _ _ => True) (fun _ _ => True) s td random :=
    fun _ _ _ => ⟨trivial, fun _ _ _ _ => hp _ _ _⟩
  cases op with
  | runqAdd | runqRem | clock | outside | offQueue | switchTo => trivial
  | tdqChoose c random | setlowpri c _ random => exact hp _ _ _
  | choose c random => exact ⟨hp _ _ _, fun _ _ _ => trivial⟩
  | rem td random => exact hr _ _ _
  | move source target random => exact fun _ _ => hr _ _ _
  | threadPriority td prio out => exact ⟨fun _ => hr _ _ _, fun _ _ _ _ => hp _ _ _⟩
  | userret c td random => exact fun _ => hp _ _ _

/-- Every operation is a chain of moves. -/
theorem Sched.step_moves {R : Priorities} {T : Tdq → Tdq → Prop} {Q : Sched → Nat → Prop}
    {s s' : Sched} {op : SchedOp} {o : Option Nat} (h : s.Represents) (hp : op.Proper s)
    (hw : op.Within T Q s) (hs : s.step R op = some (s', o)) : Moves R T Q s s' := by
  cases op with
  | runqAdd td flags =>
    cases hs
    exact .single (.add flags hp)
  | runqRem td =>
    obtain ⟨s₁, hs₁, he⟩ := Option.map_eq_some_iff.mp hs
    cases he
    exact .single (.rem hp hw hs₁)
  | tdqChoose c random =>
    obtain ⟨d, hd, rfl⟩ := choose_eq_some hs
    exact .single (.peek hd.same (hw d o hd))
  | choose c random => exact schedChoose_moves h hw.1 hw.2 hs
  | setlowpri c ctd random =>
    obtain ⟨s₁, hs₁, he⟩ := Option.map_eq_some_iff.mp hs
    cases he
    exact setlowpri_moves hw hs₁
  | rem td random =>
    obtain ⟨s₁, hs₁, he⟩ := Option.map_eq_some_iff.mp hs
    cases he
    exact (schedRem_moves h hp hw.rem hw.peek hs₁).1
  | move source target random => exact tdqMove_moves h hw hs
  | threadPriority td prio out =>
    obtain ⟨s₁, hs₁, he⟩ := Option.map_eq_some_iff.mp hs
    cases he
    exact schedThreadPriority_moves h (fun hq => ⟨hp hq, hw.1 hq⟩) hw.2 hs₁
  | userret c td random =>
    obtain ⟨s₁, hs₁, he⟩ := Option.map_eq_some_iff.mp hs
    cases he
    exact schedUserret_moves hw hs₁
  | clock c =>
    cases hs
    exact .single .tick
  | outside td t =>
    cases hs
    exact .single (.thread ⟨rfl, rfl, rfl, rfl⟩ (Or.inl rfl))
  | offQueue td t =>
    cases hs
    exact .single (.thread ⟨rfl, rfl, rfl, rfl⟩ (Or.inr hp))
  | switchTo c td =>
    cases hs
    exact .single .switchTo

end FreeBSDEdits
