import FreeBSDEdits.SchedRuns

namespace FreeBSDEdits

def schedWakeup (R : Priorities) (s : Sched) (td : Nat) (out : Outside) : Sched :=
  schedAdd R s td ⟨false, false⟩ out

/-- What sched_switch gets from outside. -/
structure Switching where
  /-- TDF_SLICEEND is clear and SW_PREEMPT is set -/
  preempted : Bool
  /-- TD_IS_IDLETHREAD of the thread that runs -/
  idle : Bool
  /-- the CPU that sched_pickcpu picks -/
  pick : Nat
  /-- the CPU with which the search of tdq_trysteal ends -/
  steal : Option Nat
  stealThresh : Int
  /-- random() in tdq_move -/
  moveRandom : UInt64
  /-- random() in sched_choose -/
  random : UInt64
  idlethread : Nat

/-- The idle CPU `c` takes a thread from the one the search found, if that one still has enough. -/
def tdqTrysteal (R : Priorities) (s : Sched) (c : Nat) (o : Switching) : Option Sched :=
  match o.steal with
  | none => some s
  | some steal =>
    if (s.tdq c).load > 0 ∨ (s.tdq steal).load < o.stealThresh ∨
        (s.tdq steal).transferable = 0 then some s
    else (tdqMove R s steal c o.moveRandom).map Prod.fst

def schedSwitchMigrate (R : Priorities) (s : Sched) (c td : Nat) (flags : SrqFlags) : Sched :=
  let s := s.setTdq c (tdqLoadRem (s.tdq c) (s.thread td))
  tdqAdd R s (s.thread td).cpu td flags

/-- The thread that runs next on CPU `c` comes with the state. -/
def choosethread (R : Priorities) (s : Sched) (c idlethread : Nat) (random : UInt64) :
    Option (Sched × Nat) :=
  (schedChoose R s c random).map fun (s, o) =>
    let td := o.getD idlethread
    (s.setThread td { s.thread td with state := .running }, td)

/-- The branch of sched_switch for a thread that is still running. -/
def schedSwitchRunning (R : Priorities) (s : Sched) (c td : Nat) (o : Switching) : Sched :=
  let flags : SrqFlags := ⟨o.preempted, false⟩
  let s :=
    if (s.thread td).canMigrate ∧ ¬(s.thread td).canSched (s.thread td).cpu then
      s.setThread td { s.thread td with cpu := o.pick }
    else s
  if (s.thread td).cpu = c then s.runqAdd R c td flags else schedSwitchMigrate R s c td flags

/-- The branch for a thread that is going to sleep. -/
def schedSwitchSleeping (R : Priorities) (s : Sched) (c td : Nat) (o : Switching) : Option Sched :=
  let s := s.setTdq c (tdqLoadRem (s.tdq c) (s.thread td))
  if (s.tdq c).load = 0 then tdqTrysteal R s c o else some s

/-- sched_switch on CPU `c` up to choosethread. -/
def schedSwitchOut (R : Priorities) (s : Sched) (c : Nat) (o : Switching) : Option Sched :=
  let td := s.curthread c
  if o.idle then some (s.setThread td { s.thread td with state := .canRun })
  else
    let s := s.setTdq c { s.tdq c with switchcnt := (s.tdq c).switchcnt + 1 }
    if (s.thread td).state = .running then some (schedSwitchRunning R s c td o)
    else schedSwitchSleeping R s c td o

/-- On CPU `c`, from the thread it runs to the one that choosethread returns. -/
def schedSwitch (R : Priorities) (s : Sched) (c : Nat) (o : Switching) : Option Sched :=
  (schedSwitchOut R s c o).bind fun s =>
    (choosethread R s c o.idlethread o.random).map fun (s, newtd) =>
      { s with curthread := Function.update s.curthread c newtd }

/-- The scheduler's own state of the thread blanked out. -/
def Thread.rest (t : Thread) : Thread :=
  { t with
    userPri := 0
    baseUserPri := 0
    state := .inactive
    rqindex := 0
    tickets := 0
    runq := none
    xferable := false
    cpu := 0 }

def Priorities.InBatch (R : Priorities) (t : Thread) : Prop :=
  R.minBatch ≤ t.priority.toNat ∧ t.priority.toNat ≤ R.maxBatch

instance (R : Priorities) (t : Thread) : Decidable (R.InBatch t) := by
  unfold Priorities.InBatch
  infer_instance

/-- What tdq_runq_add does to the rest of the thread. -/
def Thread.asked (R : Priorities) (t : Thread) : Thread := if R.InBatch t then sysGetuid t else t

theorem Thread.asked_rest (R : Priorities) (t : Thread) : (t.asked R).rest = t.rest.asked R := by
  have hb : R.InBatch t.rest ↔ R.InBatch t := Iff.rfl
  unfold asked
  by_cases h : R.InBatch t
  · rw [if_pos h, if_pos (hb.mpr h)]
    rfl
  · rw [if_neg h, if_neg (hb.not.mpr h)]

theorem tdqRunqAdd_rest (R : Priorities) (c : Nat) (d : Tdq) (td : Nat) (t : Thread)
    (flags : SrqFlags) : (tdqRunqAdd R c d td t flags).2.rest = t.rest.asked R := by
  obtain ⟨d₁, x, he⟩ : ∃ d₁ x, (if t.canMigrate then
      ({ d with transferable := d.transferable + 1 },
        { t with state := .runq, xferable := true }) else (d, { t with state := .runq })) =
      (d₁, ({ t with state := .runq, xferable := x } : Thread)) := by
    cases t.canMigrate
    · exact ⟨d, t.xferable, rfl⟩
    · exact ⟨_, true, rfl⟩
  have hm : ({ t with state := TdState.runq } : Thread).canMigrate = t.canMigrate := rfl
  rw [← Thread.asked_rest]
  unfold Thread.asked
  simp only [tdqRunqAdd, hm, he]
  by_cases h1 : t.priority.toNat < R.minBatch
  · have hb : ¬R.InBatch t := fun h => Nat.not_le_of_lt h1 h.1
    simp only [if_pos h1, if_neg hb]
    rfl
  · by_cases h2 : t.priority.toNat ≤ R.maxBatch
    · have hb : R.InBatch t := ⟨Nat.le_of_not_lt h1, h2⟩
      simp only [if_neg h1, if_pos h2, if_pos hb]
      split <;> rfl
    · have hb : ¬R.InBatch t := fun h => h2 h.2
      simp only [if_neg h1, if_neg h2, if_neg hb]
      rfl

namespace Sched

/-- From `s` to `s'` no thread changes but for the scheduler's own state, and tdq_runq_add is called
for the thread in `o` only. -/
def Frames (R : Priorities) (o : Option Nat) (s s' : Sched) : Prop :=
  ∀ x, (s'.thread x).rest = if o = some x then (s.thread x).rest.asked R else (s.thread x).rest

variable {R : Priorities} {s s₁ s' : Sched} {o : Option Nat} {c td : Nat} {random : UInt64}

theorem Frames.refl : Frames R none s s := fun _ => rfl

theorem Frames.before (h : Frames R none s s₁) (h' : Frames R o s₁ s') : Frames R o s s' := by
  intro x
  have hx : (s₁.thread x).rest = (s.thread x).rest := h x
  rw [h' x, hx]

theorem Frames.after (h : Frames R o s s₁) (h' : Frames R none s₁ s') : Frames R o s s' := by
  intro x
  have hx : (s'.thread x).rest = (s₁.thread x).rest := h' x
  rw [hx, h x]

theorem frames_setTdq (s : Sched) (c : Nat) (d : Tdq) : Frames R none s (s.setTdq c d) := by
  intro x
  rw [setTdq_thread]
  rfl

theorem frames_setThread {t : Thread} (ht : t.rest = (s.thread td).rest) :
    Frames R none s (s.setThread td t) := by
  intro x
  show _ = (s.thread x).rest
  by_cases hx : x = td
  · subst x
    rw [setThread_thread_self, ht]
  · rw [setThread_thread_of_ne s hx]

theorem frames_runqAdd (s : Sched) (c td : Nat) (flags : SrqFlags) :
    Frames R (some td) s (s.runqAdd R c td flags) := by
  intro x
  unfold runqAdd
  by_cases hx : td = x
  · subst x
    rw [setThread_thread_self, if_pos rfl, tdqRunqAdd_rest]
  · rw [setThread_thread_of_ne _ (Ne.symm hx), if_neg (fun h => hx (Option.some.inj h)),
      setTdq_thread]

theorem frames_runqRem (h : s.runqRem c td = some s') : Frames R none s s' := by
  obtain ⟨⟨d, t⟩, hd, rfl⟩ := Option.map_eq_some_iff.mp h
  refine (frames_setTdq s c d).before (frames_setThread ?_)
  rw [setTdq_thread]
  cases hn : (s.thread td).runq with
  | none => simp [tdqRunqRem, hn] at hd
  | some r =>
    obtain ⟨d', he, _⟩ := tdqRunqRem_leaves (s.tdq c) td hn
    cases he.symm.trans hd
    rfl

theorem frames_setlowpri {ctd : Nat} (h : s.setlowpri c ctd random = some s') :
    Frames R none s s' := by
  obtain ⟨d, o, l, _, rfl⟩ := setlowpri_eq_some h
  exact frames_setTdq s c _

theorem frames_tdqAdd (s : Sched) (c td : Nat) (flags : SrqFlags) :
    Frames R (some td) s (tdqAdd R s c td flags) := by
  unfold tdqAdd
  dsimp only
  split
  next => exact ((frames_setTdq s c _).before (frames_runqAdd _ c td flags)).after (frames_setTdq _ c _)
  next => exact (frames_runqAdd s c td flags).after (frames_setTdq _ c _)

theorem frames_schedAdd (s : Sched) (td : Nat) (flags : SrqFlags) (out : Outside) :
    Frames R (some td) s (schedAdd R s td flags out) := by
  have hprio : (schedUserPrio (s.thread td) out.userPri).rest = (s.thread td).rest := by
    unfold schedUserPrio
    dsimp only
    split <;> rfl
  unfold schedAdd
  dsimp only
  split
  next =>
    refine (frames_setThread hprio).before (Frames.before ?_ (frames_tdqAdd _ out.pick td flags))
    exact frames_setThread rfl
  next =>
    refine Frames.before ?_ (frames_tdqAdd _ out.pick td flags)
    exact frames_setThread rfl

theorem frames_schedRem (h : schedRem s td random = some s') : Frames R none s s' := by
  unfold schedRem at h
  dsimp only at h
  split at h
  next => cases h
  next s₁ hs₁ =>
    have hrem : Frames R none s₁ ((s₁.setTdq (s.thread td).cpu
        (tdqLoadRem (s₁.tdq (s.thread td).cpu) (s₁.thread td))).setThread td
          { s₁.thread td with state := .canRun }) :=
      (frames_setTdq s₁ _ _).before (frames_setThread rfl)
    have hout := (frames_runqRem hs₁).before hrem
    split at h
    next => exact hout.before (frames_setlowpri h)
    next =>
      cases h
      exact hout

theorem frames_schedChoose (h : schedChoose R s c random = some (s', o)) : Frames R none s s' := by
  unfold schedChoose at h
  split at h
  next => cases h
  next s₁ hs₁ =>
    cases h
    obtain ⟨d, _, rfl⟩ := choose_eq_some hs₁
    exact (frames_setTdq s c d).before (frames_setTdq _ c _)
  next s₁ td hs₁ =>
    obtain ⟨d, _, rfl⟩ := choose_eq_some hs₁
    obtain ⟨s₂, hs₂, he⟩ := Option.map_eq_some_iff.mp h
    cases he
    exact ((frames_setTdq s c d).before (frames_runqRem hs₂)).before (frames_setTdq _ c _)

theorem frames_tdqMove {source target : Nat}
    (h : tdqMove R s source target random = some (s', o)) :
    Frames R (tdqSteal s.thread (s.tdq source) target) s s' := by
  unfold tdqMove at h
  split at h
  next hs =>
    cases h
    rw [hs]
    exact Frames.refl
  next td hs =>
    obtain ⟨s₁, hs₁, he⟩ := Option.map_eq_some_iff.mp h
    cases he
    rw [hs]
    have hcpu : Frames R none s₁ (s₁.setThread td { s₁.thread td with cpu := target }) :=
      frames_setThread rfl
    exact ((frames_schedRem hs₁).before hcpu).before (frames_tdqAdd _ target td _)

/-- The thread that tdq_trysteal moves to CPU `c`. -/
def stolen (s : Sched) (c : Nat) (o : Switching) : Option Nat :=
  o.steal.bind fun steal =>
    if (s.tdq c).load > 0 ∨ (s.tdq steal).load < o.stealThresh ∨
        (s.tdq steal).transferable = 0 then none
    else tdqSteal s.thread (s.tdq steal) c

/-- The thread for which sched_switch on CPU `c` calls tdq_runq_add. -/
def requeued (s : Sched) (c : Nat) (o : Switching) : Option Nat :=
  let td := s.curthread c
  if o.idle then none
  else if (s.thread td).state = .running then some td
  else
    let d := tdqLoadRem { s.tdq c with switchcnt := (s.tdq c).switchcnt + 1 } (s.thread td)
    if d.load = 0 then (s.setTdq c d).stolen c o else none

theorem frames_tdqTrysteal {o : Switching} (h : tdqTrysteal R s c o = some s') :
    Frames R (s.stolen c o) s s' := by
  unfold tdqTrysteal at h
  unfold stolen
  cases hs : o.steal with
  | none =>
    rw [hs] at h
    cases h
    exact Frames.refl
  | some steal =>
    rw [hs] at h
    dsimp only at h
    rw [Option.bind_some]
    split at h
    next hno =>
      cases h
      rw [if_pos hno]
      exact Frames.refl
    next hno =>
      rw [if_neg hno]
      obtain ⟨r, hr, rfl⟩ := Option.map_eq_some_iff.mp h
      exact frames_tdqMove hr

theorem frames_schedSwitchMigrate (s : Sched) (c td : Nat) (flags : SrqFlags) :
    Frames R (some td) s (schedSwitchMigrate R s c td flags) :=
  (frames_setTdq s c _).before (frames_tdqAdd _ _ td flags)

theorem frames_schedSwitchRunning (s : Sched) (c td : Nat) (o : Switching) :
    Frames R (some td) s (schedSwitchRunning R s c td o) := by
  have hqueue : ∀ (s : Sched) (flags : SrqFlags), Frames R (some td) s
      (if (s.thread td).cpu = c then s.runqAdd R c td flags
        else schedSwitchMigrate R s c td flags) := by
    intro s flags
    split
    next => exact frames_runqAdd s c td flags
    next => exact frames_schedSwitchMigrate s c td flags
  unfold schedSwitchRunning
  dsimp only
  split
  next =>
    refine Frames.before ?_ (hqueue _ _)
    exact frames_setThread rfl
  next => exact hqueue s _

theorem frames_schedSwitchSleeping {o : Switching} (h : schedSwitchSleeping R s c td o = some s') :
    Frames R (if (tdqLoadRem (s.tdq c) (s.thread td)).load = 0 then
      (s.setTdq c (tdqLoadRem (s.tdq c) (s.thread td))).stolen c o else none) s s' := by
  have hrem := frames_setTdq (R := R) s c (tdqLoadRem (s.tdq c) (s.thread td))
  unfold schedSwitchSleeping at h
  dsimp only at h
  rw [setTdq_tdq_self] at h
  split at h
  next h0 =>
    rw [if_pos h0]
    exact hrem.before (frames_tdqTrysteal h)
  next h0 =>
    cases h
    rw [if_neg h0]
    exact hrem

theorem frames_schedSwitchOut {o : Switching} (h : schedSwitchOut R s c o = some s') :
    Frames R (s.requeued c o) s s' := by
  have hcnt := frames_setTdq (R := R) s c { s.tdq c with switchcnt := (s.tdq c).switchcnt + 1 }
  unfold schedSwitchOut at h
  unfold requeued
  dsimp only at h ⊢
  by_cases hi : o.idle = true
  · rw [if_pos hi] at h ⊢
    cases h
    exact frames_setThread rfl
  · rw [if_neg hi] at h ⊢
    refine hcnt.before ?_
    split at h
    next hrun =>
      cases h
      rw [setTdq_thread] at hrun
      rw [if_pos hrun]
      exact frames_schedSwitchRunning _ c (s.curthread c) o
    next hrun =>
      rw [setTdq_thread] at hrun
      rw [if_neg hrun]
      have hsleep := frames_schedSwitchSleeping h
      rw [setTdq_tdq_self, setTdq_setTdq, setTdq_thread] at hsleep
      exact hsleep

theorem frames_choosethread {idlethread : Nat}
    (h : choosethread R s c idlethread random = some (s', td)) : Frames R none s s' := by
  obtain ⟨⟨s₁, o⟩, hs₁, he⟩ := Option.map_eq_some_iff.mp h
  cases he
  exact (frames_schedChoose hs₁).before (frames_setThread rfl)

theorem frames_schedSwitch {o : Switching} (h : schedSwitch R s c o = some s') :
    Frames R (s.requeued c o) s s' := by
  obtain ⟨s₁, hs₁, h⟩ := Option.bind_eq_some_iff.mp h
  obtain ⟨⟨s₂, newtd⟩, hs₂, rfl⟩ := Option.map_eq_some_iff.mp h
  have hframes := (frames_schedSwitchOut hs₁).after (frames_choosethread hs₂)
  exact hframes

end Sched

end FreeBSDEdits
