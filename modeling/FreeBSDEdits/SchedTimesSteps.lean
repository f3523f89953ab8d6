import FreeBSDEdits.SchedTimesRuns

namespace FreeBSDEdits

namespace SchedTimes

/-- `P` holds of every thread. -/
def All (P : SchedThread → Prop) (s : SchedTimes) : Prop := ∀ td t, s.thread td = some t → P t

variable {P : SchedThread → Prop} {s s' : SchedTimes} {td : Nat} {t : SchedThread}
  {f : SchedThread → Option SchedThread}

@[simp] theorem setThread_self : (s.setThread td t).thread td = some t := Function.update_self ..

theorem setThread_of_ne {u : Nat} (h : u ≠ td) : (s.setThread td t).thread u = s.thread u :=
  Function.update_of_ne h ..

theorem All.set (td : Nat) (hs : s.All P) (ht : P t) : (s.setThread td t).All P := by
  intro u v hv
  by_cases hu : u = td
  · subst hu
    rw [setThread_self] at hv
    cases hv
    exact ht
  · rw [setThread_of_ne hu] at hv
    exact hs u v hv

/-- An operation on one thread leaves the rest as it is. -/
theorem onThread_cases (h : s.onThread td f = some s') :
    (s.thread td = none ∧ s' = s) ∨
      ∃ t t', s.thread td = some t ∧ f t = some t' ∧ s' = s.setThread td t' := by
  unfold onThread at h
  split at h
  next hn =>
    cases h
    exact .inl ⟨hn, rfl⟩
  next t ht =>
    obtain ⟨t', hf, rfl⟩ := Option.map_eq_some_iff.mp h
    exact .inr ⟨t, t', ht, hf, rfl⟩

theorem All.onThread (hs : s.All P) (h : s.onThread td f = some s')
    (hf : ∀ t t', s.thread td = some t → P t → f t = some t' → P t') : s'.All P := by
  rcases onThread_cases h with ⟨_, rfl⟩ | ⟨t, t', ht, hft, rfl⟩
  · exact hs
  · exact hs.set td (hf t t' ht (hs td t ht) hft)

theorem All.onThreads {tds : List Nat} (hs : s.All P)
    (h : SchedTimes.onThreads f s tds = some s')
    (hf : ∀ t t', P t → f t = some t' → P t') : s'.All P := by
  induction tds generalizing s with
  | nil =>
    cases h
    exact hs
  | cons td tds ih =>
    obtain ⟨s₁, h₁, h₂⟩ := Option.bind_eq_some_iff.mp h
    exact ih (hs.onThread h₁ (fun t t' _ => hf t t')) h₂

theorem onThread_isSome (td : Nat) (hs : s.All P) (hf : ∀ t, P t → (f t).isSome) :
    (s.onThread td f).isSome := by
  unfold onThread
  split
  next => rfl
  next t ht => simpa using hf t (hs td t ht)

theorem onThreads_isSome {tds : List Nat} (hs : s.All P) (hf : ∀ t, P t → (f t).isSome)
    (hp : ∀ t t', P t → f t = some t' → P t') : (SchedTimes.onThreads f s tds).isSome := by
  induction tds generalizing s with
  | nil => rfl
  | cons td tds ih =>
    obtain ⟨s₁, h₁⟩ := Option.isSome_iff_exists.mp (onThread_isSome td hs hf)
    unfold SchedTimes.onThreads
    rw [h₁]
    exact ih (hs.onThread h₁ (fun t t' _ => hp t t'))

end SchedTimes

/-- Which threads the operation calls sched_pctcpu_update for, and with which `run`. -/
def TimeOp.updates (s : SchedTimes) : TimeOp → Nat → Bool → Prop
  | .clock td, u, run => u = td ∧ run = true
  | .switch td newtd, u, run => (u = td ∧ run = true) ∨ (u ≠ td ∧ u = newtd ∧ run = false)
  | .pctcpu td, u, run => u = td ∧ ∃ t, s.thread td = some t ∧ run = decide (t.state = .running)
  | .fork td _ _, u, run => u = td ∧ run = true
  | _, _, _ => False

/-- What an operation may do to the times of a thread keeps `P`. -/
structure Keeps (K : Clock) (P : SchedThread → Prop) (s : SchedTimes) (op : TimeOp) : Prop where
  same : ∀ t t', t.SameTimes t' → P t → P t'
  update : ∀ td run t ts, op.updates s td run → s.thread td = some t → P t →
    schedPctcpuUpdate K s.ticks t.sched run = some ts → P { t with sched := ts }
  charge : ∀ t (runtime : UInt32), P t →
    (runtime = .ofNat K.tickincr ∨ ∃ c, P c ∧ runtime = c.sched.runtime) →
    P { t with sched :=
      schedInteractUpdate K { t.sched with runtime := t.sched.runtime + runtime } }
  fork : ∀ t, P t → P { t with sched := schedInteractFork K t.sched }
  wakeup : ∀ td t ts, op = .wakeup td → s.thread td = some t → P t → t.slptick ≠ 0 →
    schedPctcpuUpdate K s.ticks (schedInteractUpdate K { t.sched with
      slptime := t.sched.slptime + ((s.ticks - t.slptick) <<< 10).toUInt32 }) false = some ts →
    P { t with sched := ts }
  nice : ∀ tds n t, op = .nice tds n → P t → P { t with nice := n }

section

variable {R : Priorities} {K : Clock} {P : SchedThread → Prop} {s s' : SchedTimes} {op : TimeOp}
  {interact : Int} {now : Int32} {t t' : SchedThread}

theorem updateTimes_cases {run : Bool} (h : updateTimes K now run t = some t') :
    ∃ ts, schedPctcpuUpdate K now t.sched run = some ts ∧ t' = { t with sched := ts } := by
  obtain ⟨ts, hts, rfl⟩ := Option.map_eq_some_iff.mp h
  exact ⟨ts, hts, rfl⟩

theorem clockTimes_cases (h : clockTimes R K interact now t = some t') :
    ∃ ts, schedPctcpuUpdate K now t.sched true = some ts ∧
      (t' = { t with sched := ts } ∨ schedPriority R K interact { t with
        sched := schedInteractUpdate K { ts with runtime := ts.runtime + .ofNat K.tickincr } } =
          some t') := by
  obtain ⟨ts, hts, h⟩ := Option.bind_eq_some_iff.mp h
  refine ⟨ts, hts, ?_⟩
  dsimp only at h
  split at h
  next =>
    cases h
    exact .inl rfl
  next =>
    split at h
    next => exact .inr h
    next =>
      cases h
      exact .inl rfl

theorem wakeupTimes_cases (h : wakeupTimes R K interact now t = some t') :
    ∃ ts, schedPriority R K interact { t with slptick := 0, sched := ts } = some t' ∧
      (ts = t.sched ∨ t.slptick ≠ 0 ∧ schedPctcpuUpdate K now (schedInteractUpdate K { t.sched with
        slptime := t.sched.slptime + ((now - t.slptick) <<< 10).toUInt32 }) false = some ts) := by
  obtain ⟨ts, hts, h⟩ := Option.bind_eq_some_iff.mp h
  refine ⟨ts, h, ?_⟩
  split at hts
  next hslept => exact .inr ⟨hslept.1, hts⟩
  next => exact .inl (Option.some.inj hts).symm

/-- A property of the threads that the changes of their times keep holds after the operation. -/
theorem SchedTimes.All.next (hs : s.All P) (hk : Keeps K P s op) (h : s.next R K op = some s') :
    s'.All P := by
  have hpri : ∀ {i : Int} {t t' : SchedThread}, P t → schedPriority R K i t = some t' → P t' :=
    fun hp h => hk.same _ _ (schedPriority_same h) hp
  have hset : ∀ {t : SchedThread} (f : SchedThread → SchedThread),
      (∀ t : SchedThread, t.SameTimes (f t)) → P t → P (f t) := fun f hf hp => hk.same _ _ (hf _) hp
  cases op with
  | advance n =>
    cases h
    exact hs
  | tune interact boost =>
    cases h
    exact hs
  | clock td =>
    refine hs.onThread h (fun t t' ht hp hf => ?_)
    obtain ⟨ts, hts, hcase⟩ := clockTimes_cases hf
    have hu := hk.update td true t ts ⟨rfl, rfl⟩ ht hp hts
    rcases hcase with rfl | hpr
    · exact hu
    · exact hpri (hk.charge _ _ hu (.inl rfl)) hpr
  | switch td newtd =>
    obtain ⟨s₁, h₁, h₂⟩ := Option.bind_eq_some_iff.mp h
    have hs₁ : s₁.All P := by
      refine hs.onThread h₁ (fun t t' ht hp hf => ?_)
      obtain ⟨ts, hts, rfl⟩ := updateTimes_cases hf
      exact hk.update td true t ts (.inl ⟨rfl, rfl⟩) ht hp hts
    split at h₂
    next =>
      cases h₂
      exact hs₁
    next hne =>
      refine hs₁.onThread h₂ (fun t t' ht hp hf => ?_)
      obtain ⟨ts, hts, rfl⟩ := updateTimes_cases hf
      have hsame : s₁.ticks = s.ticks ∧ s₁.thread newtd = s.thread newtd := by
        rcases SchedTimes.onThread_cases h₁ with ⟨_, rfl⟩ | ⟨v, v', _, _, rfl⟩
        · exact ⟨rfl, rfl⟩
        · exact ⟨rfl, Function.update_of_ne (Ne.symm hne) _ _⟩
      rw [hsame.1] at hts
      exact hk.update newtd false t ts (.inr ⟨Ne.symm hne, rfl, rfl⟩) (hsame.2 ▸ ht) hp hts
  | pctcpu td =>
    refine hs.onThread h (fun t t' ht hp hf => ?_)
    obtain ⟨ts, hts, rfl⟩ := updateTimes_cases hf
    exact hk.update td _ t ts ⟨rfl, t, ht, rfl⟩ ht hp hts
  | sleep td prio =>
    exact hs.onThread h (fun t t' _ hp hf => hk.same _ _ (schedSleep_same hf) hp)
  | wakeup td =>
    refine hs.onThread h (fun t t' ht hp hf => ?_)
    obtain ⟨ts, hpr, rfl | ⟨hslept, hts⟩⟩ := wakeupTimes_cases hf
    · exact hpri (hset (fun t => { t with slptick := 0 }) (fun _ => ⟨rfl, rfl⟩) hp) hpr
    · have hw := hk.wakeup td t ts rfl ht hp hslept hts
      exact hpri (hset (fun t => { t with slptick := 0 }) (fun _ => ⟨rfl, rfl⟩) hw) hpr
  | add td => exact hs.onThread h (fun t t' _ hp hf => hpri hp hf)
  | fork td child lend =>
    obtain ⟨s₁, h₁, h₂⟩ := Option.bind_eq_some_iff.mp h
    have hs₁ : s₁.All P := by
      refine hs.onThread h₁ (fun t t' ht hp hf => ?_)
      obtain ⟨ts, hts, rfl⟩ := updateTimes_cases hf
      exact hk.update td true t ts ⟨rfl, rfl⟩ ht hp hts
    split at h₂
    next =>
      cases h₂
      exact hs₁
    next t ht =>
      obtain ⟨s₂, h₃, h₄⟩ := Option.bind_eq_some_iff.mp h₂
      have hchild : P (schedForkThread t lend) :=
        hset (schedForkThread · lend) (fun _ => ⟨rfl, rfl⟩) (hs₁ td t ht)
      have hs₂ := (hs₁.set child hchild).onThread h₃
        (fun t t' _ hp hf => hpri (hk.fork t hp) hf)
      exact hs₂.onThread h₄ (fun t t' _ hp hf => hpri (hk.charge _ _ hp (.inl rfl)) hf)
  | forkThread td child lend =>
    dsimp only [SchedTimes.next] at h
    split at h
    next =>
      cases h
      exact hs
    next t ht =>
      cases h
      exact hs.set child (hset (schedForkThread · lend) (fun _ => ⟨rfl, rfl⟩) (hs td t ht))
  | exit td child =>
    dsimp only [SchedTimes.next] at h
    split at h
    next =>
      cases h
      exact hs
    next c hc =>
      exact hs.onThread h
        (fun t t' _ hp hf => hpri (hk.charge _ _ hp (.inr ⟨c, hs child c hc, rfl⟩)) hf)
  | nice tds nice =>
    refine hs.onThreads h (fun t t' hp hf => ?_)
    obtain ⟨t₁, h₁, h₂⟩ := Option.bind_eq_some_iff.mp hf
    exact hk.same _ _ (schedPrio_same h₂) (hpri (hk.nice tds nice t rfl hp) h₁)
  | schedClass td timeshare fifo =>
    refine hs.onThread h (fun t t' _ hp hf => ?_)
    cases hf
    exact hset (fun t => { t with timeshare, fifo }) (fun _ => ⟨rfl, rfl⟩) hp
  | prio td prio => exact hs.onThread h (fun t t' _ hp hf => hk.same _ _ (schedPrio_same hf) hp)
  | lendPrio td prio =>
    exact hs.onThread h (fun t t' _ hp hf => hk.same _ _ (schedLendPrio_same hf) hp)
  | unlendPrio td prio =>
    exact hs.onThread h (fun t t' _ hp hf => hk.same _ _ (schedUnlendPrio_same hf) hp)
  | lendUserPrio td prio =>
    exact hs.onThread h (fun t t' _ hp hf => hk.same _ _ (schedLendUserPrio_same hf) hp)
  | userret td =>
    exact hs.onThread h (fun t t' _ hp hf => hk.same _ _ (userretPri_same hf) hp)
  | state td st =>
    refine hs.onThread h (fun t t' _ hp hf => ?_)
    cases hf
    exact hset (fun t => { t with state := st }) (fun _ => ⟨rfl, rfl⟩) hp
  | free td =>
    cases h
    intro u v hv
    by_cases hu : u = td
    · subst hu
      have hnone : Function.update s.thread u none u = none := Function.update_self ..
      exact absurd (hnone.symm.trans hv) (Option.some_ne_none v).symm
    · have hsame : Function.update s.thread td none u = s.thread u := Function.update_of_ne hu ..
      exact hs u v (hsame ▸ hv)

end

end FreeBSDEdits
