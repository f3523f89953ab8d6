import FreeBSDEdits.SchedTimesSafe

namespace FreeBSDEdits

/-- The priorities are the same, and so is whether one is borrowed. -/
structure SchedThread.SamePri (t t' : SchedThread) : Prop where
  priority : t'.priority = t.priority
  userPri : t'.userPri = t.userPri
  baseUserPri : t'.baseUserPri = t.baseUserPri
  lendUserPri : t'.lendUserPri = t.lendUserPri
  borrowing : t'.borrowing = t.borrowing

/-- Everything that changes the priorities of a thread, but for lending and unlending to it,
keeps `P`. -/
structure PriKept (R : Priorities) (K : Clock) (P : SchedThread → Prop) : Prop where
  same : ∀ {t t'}, P t → t.SamePri t' → P t'
  user : ∀ t pri, P t → P { t with toThread := schedUserPrio t.toThread pri }
  prio : ∀ i t t' p, schedPrio R K i t p = some t' → P t → P t'
  lendUser : ∀ i t t' p, P t → schedLendUserPrio R K i t p = some t' → P t'
  userret : ∀ t t', P t → userretPri t = some t' → P t'

/-- `P` holds of the thread `u`, if there is one. -/
def SchedTimes.At (u : Nat) (P : SchedThread → Prop) (s : SchedTimes) : Prop :=
  ∀ t, s.thread u = some t → P t

namespace SchedTimes

variable {P : SchedThread → Prop} {s s' : SchedTimes} {u td : Nat} {t : SchedThread}
  {f : SchedThread → Option SchedThread}

theorem At.set (td : Nat) (hs : s.At u P) (ht : td = u → P t) : (s.setThread td t).At u P := by
  intro v hv
  by_cases hu : u = td
  · subst hu
    rw [setThread_self] at hv
    cases hv
    exact ht rfl
  · rw [setThread_of_ne hu] at hv
    exact hs v hv

theorem At.onThread (hs : s.At u P) (h : s.onThread td f = some s')
    (hf : td = u → ∀ t t', P t → f t = some t' → P t') : s'.At u P := by
  rcases onThread_cases h with ⟨_, rfl⟩ | ⟨t, t', ht, hft, rfl⟩
  · exact hs
  · refine hs.set td (fun hu => ?_)
    subst hu
    exact hf rfl t t' (hs t ht) hft

theorem At.onThreads {tds : List Nat} (hs : s.At u P)
    (h : SchedTimes.onThreads f s tds = some s')
    (hf : ∀ t t', P t → f t = some t' → P t') : s'.At u P := by
  induction tds generalizing s with
  | nil =>
    cases h
    exact hs
  | cons td tds ih =>
    obtain ⟨s₁, h₁, h₂⟩ := Option.bind_eq_some_iff.mp h
    exact ih (hs.onThread h₁ (fun _ => hf)) h₂

end SchedTimes

/-- sched_lend_prio or sched_unlend_prio on the thread. -/
def TimeOp.lends (u : Nat) : TimeOp → Prop
  | .lendPrio td _ => td = u
  | .unlendPrio td _ => td = u
  | _ => False

instance TimeOp.decidableLends (u : Nat) (op : TimeOp) : Decidable (op.lends u) := by
  rcases op <;> unfold TimeOp.lends <;> infer_instance

/-- The parent, if the operation makes the thread `u`, and what it gets to td_lend_user_pri. -/
def TimeOp.makes (u : Nat) : TimeOp → Option (Nat × UInt8)
  | .fork td child lend => if child = u then some (td, lend) else none
  | .forkThread td child lend => if child = u then some (td, lend) else none
  | _ => none

section

variable {R : Priorities} {K : Clock} {P : SchedThread → Prop} {s s' : SchedTimes} {op : TimeOp}
  {u : Nat} {i : Int} {now : Int32} {t t' : SchedThread}

namespace PriKept

variable (hk : PriKept R K P)

include hk

theorem schedPriority (h : schedPriority R K i t = some t') (hp : P t) : P t' := by
  unfold FreeBSDEdits.schedPriority at h
  split at h
  next =>
    obtain ⟨pri, _, rfl⟩ := Option.map_eq_some_iff.mp h
    exact hk.user t _ hp
  next =>
    cases h
    exact hp

theorem update {run : Bool} (hp : P t) (h : updateTimes K now run t = some t') : P t' := by
  obtain ⟨ts, _, rfl⟩ := updateTimes_cases h
  exact hk.same hp ⟨rfl, rfl, rfl, rfl, rfl⟩

theorem clock (hp : P t) (h : clockTimes R K i now t = some t') : P t' := by
  obtain ⟨ts, _, rfl | h⟩ := clockTimes_cases h
  · exact hk.same hp ⟨rfl, rfl, rfl, rfl, rfl⟩
  · exact hk.schedPriority h (hk.same hp ⟨rfl, rfl, rfl, rfl, rfl⟩)

theorem wakeup (hp : P t) (h : wakeupTimes R K i now t = some t') : P t' := by
  obtain ⟨ts, h, _⟩ := wakeupTimes_cases h
  exact hk.schedPriority h (hk.same hp ⟨rfl, rfl, rfl, rfl, rfl⟩)

theorem sleep {boost prio : Int} (hp : P t) (h : schedSleep R K i boost now t prio = some t') :
    P t' := by
  have hp' : P { t with slptick := now } := hk.same hp ⟨rfl, rfl, rfl, rfl, rfl⟩
  unfold schedSleep at h
  dsimp only at h
  split at h
  next =>
    split at h
    next => exact hk.prio _ _ _ _ h hp'
    next =>
      split at h
      next => exact hk.prio _ _ _ _ h hp'
      next =>
        cases h
        exact hp'
  next =>
    cases h
    exact hp'

theorem niceThread {nice : Int8} (hp : P t) (h : niceThread R K i nice t = some t') : P t' := by
  obtain ⟨t₁, h₁, h₂⟩ := Option.bind_eq_some_iff.mp h
  exact hk.prio _ _ _ _ h₂ (hk.schedPriority h₁ (hk.same hp ⟨rfl, rfl, rfl, rfl, rfl⟩))

/-- What one operation does to the thread `u` keeps `P`, if it makes no such thread anew and lends
nothing to it, or keeps `P` even then. -/
theorem next (hs : s.At u P) (h : s.next R K op = some s')
    (hmake : ∀ p lend t t₁, op.makes u = some (p, lend) → s.thread p = some t → t.SamePri t₁ →
      P (schedForkThread t₁ lend))
    (hlend : op.lends u → ∀ t t' p, P t →
      (schedLendPrio R K s.interact t p = some t' ∨ schedUnlendPrio R K s.interact t p = some t') →
      P t') : s'.At u P := by
  have hsched : ∀ {t : SchedThread} (ts : TdSched), P t → P { t with sched := ts } :=
    fun ts hp => hk.same hp ⟨rfl, rfl, rfl, rfl, rfl⟩
  cases op with
  | advance n =>
    cases h
    exact hs
  | tune interact boost =>
    cases h
    exact hs
  | clock td => exact hs.onThread h fun _ t t' hp hf => hk.clock hp hf
  | switch td newtd =>
    obtain ⟨s₁, h₁, h₂⟩ := Option.bind_eq_some_iff.mp h
    have hs₁ := hs.onThread h₁ fun _ t t' hp hf => hk.update hp hf
    split at h₂
    next =>
      cases h₂
      exact hs₁
    next => exact hs₁.onThread h₂ fun _ t t' hp hf => hk.update hp hf
  | pctcpu td => exact hs.onThread h fun _ t t' hp hf => hk.update hp hf
  | sleep td prio => exact hs.onThread h fun _ t t' hp hf => hk.sleep hp hf
  | wakeup td => exact hs.onThread h fun _ t t' hp hf => hk.wakeup hp hf
  | add td => exact hs.onThread h fun _ t t' hp hf => hk.schedPriority hf hp
  | fork td child lend =>
    obtain ⟨s₁, h₁, h₂⟩ := Option.bind_eq_some_iff.mp h
    have hs₁ := hs.onThread h₁ fun _ t t' hp hf => hk.update hp hf
    split at h₂
    next =>
      cases h₂
      exact hs₁
    next t ht =>
      obtain ⟨s₂, h₃, h₄⟩ := Option.bind_eq_some_iff.mp h₂
      have hchild : child = u → P (schedForkThread t lend) := by
        rintro rfl
        rcases SchedTimes.onThread_cases h₁ with ⟨hn, rfl⟩ | ⟨t₀, t₁, ht₀, hf, rfl⟩
        · rw [hn] at ht
          cases ht
        · rw [SchedTimes.setThread_self] at ht
          cases ht
          obtain ⟨ts, _, rfl⟩ := updateTimes_cases hf
          exact hmake td lend t₀ _ (if_pos rfl) ht₀ ⟨rfl, rfl, rfl, rfl, rfl⟩
      have hs₂ := (hs₁.set child hchild).onThread h₃
        fun _ t t' hp hf => hk.schedPriority hf (hsched _ hp)
      exact hs₂.onThread h₄ fun _ t t' hp hf => hk.schedPriority hf (hsched _ hp)
  | forkThread td child lend =>
    dsimp only [SchedTimes.next] at h
    split at h
    next =>
      cases h
      exact hs
    next t ht =>
      cases h
      refine hs.set child ?_
      rintro rfl
      exact hmake td lend t t (if_pos rfl) ht ⟨rfl, rfl, rfl, rfl, rfl⟩
  | exit td child =>
    dsimp only [SchedTimes.next] at h
    split at h
    next =>
      cases h
      exact hs
    next => exact hs.onThread h fun _ t t' hp hf => hk.schedPriority hf (hsched _ hp)
  | nice tds nice => exact hs.onThreads h fun t t' hp hf => hk.niceThread hp hf
  | schedClass td timeshare fifo =>
    refine hs.onThread h fun _ t t' hp hf => ?_
    cases hf
    exact hk.same hp ⟨rfl, rfl, rfl, rfl, rfl⟩
  | prio td prio => exact hs.onThread h fun _ t t' hp hf => hk.prio _ _ _ _ hf hp
  | lendPrio td prio =>
    exact hs.onThread h fun hu t t' hp hf => hlend hu t t' prio hp (.inl hf)
  | unlendPrio td prio =>
    exact hs.onThread h fun hu t t' hp hf => hlend hu t t' prio hp (.inr hf)
  | lendUserPrio td prio => exact hs.onThread h fun _ t t' hp hf => hk.lendUser _ _ _ _ hp hf
  | userret td => exact hs.onThread h fun _ t t' hp hf => hk.userret _ _ hp hf
  | state td st =>
    refine hs.onThread h fun _ t t' hp hf => ?_
    cases hf
    exact hk.same hp ⟨rfl, rfl, rfl, rfl, rfl⟩
  | free td =>
    cases h
    intro v hv
    by_cases hu : u = td
    · subst hu
      have hnone : Function.update s.thread u none u = none := Function.update_self ..
      exact absurd (hnone.symm.trans hv) (Option.some_ne_none v).symm
    · have hsame : Function.update s.thread td none u = s.thread u := Function.update_of_ne hu ..
      exact hs v (hsame ▸ hv)

end PriKept

theorem changePriority_kept {prio : UInt8}
    (hu : ∀ (t : SchedThread) pri, P t → P { t with toThread := schedUserPrio t.toThread pri })
    (h : changePriority R K i t prio = some t') (hp : P { t with priority := prio }) : P t' := by
  unfold changePriority at h
  split at h
  next he =>
    cases h
    subst he
    exact hp
  next =>
    split at h
    next =>
      unfold schedPriority at h
      split at h
      next =>
        obtain ⟨pri, _, rfl⟩ := Option.map_eq_some_iff.mp h
        exact hu _ _ hp
      next =>
        cases h
        exact hp
    next =>
      cases h
      exact hp

/-- The thread runs at the priority `p` at least. -/
def SchedThread.LentTo (p : UInt8) (t : SchedThread) : Prop := t.borrowing = true ∧ t.priority ≤ p

theorem schedUserPrio_priority (t : Thread) (pri : UInt8) :
    (schedUserPrio t pri).priority = t.priority := by
  unfold schedUserPrio
  dsimp only
  split
  next => rfl
  next => rfl

theorem LentTo.user {p : UInt8} (t : SchedThread) (pri : UInt8) (h : t.LentTo p) :
    SchedThread.LentTo p { t with toThread := schedUserPrio t.toThread pri } :=
  ⟨h.1, (schedUserPrio_priority t.toThread pri).symm ▸ h.2⟩

/-- "If the thread is borrowing another thread's priority, don't ever lower the priority." -/
theorem LentTo.schedPrio {p q : UInt8} (h : schedPrio R K i t q = some t') (hp : t.LentTo p) :
    t'.LentTo p := by
  unfold FreeBSDEdits.schedPrio at h
  dsimp only at h
  split at h
  next =>
    cases h
    exact hp
  next hn =>
    have hq : q ≤ t.priority := UInt8.not_lt.mp (fun hlt => hn ⟨hp.1, hlt⟩)
    exact changePriority_kept LentTo.user h ⟨hp.1, UInt8.le_trans hq hp.2⟩

theorem lentTo_kept (p : UInt8) : PriKept R K (SchedThread.LentTo p) where
  same h hs := ⟨hs.borrowing.trans h.1, hs.priority.symm ▸ h.2⟩
  user := LentTo.user
  prio _ _ _ _ h hp := LentTo.schedPrio h hp
  lendUser i t t' q hp h := by
    unfold schedLendUserPrio at h
    dsimp only at h
    split at h
    next => exact LentTo.schedPrio h ⟨hp.1, hp.2⟩
    next =>
      cases h
      exact hp
  userret t t' hp h := by
    unfold userretPri at h
    rw [if_pos hp.1] at h
    cases h

theorem changePriority_priority {prio : UInt8} {b : Bool}
    (h : changePriority R K i { t with borrowing := b } prio = some t') :
    t'.priority = prio ∧ t'.borrowing = b := by
  refine changePriority_kept (P := fun t => t.priority = prio ∧ t.borrowing = b) ?_ h ⟨rfl, rfl⟩
  intro t pri ht
  exact ⟨(schedUserPrio_priority t.toThread pri).trans ht.1, ht.2⟩

/-- Nobody else lends to the thread, or makes it anew. -/
def leavesLent (u : Nat) (_ : List (TimeOp × Unit)) (_ : SchedTimes) (op : TimeOp) : Prop :=
  ¬op.lends u ∧ op.makes u = none

instance decidableLeavesLent (u : Nat) (h : List (TimeOp × Unit)) (s : SchedTimes) (op : TimeOp) :
    Decidable (leavesLent u h s op) := by
  unfold leavesLent
  infer_instance

/-- A thread that was lent a priority keeps one as good until the priority is taken back, which
leaves it the better of its own priority and what others still lend it. -/
theorem lent_priority_kept {s₀ s₁ : SchedTimes} {p : UInt8} {h : List (TimeOp × Unit)}
    (hl : s₀.next R K (.lendPrio u p) = some s₁) (hr : TimesRun R K (leavesLent u) s₁ h s)
    (ht : s.thread u = some t) :
    t.borrowing = true ∧ t.priority ≤ p ∧
      ∀ q s', s.next R K (.unlendPrio u q) = some s' → ∃ t', s'.thread u = some t' ∧
        t'.priority = (if ownPri R t ≤ q then ownPri R t else q) ∧
        (t'.borrowing = true ↔ q < ownPri R t) := by
  have hlent : s₁.At u (SchedThread.LentTo p) := by
    rcases SchedTimes.onThread_cases hl with ⟨hn, rfl⟩ | ⟨t₀, t₁, _, hf, rfl⟩
    · intro t₁ ht₁
      rw [hn] at ht₁
      cases ht₁
    · intro t₂ ht₂
      rw [SchedTimes.setThread_self] at ht₂
      cases ht₂
      obtain ⟨hpri, hb⟩ := changePriority_priority hf
      exact ⟨hb, hpri ▸ UInt8.le_refl _⟩
  have hnow : s.At u (SchedThread.LentTo p) := by
    unfold TimesRun at hr
    refine GuardedRun.invariant (P := fun _ s => s.At u (SchedThread.LentTo p)) hlent
      (fun h s op s' r _ hs hok hstep => ?_) hr
    obtain ⟨s₂, h₂, he⟩ := Option.map_eq_some_iff.mp hstep
    cases he
    refine (lentTo_kept p).next hs h₂ (fun v lend t t₁ hm => ?_) (fun hlends => ?_)
    · rw [hok.2] at hm
      cases hm
    · exact absurd hlends hok.1
  refine ⟨(hnow t ht).1, (hnow t ht).2, fun q s' hq => ?_⟩
  rcases SchedTimes.onThread_cases hq with ⟨hn, _⟩ | ⟨t₁, t₂, ht₁, hf, rfl⟩
  · rw [ht] at hn
    cases hn
  · rw [ht] at ht₁
    cases ht₁
    refine ⟨t₂, SchedTimes.setThread_self, ?_⟩
    unfold schedUnlendPrio at hf
    split at hf
    next hle =>
      obtain ⟨hpri, hb⟩ := changePriority_priority hf
      rw [if_pos hle, hpri, hb]
      exact ⟨rfl, fun h => Bool.noConfusion h, fun h => absurd hle (UInt8.not_le.mpr h)⟩
    next hle =>
      obtain ⟨hpri, hb⟩ := changePriority_priority hf
      rw [if_neg hle, hpri, hb]
      exact ⟨rfl, fun _ => UInt8.not_le.mp hle, fun _ => rfl⟩

/-- The user priority is as good as the base one and as the one that is lent. -/
structure SchedThread.UserOk (t : SchedThread) : Prop where
  lend : t.userPri ≤ t.lendUserPri
  base : t.userPri ≤ t.baseUserPri

theorem lentPri_le (lend base : UInt8) : lentPri lend base ≤ lend ∧ lentPri lend base ≤ base := by
  unfold lentPri
  split
  next h => exact ⟨UInt8.le_refl _, UInt8.le_of_lt h⟩
  next h => exact ⟨UInt8.not_lt.mp h, UInt8.le_refl _⟩

theorem UserOk.user (t : SchedThread) (pri : UInt8) (h : t.UserOk) :
    SchedThread.UserOk { t with toThread := schedUserPrio t.toThread pri } := by
  unfold schedUserPrio
  dsimp only
  split
  next hle => exact ⟨h.lend, UInt8.le_trans h.lend hle⟩
  next hlt => exact ⟨UInt8.le_of_lt (UInt8.not_le.mp hlt), UInt8.le_refl _⟩

theorem UserOk.changePriority {p : UInt8} (h : changePriority R K i t p = some t')
    (hp : t.UserOk) : t'.UserOk :=
  changePriority_kept UserOk.user h ⟨hp.lend, hp.base⟩

theorem UserOk.schedPrio {p : UInt8} (h : schedPrio R K i t p = some t') (hp : t.UserOk) :
    t'.UserOk := by
  unfold FreeBSDEdits.schedPrio at h
  dsimp only at h
  split at h
  next =>
    cases h
    exact ⟨hp.lend, hp.base⟩
  next => exact UserOk.changePriority h ⟨hp.lend, hp.base⟩

theorem userOk_kept : PriKept R K SchedThread.UserOk where
  same h hs := ⟨by rw [hs.userPri, hs.lendUserPri]; exact h.lend,
    by rw [hs.userPri, hs.baseUserPri]; exact h.base⟩
  user := UserOk.user
  prio _ _ _ _ h hp := UserOk.schedPrio h hp
  lendUser i t t' q hp h := by
    have hnew : SchedThread.UserOk { t with
        lendUserPri := q, userPri := lentPri q t.baseUserPri } :=
      ⟨(lentPri_le _ _).1, (lentPri_le _ _).2⟩
    unfold schedLendUserPrio at h
    dsimp only at h
    split at h
    next => exact UserOk.schedPrio h hnew
    next =>
      cases h
      exact hnew
  userret t t' hp h := by
    unfold userretPri at h
    split at h
    next => cases h
    next =>
      split at h
      next =>
        cases h
        exact ⟨hp.lend, hp.base⟩
      next =>
        cases h
        exact hp

theorem UserOk.lends {p : UInt8} (hp : t.UserOk)
    (h : schedLendPrio R K i t p = some t' ∨ schedUnlendPrio R K i t p = some t') :
    t'.UserOk := by
  have hlend : ∀ {t : SchedThread}, t.UserOk → schedLendPrio R K i t p = some t' → t'.UserOk :=
    fun hp h => UserOk.changePriority h ⟨hp.lend, hp.base⟩
  rcases h with h | h
  · exact hlend hp h
  · unfold schedUnlendPrio at h
    split at h
    next => exact UserOk.changePriority h ⟨hp.lend, hp.base⟩
    next => exact hlend hp h

/-- What fork stores in td_lend_user_pri of the child is no better than the user priority that
the child inherits. -/
def forksPlain : List (TimeOp × Unit) → SchedTimes → TimeOp → Prop
  | _, s, .fork td _ lend => ∀ t ∈ s.thread td, t.userPri ≤ lend
  | _, s, .forkThread td _ lend => ∀ t ∈ s.thread td, t.userPri ≤ lend
  | _, _, _ => True

instance decidableForksPlain (h : List (TimeOp × Unit)) (s : SchedTimes) (op : TimeOp) :
    Decidable (forksPlain h s op) := by
  rcases op <;> unfold forksPlain <;> infer_instance

theorem forksPlain.makes {h : List (TimeOp × Unit)} {v : Nat} {lend : UInt8}
    (hok : forksPlain h s op) (hm : op.makes u = some (v, lend)) (ht : s.thread v = some t) :
    t.userPri ≤ lend := by
  cases op with
  | fork td child l =>
    obtain ⟨_, he⟩ := Option.ite_none_right_eq_some.mp hm
    cases he
    exact hok t ht
  | forkThread td child l =>
    obtain ⟨_, he⟩ := Option.ite_none_right_eq_some.mp hm
    cases he
    exact hok t ht
  | _ => cases hm

/-- The user priority of a thread is never worse than the one that is lent to it or than its base
one, and a thread that goes back to user mode runs at it. -/
theorem user_priority_kept {ticks : Int32} {interact boost : Int} {t₀ : Thread}
    {h : List (TimeOp × Unit)}
    (h0 : t₀.userPri ≤ t₀.lendUserPri ∧ t₀.userPri ≤ t₀.baseUserPri)
    (hr : TimesRun R K forksPlain (boot ticks interact boost t₀) h s) (ht : s.thread u = some t) :
    t.userPri ≤ t.lendUserPri ∧ t.userPri ≤ t.baseUserPri ∧
      ∀ s', s.next R K (.userret u) = some s' → ∃ t', s'.thread u = some t' ∧
        t'.priority ≤ t.lendUserPri ∧ t'.priority = t.userPri := by
  have hall : ∀ v, s.At v SchedThread.UserOk := by
    unfold TimesRun at hr
    refine GuardedRun.invariant (P := fun _ s => ∀ v, s.At v SchedThread.UserOk) ?_
      (fun h s op s' r _ hs hok hstep v => ?_) hr
    · intro v t hv
      unfold boot at hv
      dsimp only at hv
      split at hv
      next =>
        cases hv
        exact ⟨h0.1, h0.2⟩
      next => cases hv
    · obtain ⟨s₂, h₂, he⟩ := Option.map_eq_some_iff.mp hstep
      cases he
      refine userOk_kept.next (hs v) h₂ (fun p lend t t₁ hm ht hsame => ?_)
        (fun _ t t' p hp h => UserOk.lends hp h)
      have hle := hok.makes hm ht
      exact ⟨hsame.userPri.symm ▸ hle, by
        have := (hs p t ht).base
        rw [← hsame.userPri, ← hsame.baseUserPri] at this
        exact this⟩
  refine ⟨(hall u t ht).lend, (hall u t ht).base, fun s' hret => ?_⟩
  rcases SchedTimes.onThread_cases hret with ⟨hn, _⟩ | ⟨t₁, t₂, ht₁, hf, rfl⟩
  · rw [ht] at hn
    cases hn
  · rw [ht] at ht₁
    cases ht₁
    refine ⟨t₂, SchedTimes.setThread_self, ?_⟩
    have hpri : t₂.priority = t.userPri := by
      unfold userretPri at hf
      split at hf
      next => cases hf
      next =>
        split at hf
        next =>
          cases hf
          rfl
        next hne =>
          cases hf
          exact Decidable.not_not.mp hne
    exact ⟨hpri.symm ▸ (hall u t ht).lend, hpri⟩

end

theorem lent_priority_kept_nice : ∃ s₁ h s t,
    (boot 5 30 152 (batchThread 0 0)).next amd64Priorities clock1000 (.lendPrio 0 90) = some s₁ ∧
      TimesRun amd64Priorities clock1000 (leavesLent 0) s₁ h s ∧ h.length = 2 ∧
      s.thread 0 = some t ∧ t.priority ≤ 90 := by
  have hl : (boot 5 30 152 (batchThread 0 0)).next amd64Priorities clock1000 (.lendPrio 0 90) =
      some ((boot 5 30 152 (batchThread 0 0)).setThread 0
        { schedinit 5 (batchThread 0 0) with borrowing := true, priority := 90 }) := rfl
  obtain ⟨h, s, hr, hc⟩ := timesRun_of_replay amd64Priorities clock1000 (leavesLent 0)
    ((boot 5 30 152 (batchThread 0 0)).setThread 0
      { schedinit 5 (batchThread 0 0) with borrowing := true, priority := 90 })
    [.nice [0] 10, .prio 0 200] (fun h s => h.length = 2 ∧ (s.thread 0).isSome) (by decide)
  obtain ⟨hlen, ht⟩ := of_decide_eq_true hc
  obtain ⟨t, ht⟩ := Option.isSome_iff_exists.mp ht
  exact ⟨_, h, s, t, hl, hr, hlen, ht, (lent_priority_kept hl hr ht).2.1⟩

theorem user_priority_kept_umtx : ∃ h s t,
    TimesRun amd64Priorities clock1000 forksPlain (boot 5 30 152 (batchThread 0 0)) h s ∧
      h.length = 3 ∧ s.thread 1 = some t ∧ t.userPri ≤ t.lendUserPri := by
  obtain ⟨h, s, hr, hc⟩ := timesRun_of_replay amd64Priorities clock1000 forksPlain
    (boot 5 30 152 (batchThread 0 0)) [.fork 0 1 255, .lendUserPrio 1 130, .clock 1]
    (fun h s => h.length = 3 ∧ (s.thread 1).isSome) (by decide)
  obtain ⟨hlen, ht⟩ := of_decide_eq_true hc
  obtain ⟨t, ht⟩ := Option.isSome_iff_exists.mp ht
  exact ⟨h, s, t, hr, hlen, ht, (user_priority_kept (by decide) hr ht).1⟩

end FreeBSDEdits
