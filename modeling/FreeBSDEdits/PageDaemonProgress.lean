import FreeBSDEdits.PageDaemonRuns

namespace FreeBSDEdits

theorem PagePc.holds_of_owesWaiters {p : PagePc} (h : p.owesWaiters = true) : p.holds = true := by
  cases p with
  | freeWaiters => rfl
  | loopWaiters => rfl
  | _ => cases h

namespace PageDaemon

variable {U : Type} [DecidableEq U] {s s' : PageDaemon U} {u w t : U} {p q : PagePc}
  {c : FreeTargets U} {n : Nat} {h : List (PageDaemonLabel U × Bool)}

theorem Run.heard (hr : Run c n h s) : s.Heard :=
  GuardedRun.invariant (P := fun _ s => Heard s) (Heard.init c n)
    (fun _ _ _ _ _ _ hs _ hstep => hs.step_heard hstep) hr

theorem run_of_replay (c : FreeTargets U) (n : Nat) (ls : List (PageDaemonLabel U))
    (check : List (PageDaemonLabel U × Bool) → PageDaemon U → Bool)
    (hp : (GuardedRun.replay (step c) (fun _ _ _ => True) [] (start c n) ls).any
      (fun r => check r.1 r.2) = true) : ∃ h s, Run c n h s ∧ check h s = true :=
  GuardedRun.exists_of_replay hp

/-- One page daemon, `false`, and one other thread, with few pages. -/
def fewPages : FreeTargets Bool where
  vFreeReserved := 2
  vInterruptFreeMin := 1
  vPageoutFreeMin := 1
  vmPageCountMin n := decide (n < 3)
  vmPagingNeeded n := decide (n < 5)
  pageproc u := !u
  worker u := !u

def daemonSleeps : List (PageDaemonLabel Bool) := List.replicate 6 (.run false)

/-- The page daemon is woken by a thread that then waits for pages. -/
def threadWaits : List (PageDaemonLabel Bool) :=
  daemonSleeps ++ .alloc true .normal true :: List.replicate 7 (.run true)

theorem exists_waiting : ∃ h s, Run fewPages 2 h s ∧ s.pc true = .waiting ∧ s.pc false = .lock ∧
    s.owner = none := by
  obtain ⟨h, s, hr, hc⟩ := run_of_replay fewPages 2 (threadWaits ++ [.scanned false false])
    (fun _ s => s.pc true = .waiting ∧ s.pc false = .lock ∧ s.owner = none) (by decide +kernel)
  exact ⟨h, s, hr, of_decide_eq_true hc⟩

theorem exists_freeing : ∃ h s, Run fewPages 2 h s ∧ s.pc false = .free 3 ∧ s.vFreeCount = 2 := by
  obtain ⟨h, s, hr, hc⟩ := run_of_replay fewPages 2 (threadWaits ++ [.free false 3])
    (fun _ s => s.pc false = .free 3 ∧ s.vFreeCount = 2) (by decide +kernel)
  exact ⟨h, s, hr, of_decide_eq_true hc⟩

/-- While a thread waits for pages, the flag says so and every page daemon is up, or the owner of
the mutex is about to wake the thread. -/
theorem waiters_attended (hr : Run c n h s) {t : U} (hp : s.pc t = .waiting) :
    (s.vmPagesNeeded = true ∧ ∀ w, s.pc w ≠ .asleep) ∨
      ∃ u, s.owner = some u ∧ (s.pc u).owesWaiters = true := by
  have hs := hr.heard
  rcases hs.waiting t hp with hn | ⟨u, hu⟩
  · exact .inl ⟨hn, hs.needed hn⟩
  · exact .inr ⟨u, (hs.owned u).mpr (PagePc.holds_of_owesWaiters hu), hu⟩

theorem waiters_attended_one : ∃ s : PageDaemon Bool, s.pc true = .waiting ∧
    ((s.vmPagesNeeded = true ∧ ∀ w, s.pc w ≠ .asleep) ∨
      ∃ u, s.owner = some u ∧ (s.pc u).owesWaiters = true) := by
  obtain ⟨h, s, hr, ht, -, -⟩ := exists_waiting
  exact ⟨s, ht, waiters_attended hr ht⟩

omit [DecidableEq U] in
theorem Heard.waiting_needed (hs : s.Heard) (hin : (s.pc u).holds = true)
    (howes : (s.pc u).owesWaiters = false) (hp : s.pc t = .waiting) : s.vmPagesNeeded = true := by
  rcases hs.waiting t hp with hn | ⟨v, hv⟩
  · exact hn
  · have hvin := hs.owned.unique hin (PagePc.holds_of_owesWaiters hv)
    rw [hvin, howes] at hv
    cases hv

theorem goto_ne (hne : ∀ t, s.pc t ≠ q) (hp : p ≠ q) (t : U) : (s.goto u p).pc t ≠ q := by
  rw [goto_pc]
  by_cases htu : t = u
  · rw [htu, Function.update_self]
    exact hp
  · rw [Function.update_of_ne htu]
    exact hne t

/-- After `vm_page_free_phys` nobody of the page daemon's process waits for pages there are. -/
theorem vmPageFree_pageproc (hs : s.Heard) {m : Nat} (hm : c.vPageoutFreeMin ≤ s.vFreeCount + m) :
    ∀ t, (vmPageFree c s u m).pc t ≠ .pageprocWaiting := by
  rw [vmPageFree]
  dsimp only
  split
  next => exact goto_ne (s := s.wakeup .pageprocWaiting) (Heard.wakeup_pc_ne (by decide)) (by decide)
  next hno =>
    refine goto_ne (s := s) (fun t ht => ?_) (by decide)
    exact hno ⟨hs.pageproc t (.inr ht), hm⟩

theorem vmPageFree_pc {m : Nat} : (vmPageFree c s u m).pc u = .freeWakeup := by
  rw [vmPageFree]
  dsimp only
  split <;> exact Function.update_self ..

theorem vmPageFree_vFreeCount {m : Nat} : (vmPageFree c s u m).vFreeCount = s.vFreeCount + m := by
  rw [vmPageFree]
  dsimp only
  split <;> rfl

/-- A thread that frees pages wakes all that wait for them, once there are enough. -/
theorem free_wakes (hr : Run c n h s) {m : Nat} (hp : s.pc u = .free m) :
    ∃ k ≤ 3, ∃ s', Alone c u k s s' ∧ s'.pc u = .idle ∧ s'.owner = none ∧
      (c.vmPageCountMin (s.vFreeCount + m) = false → ∀ t, s'.pc t ≠ .waiting) ∧
      (c.vPageoutFreeMin ≤ s.vFreeCount + m → ∀ t, s'.pc t ≠ .pageprocWaiting) := by
  have hs := hr.heard
  have hstep₁ : s.run c u = some (vmPageFree c s u m, false) := by rw [run, hp]
  have hs₁ := hs.run_heard hstep₁
  have hpageproc := vmPageFree_pageproc (c := c) (u := u) (m := m) hs
  have hcount := vmPageFree_vFreeCount (c := c) (s := s) (u := u) (m := m)
  have hp₁ := vmPageFree_pc (c := c) (s := s) (u := u) (m := m)
  generalize vmPageFree c s u m = s₁ at hstep₁ hs₁ hpageproc hcount hp₁
  by_cases hserved : waitersServed c s₁ = true
  · have hstep₂ : s₁.run c u =
        some ({ s₁ with vmPagesNeeded := false }.goto u .freeWaiters, false) := by
      rw [run, hp₁]
      exact if_pos hserved
    generalize hs₂ : { s₁ with vmPagesNeeded := false }.goto u .freeWaiters = s₂ at hstep₂
    have hp₂ : s₂.pc u = .freeWaiters := by
      rw [← hs₂]
      exact Function.update_self ..
    have hstep₃ : s₂.run c u = some ((s₂.wakeup .waiting).release.goto u .idle, false) := by
      rw [run, hp₂]
    refine ⟨3, by decide, _, .run hstep₁ (.run hstep₂ (.run hstep₃ (.refl _))),
      Function.update_self .., rfl, fun _ => ?_, fun hm => ?_⟩
    · exact goto_ne (s := (s₂.wakeup .waiting).release) (Heard.wakeup_pc_ne (by decide)) (by decide)
    · refine goto_ne (s := (s₂.wakeup .waiting).release) (fun t => ?_) (by decide)
      change (s₂.wakeup .waiting).pc t ≠ _
      rw [wakeup_pc]
      split
      next => decide
      next =>
        rw [← hs₂]
        exact goto_ne (s := { s₁ with vmPagesNeeded := false }) (hpageproc hm) (by decide) t
  · have hstep₂ : s₁.run c u = some (s₁.release.goto u .idle, false) := by
      rw [run, hp₁]
      exact if_neg hserved
    refine ⟨2, by decide, _, .run hstep₁ (.run hstep₂ (.refl _)), Function.update_self .., rfl,
      fun hmin => ?_, fun hm => goto_ne (s := s₁.release) (hpageproc hm) (by decide)⟩
    refine goto_ne (s := s₁.release) (fun t ht => hserved ?_) (by decide)
    have hneeded := hs₁.waiting_needed (by rw [hp₁]; rfl) (by rw [hp₁]; rfl) ht
    rw [waitersServed, hneeded, hcount, hmin]
    rfl

theorem free_wakes_one : ∃ s s' : PageDaemon Bool, ∃ k ≤ 3, Alone fewPages false k s s' ∧
    s'.pc false = .idle ∧ ∀ t, s'.pc t ≠ .waiting := by
  obtain ⟨h, s, hr, hp, hcount⟩ := exists_freeing
  obtain ⟨k, hk, s', hrun, hidle, -, hnone, -⟩ := free_wakes hr hp
  refine ⟨s, s', k, hk, hrun, hidle, hnone ?_⟩
  rw [hcount]
  rfl

/-- What is left of an iteration once the daemon has looked at the waiters. -/
def Rest (s : PageDaemon U) (w : U) (s' : PageDaemon U) : Prop :=
  s'.owner = none ∧ (∀ t, t ≠ w → s'.pc t = s.pc t) ∧
    (s.vmPagesNeeded = true → s'.pc w = .idle ∧ 0 < s'.pass w)

theorem loopNeeded_rest (hp : s.pc w = .loopNeeded) :
    ∃ k ≤ 2, ∃ s', Alone c w k s s' ∧ Rest s w s' ∧ (s.vmPagesNeeded = true → k = 1) := by
  by_cases hneeded : s.vmPagesNeeded = true
  · have hstep : s.run c w = some ((s.release.setPass w
        (if s.pass w = 0 then 1 else s.pass w)).goto w .idle, false) := by
      rw [run, hp]
      exact if_pos hneeded
    refine ⟨1, by decide, _, .run hstep (.refl _), ⟨rfl, fun t ht => Function.update_of_ne ht ..,
      fun _ => ⟨Function.update_self .., ?_⟩⟩, fun _ => rfl⟩
    change 0 < Function.update s.pass w (if s.pass w = 0 then 1 else s.pass w) w
    rw [Function.update_self]
    split <;> omega
  · have hstep : s.run c w = some (s.goto w .loopSleep, false) := by
      rw [run, hp]
      exact if_neg hneeded
    have hstep₁ : (s.goto w .loopSleep).run c w =
        some ((s.goto w .loopSleep).release.goto w .asleep, false) := by
      rw [run, goto_pc, Function.update_self]
    refine ⟨2, by decide, _, .run hstep (.run hstep₁ (.refl _)), ⟨rfl, fun t ht => ?_,
      fun hn => absurd hn hneeded⟩, fun hn => absurd hn hneeded⟩
    rw [goto_pc, Function.update_of_ne ht]
    exact Function.update_of_ne ht ..

theorem loopReceive_rest (hp : s.pc w = .loopReceive) :
    ∃ k ≤ 3, ∃ s', Alone c w k s s' ∧ Rest s w s' ∧ (s.vmPagesNeeded = true → k ≤ 2) := by
  by_cases hwanted : s.vmPageoutWanted = true
  · have hstep : s.run c w = some ((s.release.setPass w (s.pass w + 1)).goto w .idle, false) := by
      rw [run, hp]
      exact if_pos hwanted
    refine ⟨1, by decide, _, .run hstep (.refl _), ⟨rfl, fun t ht => Function.update_of_ne ht ..,
      fun _ => ⟨Function.update_self .., ?_⟩⟩, fun _ => by decide⟩
    change 0 < Function.update s.pass w (s.pass w + 1) w
    rw [Function.update_self]
    exact Nat.succ_pos _
  · have hstep : s.run c w = some (s.goto w .loopNeeded, false) := by
      rw [run, hp]
      exact if_neg hwanted
    obtain ⟨k, hk, s', hrun, ⟨hown, hpc, hpass⟩, hone⟩ := loopNeeded_rest (c := c) (w := w)
      (s := s.goto w .loopNeeded) (Function.update_self ..)
    refine ⟨k + 1, by omega, s', .run hstep hrun, ⟨hown, fun t ht => ?_, hpass⟩, fun hn => ?_⟩
    · rw [hpc t ht, goto_pc, Function.update_of_ne ht]
    · have := hone hn
      omega

theorem loopWanted_rest (hp : s.pc w = .loopWanted) :
    ∃ k ≤ 5, ∃ s', Alone c w k s s' ∧ Rest s w s' ∧ (s.vmPagesNeeded = true → k ≤ 4) := by
  have hother : ∀ q t, t ≠ w → (s.goto w q).pc t = s.pc t := by
    intro q t ht
    rw [goto_pc, Function.update_of_ne ht]
  by_cases hclear : s.vmPageoutWanted = true ∧ s.targetMet w = true
  · have hstep : s.run c w = some (s.goto w .loopClear, false) := by
      rw [run, hp]
      exact if_pos hclear
    generalize hs₁ : s.goto w .loopClear = s₁ at hstep
    have hp₁ : s₁.pc w = .loopClear := by
      rw [← hs₁]
      exact Function.update_self ..
    have hstep₁ : s₁.run c w =
        some ({ s₁ with vmPageoutWanted := false }.goto w .loopReceive, false) := by
      rw [run, hp₁]
    obtain ⟨k, hk, s', hrun, ⟨hown, hpc, hpass⟩, htwo⟩ := loopReceive_rest (c := c) (w := w)
      (s := { s₁ with vmPageoutWanted := false }.goto w .loopReceive) (Function.update_self ..)
    rw [← hs₁] at hpass htwo
    refine ⟨k + 2, by omega, s', .run hstep (.run hstep₁ hrun), ⟨hown, fun t ht => ?_, hpass⟩,
      fun hn => ?_⟩
    · rw [hpc t ht, goto_pc, Function.update_of_ne ht, ← hs₁, hother _ t ht]
    · have := htwo hn
      omega
  · have hstep : s.run c w = some (s.goto w .loopReceive, false) := by
      rw [run, hp]
      exact if_neg hclear
    obtain ⟨k, hk, s', hrun, ⟨hown, hpc, hpass⟩, htwo⟩ := loopReceive_rest (c := c) (w := w)
      (s := s.goto w .loopReceive) (Function.update_self ..)
    refine ⟨k + 1, by omega, s', .run hstep hrun, ⟨hown, fun t ht => ?_, hpass⟩, fun hn => ?_⟩
    · rw [hpc t ht, hother _ t ht]
    · have := htwo hn
      omega

/-- The daemon `w` has woken the thread `t`, as it must if there are enough pages, or it goes on to
a scan that reclaims some. -/
def Attended (c : FreeTargets U) (s : PageDaemon U) (w t : U) (s' : PageDaemon U) : Prop :=
  (s'.pc t = .idle ∨ s'.pc w = .idle ∧ 0 < s'.pass w) ∧
    (c.vmPageCountMin s.vFreeCount = false → s'.pc t = .idle)

/-- A page daemon that comes around its loop while a thread waits for pages either wakes it, which
it does if there are enough pages, or goes on to reclaim some; then it lets go of the mutex. -/
theorem loop_attends (hr : Run c n h s) (hp : s.pc w = .lock) (hfree : s.owner = none)
    (ht : s.pc t = .waiting) :
    ∃ k ≤ 6, ∃ s', Alone c w k s s' ∧ Attended c s w t s' ∧
      ∃ j, k + j ≤ 8 ∧ ∃ s'', Alone c w j s' s'' ∧ s''.owner = none ∧ Attended c s w t s'' := by
  have htw : t ≠ w := by
    intro he
    rw [he, hp] at ht
    cases ht
  have hstep : s.run c w = some ((s.acquire w).goto w .loopTest, false) := by
    rw [run, hp]
    exact if_pos hfree
  have hs₁ := hr.heard.run_heard hstep
  generalize he₁ : (s.acquire w).goto w .loopTest = s₁ at hstep hs₁
  have hp₁ : s₁.pc w = .loopTest := by
    rw [← he₁]
    exact Function.update_self ..
  have ht₁ : s₁.pc t = .waiting := by
    rw [← he₁, goto_pc, Function.update_of_ne htw]
    exact ht
  have hcount : s₁.vFreeCount = s.vFreeCount := by rw [← he₁]; rfl
  have hneeded := hs₁.waiting_needed (by rw [hp₁]; rfl) (by rw [hp₁]; rfl) ht₁
  cases hmin : c.vmPageCountMin s.vFreeCount with
  | false =>
    have hstep₁ : s₁.run c w =
        some ({ s₁ with vmPagesNeeded := false }.goto w .loopWaiters, false) := by
      rw [run, hp₁]
      exact if_pos (by rw [waitersServed, hneeded, hcount, hmin]; rfl)
    generalize he₂ : { s₁ with vmPagesNeeded := false }.goto w .loopWaiters = s₂ at hstep₁
    have hp₂ : s₂.pc w = .loopWaiters := by
      rw [← he₂]
      exact Function.update_self ..
    have ht₂ : s₂.pc t = .waiting := by
      rw [← he₂, goto_pc, Function.update_of_ne htw]
      exact ht₁
    have hstep₂ : s₂.run c w = some ((s₂.wakeup .waiting).goto w .loopWanted, false) := by
      rw [run, hp₂]
    have hidle : ((s₂.wakeup .waiting).goto w .loopWanted).pc t = .idle := by
      rw [goto_pc, Function.update_of_ne htw, wakeup_pc, if_pos ht₂]
    obtain ⟨j, hj, s', hrun, ⟨hown, hpc, -⟩, -⟩ := loopWanted_rest (c := c) (w := w)
      (s := (s₂.wakeup .waiting).goto w .loopWanted) (Function.update_self ..)
    have hidle' : s'.pc t = .idle := (hpc t htw).trans hidle
    exact ⟨3, by decide, _, .run hstep (.run hstep₁ (.run hstep₂ (.refl _))),
      ⟨.inl hidle, fun _ => hidle⟩, j, by omega, s', hrun, hown, .inl hidle', fun _ => hidle'⟩
  | true =>
    have hstep₁ : s₁.run c w = some (s₁.goto w .loopWanted, false) := by
      rw [run, hp₁]
      exact if_neg (by rw [waitersServed, hneeded, hcount, hmin]; decide)
    obtain ⟨k, -, s', hrun, ⟨hown, -, hpass⟩, hfour⟩ := loopWanted_rest (c := c) (w := w)
      (s := s₁.goto w .loopWanted) (Function.update_self ..)
    have hk := hfour hneeded
    have hattended : Attended c s w t s' :=
      ⟨.inr (hpass hneeded), fun he => Bool.noConfusion (hmin.symm.trans he)⟩
    exact ⟨k + 2, by omega, s', .run hstep (.run hstep₁ hrun), hattended, 0, by omega, s', .refl _,
      hown, hattended⟩

theorem loop_attends_one : ∃ s s' : PageDaemon Bool, s.pc true = .waiting ∧
    ∃ k ≤ 6, Alone fewPages false k s s' ∧
      (s'.pc true = .idle ∨ s'.pc false = .idle ∧ 0 < s'.pass false) := by
  obtain ⟨h, s, hr, ht, hp, hfree⟩ := exists_waiting
  obtain ⟨k, hk, s', hrun, hattended, -⟩ := loop_attends hr hp hfree ht
  exact ⟨s, s', ht, k, hk, hrun, hattended.1⟩

end PageDaemon

end FreeBSDEdits
