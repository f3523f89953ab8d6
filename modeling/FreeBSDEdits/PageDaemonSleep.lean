import FreeBSDEdits.PageDaemonProgress

namespace FreeBSDEdits

/-- The pcs that owe a `wakeup` to the page daemons. -/
def PagePc.owesDaemons : PagePc → Bool
  | .waitWakeup | .wakeDaemon => true
  | _ => false

/-- The pcs between the last test of `vm_pageout_wanted` and the sleep. -/
def PagePc.drowsy : PagePc → Bool
  | .loopNeeded | .loopSleep => true
  | _ => false

theorem PagePc.holds_of_drowsy {p : PagePc} (h : p.drowsy = true) : p.holds = true := by
  cases p with
  | loopNeeded => rfl
  | loopSleep => rfl
  | _ => cases h

namespace PageDaemon

variable {U : Type} [DecidableEq U] {s s' : PageDaemon U} {u v w : U} {p : PagePc}
  {c : FreeTargets U} {n : Nat} {h : List (PageDaemonLabel U × Bool)} {l : PageDaemonLabel U}
  {r r' : Bool}

/-- `pagedaemon_wakeup` set the flag while `w` was between its test and its sleep, and `w` has not
come around the loop since. -/
def Overlooked (c : FreeTargets U) (n : Nat) (h : List (PageDaemonLabel U × Bool)) (w : U) : Prop :=
  ∃ later u r earlier s, h = later ++ (.run u, r) :: earlier ∧ Run c n earlier s ∧
    s.pc u = .wakeWanted ∧ (s.pc w).drowsy = true ∧ ∀ e ∈ later, ∀ met, e.1 ≠ .scanned w met

theorem Overlooked.cons (ho : Overlooked c n h w) (hl : ∀ met, l ≠ .scanned w met) :
    Overlooked c n ((l, r) :: h) w := by
  obtain ⟨later, u, r₁, earlier, s, rfl, hr, hu, hw, hlater⟩ := ho
  refine ⟨(l, r) :: later, u, r₁, earlier, s, rfl, hr, hu, hw, ?_⟩
  exact List.forall_mem_cons.mpr ⟨hl, hlater⟩

/-- What an access does to `vm_pageout_wanted` and to those who sleep on it or are about to. -/
structure Access (s s' : PageDaemon U) (u : U) (p : PagePc) : Prop where
  self : s'.pc u = p
  others : ∀ v, v ≠ u → s'.pc v = s.pc v ∨ s'.pc v = .idle ∧ (s.pc v).owesDaemons = false
  wanted : s'.vmPageoutWanted = true → s.vmPageoutWanted = true ∨
    p.owesDaemons = true ∧ (s.pc u = .wakeWanted ∨ (s.pc u).holds = true)
  paid : (s.pc u).owesDaemons = true → ∀ v, s'.pc v ≠ .asleep
  drowsy : p.drowsy = true ∨ p = .asleep → s'.vmPageoutWanted = true →
    (s.pc u).drowsy = true ∧ s.vmPageoutWanted = true

namespace Access

theorem others_of_update (hpc : s'.pc = Function.update s.pc u p) (hv : v ≠ u) :
    s'.pc v = s.pc v ∨ s'.pc v = .idle ∧ (s.pc v).owesDaemons = false := by
  rw [hpc, Function.update_of_ne hv]
  exact .inl rfl

theorem others_of_wakeup (channel : PagePc) (hc : channel.owesDaemons = false)
    (hpc : s'.pc = Function.update (s.wakeup channel).pc u p) (hv : v ≠ u) :
    s'.pc v = s.pc v ∨ s'.pc v = .idle ∧ (s.pc v).owesDaemons = false := by
  rw [hpc, Function.update_of_ne hv, wakeup_pc]
  split
  next hch => exact .inr ⟨rfl, hch ▸ hc⟩
  next => exact .inl rfl

theorem of_goto {q : PagePc} (hpc : s'.pc = Function.update s.pc u p)
    (hw : s'.vmPageoutWanted = true → s.vmPageoutWanted = true) (hq : s.pc u = q)
    (hq' : q.owesDaemons = false) (hd : p.drowsy = false) (hp : p ≠ .asleep) : Access s s' u p where
  self := by rw [hpc, Function.update_self]
  others _ := others_of_update hpc
  wanted h := .inl (hw h)
  paid h := by
    rw [hq, hq'] at h
    cases h
  drowsy h := by
    rw [hd] at h
    exact absurd h (by simp [hp])

theorem of_wakeup (channel : PagePc) {q : PagePc} (hc : channel.owesDaemons = false)
    (hpc : s'.pc = Function.update (s.wakeup channel).pc u p)
    (hw : s'.vmPageoutWanted = s.vmPageoutWanted) (hq : s.pc u = q) (hq' : q.owesDaemons = false)
    (hd : p.drowsy = false) (hp : p ≠ .asleep) : Access s s' u p where
  self := by rw [hpc, Function.update_self]
  others _ := others_of_wakeup channel hc hpc
  wanted h := .inl (hw ▸ h)
  paid h := by
    rw [hq, hq'] at h
    cases h
  drowsy h := by
    rw [hd] at h
    exact absurd h (by simp [hp])

/-- The flag is set, and the wakeup is still to make. -/
theorem of_request {q : PagePc} (hpc : s'.pc = Function.update s.pc u p) (hq : s.pc u = q)
    (hq' : q = .wakeWanted ∨ q.holds = true) (hno : q.owesDaemons = false)
    (ho : p.owesDaemons = true) : Access s s' u p where
  self := by rw [hpc, Function.update_self]
  others _ := others_of_update hpc
  wanted _ := .inr ⟨ho, hq ▸ hq'⟩
  paid h := by
    rw [hq, hno] at h
    cases h
  drowsy h := by
    cases p with
    | waitWakeup => simp [PagePc.drowsy] at h
    | wakeDaemon => simp [PagePc.drowsy] at h
    | _ => cases ho

/-- Whoever sleeps on the flag is woken. -/
theorem of_wakeupDaemons (hd : p.drowsy = false) (hp : p ≠ .asleep) :
    Access s (s.wakeupDaemons.goto u p) u p where
  self := Function.update_self ..
  others _ := others_of_wakeup .asleep rfl rfl
  wanted h := .inl h
  paid _ := goto_ne (s := s.wakeupDaemons) (Heard.wakeup_pc_ne (by decide)) hp
  drowsy h := by
    rw [hd] at h
    exact absurd h (by simp [hp])

/-- A step towards the sleep, with the flag as it is. -/
theorem of_drowsy {q : PagePc} (hpc : s'.pc = Function.update s.pc u p)
    (hw : s'.vmPageoutWanted = s.vmPageoutWanted) (hq : s.pc u = q) (hq' : q.owesDaemons = false)
    (hd : s.vmPageoutWanted = false ∨ q.drowsy = true) : Access s s' u p where
  self := by rw [hpc, Function.update_self]
  others _ := others_of_update hpc
  wanted h := .inl (hw ▸ h)
  paid h := by
    rw [hq, hq'] at h
    cases h
  drowsy _ h := by
    rw [hw] at h
    rcases hd with hoff | hd
    · rw [hoff] at h
      cases h
    · exact ⟨hq ▸ hd, h⟩

end Access

theorem access_of_some {t : PageDaemon U} (hstep : some (t.goto u p, r) = some (s', r'))
    (ha : Access s (t.goto u p) u p) : ∃ p, Access s s' u p := by
  obtain ⟨rfl, -⟩ := Prod.mk.inj (Option.some.inj hstep)
  exact ⟨p, ha⟩

theorem vmPageAlloc_access {reqClass : AllocClass} {wait : Bool}
    (hp : s.pc u = .alloc reqClass wait) :
    ∃ p, Access s (vmPageAlloc c s u reqClass wait).1 u p := by
  rw [vmPageAlloc]
  generalize (if c.pageproc u = true ∧ reqClass ≠ .interrupt then AllocClass.system
    else reqClass) = class'
  dsimp only
  split
  next =>
    dsimp only
    cases c.vmPagingNeeded (s.vFreeCount - 1) with
    | true => exact ⟨.wakeTest, .of_goto rfl id hp rfl rfl (by decide)⟩
    | false => exact ⟨.idle, .of_goto rfl id hp rfl rfl (by decide)⟩
  next =>
    split
    next => exact ⟨.vmWait, .of_goto rfl id hp rfl rfl (by decide)⟩
    next => exact ⟨.wakeTest, .of_goto rfl id hp rfl rfl (by decide)⟩

theorem vmPageFree_access {m : Nat} (hp : s.pc u = .free m) :
    Access s (vmPageFree c s u m) u .freeWakeup := by
  rw [vmPageFree]
  dsimp only
  split
  next => exact .of_wakeup .pageprocWaiting rfl rfl rfl hp rfl rfl (by decide)
  next => exact .of_goto rfl id hp rfl rfl (by decide)

/-- The accesses from the last test of `vm_pageout_wanted` to the sleep. -/
theorem run_access_drowsy (hp : s.pc u = .loopReceive ∨ s.pc u = .loopNeeded ∨ s.pc u = .loopSleep)
    (hstep : s.run c u = some (s', r)) : ∃ p, Access s s' u p := by
  rcases hp with hp | hp | hp <;> simp only [run, hp] at hstep
  · split at hstep
    next => exact access_of_some hstep (.of_goto rfl id hp rfl rfl (by decide))
    next hoff =>
      exact access_of_some hstep (.of_drowsy rfl rfl hp rfl (.inl (Bool.eq_false_iff.mpr hoff)))
  · split at hstep
    next => exact access_of_some hstep (.of_goto rfl id hp rfl rfl (by decide))
    next => exact access_of_some hstep (.of_drowsy rfl rfl hp rfl (.inr rfl))
  · exact access_of_some hstep (.of_drowsy rfl rfl hp rfl (.inr rfl))

theorem run_access (hstep : s.run c u = some (s', r)) : ∃ p, Access s s' u p := by
  cases hp : s.pc u with
  | idle => simp [run, hp] at hstep
  | pageprocWaiting => simp [run, hp] at hstep
  | waiting => simp [run, hp] at hstep
  | asleep => simp [run, hp] at hstep
  | alloc reqClass wait =>
    simp only [run, hp, Option.some.injEq] at hstep
    have ha := vmPageAlloc_access (c := c) hp
    rwa [hstep] at ha
  | free m =>
    simp only [run, hp] at hstep
    obtain ⟨rfl, -⟩ := Prod.mk.inj (Option.some.inj hstep)
    exact ⟨_, vmPageFree_access hp⟩
  | freeWakeup =>
    simp only [run, hp] at hstep
    split at hstep <;> exact access_of_some hstep (.of_goto rfl id hp rfl rfl (by decide))
  | freeWaiters =>
    simp only [run, hp] at hstep
    exact access_of_some hstep
      (.of_wakeup .waiting rfl rfl rfl hp rfl rfl (by decide))
  | vmWait =>
    simp only [run, hp] at hstep
    split at hstep <;> exact access_of_some hstep (.of_goto rfl id hp rfl rfl (by decide))
  | pageprocSleep =>
    simp only [run, hp] at hstep
    exact access_of_some hstep (.of_goto rfl id hp rfl rfl (by decide))
  | waitTest =>
    simp only [run, hp] at hstep
    split at hstep <;> exact access_of_some hstep (.of_goto rfl id hp rfl rfl (by decide))
  | waitWanted =>
    simp only [run, hp] at hstep
    exact access_of_some hstep (.of_request rfl hp (.inr rfl) rfl rfl)
  | waitWakeup =>
    simp only [run, hp] at hstep
    exact access_of_some hstep (.of_wakeupDaemons rfl (by decide))
  | waitNeeded =>
    simp only [run, hp] at hstep
    exact access_of_some hstep (.of_goto rfl id hp rfl rfl (by decide))
  | waitSleep =>
    simp only [run, hp] at hstep
    exact access_of_some hstep (.of_goto rfl id hp rfl rfl (by decide))
  | wakeTest =>
    simp only [run, hp] at hstep
    split at hstep <;> exact access_of_some hstep (.of_goto rfl id hp rfl rfl (by decide))
  | wakeWanted =>
    simp only [run, hp] at hstep
    exact access_of_some hstep (.of_request rfl hp (.inl rfl) rfl rfl)
  | wakeDaemon =>
    simp only [run, hp] at hstep
    exact access_of_some hstep (.of_wakeupDaemons rfl (by decide))
  | lock =>
    simp only [run, hp] at hstep
    split at hstep
    next => exact access_of_some hstep (.of_goto rfl id hp rfl rfl (by decide))
    next => cases hstep
  | loopTest =>
    simp only [run, hp] at hstep
    split at hstep <;> exact access_of_some hstep (.of_goto rfl id hp rfl rfl (by decide))
  | loopWaiters =>
    simp only [run, hp] at hstep
    exact access_of_some hstep
      (.of_wakeup .waiting rfl rfl rfl hp rfl rfl (by decide))
  | loopWanted =>
    simp only [run, hp] at hstep
    split at hstep <;> exact access_of_some hstep (.of_goto rfl id hp rfl rfl (by decide))
  | loopClear =>
    simp only [run, hp] at hstep
    exact access_of_some hstep
      (.of_goto rfl (fun h => Bool.noConfusion h) hp rfl rfl (by decide))
  | loopReceive => exact run_access_drowsy (.inl hp) hstep
  | loopNeeded => exact run_access_drowsy (.inr (.inl hp)) hstep
  | loopSleep => exact run_access_drowsy (.inr (.inr hp)) hstep

/-- Why a page daemon may sleep although `vm_pageout_wanted` is set. -/
structure Answered (c : FreeTargets U) (n : Nat) (h : List (PageDaemonLabel U × Bool))
    (s : PageDaemon U) : Prop where
  drowsy : ∀ w, (s.pc w).drowsy = true → s.vmPageoutWanted = true → Overlooked c n h w
  asleep : ∀ w, s.pc w = .asleep → s.vmPageoutWanted = true →
    (∃ u, (s.pc u).owesDaemons = true) ∨ Overlooked c n h w

namespace Answered

theorem init (c : FreeTargets U) (n : Nat) : Answered c n [] (start c n) :=
  ⟨fun _ _ hw => Bool.noConfusion hw, fun _ _ hw => Bool.noConfusion hw⟩

theorem access (hs : Answered c n h s) (hr : Run c n h s) (ha : Access s s' u p)
    (hrequest : s.pc u = .wakeWanted → l = .run u)
    (hl : ∀ w met, l = .scanned w met → w = u ∧ p = .lock) : Answered c n ((l, r) :: h) s' := by
  have hkeep : ∀ w, w ≠ u → Overlooked c n h w → Overlooked c n ((l, r) :: h) w :=
    fun w hw ho => ho.cons fun met he => hw (hl w met he).1
  -- The thread itself comes no nearer to its sleep while the flag is set, unless overlooked.
  have hself : p.drowsy = true ∨ p = .asleep → s'.vmPageoutWanted = true →
      Overlooked c n ((l, r) :: h) u := by
    intro hd hw
    obtain ⟨hdrowsy, hold⟩ := ha.drowsy hd hw
    refine (hs.drowsy u hdrowsy hold).cons fun met he => ?_
    rw [(hl u met he).2] at hd
    rcases hd with hd | hd <;> cases hd
  refine ⟨fun w hw hwanted => ?_, fun w hw hwanted => ?_⟩
  · by_cases hwu : w = u
    · rw [hwu, ha.self] at hw
      exact hwu ▸ hself (.inl hw) hwanted
    · rcases ha.others w hwu with he | ⟨he, -⟩
      · rw [he] at hw
        rcases ha.wanted hwanted with hold | ⟨-, hq | hin⟩
        · exact hkeep w hwu (hs.drowsy w hw hold)
        · exact ⟨[], u, r, h, s, by rw [hrequest hq]; rfl, hr, hq, hw, by simp⟩
        · exact absurd (hr.heard.owned.unique hin (PagePc.holds_of_drowsy hw)) hwu
      · rw [he] at hw
        cases hw
  · by_cases hwu : w = u
    · rw [hwu, ha.self] at hw
      exact .inr (hwu ▸ hself (.inr hw) hwanted)
    · rcases ha.others w hwu with he | ⟨he, -⟩
      · rw [he] at hw
        rcases ha.wanted hwanted with hold | ⟨howes, -⟩
        · rcases hs.asleep w hw hold with ⟨v, hv⟩ | ho
          · have hvu : v ≠ u := by
              intro hvu
              refine ha.paid (hvu ▸ hv) w ?_
              rw [he, hw]
            rcases ha.others v hvu with hv' | ⟨-, hno⟩
            · exact .inl ⟨v, by rw [hv']; exact hv⟩
            · rw [hno] at hv
              cases hv
          · exact .inr (hkeep w hwu ho)
        · exact .inl ⟨u, by rw [ha.self]; exact howes⟩
      · rw [he] at hw
        cases hw

/-- A step that leaves the flag alone and only wakes threads that wait for pages. -/
theorem wakeup (hs : Answered c n h s) : Answered c n ((.oomWakeup, r) :: h) (s.wakeup .waiting) := by
  have hback : ∀ w q, q ≠ .idle → (s.wakeup .waiting).pc w = q → s.pc w = q := by
    intro w q hq hw
    rw [wakeup_pc] at hw
    split at hw
    next => exact absurd hw.symm hq
    next => exact hw
  refine ⟨fun w hw hwanted => ?_, fun w hw hwanted => ?_⟩
  · have hne : (s.wakeup .waiting).pc w ≠ .idle := by
      intro he
      rw [he] at hw
      cases hw
    rw [← hback w _ hne rfl] at hw
    exact (hs.drowsy w hw hwanted).cons (by simp)
  · refine (hs.asleep w (hback w _ (by decide) hw) hwanted).imp (fun ⟨v, hv⟩ => ⟨v, ?_⟩)
      (fun ho => ho.cons (by simp))
    have hv' : s.pc v ≠ .waiting := by
      intro he
      rw [he] at hv
      cases hv
    rw [wakeup_pc, if_neg hv']
    exact hv

end Answered

theorem enter_access (hstep : s.enter u p = some (s', r)) (hd : p.drowsy = false)
    (hp : p ≠ .asleep) : s.pc u = .idle ∧ Access s s' u p := by
  rw [enter] at hstep
  split at hstep
  next hidle =>
    obtain ⟨rfl, -⟩ := Prod.mk.inj (Option.some.inj hstep)
    exact ⟨hidle.1, .of_goto rfl id hidle.1 rfl hd hp⟩
  next => cases hstep

theorem Answered.step (hs : Answered c n h s) (hr : Run c n h s)
    (hstep : s.step c l = some (s', r)) : Answered c n ((l, r) :: h) s' := by
  cases l with
  | run u =>
    obtain ⟨p, ha⟩ := run_access (s := s) hstep
    exact hs.access hr ha (fun _ => rfl) (by simp)
  | alloc u reqClass wait =>
    obtain ⟨hp, ha⟩ := enter_access (s := s) hstep rfl (by simp)
    exact hs.access hr ha (by simp [hp]) (by simp)
  | free u m =>
    obtain ⟨hp, ha⟩ := enter_access (s := s) hstep rfl (by simp)
    exact hs.access hr ha (by simp [hp]) (by simp)
  | vmWait u =>
    obtain ⟨hp, ha⟩ := enter_access (s := s) hstep rfl (by decide)
    exact hs.access hr ha (by simp [hp]) (by simp)
  | vmWaitpfault u =>
    obtain ⟨hp, ha⟩ := enter_access (s := s) hstep rfl (by decide)
    exact hs.access hr ha (by simp [hp]) (by simp)
  | pagedaemonWakeup u =>
    simp only [PageDaemon.step, Option.ite_none_right_eq_some, Option.some.injEq,
      Prod.mk.injEq] at hstep
    obtain ⟨hp, rfl, -⟩ := hstep
    exact hs.access hr (.of_goto rfl id hp rfl rfl (by decide)) (by simp [hp]) (by simp)
  | scanned u targetMet =>
    simp only [PageDaemon.step, Option.ite_none_right_eq_some, Option.some.injEq,
      Prod.mk.injEq] at hstep
    obtain ⟨hp, rfl, -⟩ := hstep
    refine hs.access hr (u := u) (p := .lock) (.of_goto rfl id hp.1 rfl rfl (by decide))
      (by simp [hp.1]) fun w met he => ⟨?_, rfl⟩
    cases he
    rfl
  | timeout u =>
    simp only [PageDaemon.step, Option.ite_none_right_eq_some, Option.some.injEq,
      Prod.mk.injEq] at hstep
    obtain ⟨hp, rfl, -⟩ := hstep
    exact hs.access hr (u := u) (p := .idle) (.of_goto rfl id hp rfl rfl (by decide))
      (by simp [hp]) (by simp)
  | oomWakeup =>
    obtain ⟨rfl, -⟩ := Prod.mk.inj (Option.some.inj hstep)
    exact hs.wakeup

theorem Run.answered (hr : Run c n h s) : Answered c n h s :=
  GuardedRun.invariant (P := fun h s => Answered c n h s) (Answered.init c n)
    (fun _ _ _ _ _ hr hs _ hstep => hs.step hr hstep) hr

/-- A page daemon sleeps only while no thread waits for pages, and a request made meanwhile has
its `wakeup` still to come, unless it was an advisory one that this daemon slept through. -/
theorem sleep_unneeded (hr : Run c n h s) (hp : s.pc w = .asleep) :
    s.vmPagesNeeded = false ∧ (s.vmPageoutWanted = true →
      (∃ u, (s.pc u).owesDaemons = true) ∨ Overlooked c n h w) := by
  refine ⟨?_, hr.answered.asleep w hp⟩
  rcases hn : s.vmPagesNeeded with _ | _
  · rfl
  · exact absurd hp (hr.heard.needed hn w)

/-- The advisory wakeup comes after the daemon's test and before its sleep. -/
theorem sleep_unneeded_overlooked : ∃ h s, Run fewPages 2 h s ∧ s.pc false = .asleep ∧
    s.vmPagesNeeded = false ∧ s.vmPageoutWanted = true ∧ (∀ u, (s.pc u).owesDaemons = false) ∧
    Overlooked fewPages 2 h false := by
  obtain ⟨h, s, hr, hc⟩ := run_of_replay fewPages 2
    (List.replicate 4 (.run false) ++ .pagedaemonWakeup true :: List.replicate 3 (.run true) ++
      List.replicate 2 (.run false))
    (fun _ s => s.pc false = .asleep ∧ s.vmPageoutWanted = true ∧
      ∀ u, (s.pc u).owesDaemons = false) (by decide +kernel)
  obtain ⟨hp, hw, hno⟩ := of_decide_eq_true hc
  obtain ⟨hneeded, hwhy⟩ := sleep_unneeded hr hp
  refine ⟨h, s, hr, hp, hneeded, hw, hno, (hwhy hw).resolve_left fun ⟨u, hu⟩ => ?_⟩
  rw [hno u] at hu
  cases hu

end PageDaemon

end FreeBSDEdits
