import FreeBSDEdits.PageDaemon

namespace FreeBSDEdits

/-- The pcs that owe a `wakeup` to the threads waiting for pages. -/
def PagePc.owesWaiters : PagePc → Bool
  | .freeWaiters | .loopWaiters => true
  | _ => false

namespace PageDaemon

variable {U : Type} {s s' : PageDaemon U} {u : U} {p : PagePc}

/-- The mutex is held exactly by the thread whose pc is inside it. -/
def Owned (s : PageDaemon U) : Prop := ∀ u, s.owner = some u ↔ (s.pc u).holds = true

theorem wakeup_pc (s : PageDaemon U) (channel : PagePc) (v : U) :
    (s.wakeup channel).pc v = if s.pc v = channel then .idle else s.pc v := rfl

namespace Owned

theorem unique (hs : s.Owned) {v : U} (hu : (s.pc u).holds = true) (hv : (s.pc v).holds = true) :
    v = u :=
  Option.some.inj (((hs v).mpr hv).symm.trans ((hs u).mpr hu))

theorem stay (hs : s.Owned) (howner : s'.owner = s.owner)
    (hpc : ∀ v, (s'.pc v).holds = (s.pc v).holds) : s'.Owned := by
  intro v
  rw [howner, hpc]
  exact hs v

theorem wakeup (hs : s.Owned) {channel : PagePc} (hc : channel.holds = false) :
    (s.wakeup channel).Owned := by
  refine hs.stay rfl fun v => ?_
  rw [wakeup_pc]
  split
  next he =>
    rw [he, hc]
    rfl
  next => rfl

end Owned

variable [DecidableEq U]

@[simp] theorem goto_pc : (s.goto u p).pc = Function.update s.pc u p := rfl
@[simp] theorem goto_owner : (s.goto u p).owner = s.owner := rfl
@[simp] theorem goto_needed : (s.goto u p).vmPagesNeeded = s.vmPagesNeeded := rfl
@[simp] theorem goto_wanted : (s.goto u p).vmPageoutWanted = s.vmPageoutWanted := rfl
@[simp] theorem goto_pageprocNeeded :
    (s.goto u p).vmPageoutPagesNeeded = s.vmPageoutPagesNeeded := rfl

namespace Owned

theorem goto (hs : s.Owned) (hp : p.holds = (s.pc u).holds) : (s.goto u p).Owned := by
  refine hs.stay rfl fun v => ?_
  rw [goto_pc]
  by_cases hv : v = u
  · rw [hv, Function.update_self, hp]
  · rw [Function.update_of_ne hv]

theorem acquire (hs : s.Owned) (hnone : s.owner = none) (hp : p.holds = true) :
    ((s.acquire u).goto u p).Owned := by
  intro v
  change some u = some v ↔ _
  rw [goto_pc]
  by_cases hv : v = u
  · rw [hv, Function.update_self]
    exact ⟨fun _ => hp, fun _ => rfl⟩
  · rw [Function.update_of_ne hv]
    constructor
    · exact fun he => absurd (Option.some.inj he).symm hv
    · intro hh
      have hown := (hs v).mpr hh
      rw [hnone] at hown
      cases hown

theorem release (hs : s.Owned) (hu : (s.pc u).holds = true) (hp : p.holds = false) :
    (s.release.goto u p).Owned := by
  intro v
  change none = some v ↔ _
  rw [goto_pc]
  by_cases hv : v = u
  · rw [hv, Function.update_self, hp]
    simp
  · rw [Function.update_of_ne hv]
    constructor
    · intro he
      cases he
    · exact fun hh => absurd (hs.unique hu hh) hv

end Owned

/-- Who sleeps, what the flags say of it, and who is about to wake them. -/
structure Heard (s : PageDaemon U) : Prop where
  owned : s.Owned
  needed : s.vmPagesNeeded = true → ∀ w, s.pc w ≠ .asleep
  about : ∀ v, s.pc v = .waitNeeded → ∀ w, s.pc w ≠ .asleep
  sleepy : ∀ v, s.pc v = .waitSleep → s.vmPagesNeeded = true
  drowsy : ∀ v, s.pc v = .loopSleep → s.vmPagesNeeded = false
  waiting : ∀ v, s.pc v = .waiting → s.vmPagesNeeded = true ∨ ∃ w, (s.pc w).owesWaiters = true
  pageproc : ∀ v, s.pc v = .pageprocSleep ∨ s.pc v = .pageprocWaiting →
    s.vmPageoutPagesNeeded = true

namespace Heard

omit [DecidableEq U] in
theorem init (c : FreeTargets U) (n : Nat) : (start c n).Heard := by
  have hpc : ∀ v, (start c n).pc v = .lock ∨ (start c n).pc v = .idle := by
    intro v
    rcases hw : c.worker v with _ | _
    · exact .inr (by simp [start, hw])
    · exact .inl (by simp [start, hw])
  have hne : ∀ v p, p ≠ .lock → p ≠ .idle → (start c n).pc v ≠ p := by
    intro v p hl hi he
    rcases hpc v with h | h
    · exact hl (he.symm.trans h)
    · exact hi (he.symm.trans h)
  refine ⟨fun v => ?_, fun h => ?_, fun v h => ?_, fun v h => ?_, fun v h => ?_, fun v h => ?_,
    fun v h => ?_⟩
  · constructor
    · intro h
      cases h
    · intro h
      rcases hpc v with he | he <;> rw [he] at h <;> cases h
  · cases h
  · exact absurd h (hne v _ (by decide) (by decide))
  · exact absurd h (hne v _ (by decide) (by decide))
  · exact absurd h (hne v _ (by decide) (by decide))
  · exact absurd h (hne v _ (by decide) (by decide))
  · rcases h with h | h <;> exact absurd h (hne v _ (by decide) (by decide))

/-- What has to hold for a thread to come to a pc that others depend on. -/
def Brings (s s' : PageDaemon U) (u : U) : PagePc → Prop
  | .waitNeeded => ∀ w, s.pc w ≠ .asleep
  | .waitSleep | .waiting => s'.vmPagesNeeded = true
  | .pageprocSleep | .pageprocWaiting => s'.vmPageoutPagesNeeded = true
  | .loopSleep => s'.vmPagesNeeded = false
  | .asleep => s'.vmPagesNeeded = false ∧ (s.pc u).holds = true
  | _ => True

/-- A step of one thread, with what it must bring to the pcs that others depend on. -/
structure Moves (s s' : PageDaemon U) (u : U) (p : PagePc) : Prop where
  owned : s'.Owned
  pc : s'.pc = Function.update s.pc u p
  needed : s'.vmPagesNeeded = s.vmPagesNeeded ∨
    (s'.vmPagesNeeded = true ∧ (s.pc u).holds = true ∧ ∀ w, s.pc w ≠ .asleep) ∨
    (s'.vmPagesNeeded = false ∧ (s.pc u).holds = true ∧ p.owesWaiters = true)
  pageproc : s'.vmPageoutPagesNeeded = s.vmPageoutPagesNeeded ∨ s'.vmPageoutPagesNeeded = true ∨
    ∀ v, s'.pc v ≠ .pageprocSleep ∧ s'.pc v ≠ .pageprocWaiting
  waiters : (s.pc u).owesWaiters = true → ∀ v, s.pc v ≠ .waiting
  new : Brings s s' u p

theorem moves (hs : s.Heard) (hm : Moves s s' u p) : s'.Heard := by
  have hother : ∀ v, v ≠ u → s'.pc v = s.pc v := by
    intro v hv
    rw [hm.pc, Function.update_of_ne hv]
  have hself : s'.pc u = p := by rw [hm.pc, Function.update_self]
  have hnew := hm.new
  have hcases : ∀ v q, s'.pc v = q → v = u ∧ p = q ∨ v ≠ u ∧ s.pc v = q := by
    intro v q hv
    by_cases hvu : v = u
    · exact .inl ⟨hvu, by rw [← hself, ← hvu, hv]⟩
    · exact .inr ⟨hvu, by rw [← hother v hvu, hv]⟩
  refine ⟨hm.owned, fun hn w hw => ?_, fun v hv w hw => ?_, fun v hv => ?_, fun v hv => ?_,
    fun v hv => ?_, fun v hv => ?_⟩
  · rcases hcases w _ hw with ⟨-, rfl⟩ | ⟨-, hw⟩
    · rw [hnew.1] at hn
      cases hn
    · rcases hm.needed with hkeep | ⟨-, -, hnone⟩ | ⟨hoff, -⟩
      · exact hs.needed (hkeep ▸ hn) w hw
      · exact hnone w hw
      · rw [hoff] at hn
        cases hn
  · rcases hcases w _ hw with ⟨hwu, hpa⟩ | ⟨-, hw⟩
    · -- Both would be inside the mutex.
      rcases hcases v _ hv with ⟨-, hpn⟩ | ⟨hvu, hv⟩
      · rw [hpa] at hpn
        cases hpn
      · rw [hpa] at hnew
        exact hvu (hs.owned.unique hnew.2 (by rw [hv]; rfl))
    · rcases hcases v _ hv with ⟨-, rfl⟩ | ⟨-, hv⟩
      · exact hnew w hw
      · exact hs.about v hv w hw
  · rcases hcases v _ hv with ⟨-, rfl⟩ | ⟨hvu, hv⟩
    · exact hnew
    · rcases hm.needed with hkeep | ⟨hon, -⟩ | ⟨-, hin, -⟩
      · rw [hkeep]
        exact hs.sleepy v hv
      · exact hon
      · exact absurd (hs.owned.unique hin (by rw [hv]; rfl)) hvu
  · rcases hcases v _ hv with ⟨-, rfl⟩ | ⟨hvu, hv⟩
    · exact hnew
    · rcases hm.needed with hkeep | ⟨-, hin, -⟩ | ⟨hoff, -⟩
      · rw [hkeep]
        exact hs.drowsy v hv
      · exact absurd (hs.owned.unique hin (by rw [hv]; rfl)) hvu
      · exact hoff
  · rcases hcases v _ hv with ⟨-, rfl⟩ | ⟨hvu, hv⟩
    · exact .inl hnew
    · rcases hm.needed with hkeep | ⟨hon, -⟩ | ⟨-, -, howes⟩
      · rcases hs.waiting v hv with hn | ⟨w, hw⟩
        · exact .inl (hkeep ▸ hn)
        · have hwu : w ≠ u := fun he => hm.waiters (he ▸ hw) v hv
          exact .inr ⟨w, by rw [hother w hwu]; exact hw⟩
      · exact .inl hon
      · exact .inr ⟨u, by rw [hself]; exact howes⟩
  · rcases hm.pageproc with hkeep | hon | hnone
    · have hall : v = u ∧ (p = .pageprocSleep ∨ p = .pageprocWaiting) ∨
          (s.pc v = .pageprocSleep ∨ s.pc v = .pageprocWaiting) := by
        rcases hv with hv | hv
        · exact (hcases v _ hv).imp (And.imp_right .inl) (fun h => .inl h.2)
        · exact (hcases v _ hv).imp (And.imp_right .inr) (fun h => .inr h.2)
      rcases hall with ⟨-, rfl | rfl⟩ | hv
      · exact hnew
      · exact hnew
      · rw [hkeep]
        exact hs.pageproc v hv
    · exact hon
    · exact absurd hv (not_or.mpr (hnone v))

omit [DecidableEq U] in
/-- A `wakeup` leaves everything but the sleepers as it is. -/
theorem wakeup (hs : s.Heard) (channel : PagePc) (hh : channel.holds = false)
    (hw : channel.owesWaiters = false) : (s.wakeup channel).Heard := by
  have hback : ∀ v q, q ≠ .idle → (s.wakeup channel).pc v = q → s.pc v = q := by
    intro v q hq hv
    rw [wakeup_pc] at hv
    split at hv
    next => exact absurd hv.symm hq
    next => exact hv
  have hkeep : ∀ v, s.pc v ≠ channel → (s.wakeup channel).pc v = s.pc v := by
    intro v hv
    rw [wakeup_pc, if_neg hv]
  refine ⟨hs.owned.wakeup hh, fun hn v hv => ?_, fun v hv w hwv => ?_, fun v hv => ?_,
    fun v hv => ?_, fun v hv => ?_, fun v hv => ?_⟩
  · exact hs.needed hn v (hback v _ (by decide) hv)
  · exact hs.about v (hback v _ (by decide) hv) w (hback w _ (by decide) hwv)
  · exact hs.sleepy v (hback v _ (by decide) hv)
  · exact hs.drowsy v (hback v _ (by decide) hv)
  · refine (hs.waiting v (hback v _ (by decide) hv)).imp_right fun ⟨w, ho⟩ => ⟨w, ?_⟩
    rw [hkeep w fun he => by rw [he, hw] at ho; cases ho]
    exact ho
  · exact hs.pageproc v (hv.imp (hback v _ (by decide)) (hback v _ (by decide)))

/-- The `wakeup` a thread owes has nobody to wake any more. -/
def Paid (s : PageDaemon U) (u : U) : Prop :=
  (s.pc u).owesWaiters = true → ∀ v, s.pc v ≠ .waiting

omit [DecidableEq U] in
theorem paid (hp : s.pc u = p) (hw : p.owesWaiters = false) : Paid s u := by
  intro h
  rw [hp, hw] at h
  cases h

theorem keep (hs : s.Heard) (hown : s'.Owned) (hpc : s'.pc = Function.update s.pc u p)
    (hflags : s'.vmPagesNeeded = s.vmPagesNeeded ∧
      s'.vmPageoutPagesNeeded = s.vmPageoutPagesNeeded)
    (hpaid : Paid s u) (hnew : Brings s s' u p) : s'.Heard :=
  hs.moves ⟨hown, hpc, .inl hflags.1, .inl hflags.2, hpaid, hnew⟩

variable {c : FreeTargets U} {r : Bool}

theorem vmPageAlloc_heard (hs : s.Heard) {reqClass : AllocClass} {wait : Bool}
    (hp : s.pc u = .alloc reqClass wait) : (vmPageAlloc c s u reqClass wait).1.Heard := by
  have hin : (s.pc u).holds = true := by rw [hp]; rfl
  have hpaid := paid hp rfl
  rw [vmPageAlloc]
  generalize (if c.pageproc u = true ∧ reqClass ≠ .interrupt then AllocClass.system
    else reqClass) = class'
  dsimp only
  split
  next =>
    dsimp only
    cases c.vmPagingNeeded (s.vFreeCount - 1) with
    | true => exact hs.keep (hs.owned.release hin rfl) rfl ⟨rfl, rfl⟩ hpaid trivial
    | false => exact hs.keep (hs.owned.release hin rfl) rfl ⟨rfl, rfl⟩ hpaid trivial
  next =>
    split
    next => exact hs.keep (hs.owned.goto (hin ▸ rfl)) rfl ⟨rfl, rfl⟩ hpaid trivial
    next => exact hs.keep (hs.owned.release hin rfl) rfl ⟨rfl, rfl⟩ hpaid trivial

omit [DecidableEq U] in
theorem wakeup_pc_of_ne {channel : PagePc} {v : U} (hv : s.pc v ≠ channel) :
    (s.wakeup channel).pc v = s.pc v := by
  rw [wakeup_pc, if_neg hv]

omit [DecidableEq U] in
theorem wakeup_pc_ne {channel : PagePc} (hne : channel ≠ .idle) (v : U) :
    (s.wakeup channel).pc v ≠ channel := by
  rw [wakeup_pc]
  split
  next => exact hne.symm
  next h => exact h

theorem vmPageFree_heard (hs : s.Heard) {n : Nat} (hp : s.pc u = .free n) :
    (vmPageFree c s u n).Heard := by
  have hin : (s.pc u).holds = true := by rw [hp]; rfl
  rw [vmPageFree]
  dsimp only
  split
  next =>
    have hw := hs.wakeup .pageprocWaiting rfl rfl
    have hpw : (s.wakeup .pageprocWaiting).pc u = .free n :=
      (wakeup_pc_of_ne (by rw [hp]; simp)).trans hp
    have hinw : ((s.wakeup .pageprocWaiting).pc u).holds = true := by rw [hpw]; rfl
    have hpaid := paid hpw rfl
    refine hw.moves (u := u) (p := .freeWakeup) ⟨hw.owned.goto (hinw ▸ rfl), rfl, .inl rfl,
      .inr (.inr fun v => ?_), hpaid, trivial⟩
    change Function.update (s.wakeup .pageprocWaiting).pc u .freeWakeup v ≠ _ ∧
      Function.update (s.wakeup .pageprocWaiting).pc u .freeWakeup v ≠ _
    by_cases hv : v = u
    · rw [hv, Function.update_self]
      decide
    · rw [Function.update_of_ne hv]
      refine ⟨fun hv' => ?_, wakeup_pc_ne (by decide) v⟩
      exact hv (hw.owned.unique hinw (by rw [hv']; rfl))
  next => exact hs.keep (hs.owned.goto (hin ▸ rfl)) rfl ⟨rfl, rfl⟩ (paid hp rfl) trivial

omit [DecidableEq U] in
theorem wakeupDaemons_heard (hs : s.Heard) : s.wakeupDaemons.Heard := by
  obtain ⟨hown, hn, ha, hsl, hd, hwt, hpg⟩ := hs.wakeup .asleep rfl rfl
  exact ⟨hown, hn, ha, hsl, hd, hwt, hpg⟩

/-- The waiters are about to be woken: the flag goes down first. -/
theorem serve_heard (hs : s.Heard) (hin : (s.pc u).holds = true) (hpaid : Paid s u)
    (hh : p.holds = true) (ho : p.owesWaiters = true) :
    ({ s with vmPagesNeeded := false }.goto u p).Heard := by
  have hown : ({ s with vmPagesNeeded := false }.goto u p).Owned := hs.owned.goto (by rw [hin, hh])
  refine hs.moves ⟨hown, rfl, .inr (.inr ⟨rfl, hin, ho⟩), .inl rfl, hpaid, ?_⟩
  cases p with
  | freeWaiters => trivial
  | loopWaiters => trivial
  | _ => cases ho

/-- `vm_page_free_wakeup` -/
theorem freeWakeup_heard (hs : s.Heard) (hp : s.pc u = .freeWakeup ∨ s.pc u = .freeWaiters)
    (hstep : s.run c u = some (s', r)) : s'.Heard := by
  rcases hp with hp | hp <;> simp only [run, hp] at hstep
  · have hin : (s.pc u).holds = true := by rw [hp]; rfl
    split at hstep
    next =>
      obtain ⟨rfl, -⟩ := Prod.mk.inj (Option.some.inj hstep)
      exact hs.serve_heard hin (paid hp rfl) rfl rfl
    next =>
      obtain ⟨rfl, -⟩ := Prod.mk.inj (Option.some.inj hstep)
      exact hs.keep (hs.owned.release hin rfl) rfl ⟨rfl, rfl⟩ (paid hp rfl) trivial
  · obtain ⟨rfl, -⟩ := Prod.mk.inj (Option.some.inj hstep)
    have hw := hs.wakeup .waiting rfl rfl
    have hpw : (s.wakeup .waiting).pc u = .freeWaiters :=
      (wakeup_pc_of_ne (by rw [hp]; decide)).trans hp
    exact hw.keep (hw.owned.release (by rw [hpw]; rfl) rfl) rfl ⟨rfl, rfl⟩
      (fun _ => wakeup_pc_ne (by decide)) trivial

/-- `_vm_wait` by a thread of the page daemon's process -/
theorem pageprocWait_heard (hs : s.Heard) (hp : s.pc u = .vmWait ∨ s.pc u = .pageprocSleep)
    (hstep : s.run c u = some (s', r)) : s'.Heard := by
  rcases hp with hp | hp <;> simp only [run, hp] at hstep
  · have hin : (s.pc u).holds = true := by rw [hp]; rfl
    have hpaid := paid hp rfl
    split at hstep
    next =>
      obtain ⟨rfl, -⟩ := Prod.mk.inj (Option.some.inj hstep)
      exact hs.moves (u := u) (p := .pageprocSleep)
        ⟨hs.owned.goto (hin ▸ rfl), rfl, .inl rfl, .inr (.inl rfl), hpaid, rfl⟩
    next =>
      obtain ⟨rfl, -⟩ := Prod.mk.inj (Option.some.inj hstep)
      exact hs.keep (hs.owned.goto (hin ▸ rfl)) rfl ⟨rfl, rfl⟩ hpaid trivial
  · obtain ⟨rfl, -⟩ := Prod.mk.inj (Option.some.inj hstep)
    exact hs.keep (hs.owned.release (by rw [hp]; rfl) rfl) rfl ⟨rfl, rfl⟩ (paid hp rfl)
      (hs.pageproc u (.inl hp))

/-- `pagedaemon_wait` up to the wakeup of the page daemon -/
theorem waitWakeup_heard (hs : s.Heard)
    (hp : s.pc u = .waitTest ∨ s.pc u = .waitWanted ∨ s.pc u = .waitWakeup)
    (hstep : s.run c u = some (s', r)) : s'.Heard := by
  have hin : (s.pc u).holds = true := by rcases hp with hp | hp | hp <;> rw [hp] <;> rfl
  rcases hp with hp | hp | hp <;> simp only [run, hp] at hstep
  · split at hstep
    next =>
      obtain ⟨rfl, -⟩ := Prod.mk.inj (Option.some.inj hstep)
      exact hs.keep (hs.owned.goto (hin ▸ rfl)) rfl ⟨rfl, rfl⟩ (paid hp rfl) trivial
    next hset =>
      obtain ⟨rfl, -⟩ := Prod.mk.inj (Option.some.inj hstep)
      -- Somebody waits already, so no page daemon sleeps.
      have hneeded : s.vmPagesNeeded = true := by
        rcases hn : s.vmPagesNeeded with _ | _
        · exact absurd (.inr hn) hset
        · rfl
      exact hs.keep (hs.owned.goto (hin ▸ rfl)) rfl ⟨rfl, rfl⟩ (paid hp rfl)
        (hs.needed hneeded)
  · obtain ⟨rfl, -⟩ := Prod.mk.inj (Option.some.inj hstep)
    have hown : ({ s with vmPageoutWanted := true }.goto u .waitWakeup).Owned :=
      hs.owned.goto (by rw [hin]; rfl)
    exact hs.keep hown rfl ⟨rfl, rfl⟩ (paid hp rfl) trivial
  · obtain ⟨rfl, -⟩ := Prod.mk.inj (Option.some.inj hstep)
    have hw := hs.wakeupDaemons_heard
    have hpw : s.wakeupDaemons.pc u = .waitWakeup :=
      (wakeup_pc_of_ne (by rw [hp]; decide)).trans hp
    exact hw.keep (hw.owned.goto (by rw [hpw]; rfl)) rfl ⟨rfl, rfl⟩ (paid hpw rfl)
      (wakeup_pc_ne (by decide))

/-- `pagedaemon_wait` from there to the sleep -/
theorem waitSleep_heard (hs : s.Heard) (hp : s.pc u = .waitNeeded ∨ s.pc u = .waitSleep)
    (hstep : s.run c u = some (s', r)) : s'.Heard := by
  rcases hp with hp | hp <;> simp only [run, hp] at hstep
  · obtain ⟨rfl, -⟩ := Prod.mk.inj (Option.some.inj hstep)
    have hin : (s.pc u).holds = true := by rw [hp]; rfl
    exact hs.moves (u := u) (p := .waitSleep) ⟨hs.owned.goto (by rw [hp]; rfl), rfl,
      .inr (.inl ⟨rfl, hin, hs.about u hp⟩), .inl rfl, paid hp rfl, rfl⟩
  · obtain ⟨rfl, -⟩ := Prod.mk.inj (Option.some.inj hstep)
    exact hs.keep (hs.owned.release (by rw [hp]; rfl) rfl) rfl ⟨rfl, rfl⟩ (paid hp rfl)
      (hs.sleepy u hp)

/-- `pagedaemon_wakeup` -/
theorem pagedaemonWakeup_heard (hs : s.Heard)
    (hp : s.pc u = .wakeTest ∨ s.pc u = .wakeWanted ∨ s.pc u = .wakeDaemon)
    (hstep : s.run c u = some (s', r)) : s'.Heard := by
  have hout : (s.pc u).holds = false := by rcases hp with hp | hp | hp <;> rw [hp] <;> rfl
  rcases hp with hp | hp | hp <;> simp only [run, hp] at hstep
  · have hpaid := paid hp rfl
    split at hstep
    next =>
      obtain ⟨rfl, -⟩ := Prod.mk.inj (Option.some.inj hstep)
      exact hs.keep (hs.owned.goto (hout ▸ rfl)) rfl ⟨rfl, rfl⟩ hpaid trivial
    next =>
      obtain ⟨rfl, -⟩ := Prod.mk.inj (Option.some.inj hstep)
      exact hs.keep (hs.owned.goto (hout ▸ rfl)) rfl ⟨rfl, rfl⟩ hpaid trivial
  · obtain ⟨rfl, -⟩ := Prod.mk.inj (Option.some.inj hstep)
    have hown : ({ s with vmPageoutWanted := true }.goto u .wakeDaemon).Owned :=
      hs.owned.goto (by rw [hout]; rfl)
    exact hs.keep hown rfl ⟨rfl, rfl⟩ (paid hp rfl) trivial
  · obtain ⟨rfl, -⟩ := Prod.mk.inj (Option.some.inj hstep)
    have hw := hs.wakeupDaemons_heard
    have hpw : s.wakeupDaemons.pc u = .wakeDaemon :=
      (wakeup_pc_of_ne (by rw [hp]; decide)).trans hp
    exact hw.keep (hw.owned.goto (by rw [hpw]; rfl)) rfl ⟨rfl, rfl⟩ (paid hpw rfl) trivial

/-- The loop of `vm_pageout_worker` up to its test of `vm_pageout_wanted` -/
theorem loopTest_heard (hs : s.Heard)
    (hp : s.pc u = .lock ∨ s.pc u = .loopTest ∨ s.pc u = .loopWaiters)
    (hstep : s.run c u = some (s', r)) : s'.Heard := by
  rcases hp with hp | hp | hp <;> simp only [run, hp] at hstep
  · split at hstep
    next hnone =>
      obtain ⟨rfl, -⟩ := Prod.mk.inj (Option.some.inj hstep)
      exact hs.keep (hs.owned.acquire hnone rfl) rfl ⟨rfl, rfl⟩ (paid hp rfl) trivial
    next => simp at hstep
  · have hin : (s.pc u).holds = true := by rw [hp]; rfl
    split at hstep
    next =>
      obtain ⟨rfl, -⟩ := Prod.mk.inj (Option.some.inj hstep)
      exact hs.serve_heard hin (paid hp rfl) rfl rfl
    next =>
      obtain ⟨rfl, -⟩ := Prod.mk.inj (Option.some.inj hstep)
      exact hs.keep (hs.owned.goto (hin ▸ rfl)) rfl ⟨rfl, rfl⟩ (paid hp rfl) trivial
  · obtain ⟨rfl, -⟩ := Prod.mk.inj (Option.some.inj hstep)
    have hw := hs.wakeup .waiting rfl rfl
    have hpw : (s.wakeup .waiting).pc u = .loopWaiters :=
      (wakeup_pc_of_ne (by rw [hp]; decide)).trans hp
    exact hw.keep (hw.owned.goto (by rw [hpw]; rfl)) rfl ⟨rfl, rfl⟩
      (fun _ => wakeup_pc_ne (by decide)) trivial

/-- The rest of the loop, to the next scan or to the sleep -/
theorem loopReceive_heard (hs : s.Heard)
    (hp : s.pc u = .loopWanted ∨ s.pc u = .loopClear ∨ s.pc u = .loopReceive)
    (hstep : s.run c u = some (s', r)) : s'.Heard := by
  have hin : (s.pc u).holds = true := by rcases hp with hp | hp | hp <;> rw [hp] <;> rfl
  rcases hp with hp | hp | hp <;> simp only [run, hp] at hstep
  · split at hstep
    next =>
      obtain ⟨rfl, -⟩ := Prod.mk.inj (Option.some.inj hstep)
      exact hs.keep (hs.owned.goto (hin ▸ rfl)) rfl ⟨rfl, rfl⟩ (paid hp rfl) trivial
    next =>
      obtain ⟨rfl, -⟩ := Prod.mk.inj (Option.some.inj hstep)
      exact hs.keep (hs.owned.goto (hin ▸ rfl)) rfl ⟨rfl, rfl⟩ (paid hp rfl) trivial
  · obtain ⟨rfl, -⟩ := Prod.mk.inj (Option.some.inj hstep)
    have hown : ({ s with vmPageoutWanted := false }.goto u .loopReceive).Owned :=
      hs.owned.goto (by rw [hin]; rfl)
    exact hs.keep hown rfl ⟨rfl, rfl⟩ (paid hp rfl) trivial
  · split at hstep
    next =>
      obtain ⟨rfl, -⟩ := Prod.mk.inj (Option.some.inj hstep)
      exact hs.keep (hs.owned.release hin rfl) rfl ⟨rfl, rfl⟩ (paid hp rfl) trivial
    next =>
      obtain ⟨rfl, -⟩ := Prod.mk.inj (Option.some.inj hstep)
      exact hs.keep (hs.owned.goto (hin ▸ rfl)) rfl ⟨rfl, rfl⟩ (paid hp rfl) trivial

/-- The test of `vm_pages_needed` and `mtx_sleep`: the flag cannot change between them. -/
theorem loopSleep_heard (hs : s.Heard) (hp : s.pc u = .loopNeeded ∨ s.pc u = .loopSleep)
    (hstep : s.run c u = some (s', r)) : s'.Heard := by
  have hin : (s.pc u).holds = true := by rcases hp with hp | hp <;> rw [hp] <;> rfl
  rcases hp with hp | hp <;> simp only [run, hp] at hstep
  · split at hstep
    next =>
      obtain ⟨rfl, -⟩ := Prod.mk.inj (Option.some.inj hstep)
      exact hs.keep (hs.owned.release hin rfl) rfl ⟨rfl, rfl⟩ (paid hp rfl) trivial
    next hneeded =>
      obtain ⟨rfl, -⟩ := Prod.mk.inj (Option.some.inj hstep)
      exact hs.keep (hs.owned.goto (hin ▸ rfl)) rfl ⟨rfl, rfl⟩ (paid hp rfl)
        (Bool.eq_false_iff.mpr hneeded)
  · obtain ⟨rfl, -⟩ := Prod.mk.inj (Option.some.inj hstep)
    exact hs.keep (hs.owned.release hin rfl) rfl ⟨rfl, rfl⟩ (paid hp rfl) ⟨hs.drowsy u hp, hin⟩

/-- Every access of a thread inside the functions keeps what the flags say of the sleepers. -/
theorem run_heard (hs : s.Heard) (hstep : s.run c u = some (s', r)) : s'.Heard := by
  cases hp : s.pc u with
  | idle => simp [run, hp] at hstep
  | pageprocWaiting => simp [run, hp] at hstep
  | waiting => simp [run, hp] at hstep
  | asleep => simp [run, hp] at hstep
  | alloc reqClass wait =>
    simp only [run, hp, Option.some.injEq] at hstep
    have hs' := hs.vmPageAlloc_heard (c := c) hp
    rwa [hstep] at hs'
  | free n =>
    simp only [run, hp, Option.some.injEq, Prod.mk.injEq] at hstep
    rw [← hstep.1]
    exact hs.vmPageFree_heard hp
  | freeWakeup => exact hs.freeWakeup_heard (.inl hp) hstep
  | freeWaiters => exact hs.freeWakeup_heard (.inr hp) hstep
  | vmWait => exact hs.pageprocWait_heard (.inl hp) hstep
  | pageprocSleep => exact hs.pageprocWait_heard (.inr hp) hstep
  | waitTest => exact hs.waitWakeup_heard (.inl hp) hstep
  | waitWanted => exact hs.waitWakeup_heard (.inr (.inl hp)) hstep
  | waitWakeup => exact hs.waitWakeup_heard (.inr (.inr hp)) hstep
  | waitNeeded => exact hs.waitSleep_heard (.inl hp) hstep
  | waitSleep => exact hs.waitSleep_heard (.inr hp) hstep
  | wakeTest => exact hs.pagedaemonWakeup_heard (.inl hp) hstep
  | wakeWanted => exact hs.pagedaemonWakeup_heard (.inr (.inl hp)) hstep
  | wakeDaemon => exact hs.pagedaemonWakeup_heard (.inr (.inr hp)) hstep
  | lock => exact hs.loopTest_heard (.inl hp) hstep
  | loopTest => exact hs.loopTest_heard (.inr (.inl hp)) hstep
  | loopWaiters => exact hs.loopTest_heard (.inr (.inr hp)) hstep
  | loopWanted => exact hs.loopReceive_heard (.inl hp) hstep
  | loopClear => exact hs.loopReceive_heard (.inr (.inl hp)) hstep
  | loopReceive => exact hs.loopReceive_heard (.inr (.inr hp)) hstep
  | loopNeeded => exact hs.loopSleep_heard (.inl hp) hstep
  | loopSleep => exact hs.loopSleep_heard (.inr hp) hstep

theorem enter_heard (hs : s.Heard) (hstep : s.enter u p = some (s', r)) (hh : p.holds = true)
    (hb : ∀ s', Brings s s' u p) : s'.Heard := by
  rw [enter] at hstep
  split at hstep
  next h =>
    obtain ⟨rfl, -⟩ := Prod.mk.inj (Option.some.inj hstep)
    exact hs.keep (hs.owned.acquire h.2 hh) rfl ⟨rfl, rfl⟩ (paid h.1 rfl) (hb _)
  next => simp at hstep

theorem step_heard {l : PageDaemonLabel U} (hs : s.Heard) (hstep : s.step c l = some (s', r)) :
    s'.Heard := by
  cases l with
  | run u => exact hs.run_heard hstep
  | alloc u reqClass wait => exact hs.enter_heard hstep rfl fun _ => trivial
  | free u n => exact hs.enter_heard hstep rfl fun _ => trivial
  | vmWait u => exact hs.enter_heard hstep rfl fun _ => trivial
  | vmWaitpfault u => exact hs.enter_heard hstep rfl fun _ => trivial
  | pagedaemonWakeup u =>
    simp only [step, Option.ite_none_right_eq_some, Option.some.injEq, Prod.mk.injEq] at hstep
    obtain ⟨hp, rfl, -⟩ := hstep
    exact hs.keep (hs.owned.goto (by rw [hp]; rfl)) rfl ⟨rfl, rfl⟩ (paid hp rfl) trivial
  | scanned u targetMet =>
    simp only [step, Option.ite_none_right_eq_some, Option.some.injEq, Prod.mk.injEq] at hstep
    obtain ⟨hp, rfl, -⟩ := hstep
    have hown : (s.goto u .lock).Owned := hs.owned.goto (by rw [hp.1]; rfl)
    exact hs.keep hown rfl ⟨rfl, rfl⟩ (paid hp.1 rfl) trivial
  | timeout u =>
    simp only [step, Option.ite_none_right_eq_some, Option.some.injEq, Prod.mk.injEq] at hstep
    obtain ⟨hp, rfl, -⟩ := hstep
    have hown : (s.goto u .idle).Owned := hs.owned.goto (by rw [hp]; rfl)
    exact hs.keep hown rfl ⟨rfl, rfl⟩ (paid hp rfl) trivial
  | oomWakeup =>
    obtain ⟨rfl, -⟩ := Prod.mk.inj (Option.some.inj hstep)
    exact hs.wakeup .waiting rfl rfl

end Heard

end PageDaemon

end FreeBSDEdits
