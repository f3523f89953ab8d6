import FreeBSDEdits.BusySafety

namespace FreeBSDEdits

/-- A thread that is not inside a call, or sleeps until a `wakeup`. -/
def BusyPc.finished : BusyPc → Bool
  | .idle | .busySleep _ .asleep => true
  | _ => false

namespace BusyPage

variable {T : Type} [DecidableEq T]

/-- `t`, running alone, is out of its call after at most so many accesses. -/
inductive Returns (t : T) : Nat → BusyPage T → Prop
  | finished {n s} : (s.pc t).finished = true → Returns t n s
  | run {n s s' r} : s.run t = some (s', r) → Returns t n s' → Returns t (n + 1) s

namespace Returns

variable {s s' : BusyPage T} {t : T} {m n : Nat} {p : BusyPc}

theorem mono (h : Returns t n s) (hle : n ≤ m) : Returns t m s := by
  induction h generalizing m with
  | finished hf => exact .finished hf
  | run hr _ ih =>
    obtain ⟨k, rfl⟩ : ∃ k, m = k + 1 := ⟨m - 1, by omega⟩
    exact .run hr (ih (by omega))

theorem goto_idle : Returns t n (s.goto t .idle) :=
  .finished (by rw [goto_pc]; rfl)

theorem unlock (hp : s.pc t = .unlock) : Returns t 1 s :=
  .run (r := none) (by rw [BusyPage.run, hp]) goto_idle

theorem wakeup {unlock : Bool} (hp : s.pc t = .wakeup unlock) : Returns t 2 s := by
  refine .run (r := none) (by rw [BusyPage.run, hp]) ?_
  cases unlock with
  | true => exact .unlock (goto_pc ..)
  | false => exact goto_idle

end Returns

section

variable {s : BusyPage T} {t : T} {x : UInt32}

theorem trysbusy_cas_returns (hp : s.pc t = .trysbusy (.cas x)) (hx : s.busyLock = x) :
    Returns t 1 s :=
  .run (by rw [run, hp]; exact if_pos hx) .goto_idle

theorem trysbusy_load_returns (hp : s.pc t = .trysbusy .load) : Returns t 2 s := by
  by_cases hx : s.busyLock &&& vpbBitShared = 0
  · exact .run (by rw [run, hp]; exact if_pos hx) .goto_idle
  · exact .run (by rw [run, hp]; exact if_neg hx) (trysbusy_cas_returns (goto_pc ..) rfl)

theorem trysbusy_returns {p : TrysbusyPc} (hp : s.pc t = .trysbusy p) : Returns t 3 s := by
  cases p with
  | load => exact (trysbusy_load_returns hp).mono (by decide)
  | cas x =>
    by_cases hx : s.busyLock = x
    · exact (trysbusy_cas_returns hp hx).mono (by decide)
    · exact .run (by rw [run, hp]; exact if_neg hx) (trysbusy_load_returns (goto_pc ..))

theorem flash_cas_returns (hp : s.pc t = .flash (.cas x)) (hx : s.busyLock = x) :
    Returns t 3 s :=
  .run (by rw [run, hp]; exact if_pos hx) (.wakeup (goto_pc ..))

theorem flash_load_returns (hp : s.pc t = .flash .load) : Returns t 4 s := by
  by_cases hx : s.busyLock &&& vpbBitWaiters = 0
  · exact .run (by rw [run, hp]; exact if_pos hx) .goto_idle
  · exact .run (by rw [run, hp]; exact if_neg hx) (flash_cas_returns (goto_pc ..) rfl)

theorem flash_returns {p : FlashPc} (hown : s.owner = some t) (hp : s.pc t = .flash p) :
    Returns t 5 s := by
  cases p with
  | enter => exact .run (by rw [run, hp]; exact if_pos hown) (flash_load_returns (goto_pc ..))
  | load => exact (flash_load_returns hp).mono (by decide)
  | cas x =>
    by_cases hx : s.busyLock = x
    · exact (flash_cas_returns hp hx).mono (by decide)
    · exact .run (by rw [run, hp]; exact if_neg hx) (flash_load_returns (goto_pc ..))

theorem busySleep_msleep_returns {nonshared : Bool} (hp : s.pc t = .busySleep nonshared .msleep) :
    Returns t 1 s :=
  .run (by rw [run, hp]; rfl) (.finished (by rw [goto_pc]; rfl))

theorem busySleep_cas_returns {nonshared : Bool} (hp : s.pc t = .busySleep nonshared (.cas x)) :
    Returns t 2 s := by
  by_cases hx : s.busyLock = x
  · exact .run (by rw [run, hp]; exact if_pos hx) (busySleep_msleep_returns (goto_pc ..))
  · exact .run (by rw [run, hp]; exact if_neg hx) (.unlock (goto_pc ..))

theorem busySleep_returns {nonshared : Bool} {p : BusySleepPc} (hown : p = .enter → s.owner = some t)
    (hp : s.pc t = .busySleep nonshared p) : Returns t 3 s := by
  cases p with
  | enter =>
    have hlocked : ¬s.owner ≠ some t := fun h => h (hown rfl)
    by_cases hx : s.busyLock = vpbUnbusied ∨ (nonshared ∧ s.busyLock &&& vpbBitShared ≠ 0)
    · have hrun : s.run t = some (s.goto t .unlock, none) := by
        rw [run, hp]
        exact (if_neg hlocked).trans (if_pos hx)
      exact .run hrun ((Returns.unlock (goto_pc ..)).mono (by decide))
    · by_cases hw : s.busyLock &&& vpbBitWaiters = 0
      · have hrun : s.run t = some (s.goto t (.busySleep nonshared (.cas s.busyLock)), none) := by
          rw [run, hp]
          exact (if_neg hlocked).trans ((if_neg hx).trans (if_pos hw))
        exact .run hrun (busySleep_cas_returns (goto_pc ..))
      · have hrun : s.run t = some (s.goto t (.busySleep nonshared .msleep), none) := by
          rw [run, hp]
          exact (if_neg hlocked).trans ((if_neg hx).trans (if_neg hw))
        exact .run hrun ((busySleep_msleep_returns (goto_pc ..)).mono (by decide))
  | cas x => exact (busySleep_cas_returns hp).mono (by decide)
  | msleep => exact (busySleep_msleep_returns hp).mono (by decide)
  | asleep => exact .finished (by rw [hp]; rfl)

theorem sunbusy_casWaiters_returns (hp : s.pc t = .sunbusy (.casWaiters x)) (hx : s.busyLock = x) :
    Returns t 3 s :=
  .run (by rw [run, hp]; exact if_pos hx) (.wakeup (goto_pc ..))

theorem xunbusy_store_returns {lockacq : Bool} (hp : s.pc t = .xunbusy (.store lockacq)) :
    Returns t 3 s :=
  .run (by rw [run, hp]; rfl) (.wakeup (goto_pc ..))

theorem downgrade_cas_returns {locked : Bool} (hp : s.pc t = .downgrade (.cas x locked))
    (hx : s.busyLock = vpbSingleExclusiver ||| x) : Returns t 3 s := by
  by_cases h0 : x ≠ 0
  · exact .run (by rw [run, hp]; exact (if_pos hx).trans (if_pos h0)) (.wakeup (goto_pc ..))
  · exact .run (by rw [run, hp]; exact (if_pos hx).trans (if_neg h0)) .goto_idle

end

variable [Fintype T]

namespace Inv

variable {s : BusyPage T} {w : Bool} {t : T}

/-- No panic, and no store by another thread between the load and the swap. -/
theorem sunbusy_load_returns (hi : s.Inv w) (hp : s.pc t = .sunbusy .load)
    (hfree : s.owner = none) : Returns t 5 s := by
  have hrun : s.run t = s.vmPageSunbusy t .load := by rw [run, hp]
  by_cases hmore : 1 < vpbSharers s.busyLock
  · have hcas : Returns t 1 (s.goto t (.sunbusy (.casMore s.busyLock))) :=
      .run (by rw [run, goto_pc]; exact if_pos rfl) .goto_idle
    exact .run (by rw [hrun]; exact if_pos hmore) (hcas.mono (by decide))
  · by_cases hw : s.busyLock &&& vpbBitWaiters = 0
    · by_cases hone : s.busyLock = vpbSharersWord 1
      · have hcas : Returns t 1 (s.goto t (.sunbusy .casLast)) :=
          .run (by rw [run, goto_pc]; exact if_pos hone) .goto_idle
        exact .run (by rw [hrun]; exact (if_neg hmore).trans ((if_pos hw).trans (if_pos hone)))
          (hcas.mono (by decide))
      · have hpanic : s.vmPageSunbusy t .load = some (s.goto t .panicked, none) :=
          (if_neg hmore).trans ((if_pos hw).trans (if_neg hone))
        obtain ⟨w', hi'⟩ := hi.sunbusy_step hp hpanic
        exact absurd (goto_pc ..) hi'.not_panicked
    · by_cases hone : s.busyLock = vpbSharersWord 1 ||| vpbBitWaiters
      · have hlock : Returns t 4 (s.goto t (.sunbusy (.lock s.busyLock))) :=
          .run (by rw [run, goto_pc]; exact if_pos hfree)
            (sunbusy_casWaiters_returns (goto_pc ..) rfl)
        exact .run (by rw [hrun]; exact (if_neg hmore).trans ((if_neg hw).trans (if_pos hone)))
          hlock
      · have hpanic : s.vmPageSunbusy t .load = some (s.goto t .panicked, none) :=
          (if_neg hmore).trans ((if_neg hw).trans (if_neg hone))
        obtain ⟨w', hi'⟩ := hi.sunbusy_step hp hpanic
        exact absurd (goto_pc ..) hi'.not_panicked

theorem sunbusy_retry_returns (hi : s.Inv w) (hp : s.pc t = .sunbusy .retry) : Returns t 6 s := by
  have hrun : s.run t = some (s.release.goto t (.sunbusy .load), none) := by
    rw [run, hp]
    rfl
  obtain ⟨w', hi'⟩ := hi.sunbusy_step hp (by rw [run, hp] at hrun; exact hrun)
  exact .run hrun (hi'.sunbusy_load_returns (goto_pc ..) rfl)

theorem sunbusy_casWaiters_stale_returns {x : UInt32} (hi : s.Inv w)
    (hp : s.pc t = .sunbusy (.casWaiters x)) : Returns t 7 s := by
  by_cases hx : s.busyLock = x
  · exact (sunbusy_casWaiters_returns hp hx).mono (by decide)
  · have hstep : s.vmPageSunbusy t (.casWaiters x) = some (s.goto t (.sunbusy .retry), none) :=
      if_neg hx
    obtain ⟨w', hi'⟩ := hi.sunbusy_step hp hstep
    exact .run (by rw [run, hp]; exact hstep) (hi'.sunbusy_retry_returns (goto_pc ..))

theorem sunbusy_returns {p : SunbusyPc} (hi : s.Inv w) (hp : s.pc t = .sunbusy p)
    (hfree : s.owner = none ∨ s.owner = some t) : Returns t 8 s := by
  have hok := hi.pcs t
  rw [hp] at hok
  have hreload : s.owner ≠ some t → s.vmPageSunbusy t p = some (s.goto t (.sunbusy .load), none) →
      Returns t 6 s := by
    intro hown hstep
    obtain ⟨w', hi'⟩ := hi.sunbusy_step hp hstep
    exact .run (by rw [run, hp]; exact hstep)
      (hi'.sunbusy_load_returns (goto_pc ..) (hfree.resolve_right hown))
  cases p with
  | enter =>
    have hno : ¬(s.owner = some t ∨ vmPageSbusied s.busyLock = false) := by
      rw [hi.vmPageSbusied_of_shares hok.1]
      simpa using hok.2
    exact (hreload hok.2 (if_neg hno)).mono (by decide)
  | load => exact (hi.sunbusy_load_returns hp (hfree.resolve_right hok.2)).mono (by decide)
  | casMore x =>
    by_cases hx : s.busyLock = x
    · exact .run (by rw [run, hp]; exact if_pos hx) .goto_idle
    · exact (hreload hok.2.1 (if_neg hx)).mono (by decide)
  | casLast =>
    by_cases hx : s.busyLock = vpbSharersWord 1
    · exact .run (by rw [run, hp]; exact if_pos hx) .goto_idle
    · exact (hreload hok.2 (if_neg hx)).mono (by decide)
  | lock x =>
    have hstep : s.vmPageSunbusy t (.lock x) =
        some ((s.acquire t).goto t (.sunbusy (.casWaiters x)), none) :=
      if_pos (hfree.resolve_right hok.2.1)
    obtain ⟨w', hi'⟩ := hi.sunbusy_step hp hstep
    exact .run (by rw [run, hp]; exact hstep) (hi'.sunbusy_casWaiters_stale_returns (goto_pc ..))
  | casWaiters x => exact (hi.sunbusy_casWaiters_stale_returns hp).mono (by decide)
  | retry => exact (hi.sunbusy_retry_returns hp).mono (by decide)

theorem xunbusy_locked_returns {lockacq : Bool} (hi : s.Inv w)
    (hp : s.pc t = .xunbusy (.locked lockacq)) : Returns t 4 s := by
  have hok := hi.pcs t
  rw [hp] at hok
  have hall : vmPageXbusied s.busyLock ∧ s.owner = some t :=
    ⟨hi.vmPageXbusied_eq.trans (xbusied_of_xbusy s hok.1), hok.2⟩
  exact .run (by rw [run, hp]; exact if_pos hall) (xunbusy_store_returns (goto_pc ..))

theorem xunbusy_lock_returns (hi : s.Inv w) (hp : s.pc t = .xunbusy .lock)
    (hfree : s.owner = none) : Returns t 5 s := by
  have hstep : s.vmPageXunbusy t .lock =
      some ((s.acquire t).goto t (.xunbusy (.locked true)), none) := if_pos hfree
  obtain ⟨w', hi'⟩ := hi.xunbusy_step hp hstep
  exact .run (by rw [run, hp]; exact hstep) (hi'.xunbusy_locked_returns (goto_pc ..))

theorem xunbusy_maybelockedCas_returns (hi : s.Inv w) (hp : s.pc t = .xunbusy .maybelockedCas)
    (hfree : s.owner = none ∨ s.owner = some t) : Returns t 6 s := by
  by_cases hx : s.busyLock = vpbSingleExclusiver
  · exact .run (by rw [run, hp]; exact if_pos hx) .goto_idle
  · by_cases hown : s.owner = some t
    · have hstep : s.vmPageXunbusy t .maybelockedCas =
          some (s.goto t (.xunbusy (.locked false)), none) := (if_neg hx).trans (if_pos hown)
      obtain ⟨w', hi'⟩ := hi.xunbusy_step hp hstep
      exact .run (by rw [run, hp]; exact hstep)
        ((hi'.xunbusy_locked_returns (goto_pc ..)).mono (by decide))
    · have hstep : s.vmPageXunbusy t .maybelockedCas =
          some (s.goto t (.xunbusy .lock), none) := (if_neg hx).trans (if_neg hown)
      obtain ⟨w', hi'⟩ := hi.xunbusy_step hp hstep
      exact .run (by rw [run, hp]; exact hstep)
        (hi'.xunbusy_lock_returns (goto_pc ..) (hfree.resolve_right hown))

theorem xunbusy_returns {p : XunbusyPc} (hi : s.Inv w) (hp : s.pc t = .xunbusy p)
    (hfree : s.owner = none ∨ s.owner = some t) : Returns t 7 s := by
  have hok := hi.pcs t
  rw [hp] at hok
  have hxbusied : s.xbusy t = true → vmPageXbusied s.busyLock = true :=
    fun h => hi.vmPageXbusied_eq.trans (xbusied_of_xbusy s h)
  cases p with
  | hard =>
    have hstep : s.vmPageXunbusy t .hard = some (s.goto t (.xunbusy .lock), none) :=
      if_pos (hxbusied hok.1)
    obtain ⟨w', hi'⟩ := hi.xunbusy_step hp hstep
    exact .run (by rw [run, hp]; exact hstep)
      ((hi'.xunbusy_lock_returns (goto_pc ..) (hfree.resolve_right hok.2)).mono (by decide))
  | maybelocked =>
    have hstep : s.vmPageXunbusy t .maybelocked =
        some (s.goto t (.xunbusy .maybelockedCas), none) := if_pos (hxbusied hok)
    obtain ⟨w', hi'⟩ := hi.xunbusy_step hp hstep
    exact .run (by rw [run, hp]; exact hstep)
      (hi'.xunbusy_maybelockedCas_returns (goto_pc ..) hfree)
  | maybelockedCas => exact (hi.xunbusy_maybelockedCas_returns hp hfree).mono (by decide)
  | lock => exact (hi.xunbusy_lock_returns hp (hfree.resolve_right hok.2)).mono (by decide)
  | locked lockacq => exact (hi.xunbusy_locked_returns hp).mono (by decide)
  | store lockacq => exact (xunbusy_store_returns hp).mono (by decide)

theorem downgrade_load_returns {locked : Bool} (hi : s.Inv w)
    (hp : s.pc t = .downgrade (.load locked)) (hfree : locked = false → s.owner = none) :
    Returns t 5 s := by
  have hok := hi.pcs t
  rw [hp] at hok
  have hword : s.busyLock = vpbSingleExclusiver ||| (s.busyLock &&& vpbBitWaiters) := by
    rw [hi.word, busyWord_and_waiters hi.holds.room, xbusied_of_xbusy s hok.1]
    rfl
  by_cases hx : s.busyLock &&& vpbBitWaiters ≠ 0 ∧ locked = false
  · let s₁ := s.goto t (.downgrade (.lock (s.busyLock &&& vpbBitWaiters)))
    have hcas : Returns t 3 ((s₁.acquire t).goto t
        (.downgrade (.cas (s.busyLock &&& vpbBitWaiters) false))) :=
      downgrade_cas_returns (goto_pc ..) hword
    have hlock : Returns t 4 s₁ :=
      .run (by rw [run, goto_pc]; exact if_pos (hfree hx.2)) hcas
    exact .run (by rw [run, hp]; exact if_pos hx) hlock
  · have hcas := downgrade_cas_returns (s := s.goto t (.downgrade (.cas (s.busyLock &&&
      vpbBitWaiters) locked))) (goto_pc ..) hword
    exact .run (by rw [run, hp]; exact if_neg hx) (hcas.mono (by decide))

theorem downgrade_retry_returns (hi : s.Inv w) (hp : s.pc t = .downgrade .retry) :
    Returns t 6 s := by
  have hstep : s.vmPageBusyDowngrade t .retry =
      some (s.release.goto t (.downgrade (.load false)), none) := rfl
  obtain ⟨w', hi'⟩ := hi.downgrade_step hp hstep
  exact .run (by rw [run, hp]; exact hstep) (hi'.downgrade_load_returns (goto_pc ..) fun _ => rfl)

theorem downgrade_cas_stale_returns {x : UInt32} {locked : Bool} (hi : s.Inv w)
    (hp : s.pc t = .downgrade (.cas x locked)) (hfree : s.owner = none ∨ s.owner = some t) :
    Returns t 7 s := by
  by_cases hx : s.busyLock = vpbSingleExclusiver ||| x
  · exact (downgrade_cas_returns hp hx).mono (by decide)
  · by_cases h0 : x ≠ 0 ∧ locked = false
    · have hstep : s.vmPageBusyDowngrade t (.cas x locked) =
          some (s.goto t (.downgrade .retry), none) := (if_neg hx).trans (if_pos h0)
      obtain ⟨w', hi'⟩ := hi.downgrade_step hp hstep
      exact .run (by rw [run, hp]; exact hstep) (hi'.downgrade_retry_returns (goto_pc ..))
    · have hstep : s.vmPageBusyDowngrade t (.cas x locked) =
          some (s.goto t (.downgrade (.load locked)), none) := (if_neg hx).trans (if_neg h0)
      obtain ⟨w', hi'⟩ := hi.downgrade_step hp hstep
      have hload := hi'.pcs t
      rw [goto_pc] at hload
      have hnone : locked = false → s.owner = none := by
        intro hl
        refine hfree.resolve_right fun hown => ?_
        rw [hload.2.mpr hown] at hl
        cases hl
      exact .run (by rw [run, hp]; exact hstep)
        ((hi'.downgrade_load_returns (goto_pc ..) hnone).mono (by decide))

theorem downgrade_returns {p : DowngradePc} (hi : s.Inv w) (hp : s.pc t = .downgrade p)
    (hfree : s.owner = none ∨ s.owner = some t) : Returns t 8 s := by
  have hok := hi.pcs t
  rw [hp] at hok
  have hnone : ∀ {locked : Bool}, (locked = true ↔ s.owner = some t) → locked = false →
      s.owner = none := by
    intro locked hl hf
    refine hfree.resolve_right fun hown => ?_
    rw [hl.mpr hown] at hf
    cases hf
  cases p with
  | enter =>
    have hstep : s.vmPageBusyDowngrade t .enter =
        some (s.goto t (.downgrade (.load (s.owner = some t))), none) :=
      if_pos (hi.vmPageXbusied_eq.trans (xbusied_of_xbusy s hok))
    obtain ⟨w', hi'⟩ := hi.downgrade_step hp hstep
    have hload := hi'.downgrade_load_returns (goto_pc ..) (hnone decide_eq_true_iff)
    exact .run (by rw [run, hp]; exact hstep) (hload.mono (by decide))
  | load locked => exact (hi.downgrade_load_returns hp (hnone hok.2)).mono (by decide)
  | lock x =>
    have hstep : s.vmPageBusyDowngrade t (.lock x) =
        some ((s.acquire t).goto t (.downgrade (.cas x false)), none) :=
      if_pos (hfree.resolve_right hok.2.1)
    obtain ⟨w', hi'⟩ := hi.downgrade_step hp hstep
    exact .run (by rw [run, hp]; exact hstep)
      (hi'.downgrade_cas_stale_returns (goto_pc ..) (.inr rfl))
  | cas x locked => exact (hi.downgrade_cas_stale_returns hp hfree).mono (by decide)
  | retry => exact (hi.downgrade_retry_returns hp).mono (by decide)

theorem returns (hi : s.Inv w) (hfree : s.owner = none ∨ s.owner = some t) : Returns t 8 s := by
  have hok := hi.pcs t
  rcases hp : s.pc t with _ | p | p | p | p | ⟨nonshared, p⟩ | p | unlock | _ | _ <;> rw [hp] at hok
  case idle => exact .finished (by rw [hp]; rfl)
  case trysbusy => exact (trysbusy_returns hp).mono (by decide)
  case sunbusy => exact hi.sunbusy_returns hp hfree
  case xunbusy => exact (hi.xunbusy_returns hp hfree).mono (by decide)
  case downgrade => exact hi.downgrade_returns hp hfree
  case busySleep =>
    refine (busySleep_returns (fun he => ?_) hp).mono (by decide)
    rw [he] at hok
    exact hok
  case flash =>
    have hown : s.owner = some t := by
      cases p with
      | enter => exact hok
      | load => exact hok
      | cas x => exact hok.1
    exact (flash_returns hown hp).mono (by decide)
  case wakeup => exact (Returns.wakeup hp).mono (by decide)
  case unlock => exact (Returns.unlock hp).mono (by decide)
  case panicked => exact hok.elim

end Inv

/-- Left alone, with the page lock free or its own, a thread gets out of any call in at most eight
accesses: no loop retries more than once. -/
theorem returns_alone {s : BusyPage T} {h : List (BusyLabel T × Option Bool)} (hr : Run h s) (t : T)
    (hfree : s.owner = none ∨ s.owner = some t) : Returns t 8 s := by
  obtain ⟨w, hi⟩ := hr.inv
  exact hi.returns hfree

/-- The last sharer has the page lock for the waiter behind it when another thread busies the page: its
compare-and-set is about to fail with the lock held. -/
theorem returns_alone_overtaken : ∃ h, ∃ s : BusyPage (Fin 3), Run h s ∧ s.owner = some 0 ∧
    s.pc 0 = .sunbusy (.casWaiters (vpbSharersWord 1 ||| vpbBitWaiters)) ∧
    s.busyLock = vpbSharersWord 2 ||| vpbBitWaiters ∧ Returns 0 8 s := by
  obtain ⟨h, s, hr, hc⟩ := run_of_replay [.call (0 : Fin 3) .trysbusy, .run 0, .run 0,
      .call 2 .lock, .call 2 (.busySleep false), .run 2, .run 2, .run 2,
      .call 0 .sunbusy, .run 0, .run 0, .run 0, .call 1 .trysbusy, .run 1, .run 1]
    (fun _ s => s.owner = some 0 ∧
      s.pc 0 = .sunbusy (.casWaiters (vpbSharersWord 1 ||| vpbBitWaiters)) ∧
      s.busyLock = vpbSharersWord 2 ||| vpbBitWaiters)
    (by decide +kernel)
  obtain ⟨hown, hpc, hword⟩ := of_decide_eq_true hc
  exact ⟨h, s, hr, hown, hpc, hword, returns_alone hr 0 (.inr hown)⟩

end BusyPage

end FreeBSDEdits
