import FreeBSDEdits.BusySteps

namespace FreeBSDEdits

namespace BusyPage

variable {T : Type} [Fintype T] [DecidableEq T] {s : BusyPage T} {h : List (BusyLabel T × Option Bool)}

theorem Run.inv (hr : Run h s) : ∃ w, s.Inv w := by
  refine GuardedRun.invariant (P := fun _ s => ∃ w, Inv s w) ⟨false, Inv.start⟩ ?_ hr
  intro h s l s' r _ ⟨w, hi⟩ hroom hs
  cases l with
  | run t => exact hi.run_step hroom hs
  | call t c =>
    simp only [step] at hs
    split at hs
    next hp => exact hi.call_step hp hs
    next => simp at hs

instance (h : List (BusyLabel T × Option Bool)) (s : BusyPage T) (l : BusyLabel T) :
    Decidable (Fits h s l) :=
  inferInstanceAs (Decidable (_ < _))

theorem run_of_replay (ls : List (BusyLabel T))
    (check : List (BusyLabel T × Option Bool) → BusyPage T → Bool)
    (hp : (GuardedRun.replay step Fits [] start ls).any (fun r => check r.1 r.2) = true) :
    ∃ h s, Run h s ∧ check h s = true :=
  GuardedRun.exists_of_replay hp

/-- One thread has the page exclusively and another sleeps until it is given back. -/
theorem exists_waiting : ∃ h, ∃ s : BusyPage (Fin 2), Run h s ∧ s.owner = none ∧
    s.xbusy 0 = true ∧ s.pc 1 = .busySleep true .asleep := by
  obtain ⟨h, s, hr, hc⟩ := run_of_replay [.call (0 : Fin 2) .tryxbusy, .call 1 .lock,
      .call 1 (.busySleep true), .run 1, .run 1, .run 1]
    (fun _ s => s.owner = none ∧ s.xbusy 0 = true ∧ s.pc 1 = .busySleep true .asleep)
    (by decide +kernel)
  exact ⟨h, s, hr, of_decide_eq_true hc⟩

/-- The word counts the shared busies exactly, and an exclusive busy excludes all others. -/
theorem busyLock_exact (hr : Run h s) :
    (vpbSharers s.busyLock).toNat = ∑ t, s.shares t ∧
      (s.busyLock &&& vpbBitExclusive ≠ 0 ↔ ∃ t, s.xbusy t = true) ∧
      (s.busyLock = vpbUnbusied ↔ ∀ t, s.xbusy t = false ∧ s.shares t = 0) ∧
      ∀ t, s.xbusy t = true → ∀ u, s.shares u = 0 ∧ (s.xbusy u = true → u = t) := by
  obtain ⟨w, hi⟩ := hr.inv
  refine ⟨hi.vpbSharers_eq, ?_, ?_, fun t ht u => ⟨?_, fun hu => hi.holds.single u t hu ht⟩⟩
  · have hxb := hi.vmPageXbusied_eq
    rw [← decide_eq_true_iff (p := ∃ t, s.xbusy t = true)]
    change _ ↔ s.xbusied = true
    rw [← hxb]
    simp [vmPageXbusied, vpbSingleExclusiver]
  · rw [hi.unbusied]
    constructor
    · rintro ⟨hx, h0⟩ t
      refine ⟨?_, ?_⟩
      · rcases hxt : s.xbusy t with _ | _
        · rfl
        · rw [xbusied_of_xbusy s hxt] at hx
          cases hx
      · have hle := s.shares_le_sharers t
        omega
    · intro hall
      have hno : ¬∃ t, s.xbusy t = true := by
        rintro ⟨t, ht⟩
        rw [(hall t).1] at ht
        cases ht
      exact ⟨decide_eq_false hno, Finset.sum_eq_zero fun t _ => (hall t).2⟩
  · exact hi.holds.shares_eq_zero (xbusied_of_xbusy s ht) u

theorem busyLock_exact_waiting : ∃ h, ∃ s : BusyPage (Fin 2), Run h s ∧ s.xbusy 0 = true ∧
    s.busyLock &&& vpbBitExclusive ≠ 0 ∧ ∀ u, s.shares u = 0 ∧ (s.xbusy u = true → u = 0) := by
  obtain ⟨h, s, hr, -, hx, -⟩ := exists_waiting
  obtain ⟨-, hbit, -, halone⟩ := busyLock_exact hr
  exact ⟨h, s, hr, hx, hbit.mpr ⟨0, hx⟩, halone 0 hx⟩

/-- No assertion of the busy lock's functions ever fires. -/
theorem never_panicked (hr : Run h s) (t : T) : s.pc t ≠ .panicked := by
  obtain ⟨w, hi⟩ := hr.inv
  exact hi.not_panicked

theorem never_panicked_waiting : ∃ h, ∃ s : BusyPage (Fin 2), Run h s ∧
    s.pc 1 = .busySleep true .asleep ∧ s.pc 0 ≠ .panicked := by
  obtain ⟨h, s, hr, -, -, hp⟩ := exists_waiting
  exact ⟨h, s, hr, hp, never_panicked hr 0⟩

/-- No wakeup is lost: while a thread sleeps, the page is busied with the waiters bit set, so
that giving it back takes the page lock, or the thread that gave it back holds that lock and has
its `wakeup` still to make. -/
theorem sleeper_waited_for (hr : Run h s) {t : T} {nonshared : Bool}
    (hp : s.pc t = .busySleep nonshared .asleep) :
    s.busyLock &&& vpbBitWaiters ≠ 0 ∧ s.busyLock ≠ vpbUnbusied ∧
        (if nonshared then ∃ u, s.xbusy u = true else ∃ u, s.xbusy u = true ∨ 0 < s.shares u) ∨
      ∃ u unlock, s.pc u = .wakeup unlock ∧ s.owner = some u := by
  obtain ⟨w, hi⟩ := hr.inv
  have hok := hi.pcs t
  rw [hp] at hok
  rcases hok.2 with ⟨rfl, hn⟩ | ⟨u, unlock, hu⟩
  · refine .inl ⟨?_, ?_, ?_⟩
    · rw [ne_eq, hi.waiters]
      simp
    · rw [ne_eq, hi.unbusied]
      rintro ⟨hx, h0⟩
      rcases hi.busied rfl with h | h
      · rw [hx] at h
        cases h
      · omega
    · cases nonshared with
      | true => exact of_decide_eq_true (hn rfl)
      | false =>
        rcases hi.busied rfl with hx | hpos
        · obtain ⟨u, hu⟩ := of_decide_eq_true hx
          exact ⟨u, .inl hu⟩
        · obtain ⟨u, -, hu⟩ := Finset.exists_ne_zero_of_sum_ne_zero (Nat.ne_of_gt hpos)
          exact ⟨u, .inr (Nat.pos_of_ne_zero hu)⟩
  · have hown := hi.pcs u
    rw [hu] at hown
    exact .inr ⟨u, unlock, hu, hown⟩

theorem sleeper_waited_for_waiting : ∃ h, ∃ s : BusyPage (Fin 2), Run h s ∧
    s.pc 1 = .busySleep true .asleep ∧
    (s.busyLock &&& vpbBitWaiters ≠ 0 ∧ s.busyLock ≠ vpbUnbusied ∧ (∃ u, s.xbusy u = true) ∨
      ∃ u unlock, s.pc u = .wakeup unlock ∧ s.owner = some u) := by
  obtain ⟨h, s, hr, -, -, hp⟩ := exists_waiting
  exact ⟨h, s, hr, hp, sleeper_waited_for hr hp⟩

end BusyPage

end FreeBSDEdits
