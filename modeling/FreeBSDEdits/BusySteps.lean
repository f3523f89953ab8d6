import FreeBSDEdits.BusyHolds

namespace FreeBSDEdits

namespace BusyPage

namespace Inv

variable {T : Type} [Fintype T] [DecidableEq T] {s s' : BusyPage T} {w : Bool} {t : T}

theorem trysbusy_step {p : TrysbusyPc} {r : Option Bool} (hi : s.Inv w)
    (hroom : s.sharers + 1 < 2 ^ 29) (hp : s.pc t = .trysbusy p)
    (h : s.vmPageTrysbusy t p = some (s', r)) : s'.Inv w := by
  have hnot : ∀ unlock, s.pc t ≠ .wakeup unlock := by simp [hp]
  have hok := hi.pcs t
  rw [hp] at hok
  cases p with
  | load =>
    simp only [vmPageTrysbusy] at h
    split at h
    next =>
      obtain ⟨rfl, -⟩ := by simpa using h
      exact hi.goto hnot trivial
    next hshared =>
      obtain ⟨rfl, -⟩ := by simpa using h
      exact hi.goto hnot hshared
  | cas x =>
    simp only [vmPageTrysbusy] at h
    split at h
    next hx =>
      obtain ⟨rfl, -⟩ := by simpa using h
      subst x
      have hshared : s.busyLock &&& vpbBitShared ≠ 0 := hok
      rw [ne_eq, hi.shared, Bool.not_eq_true] at hshared
      have hgain := sharers_gainShare s t
      refine hi.move hnot rfl rfl (fun u hu => Function.update_of_ne hu ..) (fun _ _ => rfl)
        (fun hw => .inl ⟨hw, fun h => h⟩) ?_ ((hi.holds.gainShare hshared hroom).congr rfl rfl)
        (fun _ => .inr ?_) trivial
      · change s.busyLock + vpbOneSharer = busyWord (s.gainShare t).sharers s.xbusied w
        rw [hi.word, hgain, hshared, busyWord_succ hroom]
      · change 0 < (s.gainShare t).sharers
        omega
    next =>
      obtain ⟨rfl, -⟩ := by simpa using h
      exact hi.goto hnot trivial

theorem sunbusy_step {p : SunbusyPc} {r : Option Bool} (hi : s.Inv w) (hp : s.pc t = .sunbusy p)
    (h : s.vmPageSunbusy t p = some (s', r)) : ∃ w', s'.Inv w' := by
  have hnot : ∀ unlock, s.pc t ≠ .wakeup unlock := by simp [hp]
  have hok := hi.pcs t
  rw [hp] at hok
  have hshares : 0 < s.shares t := by
    cases p <;> exact hok.1
  have hle := s.shares_le_sharers t
  have hx := hi.holds.not_xbusied hshares
  have hdrop := sharers_dropShare s t hshares
  cases p with
  | enter =>
    have hnop : ¬(s.owner = some t ∨ vmPageSbusied s.busyLock = false) := by
      rw [hi.vmPageSbusied_of_shares hshares]
      simpa using hok.2
    simp only [vmPageSunbusy, hnop, ↓reduceIte, Option.some.injEq, Prod.mk.injEq] at h
    obtain ⟨rfl, -⟩ := h
    exact ⟨w, hi.goto hnot hok⟩
  | load =>
    simp only [vmPageSunbusy] at h
    split at h
    next hmore =>
      obtain ⟨rfl, -⟩ := by simpa using h
      exact ⟨w, hi.goto hnot ⟨hok.1, hok.2, hmore⟩⟩
    next hmore =>
      rw [UInt32.lt_iff_toNat_lt, hi.vpbSharers_eq] at hmore
      have hone : s.sharers = 1 := by
        change ¬1 < s.sharers at hmore
        omega
      split at h
      next hw =>
        rw [hi.waiters] at hw
        have hword : s.busyLock = vpbSharersWord 1 := by
          rw [vpbSharersWord_one, hi.busyLock_eq_busyWord (by decide)]
          exact ⟨hx, hw, fun _ => hone⟩
        simp only [hword, ↓reduceIte, Option.some.injEq, Prod.mk.injEq] at h
        obtain ⟨rfl, -⟩ := h
        exact ⟨w, hi.goto hnot hok⟩
      next hw =>
        rw [hi.waiters, Bool.not_eq_false] at hw
        have hword : s.busyLock = vpbSharersWord 1 ||| vpbBitWaiters := by
          rw [vpbSharersWord_one_waiters, hi.busyLock_eq_busyWord (by decide)]
          exact ⟨hx, hw, fun _ => hone⟩
        simp only [hword, ↓reduceIte, Option.some.injEq, Prod.mk.injEq] at h
        obtain ⟨rfl, -⟩ := h
        exact ⟨w, hi.goto hnot ⟨hok.1, hok.2, rfl⟩⟩
  | casMore x =>
    simp only [vmPageSunbusy] at h
    split at h
    next heq =>
      obtain ⟨rfl, -⟩ := by simpa using h
      subst x
      have hmore := hok.2.2
      rw [UInt32.lt_iff_toNat_lt, hi.vpbSharers_eq] at hmore
      change 1 < s.sharers at hmore
      refine ⟨w, hi.dropShare hnot hshares ?_ .inl (fun _ => by omega) trivial⟩
      have hroom := hi.holds.room
      rw [hi.word, hx, ← hdrop]
      exact busyWord_pred (by omega) w
    next =>
      obtain ⟨rfl, -⟩ := by simpa using h
      exact ⟨w, hi.goto hnot ⟨hok.1, hok.2.1⟩⟩
  | casLast =>
    simp only [vmPageSunbusy] at h
    split at h
    next heq =>
      obtain ⟨rfl, -⟩ := by simpa using h
      rw [vpbSharersWord_one, hi.busyLock_eq_busyWord (by decide)] at heq
      have hone := heq.2.2 rfl
      have hzero : (s.dropShare t).sharers = 0 := by omega
      refine ⟨false, hi.dropShare hnot hshares ?_ (fun hw => ?_) (by simp) trivial⟩
      · rw [hzero]
        exact vpbUnbusied_eq
      · rw [heq.2.1] at hw
        cases hw
    next =>
      obtain ⟨rfl, -⟩ := by simpa using h
      exact ⟨w, hi.goto hnot hok⟩
  | lock x =>
    simp only [vmPageSunbusy] at h
    split at h
    next hfree =>
      obtain ⟨rfl, -⟩ := by simpa using h
      exact ⟨w, hi.acquire hnot hfree ⟨hok.1, rfl, hok.2.2⟩⟩
    next => simp at h
  | casWaiters x =>
    obtain ⟨-, hown, rfl⟩ := hok
    simp only [vmPageSunbusy] at h
    split at h
    next heq =>
      obtain ⟨rfl, -⟩ := by simpa using h
      rw [vpbSharersWord_one_waiters, hi.busyLock_eq_busyWord (by decide)] at heq
      have hone := heq.2.2 rfl
      have hzero : (s.dropShare t).sharers = 0 := by omega
      refine ⟨false, hi.dropShare hnot hshares ?_ (fun _ => .inr ⟨hown, true, rfl⟩) (by simp) hown⟩
      rw [hzero]
      exact vpbUnbusied_eq
    next =>
      obtain ⟨rfl, -⟩ := by simpa using h
      exact ⟨w, hi.goto hnot ⟨hshares, hown⟩⟩
  | retry =>
    simp only [vmPageSunbusy, Option.some.injEq, Prod.mk.injEq] at h
    obtain ⟨rfl, -⟩ := h
    exact ⟨w, hi.release hnot hok.2 ⟨hshares, by simp⟩⟩

theorem xunbusy_step {p : XunbusyPc} {r : Option Bool} (hi : s.Inv w) (hp : s.pc t = .xunbusy p)
    (h : s.vmPageXunbusy t p = some (s', r)) : ∃ w', s'.Inv w' := by
  have hnot : ∀ unlock, s.pc t ≠ .wakeup unlock := by simp [hp]
  have hok := hi.pcs t
  rw [hp] at hok
  have hxbusy : s.xbusy t = true := by
    cases p <;> first
      | exact hok
      | exact hok.1
  have hx : vmPageXbusied s.busyLock = true := by
    rw [hi.vmPageXbusied_eq]
    exact xbusied_of_xbusy s hxbusy
  cases p with
  | hard =>
    simp only [vmPageXunbusy, hx, ↓reduceIte, Option.some.injEq, Prod.mk.injEq] at h
    obtain ⟨rfl, -⟩ := h
    exact ⟨w, hi.goto hnot hok⟩
  | maybelocked =>
    simp only [vmPageXunbusy, hx, ↓reduceIte, Option.some.injEq, Prod.mk.injEq] at h
    obtain ⟨rfl, -⟩ := h
    exact ⟨w, hi.goto hnot hok⟩
  | maybelockedCas =>
    simp only [vmPageXunbusy] at h
    split at h
    next heq =>
      obtain ⟨rfl, -⟩ := by simpa using h
      refine ⟨false, hi.dropXbusy hnot hxbusy (fun hw => ?_) trivial⟩
      rw [(hi.eq_vpbSingleExclusiver heq).2] at hw
      cases hw
    next =>
      split at h
      next hown =>
        obtain ⟨rfl, -⟩ := by simpa using h
        exact ⟨w, hi.goto hnot ⟨hxbusy, hown⟩⟩
      next hown =>
        obtain ⟨rfl, -⟩ := by simpa using h
        exact ⟨w, hi.goto hnot ⟨hxbusy, hown⟩⟩
  | lock =>
    simp only [vmPageXunbusy] at h
    split at h
    next hfree =>
      obtain ⟨rfl, -⟩ := by simpa using h
      exact ⟨w, hi.acquire hnot hfree ⟨hxbusy, rfl⟩⟩
    next => simp at h
  | locked lockacq =>
    have hall : vmPageXbusied s.busyLock = true ∧ s.owner = some t := ⟨hx, hok.2⟩
    simp only [vmPageXunbusy, hall, and_self, ↓reduceIte, Option.some.injEq, Prod.mk.injEq] at h
    obtain ⟨rfl, -⟩ := h
    exact ⟨w, hi.goto hnot hok⟩
  | store lockacq =>
    simp only [vmPageXunbusy, Option.some.injEq, Prod.mk.injEq] at h
    obtain ⟨rfl, -⟩ := h
    exact ⟨false, hi.dropXbusy hnot hxbusy (fun _ => ⟨hok.2, lockacq, rfl⟩) hok.2⟩

theorem downgrade_step {p : DowngradePc} {r : Option Bool} (hi : s.Inv w)
    (hp : s.pc t = .downgrade p) (h : s.vmPageBusyDowngrade t p = some (s', r)) :
    ∃ w', s'.Inv w' := by
  have hnot : ∀ unlock, s.pc t ≠ .wakeup unlock := by simp [hp]
  have hok := hi.pcs t
  rw [hp] at hok
  have hxbusy : s.xbusy t = true := by
    cases p <;> first
      | exact hok
      | exact hok.1
  have hx := xbusied_of_xbusy s hxbusy
  cases p with
  | enter =>
    simp only [vmPageBusyDowngrade, hi.vmPageXbusied_eq, hx, ↓reduceIte, Option.some.injEq,
      Prod.mk.injEq] at h
    obtain ⟨rfl, -⟩ := h
    exact ⟨w, hi.goto hnot ⟨hxbusy, decide_eq_true_iff⟩⟩
  | load locked =>
    have hbit : s.busyLock &&& vpbBitWaiters = if w then vpbBitWaiters else 0 := by
      rw [hi.word]
      exact busyWord_and_waiters hi.holds.room
    simp only [vmPageBusyDowngrade] at h
    split at h
    next hc =>
      obtain ⟨rfl, -⟩ := by simpa using h
      refine ⟨w, hi.goto hnot ⟨hxbusy, ?_, ?_⟩⟩
      · rw [goto_owner, ne_eq, ← hok.2, hc.2]
        simp
      · rw [hbit] at hc ⊢
        split at hc
        next hw => rw [hw]; rfl
        next => exact absurd rfl hc.1
    next hc =>
      obtain ⟨rfl, -⟩ := by simpa using h
      refine ⟨w, hi.goto hnot ⟨hxbusy, ?_⟩⟩
      rw [hbit] at hc ⊢
      cases w with
      | true =>
        have hl : locked = true := by
          by_contra hl
          exact hc ⟨by decide, by simpa using hl⟩
        exact .inr ⟨rfl, hok.2.mp hl⟩
      | false => exact .inl ⟨rfl, hok.2⟩
  | lock x =>
    simp only [vmPageBusyDowngrade] at h
    split at h
    next hfree =>
      obtain ⟨rfl, -⟩ := by simpa using h
      exact ⟨w, hi.acquire hnot hfree ⟨hxbusy, .inr ⟨hok.2.2, rfl⟩⟩⟩
    next => simp at h
  | cas x locked =>
    have hcases := hok.2
    simp only [vmPageBusyDowngrade] at h
    split at h
    next heq =>
      obtain ⟨hdrop, hxfree⟩ := hi.holds.dropXbusy hxbusy
      have h0 : s.sharers = 0 := hi.holds.alone hx
      have hone : (((s.store (vpbSharersWord 1)).dropXbusy t).gainShare t).sharers = 1 := by
        rw [sharers_gainShare, sharers_dropXbusy, sharers_store, h0]
      have hmove : ∀ p, (w = true → s.owner = some t ∧ ∃ unlock, p = .wakeup unlock) →
          ((((s.store (vpbSharersWord 1)).dropXbusy t).gainShare t).goto t p).PcOk false t p →
          ((((s.store (vpbSharersWord 1)).dropXbusy t).gainShare t).goto t p).Inv false := by
        intro p hkeep hpc
        refine hi.move hnot rfl rfl (fun u hu => Function.update_of_ne hu ..)
          (fun u hu => Function.update_of_ne hu ..) (fun hw => .inr (hkeep hw)) ?_
          ((hdrop.gainShare hxfree (by rw [sharers_dropXbusy, h0]; decide)).congr rfl rfl)
          (fun hw => by cases hw) hpc
        rw [hone]
        change vpbSharersWord 1 = busyWord 1 (s.dropXbusy t).xbusied false
        rw [hxfree, vpbSharersWord_one]
      rcases hcases with ⟨rfl, -⟩ | ⟨rfl, hown⟩
      · obtain ⟨rfl, -⟩ := by simpa using h
        refine ⟨false, hmove _ (fun hw => ?_) trivial⟩
        rw [(hi.eq_vpbSingleExclusiver (by simpa using heq)).2] at hw
        cases hw
      · have hne : vpbBitWaiters ≠ 0 := by decide
        simp only [hne, ne_eq, not_false_eq_true, ↓reduceIte, Option.some.injEq,
          Prod.mk.injEq] at h
        obtain ⟨rfl, -⟩ := h
        exact ⟨false, hmove _ (fun _ => ⟨hown, _, rfl⟩) hown⟩
    next =>
      split at h
      next hc =>
        obtain ⟨rfl, -⟩ := by simpa using h
        rcases hcases with ⟨rfl, -⟩ | ⟨-, hown⟩
        · exact absurd rfl hc.1
        · exact ⟨w, hi.goto hnot ⟨hxbusy, hown⟩⟩
      next hc =>
        obtain ⟨rfl, -⟩ := by simpa using h
        refine ⟨w, hi.goto hnot ⟨hxbusy, ?_⟩⟩
        rcases hcases with ⟨-, hown⟩ | ⟨rfl, hown⟩
        · exact hown
        · have hl : locked = true := by
            by_contra hl
            exact hc ⟨by decide, by simpa using hl⟩
          exact iff_of_true hl hown
  | retry =>
    simp only [vmPageBusyDowngrade, Option.some.injEq, Prod.mk.injEq] at h
    obtain ⟨rfl, -⟩ := h
    exact ⟨w, hi.release hnot hok.2 ⟨hxbusy, by simp⟩⟩

theorem busySleep_step {p : BusySleepPc} {nonshared : Bool} {r : Option Bool} (hi : s.Inv w)
    (hp : s.pc t = .busySleep nonshared p) (h : s.vmPageBusySleep t nonshared p = some (s', r)) :
    ∃ w', s'.Inv w' := by
  have hnot : ∀ unlock, s.pc t ≠ .wakeup unlock := by simp [hp]
  have hok := hi.pcs t
  rw [hp] at hok
  cases p with
  | enter =>
    have hown : s.owner = some t := hok
    simp only [vmPageBusySleep, hown, ne_eq, not_true_eq_false, ↓reduceIte] at h
    split at h
    next =>
      obtain ⟨rfl, -⟩ := by simpa using h
      exact ⟨w, hi.goto hnot hown⟩
    next hc =>
      rw [not_or, not_and, not_not] at hc
      split at h
      next =>
        obtain ⟨rfl, -⟩ := by simpa using h
        exact ⟨w, hi.goto hnot ⟨hown, hc⟩⟩
      next hw =>
        obtain ⟨rfl, -⟩ := by simpa using h
        rw [hi.waiters, Bool.not_eq_false] at hw
        exact ⟨w, hi.goto hnot ⟨hown, hw, fun hn => hi.shared.mp (hc.2 hn)⟩⟩
  | cas x =>
    obtain ⟨hown, hbusied, hn⟩ := hok
    simp only [vmPageBusySleep] at h
    split at h
    next heq =>
      obtain ⟨rfl, -⟩ := by simpa using h
      subst x
      refine ⟨true, hi.move hnot rfl rfl (fun _ _ => rfl) (fun _ _ => rfl)
        (fun _ => .inl ⟨rfl, fun h => h⟩) ?_ (hi.holds.congr rfl rfl) (fun _ => ?_)
        ⟨hown, rfl, fun h => hi.shared.mp (hn h)⟩⟩
      · change s.busyLock ||| vpbBitWaiters = busyWord s.sharers s.xbusied true
        rw [hi.word]
        exact busyWord_mark ..
      · rw [ne_eq, hi.unbusied, not_and] at hbusied
        change s.xbusied = true ∨ 0 < s.sharers
        rcases hx : s.xbusied with _ | _
        · exact .inr (Nat.pos_of_ne_zero (hbusied hx))
        · exact .inl rfl
    next =>
      obtain ⟨rfl, -⟩ := by simpa using h
      exact ⟨w, hi.goto hnot hown⟩
  | msleep =>
    simp only [vmPageBusySleep, Option.some.injEq, Prod.mk.injEq] at h
    obtain ⟨rfl, -⟩ := h
    exact ⟨w, hi.release hnot hok.1 ⟨by simp, .inl hok.2⟩⟩
  | asleep => simp [vmPageBusySleep] at h

theorem flash_step {p : FlashPc} {r : Option Bool} (hi : s.Inv w) (hp : s.pc t = .flash p)
    (h : s.vmPageFlash t p = some (s', r)) : ∃ w', s'.Inv w' := by
  have hnot : ∀ unlock, s.pc t ≠ .wakeup unlock := by simp [hp]
  have hok := hi.pcs t
  rw [hp] at hok
  cases p with
  | enter =>
    have hown : s.owner = some t := hok
    simp only [vmPageFlash, hown, ↓reduceIte, Option.some.injEq, Prod.mk.injEq] at h
    obtain ⟨rfl, -⟩ := h
    exact ⟨w, hi.goto hnot hown⟩
  | load =>
    simp only [vmPageFlash] at h
    split at h
    next =>
      obtain ⟨rfl, -⟩ := by simpa using h
      exact ⟨w, hi.goto hnot trivial⟩
    next hw =>
      obtain ⟨rfl, -⟩ := by simpa using h
      exact ⟨w, hi.goto hnot ⟨hok, hw⟩⟩
  | cas x =>
    simp only [vmPageFlash] at h
    split at h
    next heq =>
      obtain ⟨rfl, -⟩ := by simpa using h
      subst x
      refine ⟨false, hi.move hnot rfl rfl (fun _ _ => rfl) (fun _ _ => rfl)
        (fun _ => .inr ⟨hok.1, false, rfl⟩) ?_ (hi.holds.congr rfl rfl) (fun h => by cases h)
        hok.1⟩
      change s.busyLock &&& ~~~vpbBitWaiters = busyWord s.sharers s.xbusied false
      rw [hi.word]
      exact busyWord_unmark hi.holds.room ..
    next =>
      obtain ⟨rfl, -⟩ := by simpa using h
      exact ⟨w, hi.goto hnot hok.1⟩

/-- Nobody is asleep once the wakeup is done. -/
theorem wakeup_step {unlock : Bool} (hi : s.Inv w) (hp : s.pc t = .wakeup unlock) :
    (s.wake.goto t (if unlock then .unlock else .idle)).Inv w := by
  refine ⟨hi.word, hi.holds.congr rfl rfl, hi.busied, fun u => ?_⟩
  by_cases hut : u = t
  · subst u
    have hok := hi.pcs t
    rw [hp] at hok
    rw [goto_pc]
    cases unlock with
    | true => exact hok
    | false => trivial
  · rw [goto_pc_of_ne _ t _ hut]
    by_cases hsleep : s.pc u = .busySleep true .asleep ∨ s.pc u = .busySleep false .asleep
    · have hidle : s.wake.pc u = .idle := if_pos hsleep
      rw [hidle]
      trivial
    · have hsame : s.wake.pc u = s.pc u := if_neg hsleep
      rw [hsame]
      refine (hi.pcs u).of_apart hut ⟨fun _ _ => .rfl, fun _ _ => Nat.le_refl _, fun _ _ h => h⟩
        (fun nonshared hs => ?_) fun hw => .inl ⟨hw, fun h => h⟩
      rw [hs] at hsleep
      cases nonshared <;> simp at hsleep

theorem run_step {r : Option Bool} (hi : s.Inv w) (hroom : s.sharers + 1 < 2 ^ 29)
    (h : s.run t = some (s', r)) : ∃ w', s'.Inv w' := by
  have hok := hi.pcs t
  unfold run at h
  rcases hp : s.pc t with _ | p | p | p | p | ⟨nonshared, p⟩ | p | unlock | _ | _ <;>
    rw [hp] at h hok
  case idle => simp at h
  case trysbusy => exact ⟨w, hi.trysbusy_step hroom hp h⟩
  case sunbusy => exact hi.sunbusy_step hp h
  case xunbusy => exact hi.xunbusy_step hp h
  case downgrade => exact hi.downgrade_step hp h
  case busySleep => exact hi.busySleep_step hp h
  case flash => exact hi.flash_step hp h
  case wakeup =>
    obtain ⟨rfl, -⟩ := by simpa using h
    exact ⟨w, hi.wakeup_step hp⟩
  case unlock =>
    obtain ⟨rfl, -⟩ := by simpa using h
    exact ⟨w, hi.release (by simp [hp]) hok trivial⟩
  case panicked => simp at h

theorem passShare {u : T} (hi : s.Inv w) (hp : s.pc t = .idle) (ht : 0 < s.shares t) :
    ((s.dropShare t).gainShare u).Inv w := by
  have hx := hi.holds.not_xbusied ht
  have hdrop := sharers_dropShare s t ht
  have hgain := sharers_gainShare (s.dropShare t) u
  have hsum : ((s.dropShare t).gainShare u).sharers = s.sharers := hgain.trans hdrop
  have hholds : ((s.dropShare t).gainShare u).HoldsOk :=
    (hi.holds.dropShare ht).gainShare hx (by rw [hdrop]; exact hi.holds.room)
  refine hi.of_apart ⟨fun _ _ => .rfl, fun v hv => ?_, fun _ _ h => h⟩ (fun _ _ => rfl)
    (by simp [hp]) (fun hw => .inl ⟨hw, fun h => h⟩) ?_ hholds ?_ ?_ (t := t)
  · have hkeep : (s.dropShare t).shares v = s.shares v := Function.update_of_ne hv ..
    rw [← hkeep]
    by_cases hvu : v = u
    · subst v
      have hself : ((s.dropShare t).gainShare u).shares u = (s.dropShare t).shares u + 1 :=
        Function.update_self ..
      omega
    · exact Nat.le_of_eq (Function.update_of_ne hvu ..).symm
  · rw [hsum]
    exact hi.word
  · rw [hsum]
    exact hi.busied
  · change PcOk _ w t (s.pc t)
    rw [hp]
    trivial

theorem passXbusy {u : T} (hi : s.Inv w) (hp : s.pc t = .idle) (ht : s.xbusy t = true) :
    ((s.dropXbusy t).gainXbusy u).Inv w := by
  have hx := xbusied_of_xbusy s ht
  have h0 := hi.holds.alone hx
  have hgain := xbusied_gainXbusy (s.dropXbusy t) u
  obtain ⟨hdrop, hfree⟩ := hi.holds.dropXbusy ht
  refine hi.of_apart ⟨fun _ _ => .rfl, fun _ _ => Nat.le_refl _, fun v hv hxv => ?_⟩
    (fun _ _ => rfl) (by simp [hp]) (fun hw => .inl ⟨hw, fun _ => hgain⟩) ?_
    (hdrop.gainXbusy hfree h0) (fun _ => .inl hgain) ?_ (t := t)
  · exact absurd (hi.holds.single v t hxv ht) hv
  · rw [hgain]
    change s.busyLock = busyWord s.sharers true w
    rw [hi.word, hx]
  · change PcOk _ w t (s.pc t)
    rw [hp]
    trivial

theorem call_step {c : BusyCall T} {r : Option Bool} (hi : s.Inv w) (hp : s.pc t = .idle)
    (h : s.call t c = some (s', r)) : ∃ w', s'.Inv w' := by
  have hnot : ∀ unlock, s.pc t ≠ .wakeup unlock := by simp [hp]
  cases c with
  | trysbusy =>
    obtain ⟨rfl, -⟩ := by simpa [call] using h
    exact ⟨w, hi.goto hnot trivial⟩
  | tryxbusy =>
    simp only [call] at h
    split at h
    next heq =>
      obtain ⟨rfl, -⟩ := by simpa using h
      have hfree := hi.unbusied.mp heq
      have hgain := xbusied_gainXbusy s t
      have hw : w = false := by
        rw [vpbUnbusied_eq, hi.busyLock_eq_busyWord (by decide)] at heq
        exact heq.2.1
      have hinv : (((s.store vpbSingleExclusiver).gainXbusy t).goto t .idle).Inv false := by
        refine hi.move hnot rfl rfl (fun _ _ => rfl) (fun u hu => Function.update_of_ne hu ..)
          (fun h => ?_) ?_ ((hi.holds.gainXbusy hfree.1 hfree.2).congr rfl rfl)
          (fun h => by cases h) trivial
        · rw [hw] at h
          cases h
        · change vpbSingleExclusiver = busyWord s.sharers (s.gainXbusy t).xbusied false
          rw [hgain]
          exact vpbSingleExclusiver_eq
      rw [goto_self ((s.store vpbSingleExclusiver).gainXbusy t) t hp] at hinv
      exact ⟨false, hinv⟩
    next =>
      obtain ⟨rfl, -⟩ := by simpa using h
      exact ⟨w, hi⟩
  | sunbusy =>
    simp only [call] at h
    split at h
    next hc =>
      obtain ⟨rfl, -⟩ := by simpa using h
      exact ⟨w, hi.goto hnot hc⟩
    next => simp at h
  | xunbusy =>
    simp only [call] at h
    split at h
    next hc =>
      split at h
      next heq =>
        obtain ⟨rfl, -⟩ := by simpa using h
        have hinv : (((s.store vpbUnbusied).dropXbusy t).goto t .idle).Inv false := by
          refine hi.dropXbusy hnot hc.1 (fun h => ?_) trivial
          rw [(hi.eq_vpbSingleExclusiver heq).2] at h
          cases h
        rw [goto_self ((s.store vpbUnbusied).dropXbusy t) t hp] at hinv
        exact ⟨false, hinv⟩
      next =>
        obtain ⟨rfl, -⟩ := by simpa using h
        exact ⟨w, hi.goto hnot hc⟩
    next => simp at h
  | xunbusyMaybelocked =>
    simp only [call] at h
    split at h
    next hc =>
      obtain ⟨rfl, -⟩ := by simpa using h
      exact ⟨w, hi.goto hnot hc⟩
    next => simp at h
  | busyDowngrade =>
    simp only [call] at h
    split at h
    next hc =>
      obtain ⟨rfl, -⟩ := by simpa using h
      exact ⟨w, hi.goto hnot hc⟩
    next => simp at h
  | busySleep nonshared =>
    simp only [call] at h
    split at h
    next hc =>
      obtain ⟨rfl, -⟩ := by simpa using h
      exact ⟨w, hi.goto hnot hc⟩
    next => simp at h
  | flash =>
    simp only [call] at h
    split at h
    next hc =>
      obtain ⟨rfl, -⟩ := by simpa using h
      exact ⟨w, hi.goto hnot hc⟩
    next => simp at h
  | lock =>
    simp only [call] at h
    split at h
    next hc =>
      obtain ⟨rfl, -⟩ := by simpa using h
      have hinv : ((s.acquire t).goto t .idle).Inv w := hi.acquire hnot hc trivial
      rw [goto_self (s.acquire t) t hp] at hinv
      exact ⟨w, hinv⟩
    next => simp at h
  | unlock =>
    simp only [call] at h
    split at h
    next hc =>
      obtain ⟨rfl, -⟩ := by simpa using h
      have hinv : (s.release.goto t .idle).Inv w := hi.release hnot hc trivial
      rw [goto_self s.release t hp] at hinv
      exact ⟨w, hinv⟩
    next => simp at h
  | passShare u =>
    simp only [call] at h
    split at h
    next hc =>
      obtain ⟨rfl, -⟩ := by simpa using h
      exact ⟨w, hi.passShare hp hc⟩
    next => simp at h
  | passXbusy u =>
    simp only [call] at h
    split at h
    next hc =>
      obtain ⟨rfl, -⟩ := by simpa using h
      exact ⟨w, hi.passXbusy hp hc⟩
    next => simp at h

end Inv

end BusyPage

end FreeBSDEdits
