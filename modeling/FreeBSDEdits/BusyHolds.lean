import FreeBSDEdits.BusyLock
import Mathlib.Algebra.Order.BigOperators.Group.Finset

namespace FreeBSDEdits

namespace BusyPage

section

variable {T : Type} (s : BusyPage T) (t : T)

/-- A thread holding the page lock is about to wake every sleeper. -/
def WakePending : Prop := ∃ t unlock, s.pc t = .wakeup unlock

@[simp] theorem release_owner : s.release.owner = none := rfl

section

variable [DecidableEq T]

@[simp] theorem goto_pc (p : BusyPc) : (s.goto t p).pc t = p := Function.update_self ..

theorem goto_pc_of_ne {u : T} (p : BusyPc) (h : u ≠ t) : (s.goto t p).pc u = s.pc u :=
  Function.update_of_ne h ..

theorem goto_self {p : BusyPc} (h : s.pc t = p) : s.goto t p = s := by
  unfold goto
  rw [← h, Function.update_eq_self]

@[simp] theorem goto_owner (p : BusyPc) : (s.goto t p).owner = s.owner := rfl
@[simp] theorem goto_xbusy (p : BusyPc) : (s.goto t p).xbusy = s.xbusy := rfl

end

variable [Fintype T]

@[simp] theorem sharers_store (x : UInt32) : (s.store x).sharers = s.sharers := rfl

theorem shares_le_sharers : s.shares t ≤ s.sharers :=
  Finset.single_le_sum (fun _ _ => Nat.zero_le _) (Finset.mem_univ t)

theorem xbusied_of_xbusy {t : T} (h : s.xbusy t = true) : s.xbusied = true :=
  decide_eq_true ⟨t, h⟩

variable [DecidableEq T]

@[simp] theorem sharers_dropXbusy : (s.dropXbusy t).sharers = s.sharers := rfl
@[simp] theorem xbusied_gainShare : (s.gainShare t).xbusied = s.xbusied := rfl
@[simp] theorem xbusied_dropShare : (s.dropShare t).xbusied = s.xbusied := rfl

theorem sharers_update (n : Nat) :
    (∑ u, Function.update s.shares t n u) + s.shares t = s.sharers + n := by
  have h₁ := Finset.add_sum_erase Finset.univ (Function.update s.shares t n) (Finset.mem_univ t)
  have h₂ := Finset.add_sum_erase Finset.univ s.shares (Finset.mem_univ t)
  have h₃ : ∑ u ∈ Finset.univ.erase t, Function.update s.shares t n u =
      ∑ u ∈ Finset.univ.erase t, s.shares u :=
    Finset.sum_congr rfl fun u hu => Function.update_of_ne (Finset.ne_of_mem_erase hu) ..
  rw [Function.update_self, h₃] at h₁
  change _ = s.sharers at h₂
  omega

theorem sharers_gainShare : (s.gainShare t).sharers = s.sharers + 1 := by
  have h := s.sharers_update t (s.shares t + 1)
  change (s.gainShare t).sharers + _ = _ at h
  omega

theorem sharers_dropShare (h : 0 < s.shares t) : (s.dropShare t).sharers + 1 = s.sharers := by
  have hu := s.sharers_update t (s.shares t - 1)
  change (s.dropShare t).sharers + _ = _ at hu
  omega

theorem xbusied_gainXbusy : (s.gainXbusy t).xbusied = true :=
  xbusied_of_xbusy _ (t := t) (Function.update_self ..)

end

variable {T : Type} [Fintype T]

/-- Who may hold the page at the same time. -/
structure HoldsOk (s : BusyPage T) : Prop where
  room : s.sharers < 2 ^ 29
  alone : s.xbusied = true → s.sharers = 0
  single : ∀ t u, s.xbusy t = true → s.xbusy u = true → t = u

namespace HoldsOk

variable {s s' : BusyPage T} {t : T}

theorem congr (h : s.HoldsOk) (hs : s'.shares = s.shares) (hx : s'.xbusy = s.xbusy) :
    s'.HoldsOk := by
  have hsum : s'.sharers = s.sharers := by
    unfold sharers
    rw [hs]
  have hany : s'.xbusied = s.xbusied := by
    unfold xbusied
    rw [hx]
  refine ⟨?_, ?_, ?_⟩
  · rw [hsum]
    exact h.room
  · rw [hsum, hany]
    exact h.alone
  · rw [hx]
    exact h.single

theorem shares_eq_zero (h : s.HoldsOk) (hx : s.xbusied = true) (u : T) : s.shares u = 0 := by
  have hle := s.shares_le_sharers u
  have h0 := h.alone hx
  omega

theorem not_xbusied (h : s.HoldsOk) (ht : 0 < s.shares t) : s.xbusied = false := by
  rcases hx : s.xbusied with _ | _
  · rfl
  · have h0 := h.shares_eq_zero hx t
    omega

variable [DecidableEq T]

theorem gainShare (h : s.HoldsOk) (hx : s.xbusied = false) (hroom : s.sharers + 1 < 2 ^ 29) :
    (s.gainShare t).HoldsOk where
  room := by
    rw [sharers_gainShare]
    exact hroom
  alone hx' := by
    rw [xbusied_gainShare, hx] at hx'
    cases hx'
  single := h.single

theorem dropShare (h : s.HoldsOk) (ht : 0 < s.shares t) : (s.dropShare t).HoldsOk where
  room := by
    have hd := s.sharers_dropShare t ht
    have hr := h.room
    omega
  alone hx := by
    rw [xbusied_dropShare, h.not_xbusied ht] at hx
    cases hx
  single := h.single

theorem gainXbusy (h : s.HoldsOk) (hx : s.xbusied = false) (h0 : s.sharers = 0) :
    (s.gainXbusy t).HoldsOk where
  room := h.room
  alone _ := h0
  single u v hu hv := by
    have hall : ∀ w, (s.gainXbusy t).xbusy w = true → w = t := by
      intro w hw
      by_contra hne
      have hw' : s.xbusy w = true := by
        rw [← hw]
        exact (Function.update_of_ne hne ..).symm
      rw [xbusied_of_xbusy s hw'] at hx
      cases hx
    rw [hall u hu, hall v hv]

theorem dropXbusy (h : s.HoldsOk) (ht : s.xbusy t = true) :
    (s.dropXbusy t).HoldsOk ∧ (s.dropXbusy t).xbusied = false := by
  have hnone : ∀ u, (s.dropXbusy t).xbusy u = false := by
    intro u
    by_cases hu : u = t
    · subst u
      exact Function.update_self ..
    · have heq : (s.dropXbusy t).xbusy u = s.xbusy u := Function.update_of_ne hu ..
      rcases hx : s.xbusy u with _ | _
      · rw [heq, hx]
      · exact absurd (h.single u t hx ht) hu
  have hx : (s.dropXbusy t).xbusied = false := by
    apply decide_eq_false
    rintro ⟨u, hu⟩
    rw [hnone u] at hu
    cases hu
  refine ⟨⟨h.room, fun _ => h.alone (xbusied_of_xbusy s ht), fun u v hu _ => ?_⟩, hx⟩
  rw [hnone u] at hu
  cases hu

end HoldsOk

/-- What a thread can count on where it stands, while the other threads go on. -/
def PcOk (s : BusyPage T) (waiters : Bool) (t : T) : BusyPc → Prop
  | .idle | .trysbusy .load => True
  | .trysbusy (.cas x) => x &&& vpbBitShared ≠ 0
  | .sunbusy .enter | .sunbusy .load | .sunbusy .casLast => 0 < s.shares t ∧ s.owner ≠ some t
  | .sunbusy (.casMore x) => 0 < s.shares t ∧ s.owner ≠ some t ∧ 1 < vpbSharers x
  | .sunbusy (.lock x) =>
    0 < s.shares t ∧ s.owner ≠ some t ∧ x = vpbSharersWord 1 ||| vpbBitWaiters
  | .sunbusy (.casWaiters x) =>
    0 < s.shares t ∧ s.owner = some t ∧ x = vpbSharersWord 1 ||| vpbBitWaiters
  | .sunbusy .retry => 0 < s.shares t ∧ s.owner = some t
  | .xunbusy .hard | .xunbusy .lock => s.xbusy t = true ∧ s.owner ≠ some t
  | .xunbusy .maybelocked | .xunbusy .maybelockedCas | .downgrade .enter => s.xbusy t = true
  | .xunbusy (.locked _) | .xunbusy (.store _) | .downgrade .retry =>
    s.xbusy t = true ∧ s.owner = some t
  | .downgrade (.load locked) => s.xbusy t = true ∧ (locked = true ↔ s.owner = some t)
  | .downgrade (.lock x) => s.xbusy t = true ∧ s.owner ≠ some t ∧ x = vpbBitWaiters
  | .downgrade (.cas x locked) =>
    s.xbusy t = true ∧ (x = 0 ∧ (locked = true ↔ s.owner = some t) ∨
      x = vpbBitWaiters ∧ s.owner = some t)
  | .busySleep _ .enter | .flash .enter | .flash .load | .wakeup _ | .unlock => s.owner = some t
  | .busySleep nonshared (.cas x) =>
    s.owner = some t ∧ x ≠ vpbUnbusied ∧ (nonshared = true → x &&& vpbBitShared = 0)
  | .busySleep nonshared .msleep =>
    s.owner = some t ∧ waiters = true ∧ (nonshared = true → s.xbusied = true)
  | .busySleep nonshared .asleep =>
    s.owner ≠ some t ∧ (waiters = true ∧ (nonshared = true → s.xbusied = true) ∨ s.WakePending)
  | .flash (.cas x) => s.owner = some t ∧ x &&& vpbBitWaiters ≠ 0
  | .panicked => False

/-- `waiters` is the third bit of the word. -/
structure Inv (s : BusyPage T) (waiters : Bool) : Prop where
  word : s.busyLock = busyWord s.sharers s.xbusied waiters
  holds : s.HoldsOk
  busied : waiters = true → s.xbusied = true ∨ 0 < s.sharers
  pcs : ∀ t, s.PcOk waiters t (s.pc t)

/-- What a step of `t` leaves to the others. -/
structure Apart {T : Type} (t : T) (s s' : BusyPage T) : Prop where
  owner : ∀ u, u ≠ t → (s'.owner = some u ↔ s.owner = some u)
  shares : ∀ u, u ≠ t → s.shares u ≤ s'.shares u
  xbusy : ∀ u, u ≠ t → s.xbusy u = true → s'.xbusy u = true

theorem WakePending.of_pc {T : Type} {s s' : BusyPage T} {t : T}
    (hpc : ∀ u, u ≠ t → s'.pc u = s.pc u) (hnot : ∀ unlock, s.pc t ≠ .wakeup unlock)
    (hp : s.WakePending) : s'.WakePending := by
  obtain ⟨u, unlock, hu⟩ := hp
  refine ⟨u, unlock, ?_⟩
  rw [hpc u fun h => hnot unlock (h ▸ hu), hu]

/-- A thread that is not running keeps what it counts on: the waiters bit stays set and the page
exclusive until a holder of the page lock is about to wake the sleepers. -/
theorem PcOk.of_apart {s s' : BusyPage T} {w w' : Bool} {t u : T} {p : BusyPc}
    (hok : s.PcOk w u p) (hut : u ≠ t) (ha : Apart t s s')
    (hpend : ∀ nonshared, p = .busySleep nonshared .asleep → s.WakePending → s'.WakePending)
    (hkeep : w = true → (w' = true ∧ (s.xbusied = true → s'.xbusied = true)) ∨
      s.owner = some t ∧ s'.WakePending) : s'.PcOk w' u p := by
  have ho := ha.owner u hut
  have hs := ha.shares u hut
  have hx := ha.xbusy u hut
  rcases p with _ | p | p | p | p | ⟨nonshared, p⟩ | p | _ | _ | _
  case busySleep =>
    cases p with
    | enter => exact ho.mpr hok
    | cas x => exact ⟨ho.mpr hok.1, hok.2⟩
    | msleep =>
      obtain ⟨hown, hw, hn⟩ := hok
      rcases hkeep hw with ⟨hw', hx'⟩ | ⟨hown', -⟩
      · exact ⟨ho.mpr hown, hw', fun h => hx' (hn h)⟩
      · rw [hown, Option.some.injEq] at hown'
        exact absurd hown' hut
    | asleep =>
      refine ⟨fun h => hok.1 (ho.mp h), ?_⟩
      rcases hok.2 with ⟨hw, hn⟩ | hp
      · rcases hkeep hw with ⟨hw', hx'⟩ | ⟨-, hp⟩
        · exact .inl ⟨hw', fun h => hx' (hn h)⟩
        · exact .inr hp
      · exact .inr (hpend nonshared rfl hp)
  case trysbusy => cases p <;> exact hok
  case sunbusy =>
    cases p <;> simp only [PcOk, ne_eq] at hok ⊢ <;> rw [ho] <;>
      exact ⟨Nat.lt_of_lt_of_le hok.1 hs, hok.2⟩
  case xunbusy =>
    cases p <;> simp only [PcOk, ne_eq] at hok ⊢ <;> first
      | exact hx hok
      | (rw [ho]; exact ⟨hx hok.1, hok.2⟩)
  case downgrade =>
    cases p <;> simp only [PcOk, ne_eq] at hok ⊢ <;> first
      | exact hx hok
      | (rw [ho]; exact ⟨hx hok.1, hok.2⟩)
  case flash =>
    cases p <;> simp only [PcOk] at hok ⊢ <;> rw [ho] <;> exact hok
  case idle => trivial
  case wakeup => exact ho.mpr hok
  case unlock => exact ho.mpr hok
  case panicked => exact hok

namespace Inv

variable {s s' : BusyPage T} {w w' : Bool} {t : T}

section

variable (hi : s.Inv w)

include hi

theorem shared : s.busyLock &&& vpbBitShared = 0 ↔ s.xbusied = true := by
  rw [hi.word]
  exact busyWord_shared hi.holds.room

theorem waiters : s.busyLock &&& vpbBitWaiters = 0 ↔ w = false := by
  rw [hi.word]
  exact busyWord_waiters hi.holds.room

theorem vpbSharers_eq : (vpbSharers s.busyLock).toNat = s.sharers := by
  rw [hi.word, busyWord_sharers hi.holds.room]
  split
  next hx => exact (hi.holds.alone hx).symm
  next => rfl

theorem busyLock_eq_busyWord {n : Nat} {exclusive waiters : Bool} (hn : n < 2 ^ 29) :
    s.busyLock = busyWord n exclusive waiters ↔
      s.xbusied = exclusive ∧ w = waiters ∧ (exclusive = false → s.sharers = n) := by
  rw [hi.word]
  constructor
  · intro h
    obtain ⟨hx, hw, hs⟩ := busyWord_inj hi.holds.room hn h
    exact ⟨hx, hw, fun h => hs (hx.trans h)⟩
  · rintro ⟨hx, rfl, hs⟩
    rw [hx]
    cases exclusive with
    | true => exact busyWord_of_exclusive ..
    | false => rw [hs rfl]

theorem unbusied : s.busyLock = vpbUnbusied ↔ s.xbusied = false ∧ s.sharers = 0 := by
  rw [vpbUnbusied_eq, hi.busyLock_eq_busyWord (by decide)]
  constructor
  · rintro ⟨hx, -, hs⟩
    exact ⟨hx, hs rfl⟩
  · rintro ⟨hx, hs⟩
    refine ⟨hx, ?_, fun _ => hs⟩
    by_contra hw
    rcases hi.busied (by simpa using hw) with h | h
    · rw [hx] at h
      cases h
    · omega

theorem vmPageXbusied_eq : vmPageXbusied s.busyLock = s.xbusied := by
  have h : busyWord s.sharers s.xbusied w &&& vpbBitExclusive = 0 ↔ s.xbusied = false :=
    busyWord_exclusive hi.holds.room
  rw [← hi.word] at h
  rcases hx : s.xbusied with _ | _
  · rw [hx] at h
    simp [vmPageXbusied, vpbSingleExclusiver, h.mpr rfl]
  · rw [hx] at h
    have hne : s.busyLock &&& vpbBitExclusive ≠ 0 := fun h0 => by cases h.mp h0
    simpa [vmPageXbusied, vpbSingleExclusiver] using hne

theorem vmPageSbusied_of_shares (ht : 0 < s.shares t) : vmPageSbusied s.busyLock = true := by
  have hx := hi.holds.not_xbusied ht
  have hle := s.shares_le_sharers t
  have hshared : s.busyLock &&& vpbBitShared ≠ 0 := by
    intro h
    rw [hi.shared, hx] at h
    cases h
  have hbusied : s.busyLock ≠ vpbUnbusied := by
    intro h
    have h0 := (hi.unbusied.mp h).2
    omega
  simp [vmPageSbusied, hshared, hbusied]

theorem not_panicked : s.pc t ≠ .panicked := by
  intro hp
  have hok := hi.pcs t
  rw [hp] at hok
  exact hok

theorem eq_vpbSingleExclusiver (h : s.busyLock = vpbSingleExclusiver) :
    s.xbusied = true ∧ w = false := by
  rw [vpbSingleExclusiver_eq (n := 0), hi.busyLock_eq_busyWord (by decide)] at h
  exact ⟨h.1, h.2.1⟩

end

theorem start : (start : BusyPage T).Inv false := by
  have hx : (BusyPage.start : BusyPage T).xbusied = false := by
    apply decide_eq_false
    rintro ⟨t, ht⟩
    cases ht
  have h0 : (BusyPage.start : BusyPage T).sharers = 0 := Finset.sum_const_zero
  have hnone : ∀ t u : T, (BusyPage.start : BusyPage T).xbusy t = true →
      (BusyPage.start : BusyPage T).xbusy u = true → t = u := by
    intro t u ht
    cases ht
  refine ⟨?_, ⟨?_, fun _ => h0, hnone⟩, ?_, fun _ => trivial⟩
  · rw [h0, hx]
    exact vpbUnbusied_eq
  · rw [h0]
    decide
  · intro hw
    cases hw

/-- A step of `t` keeps the invariant when it leaves the others alone and tells the sleepers. -/
theorem of_apart (hi : s.Inv w) (ha : Apart t s s') (hpcs : ∀ u, u ≠ t → s'.pc u = s.pc u)
    (hnot : ∀ unlock, s.pc t ≠ .wakeup unlock)
    (hkeep : w = true → (w' = true ∧ (s.xbusied = true → s'.xbusied = true)) ∨
      s.owner = some t ∧ ∃ unlock, s'.pc t = .wakeup unlock)
    (hword : s'.busyLock = busyWord s'.sharers s'.xbusied w') (hholds : s'.HoldsOk)
    (hbusied : w' = true → s'.xbusied = true ∨ 0 < s'.sharers)
    (hpc : s'.PcOk w' t (s'.pc t)) : s'.Inv w' := by
  refine ⟨hword, hholds, hbusied, fun u => ?_⟩
  by_cases hut : u = t
  · subst u
    exact hpc
  · rw [hpcs u hut]
    refine (hi.pcs u).of_apart hut ha (fun _ _ => WakePending.of_pc hpcs hnot) fun hw => ?_
    rcases hkeep hw with h | ⟨hown, unlock, hp⟩
    · exact .inl h
    · exact .inr ⟨hown, t, unlock, hp⟩

variable [DecidableEq T]

/-- A change of the word or of what `t` holds, `t` going to `p`. -/
theorem move {m : BusyPage T} {p : BusyPc} (hi : s.Inv w)
    (hnot : ∀ unlock, s.pc t ≠ .wakeup unlock) (hpcs : m.pc = s.pc) (hown : m.owner = s.owner)
    (hshares : ∀ u, u ≠ t → m.shares u = s.shares u) (hx : ∀ u, u ≠ t → m.xbusy u = s.xbusy u)
    (hkeep : w = true → (w' = true ∧ (s.xbusied = true → m.xbusied = true)) ∨
      s.owner = some t ∧ ∃ unlock, p = .wakeup unlock)
    (hword : m.busyLock = busyWord m.sharers m.xbusied w') (hholds : m.HoldsOk)
    (hbusied : w' = true → m.xbusied = true ∨ 0 < m.sharers)
    (hpc : (m.goto t p).PcOk w' t p) : (m.goto t p).Inv w' := by
  refine hi.of_apart ⟨fun u _ => ?_, fun u hu => ?_, fun u hu hxu => ?_⟩ (fun u hu => ?_) hnot ?_
    hword (hholds.congr rfl rfl) hbusied ?_
  · rw [goto_owner, hown]
  · exact Nat.le_of_eq (hshares u hu).symm
  · rw [goto_xbusy, hx u hu]
    exact hxu
  · rw [goto_pc_of_ne m t p hu, hpcs]
  · rw [goto_pc]
    exact hkeep
  · rw [goto_pc]
    exact hpc

/-- A step that touches neither the word nor who holds the page. -/
theorem goto {p : BusyPc} (hi : s.Inv w) (hnot : ∀ unlock, s.pc t ≠ .wakeup unlock)
    (hpc : (s.goto t p).PcOk w t p) : (s.goto t p).Inv w :=
  hi.move hnot rfl rfl (fun _ _ => rfl) (fun _ _ => rfl) (fun hw => .inl ⟨hw, fun h => h⟩) hi.word
    hi.holds hi.busied hpc

theorem acquire {p : BusyPc} (hi : s.Inv w) (hnot : ∀ unlock, s.pc t ≠ .wakeup unlock)
    (hfree : s.owner = none) (hpc : ((s.acquire t).goto t p).PcOk w t p) :
    ((s.acquire t).goto t p).Inv w := by
  refine hi.of_apart ⟨fun u hu => ?_, fun _ _ => Nat.le_refl _, fun _ _ h => h⟩
    (fun u hu => goto_pc_of_ne _ t p hu) hnot (fun hw => .inl ⟨hw, fun h => h⟩) hi.word
    (hi.holds.congr rfl rfl) hi.busied ?_
  · change some t = some u ↔ _
    rw [hfree]
    simp [Ne.symm hu]
  · rw [goto_pc]
    exact hpc

theorem release {p : BusyPc} (hi : s.Inv w) (hnot : ∀ unlock, s.pc t ≠ .wakeup unlock)
    (hown : s.owner = some t) (hpc : (s.release.goto t p).PcOk w t p) :
    (s.release.goto t p).Inv w := by
  refine hi.of_apart ⟨fun u hu => ?_, fun _ _ => Nat.le_refl _, fun _ _ h => h⟩
    (fun u hu => goto_pc_of_ne _ t p hu) hnot (fun hw => .inl ⟨hw, fun h => h⟩) hi.word
    (hi.holds.congr rfl rfl) hi.busied ?_
  · change none = some u ↔ _
    rw [hown]
    simp [Ne.symm hu]
  · rw [goto_pc]
    exact hpc

theorem dropShare {x : UInt32} {p : BusyPc} (hi : s.Inv w)
    (hnot : ∀ unlock, s.pc t ≠ .wakeup unlock) (ht : 0 < s.shares t)
    (hword : x = busyWord (s.dropShare t).sharers false w')
    (hkeep : w = true → w' = true ∨ s.owner = some t ∧ ∃ unlock, p = .wakeup unlock)
    (hbusied : w' = true → 0 < (s.dropShare t).sharers)
    (hpc : (((s.store x).dropShare t).goto t p).PcOk w' t p) :
    (((s.store x).dropShare t).goto t p).Inv w' := by
  have hx := hi.holds.not_xbusied ht
  refine hi.move hnot rfl rfl (fun u hu => Function.update_of_ne hu ..) (fun _ _ => rfl)
    (fun hw => (hkeep hw).imp_left fun h => ⟨h, fun h => h⟩) ?_
    ((hi.holds.dropShare ht).congr rfl rfl) (fun hw => .inr (hbusied hw)) hpc
  change x = busyWord (s.dropShare t).sharers s.xbusied w'
  rw [hword, hx]

theorem dropXbusy {p : BusyPc} (hi : s.Inv w) (hnot : ∀ unlock, s.pc t ≠ .wakeup unlock)
    (ht : s.xbusy t = true) (hkeep : w = true → s.owner = some t ∧ ∃ unlock, p = .wakeup unlock)
    (hpc : (((s.store vpbUnbusied).dropXbusy t).goto t p).PcOk false t p) :
    (((s.store vpbUnbusied).dropXbusy t).goto t p).Inv false := by
  obtain ⟨hholds, hx⟩ := hi.holds.dropXbusy ht
  have h0 := hi.holds.alone (xbusied_of_xbusy s ht)
  refine hi.move hnot rfl rfl (fun _ _ => rfl) (fun u hu => Function.update_of_ne hu ..)
    (fun hw => .inr (hkeep hw)) ?_ (hholds.congr rfl rfl) (fun h => by cases h) hpc
  change vpbUnbusied = busyWord s.sharers (s.dropXbusy t).xbusied false
  rw [h0, hx, vpbUnbusied_eq]

end Inv

end BusyPage

end FreeBSDEdits
