import FreeBSDEdits.PageLife
import Mathlib.Data.Finset.Card

namespace FreeBSDEdits

/-- The fields that the queue calls leave alone. -/
structure SameHolds (p p' : Page) : Prop where
  object : p'.object = p.object
  busyLock : p'.busyLock = p.busyLock
  holdCount : p'.holdCount = p.holdCount
  fictitious : p'.fictitious = p.fictitious
  unholdfree : p'.unholdfree = p.unholdfree

theorem SameHolds.refl (p : Page) : SameHolds p p := ⟨rfl, rfl, rfl, rfl, rfl⟩

theorem SameHolds.trans {p p' p'' : Page} (h : SameHolds p p') (h' : SameHolds p' p'') :
    SameHolds p p'' :=
  ⟨h'.1.trans h.1, h'.2.trans h.2, h'.3.trans h.3, h'.4.trans h.4, h'.5.trans h.5⟩

/-- Only the page `m` is different, and only in where it is queued. -/
def Vm.Touches (v : Vm) (m : Nat) (v' : Vm) : Prop :=
  ∃ p, v'.page = Function.update v.page m p ∧ SameHolds (v.page m) p ∧
    p.wireCount = (v.page m).wireCount

namespace Vm

variable {v v' v'' : Vm} {m : Nat}

theorem Touches.refl (v : Vm) (m : Nat) : v.Touches m v :=
  ⟨v.page m, (Function.update_eq_self m v.page).symm, .refl _, rfl⟩

theorem Touches.trans (h : v.Touches m v') (h' : v'.Touches m v'') : v.Touches m v'' := by
  obtain ⟨p, hp, hs, hw⟩ := h
  obtain ⟨p', hp', hs', hw'⟩ := h'
  have hpm : v'.page m = p := by rw [hp, Function.update_self]
  refine ⟨p', ?_, hs.trans (hpm ▸ hs'), hw'.trans ((congrArg _ hpm).trans hw)⟩
  rw [hp', hp, Function.update_idem]

theorem Touches.set {p : Page} (hs : SameHolds (v.page m) p)
    (hw : p.wireCount = (v.page m).wireCount) : v.Touches m (v.setPage m p) :=
  ⟨p, rfl, hs, hw⟩

theorem remque_touches (hs : vmPageRemque v m = some v') : v.Touches m v' := by
  unfold vmPageRemque at hs
  split at hs
  next =>
    obtain ⟨k, hu⟩ := dequeueLocked_unlinks hs
    exact ⟨_, hu.page, ⟨rfl, rfl, rfl, rfl, rfl⟩, rfl⟩
  next =>
    cases hs
    exact .refl v m

theorem enqueue_touches (v : Vm) (k : PageQueue) (m : Nat) : v.Touches m (vmPageEnqueue v k m) :=
  ⟨_, rfl, ⟨rfl, rfl, rfl, rfl, rfl⟩, rfl⟩

theorem initAct_touches (v : Vm) (m : Nat) : v.Touches m (v.setPage m (v.page m).initAct) := by
  refine .set ?_ ?_
  · unfold Page.initAct
    split <;> exact ⟨rfl, rfl, rfl, rfl, rfl⟩
  · unfold Page.initAct
    split <;> rfl

theorem activate_touches (hs : vmPageActivate v m = some v') : v.Touches m v' := by
  have hact := initAct_touches v m
  unfold vmPageActivate at hs
  split at hs
  next =>
    split at hs
    next =>
      obtain ⟨v₁, hv₁, he⟩ := Option.bind_eq_some_iff.mp hs
      cases he
      refine ((hact.trans (remque_touches hv₁)).trans (.set ?_ ?_)).trans (enqueue_touches _ _ m)
      · exact ⟨rfl, rfl, rfl, rfl, rfl⟩
      · rfl
    next =>
      split at hs
      next =>
        cases hs
        exact .refl v m
      next => cases hs
  next =>
    cases hs
    exact hact

theorem deactivateTo_touches {noreuse : Bool} (hs : vmPageDeactivateTo v m noreuse = some v') :
    v.Touches m v' := by
  unfold vmPageDeactivateTo at hs
  split at hs
  next =>
    cases hs
    exact .refl v m
  next =>
    split at hs
    next =>
      obtain ⟨v₁, hv₁, he⟩ := Option.bind_eq_some_iff.mp hs
      split at he
      next =>
        cases he
        exact (remque_touches hv₁).trans ⟨_, rfl, ⟨rfl, rfl, rfl, rfl, rfl⟩, rfl⟩
      next =>
        cases he
        exact (remque_touches hv₁).trans (enqueue_touches _ _ m)
    next =>
      cases hs
      exact .refl v m

theorem launder_touches (hs : vmPageLaunder v m = some v') : v.Touches m v' := by
  unfold vmPageLaunder at hs
  split at hs
  next =>
    split at hs
    next =>
      obtain ⟨v₁, hv₁, he⟩ := Option.map_eq_some_iff.mp hs
      cases he
      exact (remque_touches hv₁).trans (enqueue_touches _ _ m)
    next =>
      split at hs
      next =>
        cases hs
        exact .refl v m
      next => cases hs
  next =>
    cases hs
    exact .refl v m

theorem requeue_touches (hs : vmPageRequeue v m = some v') : v.Touches m v' := by
  obtain ⟨k, _, rfl⟩ := requeue_eq hs
  exact .refl v m

/-- A call that wires: the page keeps its holds and is wired. -/
theorem wire_touches (hs : vmPageWire v m = some v') :
    ((v.page m).fictitious = true ∧ v' = v) ∨ ((v.page m).fictitious = false ∧
      ∃ p, v'.page = Function.update v.page m p ∧ SameHolds (v.page m) p ∧ p.wireCount ≠ 0) := by
  unfold vmPageWire at hs
  split at hs
  next hf =>
    split at hs
    next =>
      cases hs
      exact .inl ⟨hf, rfl⟩
    next => cases hs
  next hf =>
    obtain ⟨v₁, hv₁, he⟩ := Option.bind_eq_some_iff.mp hs
    have ht : v.Touches m v₁ := by
      split at hv₁
      next =>
        split at hv₁
        next => cases hv₁
        next => exact remque_touches hv₁
      next =>
        cases hv₁
        exact .refl v m
    obtain ⟨p, hp, hsame, _⟩ := ht
    have hpm : v₁.page m = p := by rw [hp, Function.update_self]
    simp only [setPage_page_self] at he
    split at he
    next hw =>
      cases he
      refine .inr ⟨by simpa using hf, { v₁.page m with wireCount := (v₁.page m).wireCount + 1 },
        ?_, ?_, hw⟩
      · unfold setPage
        rw [hp, Function.update_idem]
      · rw [hpm]
        exact ⟨hsame.1, hsame.2, hsame.3, hsame.4, hsame.5⟩
    next => cases he

theorem unwire_touches {queue : Option PageQueue} (hs : vmPageUnwire v m queue = some v') :
    ((v.page m).fictitious = true ∧ v' = v) ∨ ((v.page m).fictitious = false ∧
      (v.page m).wireCount ≠ 0 ∧ ∃ p, v'.page = Function.update v.page m p ∧
        SameHolds (v.page m) p ∧ p.wireCount = (v.page m).wireCount - 1) := by
  unfold vmPageUnwire at hs
  split at hs
  next hf =>
    split at hs
    next =>
      cases hs
      exact .inl ⟨hf, rfl⟩
    next => cases hs
  next hf =>
    split at hs
    next hw =>
      have hne : (v.page m).wireCount ≠ 0 := by
        intro h0
        rw [h0] at hw
        exact absurd hw (by decide)
      refine .inr ⟨by simpa using hf, hne, ?_⟩
      have hdec : ∃ p, (v.setPage m { v.page m with
          wireCount := (v.page m).wireCount - 1 }).page = Function.update v.page m p ∧
          SameHolds (v.page m) p ∧ p.wireCount = (v.page m).wireCount - 1 :=
        ⟨_, rfl, ⟨rfl, rfl, rfl, rfl, rfl⟩, rfl⟩
      simp only at hs
      split at hs
      next =>
        split at hs
        next k =>
          cases hs
          refine ⟨{ v.page m with wireCount := (v.page m).wireCount - 1, queue := some k }, ?_,
            ⟨rfl, rfl, rfl, rfl, rfl⟩, rfl⟩
          unfold vmPageEnqueue setPage
          simp [Function.update_idem]
        next =>
          cases hs
          exact hdec
      next =>
        cases hs
        exact hdec
    next => cases hs

/-- What vm_page_free_prep does to its page, and what it answers. -/
structure PreparesFree (p p' : Page) (b : Bool) : Prop where
  fictitious : p'.fictitious = p.fictitious
  holdCount : p'.holdCount = p.holdCount
  wireCount : p'.wireCount = p.wireCount
  object : p'.object = none
  queue : p'.queue = none
  busyLock : p'.busyLock ≠ .unbusied → p.busyLock = .exclusive ∧ p.object = none
  fake : p.fictitious = true → b = false ∧ p'.unholdfree = p.unholdfree
  real : p.fictitious = false → p.wireCount = 0 ∧ p'.valid = 0 ∧ p'.dirty = 0 ∧
    (b = true ↔ p.holdCount = 0) ∧ (b = false → p'.unholdfree = true) ∧
    (b = true → p'.memattr = vmMemattrDefault)

/-- vm_page_remove on a page that nobody shares. -/
theorem remove_free {p : Page} (hb : p.busyLock ≠ .shared) :
    ∃ b, p.remove = { p with object := none, busyLock := b } ∧
      (b ≠ .unbusied → p.busyLock = .exclusive ∧ p.object = none) := by
  unfold Page.remove
  split
  next ho =>
    refine ⟨p.busyLock, ?_, fun hne => ⟨?_, ho⟩⟩
    · rw [← ho]
    · cases h : p.busyLock with
      | unbusied => exact absurd h hne
      | shared => exact absurd h hb
      | exclusive => rfl
  next =>
    refine ⟨_, rfl, fun hne => ?_⟩
    split at hne
    next => exact absurd rfl hne
    next hx =>
      cases h : p.busyLock with
      | unbusied => exact absurd h hne
      | shared => exact absurd h hb
      | exclusive => exact absurd h hx

theorem freePrep_prepares {b : Bool} (hs : vmPageFreePrep v m = some (v', b)) :
    ∃ p, v'.page = Function.update v.page m p ∧ PreparesFree (v.page m) p b := by
  unfold vmPageFreePrep at hs
  split at hs
  next => cases hs
  next =>
    split at hs
    next => cases hs
    next hb =>
      obtain ⟨v₁, hv₁, he⟩ := Option.bind_eq_some_iff.mp hs
      obtain ⟨_, hp, _⟩ := remque_moves (T := fun _ _ => True) hv₁
      obtain ⟨_, hpage, _⟩ := remque_touches hv₁
      have hold : ∀ p, (v₁.setPage m p).page = Function.update v.page m p := by
        intro p
        unfold setPage
        rw [hpage, Function.update_idem]
      obtain ⟨bl, hrem, hbl⟩ := remove_free (p := v₁.page m) (by rw [hp]; exact hb)
      simp only [setPage_page_self, setPage_setPage, Page.restoreMemattr_eq, hrem] at he
      rw [hp] at he hbl
      split at he
      next hf =>
        cases he
        exact ⟨_, hold _, rfl, rfl, rfl, rfl, rfl, hbl, fun _ => ⟨rfl, rfl⟩,
          fun h => absurd (hf.symm.trans h) Bool.noConfusion⟩
      next hf =>
        have hnf : ∀ {P : Prop}, (v.page m).fictitious = true → P := fun h => absurd h hf
        split at he
        next => cases he
        next hw =>
          have hw0 : (v.page m).wireCount = 0 := not_not.mp hw
          split at he
          next hh =>
            split at he
            next => cases he
            next =>
              cases he
              exact ⟨_, hold _, rfl, rfl, rfl, rfl, rfl, hbl, hnf, fun _ => ⟨hw0, rfl, rfl,
                ⟨fun h => Bool.noConfusion h, fun h => absurd h hh⟩, fun _ => rfl,
                fun h => Bool.noConfusion h⟩⟩
          next hh =>
            cases he
            exact ⟨_, hold _, rfl, rfl, rfl, rfl, rfl, hbl, hnf, fun _ => ⟨hw0, rfl, rfl,
              ⟨fun _ => not_not.mp hh, fun _ => rfl⟩, fun h => Bool.noConfusion h, fun _ => rfl⟩⟩

end Vm

end FreeBSDEdits
