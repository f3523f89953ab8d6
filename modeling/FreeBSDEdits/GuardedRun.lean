import Mathlib.Data.List.Basic

/-- The states `step` leads to from `start` when every step satisfies `ok`, each with the labels
and replies that led there, the newest first. -/
inductive GuardedRun {S L R : Type} (step : S → L → Option (S × R))
    (ok : List (L × R) → S → L → Prop) (start : S) : List (L × R) → S → Prop
  | start : GuardedRun step ok start [] start
  | next {h s l s' r} : GuardedRun step ok start h s → ok h s l → step s l = some (s', r) →
      GuardedRun step ok start ((l, r) :: h) s'

namespace GuardedRun

variable {S T L R : Type} {step : S → L → Option (S × R)}
  {ok : List (L × R) → S → L → Prop} {start s : S} {h : List (L × R)}

/-- A property of histories and states that `start` has and every allowed step keeps. -/
theorem invariant {P : List (L × R) → S → Prop} (h0 : P [] start)
    (hstep : ∀ h s l s' r, GuardedRun step ok start h s → P h s → ok h s l →
      step s l = some (s', r) → P ((l, r) :: h) s')
    (hr : GuardedRun step ok start h s) : P h s := by
  induction hr with
  | start => exact h0
  | next hr hg hs ih => exact hstep _ _ _ _ _ hr ih hg hs

/-- The last step of a run. -/
theorem of_cons {l : L} {r : R} (hr : GuardedRun step ok start ((l, r) :: h) s) :
    ∃ s₀, GuardedRun step ok start h s₀ ∧ ok h s₀ l ∧ step s₀ l = some (s, r) := by
  cases hr with
  | next hr hg hs => exact ⟨_, hr, hg, hs⟩

/-- A run is carried along a relation that every step can follow. -/
theorem lift {stepT : T → L → Option (T × R)} {startT : T}
    {okT : List (L × R) → T → L → Prop} (Sim : S → T → Prop) (h0 : Sim start startT)
    (hstep : ∀ s t l s' r, Sim s t → step s l = some (s', r) →
      ∃ t', stepT t l = some (t', r) ∧ Sim s' t')
    (hok : ∀ h s t l, Sim s t → ok h s l → okT h t l) (hr : GuardedRun step ok start h s) :
    ∃ t, Sim s t ∧ GuardedRun stepT okT startT h t := by
  induction hr with
  | start => exact ⟨startT, h0, .start⟩
  | next _ hg hs ih =>
    obtain ⟨t, hsim, hrun⟩ := ih
    obtain ⟨t', ht, hsim'⟩ := hstep _ _ _ _ _ hsim hs
    exact ⟨t', hsim', .next hrun (hok _ _ _ _ hsim hg) ht⟩

/-- Steps along a list of labels while `ok` holds. -/
def replay (step : S → L → Option (S × R)) (ok : List (L × R) → S → L → Prop)
    [∀ h s l, Decidable (ok h s l)] : List (L × R) → S → List L → Option (List (L × R) × S)
  | h, s, [] => some (h, s)
  | h, s, l :: ls =>
    if ok h s l then
      match step s l with
      | none => none
      | some (s', r) => replay step ok ((l, r) :: h) s' ls
    else none

theorem of_replay [∀ h s l, Decidable (ok h s l)] {ls : List L} {h' : List (L × R)} {s' : S}
    (hr : GuardedRun step ok start h s) (he : replay step ok h s ls = some (h', s')) :
    GuardedRun step ok start h' s' := by
  induction ls generalizing h s with
  | nil =>
    simp only [replay, Option.some.injEq, Prod.mk.injEq] at he
    obtain ⟨rfl, rfl⟩ := he
    exact hr
  | cons l ls ih =>
    simp only [replay] at he
    split at he
    next hg =>
      split at he
      next => simp at he
      next s₁ r hs => exact ih (.next hr hg hs) he
    next => simp at he

theorem replay_labels [∀ h s l, Decidable (ok h s l)] {ls : List L} {h' : List (L × R)} {s' : S}
    (he : replay step ok h s ls = some (h', s')) :
    h'.map Prod.fst = ls.reverse ++ h.map Prod.fst := by
  induction ls generalizing h s with
  | nil =>
    simp only [replay, Option.some.injEq, Prod.mk.injEq] at he
    rw [he.1]
    rfl
  | cons l ls ih =>
    simp only [replay] at he
    split at he
    next =>
      split at he
      next => simp at he
      next => simpa using ih he
    next => simp at he

theorem exists_of_replay [∀ h s l, Decidable (ok h s l)] {ls : List L}
    {check : List (L × R) → S → Bool}
    (hp : (replay step ok [] start ls).any (fun r => check r.1 r.2) = true) :
    ∃ h s, GuardedRun step ok start h s ∧ check h s = true := by
  obtain ⟨⟨h, s⟩, he, hc⟩ := (Option.any_eq_true _ _).mp hp
  exact ⟨h, s, of_replay .start he, hc⟩

end GuardedRun
