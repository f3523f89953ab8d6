import FreeBSDEdits.ResidentCoherence

namespace FreeBSDEdits

/-- Which page, if any, is resident at each index of each object. -/
abbrev ResidentMap (P O : Type) := O → UInt64 → Option P

namespace ResidentMap

variable {Mem P O : Type} [DecidableEq P] [DecidableEq O]

def put (t : ResidentMap P O) (o : O) (i : UInt64) (m : P) : ResidentMap P O :=
  fun o' j => if o' = o ∧ j = i then some m else t o' j

def take (t : ResidentMap P O) (m : P) : ResidentMap P O :=
  fun o j => if t o j = some m then none else t o j

/-- What an operation with its answer means; a failure means nothing. -/
def apply (t : ResidentMap P O) : ResidentOp Mem P O → Bool → ResidentMap P O
  | .insert _ m o i, failed => if failed then t else t.put o i m
  | .remove m, _ => t.take m
  | .rename _ m o i, failed => if failed then t else (t.take m).put o i m
  | .replace m o i, _ => t.put o i m
  | .outside _ _, _ => t

end ResidentMap

/-- The map says the same as the pages' own fields. -/
def Places {P O : Type} (t : ResidentMap P O) (page : P → ResidentPage O) : Prop :=
  ∀ o i m, t o i = some m ↔ (page m).object = some o ∧ (page m).pindex = i

namespace Places

variable {P O : Type} {t t' : ResidentMap P O} {page page' : P → ResidentPage O}
  {m mold : P} {o : O} {i : UInt64}

theorem unique (h : Places t page) (h' : Places t' page) : t = t' := by
  funext o i
  exact Option.ext fun m => (h o i m).trans (h' o i m).symm

/-- Only the places of pages in an object count. -/
theorem congr (h : Places t page)
    (hobject : ∀ q, (page' q).object = (page q).object)
    (hpindex : ∀ q, (page q).object ≠ none → (page' q).pindex = (page q).pindex) :
    Places t page' := by
  intro o i q
  rw [h, hobject]
  constructor
  · rintro ⟨ho, hi⟩
    exact ⟨ho, (hpindex q (by simp [ho])).trans hi⟩
  · rintro ⟨ho, hi⟩
    exact ⟨ho, (hpindex q (by simp [ho])).symm.trans hi⟩

theorem put [DecidableEq O] (h : Places t page) (hm : (page m).object = none)
    (hfree : t o i = none) (hobject : (page' m).object = some o) (hpindex : (page' m).pindex = i)
    (hothers : ∀ q, q ≠ m → (page' q).object = (page q).object ∧
      (page' q).pindex = (page q).pindex) : Places (t.put o i m) page' := by
  intro o' j q
  unfold ResidentMap.put
  by_cases hq : q = m
  · subst q
    rw [hobject, hpindex]
    split
    next hoj => simp [hoj.1, hoj.2]
    next hoj =>
      refine iff_of_false (fun he => ?_) fun ⟨ho, hi⟩ => hoj ⟨(Option.some.inj ho).symm, hi.symm⟩
      have hplace := ((h o' j m).mp he).1
      rw [hm] at hplace
      cases hplace
  · rw [(hothers q hq).1, (hothers q hq).2, ← h]
    split
    next hoj =>
      rw [hoj.1, hoj.2, hfree]
      exact iff_of_false (fun he => hq (Option.some.inj he).symm) (by simp)
    next => exact .rfl

theorem take [DecidableEq P] (h : Places t page) (hm : (page' m).object = none)
    (hothers : ∀ q, q ≠ m → (page' q).object = (page q).object ∧
      (page' q).pindex = (page q).pindex) : Places (t.take m) page' := by
  intro o j q
  unfold ResidentMap.take
  by_cases hq : q = m
  · subst q
    rw [hm]
    refine iff_of_false (fun he => ?_) (by simp)
    split at he
    next => cases he
    next hne => exact hne he
  · rw [(hothers q hq).1, (hothers q hq).2, ← h]
    split
    next he =>
      rw [he]
      exact iff_of_false (by simp) fun h' => hq (Option.some.inj h').symm
    next => exact .rfl

theorem swap [DecidableEq O] (h : Places t page) (hm : (page m).object = none)
    (hmold : t o i = some mold) (hobject : (page' m).object = some o)
    (hpindex : (page' m).pindex = i) (hgone : (page' mold).object = none)
    (hothers : ∀ q, q ≠ m → q ≠ mold → (page' q).object = (page q).object ∧
      (page' q).pindex = (page q).pindex) : Places (t.put o i m) page' := by
  intro o' j q
  unfold ResidentMap.put
  by_cases hq : q = m
  · subst q
    rw [hobject, hpindex]
    split
    next hoj => simp [hoj.1, hoj.2]
    next hoj =>
      refine iff_of_false (fun he => ?_) fun ⟨ho, hi⟩ => hoj ⟨(Option.some.inj ho).symm, hi.symm⟩
      have hplace := ((h o' j m).mp he).1
      rw [hm] at hplace
      cases hplace
  · by_cases hqo : q = mold
    · subst q
      rw [hgone]
      refine iff_of_false (fun he => ?_) (by simp)
      split at he
      next => exact hq (Option.some.inj he).symm
      next hoj =>
        obtain ⟨ho, hi⟩ := (h o i mold).mp hmold
        obtain ⟨ho', hi'⟩ := (h o' j mold).mp he
        rw [ho] at ho'
        exact hoj ⟨(Option.some.inj ho').symm, hi'.symm.trans hi⟩
    · rw [(hothers q hq hqo).1, (hothers q hq hqo).2, ← h]
      split
      next hoj =>
        rw [hoj.1, hoj.2, hmold]
        exact iff_of_false (fun he => hq (Option.some.inj he).symm)
          fun he => hqo (Option.some.inj he).symm
      next => exact .rfl

end Places

end FreeBSDEdits
