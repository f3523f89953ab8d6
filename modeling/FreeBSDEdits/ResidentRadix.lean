import FreeBSDEdits.ResidentPages
import Mathlib.Data.List.MinMax

namespace FreeBSDEdits

/-- A list of pages by index in place of the tree; an insertion fails where `mem` says so. -/
def listRadix (P : Type) : VmRadix (List (UInt64 × P)) Bool P where
  empty := []
  lookup r i := (r.find? (·.1 = i)).map (·.2)
  lookupLe r i := (((r.map (·.1)).filter (· ≤ i)).argmax (·.toNat)).bind fun k =>
    (r.find? (·.1 = k)).map (·.2)
  lookupGe r i := (((r.map (·.1)).filter (i ≤ ·)).argmin (·.toNat)).bind fun k =>
    (r.find? (·.1 = k)).map (·.2)
  insert mem r i p := if mem then some ((i, p) :: r) else none
  remove r i := (r.filter (·.1 ≠ i), (r.find? (·.1 = i)).map (·.2))
  replace r i p := (r.find? (·.1 = i)).map fun old => ((i, p) :: r.filter (·.1 ≠ i), old.2)

namespace listRadix

variable {P : Type} {r : List (UInt64 × P)} {i j : UInt64}

theorem lookup_isSome : ((listRadix P).lookup r i).isSome ↔ i ∈ r.map (·.1) := by
  change ((r.find? (·.1 = i)).map (·.2)).isSome ↔ _
  rw [Option.isSome_map, List.find?_isSome]
  simp

theorem find?_filter : ((r.filter (·.1 ≠ i)).find? (·.1 = j)) =
    if j = i then none else r.find? (·.1 = j) := by
  induction r with
  | nil => simp
  | cons e r ih =>
    by_cases he : e.1 = i
    · rw [List.filter_cons_of_neg (by simp [he]), ih]
      split
      next => rfl
      next hj =>
        rw [List.find?_cons_of_neg]
        simpa [he] using Ne.symm hj
    · rw [List.filter_cons_of_pos (by simp [he])]
      by_cases hej : e.1 = j
      · rw [List.find?_cons_of_pos (by simp [hej]), List.find?_cons_of_pos (by simp [hej]),
          if_neg (hej ▸ he)]
      · rw [List.find?_cons_of_neg (by simp [hej]), List.find?_cons_of_neg (by simp [hej]), ih]

theorem lawful : (listRadix P).Lawful where
  lookup_empty i := rfl
  lookup_insert mem r i p r' _ hins j := by
    cases mem with
    | false => cases hins
    | true =>
      cases hins
      change (((i, p) :: r).find? (·.1 = j)).map (·.2) = _
      by_cases hj : j = i
      · subst j
        rw [List.find?_cons_of_pos (by simp), if_pos rfl]
        rfl
      · rw [List.find?_cons_of_neg (by simpa using Ne.symm hj), if_neg hj]
        rfl
  remove_page r i := rfl
  lookup_remove r i j := by
    change ((r.filter (·.1 ≠ i)).find? (·.1 = j)).map (·.2) = _
    rw [find?_filter]
    split
    · rfl
    · rfl
  replace_page r i p old hold := by
    obtain ⟨e, he, rfl⟩ := Option.map_eq_some_iff.mp hold
    refine ⟨(i, p) :: r.filter (·.1 ≠ i), ?_, fun j => ?_⟩
    · change (r.find? (·.1 = i)).map _ = _
      rw [he]
      rfl
    · change (((i, p) :: r.filter (·.1 ≠ i)).find? (·.1 = j)).map (·.2) = _
      by_cases hj : j = i
      · subst j
        rw [List.find?_cons_of_pos (by simp), if_pos rfl]
        rfl
      · rw [List.find?_cons_of_neg (by simpa using Ne.symm hj), find?_filter, if_neg hj, if_neg hj]
        rfl
  lookupLe_iff r i p := by
    constructor
    · intro h
      obtain ⟨k, hk, hp⟩ := Option.bind_eq_some_iff.mp h
      obtain ⟨-, hki⟩ := List.mem_filter.mp (List.argmax_mem hk)
      refine ⟨k, of_decide_eq_true hki, hp, fun l hl hsome => ?_⟩
      have hlf : l ∈ (r.map (·.1)).filter (· ≤ i) :=
        List.mem_filter.mpr ⟨lookup_isSome.mp hsome, decide_eq_true hl⟩
      exact UInt64.le_iff_toNat_le.mpr (List.le_of_mem_argmax (f := fun k => k.toNat) hlf hk)
    · rintro ⟨j, hj, hp, hmax⟩
      have hjf : j ∈ (r.map (·.1)).filter (· ≤ i) :=
        List.mem_filter.mpr ⟨lookup_isSome.mp (by rw [hp]; rfl), decide_eq_true hj⟩
      cases hk : ((r.map (·.1)).filter (· ≤ i)).argmax (·.toNat) with
      | none =>
        rw [List.argmax_eq_none.mp hk] at hjf
        cases hjf
      | some k =>
        obtain ⟨hkr, hki⟩ := List.mem_filter.mp (List.argmax_mem hk)
        have hjk := List.le_of_mem_argmax (f := fun k => k.toNat) hjf hk
        have hkj := hmax k (of_decide_eq_true hki) (lookup_isSome.mpr hkr)
        rw [UInt64.le_iff_toNat_le] at hkj
        have heq : k = j := UInt64.toNat_inj.mp (Nat.le_antisymm hkj hjk)
        refine Option.bind_eq_some_iff.mpr ⟨k, hk, ?_⟩
        rw [heq]
        exact hp
  lookupGe_iff r i p := by
    constructor
    · intro h
      obtain ⟨k, hk, hp⟩ := Option.bind_eq_some_iff.mp h
      obtain ⟨-, hki⟩ := List.mem_filter.mp (List.argmin_mem hk)
      refine ⟨k, of_decide_eq_true hki, hp, fun l hl hsome => ?_⟩
      have hlf : l ∈ (r.map (·.1)).filter (i ≤ ·) :=
        List.mem_filter.mpr ⟨lookup_isSome.mp hsome, decide_eq_true hl⟩
      exact UInt64.le_iff_toNat_le.mpr (List.le_of_mem_argmin (f := fun k => k.toNat) hlf hk)
    · rintro ⟨j, hj, hp, hmin⟩
      have hjf : j ∈ (r.map (·.1)).filter (i ≤ ·) :=
        List.mem_filter.mpr ⟨lookup_isSome.mp (by rw [hp]; rfl), decide_eq_true hj⟩
      cases hk : ((r.map (·.1)).filter (i ≤ ·)).argmin (·.toNat) with
      | none =>
        rw [List.argmin_eq_none.mp hk] at hjf
        cases hjf
      | some k =>
        obtain ⟨hkr, hki⟩ := List.mem_filter.mp (List.argmin_mem hk)
        have hkj := List.le_of_mem_argmin (f := fun k => k.toNat) hjf hk
        have hjk := hmin k (of_decide_eq_true hki) (lookup_isSome.mpr hkr)
        rw [UInt64.le_iff_toNat_le] at hjk
        have heq : k = j := UInt64.toNat_inj.mp (Nat.le_antisymm hkj hjk)
        refine Option.bind_eq_some_iff.mpr ⟨k, hk, ?_⟩
        rw [heq]
        exact hp

end listRadix

end FreeBSDEdits
