import Mathlib.Algebra.BigOperators.Group.List.Basic
import Mathlib.Algebra.GroupWithZero.Nat
import Mathlib.Order.Interval.Finset.Nat

namespace FreeBSDEdits

variable {α : Type} {weight : α → Nat} {w : Nat} {l : List α} {x : α}

/-- The holder of ticket `w`, when the tickets are handed out from the front of the list and each
element gets as many as it weighs. -/
def drawn (weight : α → Nat) : Nat → List α → Option α
  | _, [] => none
  | w, x :: l => if w ≤ weight x then some x else drawn weight (w - weight x) l

theorem drawn_mem (h : drawn weight w l = some x) : x ∈ l := by
  induction l generalizing w with
  | nil => cases h
  | cons y l ih =>
    rw [drawn] at h
    split at h
    next =>
      cases h
      exact List.mem_cons_self
    next => exact List.mem_cons_of_mem y (ih h)

/-- Every ticket that was handed out has a holder. -/
theorem drawn_exists (h0 : 0 < w) (h : w ≤ (l.map weight).sum) : ∃ x, drawn weight w l = some x := by
  induction l generalizing w with
  | nil =>
    rw [List.map_nil, List.sum_nil] at h
    omega
  | cons y l ih =>
    rw [List.map_cons, List.sum_cons] at h
    rw [drawn]
    split
    next => exact ⟨y, rfl⟩
    next hgt => exact ih (by omega) (by omega)

/-- The tickets of an element are the ones that follow those of the elements in front of it. -/
theorem drawn_append_iff {xs ys : List α} (hn : (xs ++ x :: ys).Nodup) (h0 : 0 < w) :
    drawn weight w (xs ++ x :: ys) = some x ↔
      (xs.map weight).sum < w ∧ w ≤ (xs.map weight).sum + weight x := by
  induction xs generalizing w with
  | nil =>
    rw [List.nil_append] at hn ⊢
    rw [drawn, List.map_nil, List.sum_nil]
    split
    next hle => exact iff_of_true rfl ⟨h0, by omega⟩
    next hgt =>
      refine iff_of_false (fun h => ?_) (by omega)
      exact (List.nodup_cons.mp hn).1 (drawn_mem h)
  | cons y xs ih =>
    obtain ⟨hy, hn⟩ := List.nodup_cons.mp hn
    have hne : y ≠ x := fun he => hy (by simp [he])
    rw [List.cons_append, drawn, List.map_cons, List.sum_cons]
    split
    next hle =>
      refine iff_of_false (fun h => hne (Option.some.inj h)) (by omega)
    next hgt =>
      rw [ih hn (by omega)]
      omega

/-- Each element is drawn with as many tickets as it weighs. -/
theorem card_drawn [DecidableEq α] (hn : l.Nodup) (hx : x ∈ l) :
    ((Finset.Icc 1 (l.map weight).sum).filter (fun w => drawn weight w l = some x)).card =
      weight x := by
  obtain ⟨xs, ys, rfl⟩ := List.append_of_mem hx
  have hset : (Finset.Icc 1 ((xs ++ x :: ys).map weight).sum).filter
      (fun w => drawn weight w (xs ++ x :: ys) = some x) =
        Finset.Ioc (xs.map weight).sum ((xs.map weight).sum + weight x) := by
    ext w
    rw [Finset.mem_filter, Finset.mem_Icc, Finset.mem_Ioc, List.map_append, List.sum_append,
      List.map_cons, List.sum_cons]
    constructor
    · rintro ⟨⟨h0, _⟩, hd⟩
      exact (drawn_append_iff hn h0).mp hd
    · rintro ⟨hlt, hle⟩
      exact ⟨by omega, (drawn_append_iff hn (by omega)).mpr ⟨hlt, hle⟩⟩
  rw [hset, Nat.card_Ioc, Nat.add_sub_cancel_left]

end FreeBSDEdits
