import Mathlib.Data.List.Perm.Basic

namespace TailQueue

variable {α : Type} [DecidableEq α]

/-- The element behind `x` in a tail queue. -/
def next : List α → α → Option α
  | [], _ => none
  | y :: l, x => if y = x then l.head? else next l x

/-- The element before `x`. -/
def prev : List α → α → Option α
  | y :: z :: l, x => if z = x then some y else prev (z :: l) x
  | _, _ => none

/-- Nothing is inserted where `x` is not in the queue. -/
def insertAfter : List α → α → α → List α
  | [], _, _ => []
  | y :: l, x, new => if y = x then y :: new :: l else y :: insertAfter l x new

def insertBefore : List α → α → α → List α
  | [], _, _ => []
  | y :: l, x, new => if y = x then new :: y :: l else y :: insertBefore l x new

variable {x new : α} {l pre post : List α}

theorem next_append (hx : x ∉ pre) : next (pre ++ x :: post) x = post.head? := by
  induction pre with
  | nil => simp [next]
  | cons y pre ih =>
    obtain ⟨hy, hp⟩ := List.ne_and_not_mem_of_not_mem_cons hx
    rw [List.cons_append, next, if_neg (Ne.symm hy)]
    exact ih hp

theorem prev_of_not_mem {y : α} (hx : x ∉ l) : prev (y :: l) x = none := by
  induction l generalizing y with
  | nil => rfl
  | cons z l ih =>
    obtain ⟨hz, hl⟩ := List.ne_and_not_mem_of_not_mem_cons hx
    rw [prev, if_neg (Ne.symm hz)]
    exact ih hl

theorem prev_append (hx : x ∉ pre) (hp : x ∉ post) :
    prev (pre ++ x :: post) x = pre.getLast? := by
  induction pre with
  | nil => exact prev_of_not_mem hp
  | cons y pre ih =>
    obtain ⟨-, hl⟩ := List.ne_and_not_mem_of_not_mem_cons hx
    cases pre with
    | nil => exact if_pos rfl
    | cons z pre =>
      obtain ⟨hz, -⟩ := List.ne_and_not_mem_of_not_mem_cons hl
      rw [List.getLast?_cons_cons, ← ih hl]
      exact if_neg (Ne.symm hz)

theorem insertAfter_append (hx : x ∉ pre) :
    insertAfter (pre ++ x :: post) x new = pre ++ x :: new :: post := by
  induction pre with
  | nil => simp [insertAfter]
  | cons y pre ih =>
    obtain ⟨hy, hp⟩ := List.ne_and_not_mem_of_not_mem_cons hx
    rw [List.cons_append, insertAfter, if_neg (Ne.symm hy), ih hp, List.cons_append]

theorem insertAfter_perm (hx : x ∈ l) : (insertAfter l x new).Perm (new :: l) := by
  induction l with
  | nil => simp at hx
  | cons y l ih =>
    rw [insertAfter]
    split
    next => exact .swap new y l
    next hy =>
      have hl := (List.mem_cons.mp hx).resolve_left (Ne.symm hy)
      exact ((ih hl).cons y).trans (.swap new y l)

theorem insertAfter_of_not_mem (hx : x ∉ l) : insertAfter l x new = l := by
  induction l with
  | nil => rfl
  | cons y l ih =>
    obtain ⟨hy, hl⟩ := List.ne_and_not_mem_of_not_mem_cons hx
    rw [insertAfter, if_neg (Ne.symm hy), ih hl]

theorem insertBefore_perm (hx : x ∈ l) : (insertBefore l x new).Perm (new :: l) := by
  induction l with
  | nil => simp at hx
  | cons y l ih =>
    rw [insertBefore]
    split
    next => exact .refl _
    next hy =>
      have hl := (List.mem_cons.mp hx).resolve_left (Ne.symm hy)
      exact ((ih hl).cons y).trans (.swap new y l)

end TailQueue
