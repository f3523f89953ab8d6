import Mathlib.Data.List.Nodup
import Mathlib.Logic.Function.Basic

/-- Bit `i` of a word tells whether bucket `i` holds anything. -/
def BitmapMarks {α : Type} {n : Nat} (status : BitVec n) (b : Nat → List α) : Prop :=
  ∀ i < n, status.getLsbD i = true ↔ b i ≠ []

namespace BitmapMarks

variable {α : Type} {n : Nat} {status : BitVec n} {b : Nat → List α}

theorem empty : BitmapMarks (0 : BitVec n) (fun _ => ([] : List α)) := by
  intro i _
  simp

theorem fill (h : BitmapMarks status b) {i : Nat} {l : List α} (hl : l ≠ []) :
    BitmapMarks (status ||| BitVec.twoPow n i) (Function.update b i l) := by
  intro j hj
  rw [BitVec.getLsbD_or, BitVec.getLsbD_twoPow]
  by_cases hij : j = i
  · subst j
    simp [hj, hl]
  · simp [Function.update_of_ne hij, Ne.symm hij, h j hj]

theorem clear (h : BitmapMarks status b) (i : Nat) :
    BitmapMarks (status &&& ~~~BitVec.twoPow n i) (Function.update b i []) := by
  intro j hj
  rw [BitVec.getLsbD_and, BitVec.getLsbD_not, BitVec.getLsbD_twoPow]
  by_cases hij : j = i
  · subst j
    simp [hj]
  · simpa [Function.update_of_ne hij, Ne.symm hij, hj] using h j hj

theorem keep (h : BitmapMarks status b) {i : Nat} {l : List α} (hl : l ≠ []) (hi : b i ≠ []) :
    BitmapMarks status (Function.update b i l) := by
  intro j hj
  by_cases hij : j = i
  · subst hij
    simpa [hl] using (h j hj).mpr hi
  · rw [Function.update_of_ne hij]
    exact h j hj

/-- A search among some of the bits. -/
theorem find?_eq_none (h : BitmapMarks status b) {is : List Nat} (his : ∀ i ∈ is, i < n) :
    is.find? (fun i => status.getLsbD i) = none ↔ ∀ i ∈ is, b i = [] := by
  rw [List.find?_eq_none]
  refine forall₂_congr (fun i hi => ?_)
  rw [h i (his i hi), not_not]

theorem of_find? (h : BitmapMarks status b) {is : List Nat} (his : ∀ i ∈ is, i < n) {i : Nat}
    (hf : is.find? (fun i => status.getLsbD i) = some i) : i ∈ is ∧ b i ≠ [] := by
  have hi := List.mem_of_find?_eq_some hf
  exact ⟨hi, (h i (his i hi)).mp (List.find?_some hf)⟩

end BitmapMarks

/-- Where one of the lists gains an element, their concatenation gains it. -/
theorem flatMap_perm_cons {ι α : Type} {slots : List ι} {f g : ι → List α} {p : ι} {a : α}
    (hd : slots.Nodup) (hp : p ∈ slots) (hoff : ∀ q, q ≠ p → g q = f q)
    (hat : (g p).Perm (a :: f p)) : (slots.flatMap g).Perm (a :: slots.flatMap f) := by
  induction slots with
  | nil => simp at hp
  | cons q rest ih =>
    obtain ⟨hq, hrest⟩ := List.nodup_cons.mp hd
    rw [List.flatMap_cons, List.flatMap_cons]
    by_cases hqp : q = p
    · subst q
      have he : rest.flatMap g = rest.flatMap f :=
        List.flatMap_congr (fun x hx => hoff x (ne_of_mem_of_not_mem hx hq))
      rw [he]
      exact hat.append_right _
    · rw [hoff q hqp]
      have hmem : p ∈ rest := (List.mem_cons.mp hp).resolve_left (Ne.symm hqp)
      exact ((ih hrest hmem).append_left _).trans List.perm_middle
