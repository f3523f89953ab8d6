import Mathlib.Data.List.Basic

namespace MaximalMunch

/-- The rules of a lexer, the first one first. -/
structure Rules (α ρ : Type) where
  rules : List ρ
  accepts : ρ → List α → Bool
  /-- the rules that end the scan -/
  stop : ρ → Bool

variable {α ρ σ : Type} (R : Rules α ρ)

namespace Rules

/-- The first rule for a text. -/
def rule (text : List α) : Option ρ := R.rules.find? (R.accepts · text)

/-- The longest text of length up to `n`, but not an empty one, that a rule accepts. -/
def longestUpTo (input : List α) : Nat → Option (ρ × Nat)
  | 0 => none
  | n + 1 =>
    match R.rule (input.take (n + 1)) with
    | some r => some (r, n + 1)
    | none => longestUpTo input n

def longest (input : List α) : Option (ρ × Nat) := R.longestUpTo input input.length

/-- The texts with their rules up to a stop, and whether there was one; the number bounds them. -/
def scan : Nat → List α → List (ρ × List α) × Bool
  | 0, _ => ([], false)
  | n + 1, input =>
    match R.longest input with
    | none => ([], false)
    | some (r, k) =>
      if R.stop r then ([], true)
      else ((r, input.take k) :: (scan n (input.drop k)).1, (scan n (input.drop k)).2)

/-- The same with an action for each text; `none` is an action that goes wrong. -/
def run (act : ρ → List α → σ → Option σ) : Nat → List α → σ → Option (σ × Bool)
  | 0, _, s => some (s, false)
  | n + 1, input, s =>
    match R.longest input with
    | none => some (s, false)
    | some (r, k) =>
      if R.stop r then some (s, true)
      else (act r (input.take k) s).bind (run act n (input.drop k))

variable {R} {input : List α} {r : ρ} {k n : Nat}

theorem longestUpTo_le (h : R.longestUpTo input n = some (r, k)) : 0 < k ∧ k ≤ n := by
  induction n with
  | zero => cases h
  | succ n ih =>
    rw [longestUpTo] at h
    split at h
    next =>
      cases h
      exact ⟨Nat.succ_pos n, Nat.le_refl _⟩
    next =>
      obtain ⟨hpos, hle⟩ := ih h
      exact ⟨hpos, Nat.le_succ_of_le hle⟩

theorem longest_le (h : R.longest input = some (r, k)) : 0 < k ∧ k ≤ input.length :=
  longestUpTo_le h

/-- No rule accepts a longer text, and none before `r` this one. -/
theorem longest_eq (hpos : 0 < k) (hk : k ≤ input.length)
    (hr : R.rule (input.take k) = some r)
    (hlong : ∀ j, k < j → j ≤ input.length → R.rule (input.take j) = none) :
    R.longest input = some (r, k) := by
  have hup : ∀ n, k ≤ n → n ≤ input.length → R.longestUpTo input n = some (r, k) := by
    intro n
    induction n with
    | zero => omega
    | succ n ih =>
      intro hkn hn
      rw [longestUpTo]
      by_cases he : k = n + 1
      · subst he
        rw [hr]
      · rw [hlong (n + 1) (by omega) hn]
        exact ih (by omega) (by omega)
  exact hup input.length hk (Nat.le_refl _)

theorem longest_nil : R.longest [] = none := rfl

/-- As many turns as there is input are enough. -/
theorem scan_of_le {m : Nat} (hn : input.length ≤ n) (hm : input.length ≤ m) :
    R.scan n input = R.scan m input := by
  induction n generalizing m input with
  | zero =>
    obtain rfl := List.length_eq_zero_iff.mp (Nat.le_zero.mp hn)
    cases m with
    | zero => rfl
    | succ m => rw [scan, scan, longest_nil]
  | succ n ih =>
    cases m with
    | zero =>
      obtain rfl := List.length_eq_zero_iff.mp (Nat.le_zero.mp hm)
      rw [scan, scan, longest_nil]
    | succ m =>
      rw [scan, scan]
      cases hlong : R.longest input with
      | none => rfl
      | some p =>
        obtain ⟨r, k⟩ := p
        obtain ⟨hpos, -⟩ := longest_le hlong
        have hdrop : (input.drop k).length ≤ n ∧ (input.drop k).length ≤ m := by
          rw [List.length_drop]
          omega
        dsimp only
        rw [ih hdrop.1 hdrop.2]

theorem run_eq (act : ρ → List α → σ → Option σ) (s : σ) :
    R.run act n input s =
      ((R.scan n input).1.foldlM (fun s t => act t.1 t.2 s) s).map (·, (R.scan n input).2) := by
  induction n generalizing input s with
  | zero => rfl
  | succ n ih =>
    rw [run, scan]
    split
    next => rfl
    next r k hk =>
      split
      next => rfl
      next =>
        rw [List.foldlM_cons]
        cases act r (input.take k) s with
        | none => rfl
        | some s' => exact ih s'

theorem run_of_le (act : ρ → List α → σ → Option σ) (s : σ) (hn : input.length ≤ n) :
    R.run act n input s = R.run act input.length input s := by
  rw [run_eq, run_eq, scan_of_le hn (Nat.le_refl _)]

end Rules

end MaximalMunch
