import FreeBSDEdits.ShellRedirect

namespace FreeBSDEdits

/-- Words that are stored in an array, and elements that are not. -/
def stored (words : List Bytes) (n : Nat) : List Cell :=
  (words.map fun t => some (some t)) ++ List.replicate n none

/-- execvp meets an element that is not stored. -/
theorem readArgv_stored (words : List Bytes) (n : Nat) : readArgv (stored words n) = none := by
  induction words with
  | nil => cases n <;> rfl
  | cons t words ih =>
    change (readArgv (stored words n)).map (t :: ·) = none
    rw [ih, Option.map_none]

/-- The first loop copies the words and no NULL. -/
theorem copyPipeArgs_words (words pre : List Bytes) (rest : List (Option Bytes)) (n : Nat) :
    copyPipeArgs (words.map some ++ none :: rest) pre.length (stored pre (words.length + n)) =
      some (stored (pre ++ words) n) := by
  induction words generalizing pre with
  | nil => simp [copyPipeArgs]
  | cons t words ih =>
    have hlt : pre.length < (stored pre ((t :: words).length + n)).length := by
      rw [stored, List.length_append, List.length_map, List.length_replicate, List.length_cons]
      omega
    have hset : (stored pre ((t :: words).length + n)).set pre.length (some (some t)) =
        stored (pre ++ [t]) (words.length + n) := by
      have hlen : (pre.map fun t => (some (some t) : Cell)).length = pre.length := List.length_map _
      have hcount : (t :: words).length + n = words.length + n + 1 := by
        rw [List.length_cons]
        omega
      rw [stored, ← hlen, List.set_append_right _ _ (Nat.le_refl _), Nat.sub_self, hcount,
        List.replicate_succ, List.set_cons_zero, stored, List.map_append, List.append_assoc]
      rfl
    have hrest := ih (pre ++ [t])
    rw [List.length_append, List.length_singleton, List.append_assoc] at hrest
    rw [List.map_cons, List.cons_append, copyPipeArgs, if_pos hlt, hset, hrest]
    rfl

section

variable {words : List Bytes} {rest : List (Option Bytes)} {s : Shell} {i : Nat}

/-- Both sides of the operator, each with its NULL, are what execvp gets. -/
def PipeSplits (s : Shell) (words : List Bytes) (i : Nat) : Prop :=
  ∃ v v₂, pipeVectors (s.clear i).args i = some (v, v₂) ∧
    readArgv v = some (words.take i) ∧ readArgv v₂ = some (words.drop (i + 1))

/-- The first vector has no NULL, and nothing is stored in the second one. -/
theorem pipeVectors_eq (hargs : s.args = words.map some ++ none :: rest)
    (hlen : words.length < argsSize) (hi : words[i]? = some (ascii ['|'])) :
    pipeVectors (s.clear i).args i =
      some (stored (words.take i) (argsSize - i), stored [] argsSize) := by
  obtain ⟨hlt, hbar⟩ := List.getElem?_eq_some_iff.mp hi
  have hsplit : words = words.take i ++ ascii ['|'] :: words.drop (i + 1) := by
    rw [← hbar, List.getElem_cons_drop, List.take_append_drop]
  have htake : (words.take i).length = i := List.length_take_of_le (Nat.le_of_lt hlt)
  have hargs' : s.args = (words.take i).map some ++
      some (ascii ['|']) :: ((words.drop (i + 1)).map some ++ none :: rest) := by
    rw [hargs]
    conv_lhs => rw [hsplit]
    rw [List.map_append, List.append_assoc]
    rfl
  have hclear := Shell.clear_args hargs'
  rw [List.length_map, htake] at hclear
  have hcount : (words.take i).length + (argsSize - i) = argsSize := by omega
  have hfirst := copyPipeArgs_words (words.take i) [] ((words.drop (i + 1)).map some ++ none :: rest)
    (argsSize - i)
  rw [hcount] at hfirst
  have hdrop : (s.clear i).args.drop i = none :: ((words.drop (i + 1)).map some ++ none :: rest) := by
    rw [hclear]
    exact List.drop_left' (by rw [List.length_map, htake])
  have hsecond : copyPipeArgs2 ((s.clear i).args.drop i) 0 (stored [] argsSize) =
      some (stored [] argsSize) := by
    rw [hdrop]
    rfl
  rw [← hclear] at hfirst
  change (copyPipeArgs (s.clear i).args 0 (stored [] argsSize)).bind (fun pipeArgs =>
    (copyPipeArgs2 ((s.clear i).args.drop i) 0 (stored [] argsSize)).map fun pipeArgs2 =>
      (pipeArgs, pipeArgs2)) = _
  rw [hsecond]
  exact hfirst ▸ rfl

end

/-- pipeCommand splits no line: whatever it launches has a vector without NULL. -/
theorem pipe_never_splits {s : Shell} {words : List Bytes} {rest : List (Option Bytes)}
    {i : Nat} (hargs : s.args = words.map some ++ none :: rest) (hlen : words.length < argsSize)
    (hi : words[i]? = some (ascii ['|'])) :
    ¬PipeSplits s words i ∧ ∀ sys, ∃ s' l, pipeCommand sys s i = some s' ∧
      s'.launches = s.launches ++ l ∧ ∀ e ∈ l, readArgv e.argv = none := by
  have hvec := pipeVectors_eq hargs hlen hi
  refine ⟨?_, fun sys => ?_⟩
  · rintro ⟨v, v₂, hv, hread, -⟩
    rw [hvec] at hv
    cases hv
    rw [readArgv_stored] at hread
    cases hread
  · obtain ⟨s', hs⟩ : ∃ s', pipeCommand sys s i = some s' :=
      ⟨_, Option.map_eq_some_iff.mpr ⟨_, hvec, rfl⟩⟩
    obtain ⟨v, v₂, l, hv, hl, hsub, -⟩ := pipeCommand_spec hs
    rw [hvec] at hv
    cases hv
    refine ⟨s', l, hs, hl, fun e he => ?_⟩
    rcases List.mem_cons.mp (hsub he) with rfl | he
    · exact readArgv_stored [] argsSize
    · rw [List.mem_singleton.mp he]
      exact readArgv_stored _ _

/-- `ls | wc` -/
theorem pipe_never_splits_wc :
    ¬PipeSplits (freshShell [ascii ['l', 's'], ascii ['|'], ascii ['w', 'c']])
      [ascii ['l', 's'], ascii ['|'], ascii ['w', 'c']] 1 := by
  have hargs : (freshShell [ascii ['l', 's'], ascii ['|'], ascii ['w', 'c']]).args =
      [ascii ['l', 's'], ascii ['|'], ascii ['w', 'c']].map some ++ none :: [] := rfl
  exact (pipe_never_splits hargs (by decide) rfl).1

/-- Neither child of `ls | wc` finds its arguments. -/
theorem pipe_vectors_not_stored :
    (pipeCommand steadySys (freshShell [ascii ['l', 's'], ascii ['|'], ascii ['w', 'c']]) 1).map
        (fun s => s.launches.map fun e => readArgv e.argv) = some [none, none] ∧
    ¬PipeSplits (freshShell [ascii ['l', 's'], ascii ['|'], ascii ['w', 'c']])
      [ascii ['l', 's'], ascii ['|'], ascii ['w', 'c']] 1 := by
  refine ⟨by decide +kernel, ?_⟩
  rintro ⟨v, v₂, hv, hread, -⟩
  have hnone : (pipeVectors ((freshShell [ascii ['l', 's'], ascii ['|'], ascii ['w', 'c']]).clear
      1).args 1).bind (fun r => readArgv r.1) = none := by decide +kernel
  rw [hv, Option.bind_some, hread] at hnone
  cases hnone

end FreeBSDEdits
