import FreeBSDEdits.ArgShell
import Mathlib.Data.List.TakeWhile

namespace FreeBSDEdits

/-- The words that execvp finds in a vector; `none` if it meets an element that is not stored. -/
def readArgv : List Cell → Option (List Bytes)
  | some none :: _ => some []
  | some (some t) :: v => (readArgv v).map (t :: ·)
  | _ => none

theorem readArgv_words (l : List Bytes) (v : List Cell) :
    readArgv ((l.map fun t => some (some t)) ++ some none :: v) = some l := by
  induction l with
  | nil => rfl
  | cons t l ih => rw [List.map_cons, List.cons_append, readArgv, ih, Option.map_some]

def IsRedirect (t : Bytes) : Prop := t = ascii ['<'] ∨ t = ascii ['>'] ∨ t = ascii ['>', '>']

instance : DecidablePred IsRedirect := fun t =>
  inferInstanceAs (Decidable (t = ascii ['<'] ∨ t = ascii ['>'] ∨ t = ascii ['>', '>']))

/-- The redirection that an operator asks for. -/
def redirectOf (t : Bytes) (file : Option Bytes) : Option Redirect :=
  if t = ascii ['<'] then some (.input file)
  else if t = ascii ['>'] then some (.output file)
  else if t = ascii ['>', '>'] then some (.append file)
  else none

/-- The redirections of a line. -/
def redirectsOf : List Bytes → List Redirect
  | [] => []
  | t :: l => (redirectOf t l.head?).toList ++ redirectsOf l

/-- A line without a pipe that runs a command, each redirection behind a word and with a file. -/
structure CommandLine (words : List Bytes) : Prop where
  command : words.head? ≠ some (ascii ['c', 'd']) ∧
    words.head? ≠ some (ascii ['e', 'x', 'i', 't'])
  pipe : ascii ['|'] ∉ words
  redirect : ∀ l t l', words = l ++ t :: l' → IsRedirect t →
    (∃ w ∈ l, ¬IsRedirect w) ∧ ∃ w ∈ l'.head?, ¬IsRedirect w

/-- The line launches its command once, with all its redirections. -/
def LaunchesOnce (sys : Sys) (s : Shell) (words : List Bytes) : Prop :=
  ∃ s' e, shellLine sys s = some s' ∧ s'.launches = s.launches ++ [e] ∧
    readArgv e.argv = some (words.takeWhile (¬IsRedirect ·)) ∧ e.redirects = redirectsOf words

theorem redirectOf_isSome (t : Bytes) (file : Option Bytes) :
    (redirectOf t file).isSome ↔ IsRedirect t := by
  unfold redirectOf IsRedirect
  split
  next h => simp [h]
  next h =>
    split
    next h' => simp [h']
    next h' =>
      split
      next h'' => simp [h'']
      next h'' => simp [h, h', h'']

theorem redirectOf_opens {t f : Bytes} {r : Redirect} (hr : redirectOf t (some f) = some r) :
    r.Opens := by
  have hf : some f ≠ none := Option.some_ne_none f
  unfold redirectOf at hr
  split at hr
  next =>
    cases hr
    exact hf
  next =>
    split at hr
    next =>
      cases hr
      exact hf
    next =>
      split at hr
      next =>
        cases hr
        exact hf
      next => cases hr

theorem redirectsOf_words {l : List Bytes} (hl : ∀ t ∈ l, ¬IsRedirect t) (l' : List Bytes) :
    redirectsOf (l ++ l') = redirectsOf l' := by
  induction l with
  | nil => rfl
  | cons t l ih =>
    have ht : redirectOf t (l ++ l').head? = none :=
      Option.not_isSome_iff_eq_none.mp (fun hs =>
        hl t List.mem_cons_self ((redirectOf_isSome _ _).mp hs))
    rw [List.cons_append, redirectsOf, ht]
    exact ih (fun t ht => hl t (List.mem_cons_of_mem _ ht))

/-- The first redirection of a line. -/
theorem exists_first_redirect {words : List Bytes} (h : redirectsOf words ≠ []) :
    ∃ l t l', words = l ++ t :: l' ∧ (∀ w ∈ l, ¬IsRedirect w) ∧ IsRedirect t := by
  induction words with
  | nil => exact absurd rfl h
  | cons t words ih =>
    by_cases ht : IsRedirect t
    · exact ⟨[], t, words, rfl, fun w hw => absurd hw List.not_mem_nil, ht⟩
    · have hone : ∀ w ∈ [t], ¬IsRedirect w := by
        intro w hw
        rw [List.mem_singleton.mp hw]
        exact ht
      rw [show t :: words = [t] ++ words from rfl, redirectsOf_words hone] at h
      obtain ⟨l, u, l', rfl, hl, hu⟩ := ih h
      refine ⟨t :: l, u, l', rfl, fun w hw => ?_, hu⟩
      rcases List.mem_cons.mp hw with rfl | hw
      · exact ht
      · exact hl w hw

theorem redirectsOf_eq_nil {words : List Bytes} (h : redirectsOf words = []) :
    ∀ t ∈ words, ¬IsRedirect t := by
  induction words with
  | nil => exact fun t ht => absurd ht List.not_mem_nil
  | cons u words ih =>
    obtain ⟨hu, hrest⟩ := List.append_eq_nil_iff.mp h
    intro t ht
    rcases List.mem_cons.mp ht with rfl | ht
    · intro hr
      obtain ⟨r, hr⟩ := Option.isSome_iff_exists.mp ((redirectOf_isSome t words.head?).mpr hr)
      rw [hr] at hu
      cases hu
    · exact ih hrest t ht

theorem takeWhile_words {l : List Bytes} (hl : ∀ w ∈ l, ¬IsRedirect w) {t : Bytes}
    (ht : IsRedirect t) (l' : List Bytes) :
    (l ++ t :: l').takeWhile (¬IsRedirect ·) = l := by
  rw [List.takeWhile_append_of_pos (fun w hw => by simpa using hl w hw),
    List.takeWhile_cons_of_neg (by simpa using ht), List.append_nil]

variable {sys : Sys} {s s' : Shell}

theorem launchWith_launches (sys : Sys) (s : Shell) (redirects : List Redirect) (exits : Bool) :
    (launchWith sys s redirects exits).launches = s.launches ++
      if sys.fork s.forks = true ∧ ∀ r ∈ redirects, r.Opens ∧ sys.dup2 s.forks then
        [⟨s.args.map some, redirects⟩] else [] := by
  unfold launchWith
  by_cases hf : sys.fork s.forks = true
  · rw [if_pos hf]
    by_cases hr : ∀ r ∈ redirects, r.Opens ∧ sys.dup2 s.forks = true
    · rw [if_pos hr, if_pos ⟨hf, hr⟩]
    · rw [if_neg hr, if_neg (fun hc => hr hc.2), List.append_nil]
  · rw [if_neg hf]
    cases exits <;> simp [hf, Shell.exit]

theorem launchWith_rest (sys : Sys) (s : Shell) (redirects : List Redirect) (exits : Bool) :
    (launchWith sys s redirects exits).args = s.args ∧
      (launchWith sys s redirects exits).forks = s.forks + 1 ∧
      (launchWith sys s redirects exits).exited =
        (s.exited || exits && !sys.fork s.forks) := by
  unfold launchWith
  by_cases hf : sys.fork s.forks = true
  · have hstay : (s.exited || exits && !sys.fork s.forks) = s.exited := by simp [hf]
    rw [if_pos hf, hstay]
    split <;> exact ⟨rfl, rfl, rfl⟩
  · rw [if_neg hf]
    cases exits with
    | true => simp [hf, Shell.exit]
    | false => simp

/-- More children, none with more than one redirection. -/
def Shell.Launched (s s' : Shell) : Prop :=
  ∃ l : List Launch, s'.launches = s.launches ++ l ∧ ∀ e ∈ l, e.redirects.length ≤ 1

theorem Shell.Launched.of_eq (h : s'.launches = s.launches) : s.Launched s' :=
  ⟨[], by rw [h, List.append_nil], fun e he => absurd he List.not_mem_nil⟩

theorem Shell.Launched.trans {s'' : Shell} (h : s.Launched s') (h' : s'.Launched s'') :
    s.Launched s'' := by
  obtain ⟨l, hl, hone⟩ := h
  obtain ⟨l', hl', hone'⟩ := h'
  refine ⟨l ++ l', by rw [hl', hl, List.append_assoc], fun e he => ?_⟩
  rcases List.mem_append.mp he with he | he
  · exact hone e he
  · exact hone' e he

theorem launchWith_launched (sys : Sys) (s : Shell) {redirects : List Redirect} (exits : Bool)
    (hr : redirects.length ≤ 1) : s.Launched (launchWith sys s redirects exits) := by
  refine ⟨_, launchWith_launches sys s redirects exits, fun e he => ?_⟩
  split at he
  next =>
    rw [List.mem_singleton.mp he]
    exact hr
  next => cases he

/-- The children of a pipe, as far as they get. -/
theorem pipeCommand_spec {i : Nat} (hs : pipeCommand sys s i = some s') : ∃ v v₂ l,
    pipeVectors (s.clear i).args i = some (v, v₂) ∧ s'.launches = s.launches ++ l ∧
      l ⊆ [⟨v₂, [.pipeRead]⟩, ⟨v, [.pipeWrite]⟩] ∧ s'.args = (s.clear i).args := by
  obtain ⟨⟨v, v₂⟩, hv, rfl⟩ := Option.map_eq_some_iff.mp hs
  dsimp only
  split
  next => exact ⟨v, v₂, [], hv, (List.append_nil _).symm, List.nil_subset _, rfl⟩
  next =>
    split
    next => exact ⟨v, v₂, [], hv, (List.append_nil _).symm, List.nil_subset _, rfl⟩
    next =>
      split
      next => exact ⟨v, v₂, [], hv, (List.append_nil _).symm, List.nil_subset _, rfl⟩
      next =>
        refine ⟨v, v₂, _, hv, List.append_assoc _ _ _, fun e he => ?_, rfl⟩
        rcases List.mem_append.mp he with he | he
        · split at he
          next => rw [List.mem_singleton.mp he]; exact List.mem_cons_self
          next => cases he
        · split at he
          next => rw [List.mem_singleton.mp he]; exact List.mem_cons_of_mem _ List.mem_cons_self
          next => cases he

theorem pipeCommand_launched {i : Nat} (hs : pipeCommand sys s i = some s') : s.Launched s' := by
  obtain ⟨v, v₂, l, -, hl, hsub, -⟩ := pipeCommand_spec hs
  refine ⟨l, hl, fun e he => ?_⟩
  rcases List.mem_cons.mp (hsub he) with rfl | he
  · exact Nat.le_refl 1
  · rw [List.mem_singleton.mp he]
    exact Nat.le_refl 1

/-- An operator launches the command with its redirection. -/
theorem dispatchArg_redirect {i : Nat} {t : Bytes} {r : Redirect}
    (hr : redirectOf t ((s.clear i).arg (i + 1)) = some r) :
    dispatchArg sys s i t = some (launchWith sys (s.clear i) [r] (t = ascii ['<'])) := by
  unfold redirectOf at hr
  unfold dispatchArg
  split at hr
  next h =>
    cases hr
    rw [if_pos h, decide_eq_true h]
    rfl
  next h =>
    rw [if_neg h, decide_eq_false h]
    split at hr
    next h' =>
      cases hr
      rw [if_pos h']
      rfl
    next h' =>
      rw [if_neg h']
      split at hr
      next h'' =>
        cases hr
        rw [if_pos h'']
        rfl
      next => cases hr

theorem dispatchArg_word {i : Nat} {t : Bytes} (ht : ¬IsRedirect t) (hp : t ≠ ascii ['|']) :
    dispatchArg sys s i t = some s := by
  obtain ⟨h₁, h₂, h₃⟩ : t ≠ ascii ['<'] ∧ t ≠ ascii ['>'] ∧ t ≠ ascii ['>', '>'] := by
    simpa [IsRedirect] using ht
  unfold dispatchArg
  rw [if_neg h₁, if_neg h₂, if_neg h₃, if_neg hp]

/-- What a turn of the loop can do. -/
theorem dispatchArg_cases {i : Nat} {t : Bytes} (hs : dispatchArg sys s i t = some s') :
    (∃ r exits, s' = launchWith sys (s.clear i) [r] exits) ∨ pipeCommand sys s i = some s' ∨
      s' = s := by
  cases hr : redirectOf t ((s.clear i).arg (i + 1)) with
  | some r =>
    rw [dispatchArg_redirect hr] at hs
    exact Or.inl ⟨r, _, (Option.some.inj hs).symm⟩
  | none =>
    have ht : ¬IsRedirect t := fun h => by
      rw [← redirectOf_isSome t ((s.clear i).arg (i + 1)), hr] at h
      cases h
    by_cases hp : t = ascii ['|']
    · subst hp
      exact Or.inr (Or.inl hs)
    · rw [dispatchArg_word ht hp] at hs
      exact Or.inr (Or.inr (Option.some.inj hs).symm)

theorem dispatchArg_launched {i : Nat} {t : Bytes} (hs : dispatchArg sys s i t = some s') :
    s.Launched s' := by
  rcases dispatchArg_cases hs with ⟨r, exits, rfl⟩ | hp | rfl
  · exact launchWith_launched sys (s.clear i) _ (Nat.le_refl 1)
  · exact pipeCommand_launched hp
  · exact .of_eq rfl

theorem dispatchArg_length {i : Nat} {t : Bytes} (hs : dispatchArg sys s i t = some s') :
    s'.args.length = s.args.length := by
  have hclear : (s.clear i).args.length = s.args.length := List.length_set
  rcases dispatchArg_cases hs with ⟨r, exits, rfl⟩ | hp | rfl
  · rw [(launchWith_rest sys (s.clear i) [r] exits).1, hclear]
  · obtain ⟨v, v₂, l, -, -, -, hargs⟩ := pipeCommand_spec hp
    rw [hargs, hclear]
  · rfl

theorem dispatch_launched {n i : Nat} (hs : dispatch sys n i s = some s') : s.Launched s' := by
  induction n generalizing i s with
  | zero =>
    cases hs
    exact .of_eq rfl
  | succ n ih =>
    rw [dispatch] at hs
    split at hs
    next =>
      cases hs
      exact .of_eq rfl
    next t ht =>
      obtain ⟨s₁, h₁, hs⟩ := Option.bind_eq_some_iff.mp hs
      split at hs
      next =>
        cases hs
        exact dispatchArg_launched h₁
      next => exact (dispatchArg_launched h₁).trans (ih hs)

theorem changeDirectory_launches (hs : changeDirectory sys s = some s') :
    s'.launches = s.launches := by
  obtain ⟨path, -, hs⟩ := Option.bind_eq_some_iff.mp hs
  dsimp only at hs
  generalize (if path.head? = some '/'.toUInt8 then path else s.cwd ++ ascii ['/'] ++ path) = dir
    at hs
  split at hs
  next =>
    cases hd : sys.chdir dir with
    | some cwd =>
      rw [hd] at hs
      cases hs
      rfl
    | none =>
      rw [hd] at hs
      cases hs
      rfl
  next => cases hs

theorem shellLine_launched (hs : shellLine sys s = some s') : s.Launched s' := by
  unfold shellLine at hs
  split at hs
  next =>
    cases hs
    exact .of_eq rfl
  next t ht =>
    split at hs
    next => exact .of_eq (changeDirectory_launches hs)
    next =>
      split at hs
      next =>
        cases hs
        exact .of_eq rfl
      next =>
        obtain ⟨s₁, h₁, rfl⟩ := Option.map_eq_some_iff.mp hs
        split
        next => exact dispatch_launched h₁
        next =>
          exact (dispatch_launched h₁).trans (launchWith_launched sys s₁ true (Nat.zero_le 1))

theorem Shell.arg_append {A B : List (Option Bytes)} {x : Option Bytes}
    (hargs : s.args = A ++ x :: B) : s.arg A.length = x := by
  rw [arg, hargs, List.getElem?_append_right (Nat.le_refl _), Nat.sub_self]
  rfl

/-- The loop passes over words. -/
theorem dispatch_words (sys : Sys) {words : List Bytes}
    (hw : ∀ t ∈ words, ¬IsRedirect t ∧ t ≠ ascii ['|']) {A B : List (Option Bytes)}
    (hargs : s.args = A ++ (words.map some ++ B)) (hexit : s.exited = false) (n : Nat) :
    dispatch sys (words.length + n) A.length s = dispatch sys n (A.length + words.length) s := by
  induction words generalizing A with
  | nil => rw [List.length_nil, Nat.zero_add, Nat.add_zero]
  | cons t words ih =>
    obtain ⟨ht, hp⟩ := hw t List.mem_cons_self
    have harg : s.arg A.length = some t := Shell.arg_append hargs
    have hargs' : s.args = (A ++ [some t]) ++ (words.map some ++ B) := by
      rw [hargs, List.append_assoc]
      rfl
    have hrest := ih (fun u hu => hw u (List.mem_cons_of_mem _ hu)) hargs'
    rw [List.length_append, List.length_singleton] at hrest
    rw [List.length_cons, Nat.succ_add, dispatch, harg]
    simp only [dispatchArg_word ht hp, Option.bind_some, hexit, Bool.false_eq_true, if_false]
    rw [hrest]
    congr 1
    omega

theorem dispatch_null (sys : Sys) {A B : List (Option Bytes)} (hargs : s.args = A ++ none :: B)
    (n : Nat) : dispatch sys n A.length s = some s := by
  cases n with
  | zero => rfl
  | succ n => rw [dispatch, Shell.arg_append hargs]

/-- A line without redirections is left to defaultCommand. -/
theorem dispatch_plain (sys : Sys) {words : List Bytes}
    (hw : ∀ t ∈ words, ¬IsRedirect t ∧ t ≠ ascii ['|']) {rest : List (Option Bytes)}
    (hargs : s.args = words.map some ++ none :: rest) (hexit : s.exited = false) :
    dispatch sys s.args.length 0 s = some s := by
  have hlen : s.args.length = words.length + (rest.length + 1) := by
    rw [hargs, List.length_append, List.length_map, List.length_cons]
  have hend := dispatch_null sys hargs (rest.length + 1)
  rw [List.length_map] at hend
  rw [hlen, ← hend]
  have hrun := dispatch_words sys hw (A := []) hargs hexit (rest.length + 1)
  rwa [List.length_nil, Nat.zero_add] at hrun

theorem Shell.clear_args {A B : List (Option Bytes)} {x : Option Bytes}
    (hargs : s.args = A ++ x :: B) : (s.clear A.length).args = A ++ none :: B := by
  change s.args.set A.length none = _
  rw [hargs, List.set_append_right _ _ (Nat.le_refl _), Nat.sub_self]
  rfl

/-- The only redirection of a line has a child of its own. -/
theorem dispatch_single (sys : Sys) {l l' : List Bytes} {t : Bytes} {r : Redirect}
    (hl : ∀ u ∈ l, ¬IsRedirect u ∧ u ≠ ascii ['|'])
    (hl' : ∀ u ∈ l', ¬IsRedirect u ∧ u ≠ ascii ['|'])
    (hr : redirectOf t l'.head? = some r) {rest : List (Option Bytes)}
    (hargs : s.args = (l ++ t :: l').map some ++ none :: rest) (hexit : s.exited = false) :
    dispatch sys s.args.length 0 s =
      some (launchWith sys (s.clear l.length) [r] (t = ascii ['<'])) := by
  have hlen : s.args.length = l.length + (l'.length + (rest.length + 1) + 1) := by
    rw [hargs]
    simp only [List.length_append, List.length_map, List.length_cons]
    omega
  have hargs₁ : s.args = l.map some ++ some t :: (l'.map some ++ none :: rest) := by
    rw [hargs, List.map_append, List.append_assoc]
    rfl
  have hclear : (s.clear l.length).args =
      (l.map some ++ [none]) ++ (l'.map some ++ none :: rest) := by
    have hset := Shell.clear_args hargs₁
    rw [List.length_map] at hset
    rw [hset, List.append_assoc]
    rfl
  have hfile : (s.clear l.length).arg (l.length + 1) = l'.head? := by
    have hA : (l.map some ++ [none] : List (Option Bytes)).length = l.length + 1 := by simp
    rw [← hA]
    cases l' with
    | nil => exact Shell.arg_append hclear
    | cons f l' => exact Shell.arg_append hclear
  rw [← hfile] at hr
  -- up to the operator
  have hrun := dispatch_words sys hl (A := []) hargs₁ hexit
    (l'.length + (rest.length + 1) + 1)
  rw [List.length_nil, Nat.zero_add] at hrun
  have hop : s.arg l.length = some t := by
    have harg := Shell.arg_append hargs₁
    rwa [List.length_map] at harg
  rw [hlen, hrun, dispatch, hop]
  simp only [dispatchArg_redirect hr, Option.bind_some]
  -- behind it
  generalize hs₁ : launchWith sys (s.clear l.length) [r] (t = ascii ['<']) = s₁
  split
  next => rfl
  next hgo =>
    have hargs₂ : s₁.args = (l.map some ++ [none]) ++ (l'.map some ++ none :: rest) := by
      rw [← hs₁, (launchWith_rest sys _ _ _).1, hclear]
    have hrun₂ := dispatch_words sys hl' hargs₂ (by simpa using hgo) (rest.length + 1)
    have hargs₃ : s₁.args = (l.map some ++ [none] ++ l'.map some) ++ none :: rest := by
      rw [hargs₂, List.append_assoc (l.map some ++ [none])]
    have hend := dispatch_null sys hargs₃ (rest.length + 1)
    simp only [List.length_append, List.length_map, List.length_singleton] at hrun₂ hend
    rw [hrun₂, hend]

theorem dispatch_outside {i : Nat} (hi : s.args.length ≤ i) (n : Nat) :
    dispatch sys n i s = some s := by
  cases n with
  | zero => rfl
  | succ n => rw [dispatch, Shell.arg, List.getElem?_eq_none hi, Option.join_none]

/-- As many turns as there are elements are enough. -/
theorem dispatch_of_le {n m i : Nat} (hn : s.args.length ≤ i + n) (hm : s.args.length ≤ i + m) :
    dispatch sys n i s = dispatch sys m i s := by
  induction n generalizing m i s with
  | zero => exact (dispatch_outside hn 0).trans (dispatch_outside hn m).symm
  | succ n ih =>
    cases m with
    | zero => exact (dispatch_outside hm (n + 1)).trans (dispatch_outside hm 0).symm
    | succ m =>
      rw [dispatch, dispatch]
      cases s.arg i with
      | none => rfl
      | some t =>
        cases hs : dispatchArg sys s i t with
        | none => simp only [hs, Option.bind_none]
        | some s₁ =>
          have hlen := dispatchArg_length hs
          simp only [hs, Option.bind_some]
          rw [ih (m := m) (by omega) (by omega)]

section

variable {words : List Bytes} {rest : List (Option Bytes)}

theorem CommandLine.shellLine_eq (hc : CommandLine words) (hne : words ≠ [])
    (hargs : s.args = words.map some ++ none :: rest) : shellLine sys s =
      (dispatch sys s.args.length 0 s).map fun s =>
        if s.exited then s else defaultCommand sys s := by
  obtain ⟨t, words, rfl⟩ := List.exists_cons_of_ne_nil hne
  obtain ⟨hcd, hexit⟩ := hc.command
  have harg : s.arg 0 = some t := by
    rw [Shell.arg, hargs]
    rfl
  unfold shellLine
  rw [harg]
  simp only [List.head?_cons, ne_eq, Option.some.injEq] at hcd hexit
  exact (if_neg hcd).trans (if_neg hexit)

theorem CommandLine.plain (hc : CommandLine words) {l : List Bytes} (hsub : l ⊆ words)
    (hl : ∀ t ∈ l, ¬IsRedirect t) : ∀ t ∈ l, ¬IsRedirect t ∧ t ≠ ascii ['|'] := by
  intro t ht
  refine ⟨hl t ht, fun hp => hc.pipe ?_⟩
  rw [← hp]
  exact hsub ht

theorem once_plain (hc : CommandLine words) (hne : words ≠ [])
    (hargs : s.args = words.map some ++ none :: rest) (hexit : s.exited = false)
    (hr : redirectsOf words = []) : LaunchesOnce sys s words ↔ sys.fork s.forks = true := by
  have hw := redirectsOf_eq_nil hr
  have hline : shellLine sys s = some (launchWith sys s [] true) := by
    rw [hc.shellLine_eq hne hargs,
      dispatch_plain sys (hc.plain (List.Subset.refl words) hw) hargs hexit, Option.map_some,
      hexit]
    rfl
  have hlaunches := launchWith_launches sys s [] true
  have htake : words.takeWhile (¬IsRedirect ·) = words :=
    List.takeWhile_eq_self_iff.mpr (fun t ht => by simpa using hw t ht)
  unfold LaunchesOnce
  rw [hline, hr, htake]
  constructor
  · rintro ⟨s', e, hs, hone, -⟩
    cases hs
    by_contra hf
    rw [hlaunches, if_neg (fun hc => hf hc.1)] at hone
    cases List.append_cancel_left hone
  · intro hf
    refine ⟨_, ⟨s.args.map some, []⟩, rfl, ?_, ?_, rfl⟩
    · rw [hlaunches, if_pos ⟨hf, fun r hr => absurd hr List.not_mem_nil⟩]
    · rw [hargs, List.map_append, List.map_map]
      exact readArgv_words words _

theorem once_single (hc : CommandLine words) {l l' : List Bytes} {t f : Bytes} {r : Redirect}
    (hsplit : words = l ++ t :: f :: l') (hl : ∀ u ∈ l, ¬IsRedirect u)
    (hr : redirectOf t (some f) = some r) (hl' : redirectsOf (f :: l') = [])
    (hargs : s.args = words.map some ++ none :: rest) (hexit : s.exited = false) :
    LaunchesOnce sys s words ↔ sys.fork s.forks = true ∧ sys.dup2 s.forks = true ∧
      sys.fork (s.forks + 1) = false := by
  have ht : IsRedirect t := (redirectOf_isSome _ _).mp (Option.isSome_iff_exists.mpr ⟨r, hr⟩)
  have hredirects : redirectsOf words = [r] := by
    rw [hsplit, redirectsOf_words hl, redirectsOf, hl', List.head?_cons, hr]
    rfl
  have hplain : ∀ u ∈ f :: l', ¬IsRedirect u ∧ u ≠ ascii ['|'] := by
    refine hc.plain (fun u hu => ?_) (redirectsOf_eq_nil hl')
    rw [hsplit]
    exact List.mem_append_right _ (List.mem_cons_of_mem _ hu)
  have hplain₀ : ∀ u ∈ l, ¬IsRedirect u ∧ u ≠ ascii ['|'] := by
    refine hc.plain (fun u hu => ?_) hl
    rw [hsplit]
    exact List.mem_append_left _ hu
  have hne : words ≠ [] := by simp [hsplit]
  have hdispatch := dispatch_single sys hplain₀ hplain (r := r) hr (by rw [hargs, hsplit])
    hexit
  generalize hs₁ : launchWith sys (s.clear l.length) [r] (t = ascii ['<']) = s₁ at hdispatch
  obtain ⟨-, hforks, hexited⟩ := launchWith_rest sys (s.clear l.length) [r] (t = ascii ['<'])
  rw [hs₁] at hforks hexited
  change s₁.exited = (s.exited || _ && !sys.fork s.forks) at hexited
  have hlaunch : s₁.launches = s.launches ++
      if sys.fork s.forks = true ∧ sys.dup2 s.forks = true then
        [⟨(s.clear l.length).args.map some, [r]⟩] else [] := by
    rw [← hs₁, launchWith_launches]
    exact congrArg (s.launches ++ ·)
      (if_congr (and_congr_right fun _ => by simp [redirectOf_opens hr, Shell.clear]) rfl rfl)
  -- the child of the redirection, and the one of defaultCommand
  have hline : ∃ s' e, shellLine sys s = some s' ∧ e.redirects = [] ∧
      s'.launches = s.launches ++
        ((if sys.fork s.forks = true ∧ sys.dup2 s.forks = true then
          [⟨(s.clear l.length).args.map some, [r]⟩] else []) ++
        if s₁.exited = false ∧ sys.fork (s.forks + 1) = true then [e] else []) := by
    rw [hc.shellLine_eq hne hargs, hdispatch, Option.map_some]
    refine ⟨_, ⟨s₁.args.map some, []⟩, rfl, rfl, ?_⟩
    rw [← List.append_assoc, ← hlaunch]
    by_cases hx : s₁.exited = true
    · rw [if_pos hx, if_neg (by simp [hx]), List.append_nil]
    · rw [if_neg hx, defaultCommand, launchWith_launches, hforks]
      refine congrArg (s₁.launches ++ ·) (if_congr ?_ rfl rfl)
      simp [hx, Shell.clear]
  obtain ⟨s', e', hs', he', hlaunches⟩ := hline
  unfold LaunchesOnce
  rw [hs', hredirects, hsplit, takeWhile_words hl ht]
  constructor
  · rintro ⟨s'', e, hs, hone, -, he⟩
    cases hs
    rw [hlaunches] at hone
    have hone := List.append_cancel_left hone
    by_cases hA : sys.fork s.forks = true ∧ sys.dup2 s.forks = true
    · rw [if_pos hA] at hone
      have hx : s₁.exited = false := by rw [hexited, hexit, hA.1]; simp
      refine ⟨hA.1, hA.2, ?_⟩
      by_contra hf'
      rw [if_pos ⟨hx, by simpa using hf'⟩] at hone
      cases hone
    · rw [if_neg hA, List.nil_append] at hone
      split at hone
      next =>
        cases hone
        rw [he'] at he
        cases he
      next => cases hone
  · rintro ⟨hf, hd, hf'⟩
    refine ⟨s', ⟨(s.clear l.length).args.map some, [r]⟩, rfl, ?_, ?_, rfl⟩
    · rw [hlaunches, if_pos ⟨hf, hd⟩, if_neg (by simp [hf']), List.append_nil]
    · have hargs₁ : s.args = l.map some ++ some t :: ((f :: l').map some ++ none :: rest) := by
        rw [hargs, hsplit, List.map_append, List.append_assoc]
        rfl
      have hset := Shell.clear_args hargs₁
      rw [List.length_map] at hset
      rw [hset, List.map_append, List.map_map]
      exact readArgv_words l _

/-- A child has one redirection at most. -/
theorem not_once (h : 2 ≤ (redirectsOf words).length) : ¬LaunchesOnce sys s words := by
  rintro ⟨s', e, hs, hone, -, he⟩
  obtain ⟨l, hl, hle⟩ := shellLine_launched hs
  rw [hone] at hl
  have hl := List.append_cancel_left hl
  have hlen := hle e (hl ▸ List.mem_singleton_self e)
  rw [he] at hlen
  omega

end

/-- A line launches its command once, with its redirections, if and only if there is none, or the
one there is succeeds and the command that is launched again cannot fork. -/
theorem launches_once_iff (sys : Sys) {s : Shell} {words : List Bytes}
    {rest : List (Option Bytes)} (hc : CommandLine words)
    (hargs : s.args = words.map some ++ none :: rest) (hexit : s.exited = false) :
    LaunchesOnce sys s words ↔
      (words ≠ [] ∧ redirectsOf words = [] ∧ sys.fork s.forks = true) ∨
      ((redirectsOf words).length = 1 ∧ sys.fork s.forks = true ∧ sys.dup2 s.forks = true ∧
        sys.fork (s.forks + 1) = false) := by
  by_cases hr : redirectsOf words = []
  · by_cases hne : words = []
    · subst hne
      have hline : shellLine sys s = some s := by
        have harg : s.arg 0 = none := by
          rw [Shell.arg, hargs]
          rfl
        rw [shellLine, harg]
      refine ⟨?_, fun h => ?_⟩
      · rintro ⟨s', e, hs, hone, -⟩
        rw [hline] at hs
        cases hs
        simp at hone
      · rcases h with ⟨hne, -⟩ | ⟨hlen, -⟩
        · exact absurd rfl hne
        · exact absurd hlen (by decide)
    · rw [once_plain hc hne hargs hexit hr]
      simp [hne, hr]
  · obtain ⟨l, t, l', hsplit, hl, ht⟩ := exists_first_redirect hr
    obtain ⟨-, f, hf, hword⟩ := hc.redirect l t l' hsplit ht
    obtain ⟨l', rfl⟩ : ∃ l'', l' = f :: l'' := by
      cases l' with
      | nil => cases hf
      | cons g l' =>
        cases hf
        exact ⟨l', rfl⟩
    obtain ⟨r, ht⟩ := Option.isSome_iff_exists.mp ((redirectOf_isSome t (some f)).mpr ht)
    have hwords : redirectsOf words = r :: redirectsOf (f :: l') := by
      rw [hsplit, redirectsOf_words hl, redirectsOf, List.head?_cons, ht]
      rfl
    by_cases hl' : redirectsOf (f :: l') = []
    · rw [once_single hc hsplit hl ht hl' hargs hexit, hwords, hl']
      simp
    · have hlen : 2 ≤ (redirectsOf words).length := by
        rw [hwords, List.length_cons]
        have hpos := List.length_pos_iff.mpr hl'
        omega
      refine ⟨fun h => absurd h (not_once hlen), fun h => ?_⟩
      rcases h with ⟨-, hnil, -⟩ | ⟨hone, -⟩
      · exact absurd hnil hr
      · omega

/-- Every call succeeds. -/
def steadySys : Sys := ⟨fun _ => true, fun _ => true, fun _ => true, some⟩

def freshShell (words : List Bytes) : Shell := ⟨words.map some ++ [none], ascii ['/'], 0, [], false⟩

/-- `echo hi` -/
theorem launches_once_iff_echo :
    LaunchesOnce steadySys (freshShell [ascii ['e', 'c', 'h', 'o'], ascii ['h', 'i']])
      [ascii ['e', 'c', 'h', 'o'], ascii ['h', 'i']] := by
  have hc : CommandLine [ascii ['e', 'c', 'h', 'o'], ascii ['h', 'i']] := by
    refine ⟨by decide, by decide, fun l t l' hsplit ht => ?_⟩
    have hmem : t ∈ [ascii ['e', 'c', 'h', 'o'], ascii ['h', 'i']] := by
      rw [hsplit]
      exact List.mem_append_right _ List.mem_cons_self
    have hall : ∀ u ∈ [ascii ['e', 'c', 'h', 'o'], ascii ['h', 'i']], ¬IsRedirect u := by decide
    exact absurd ht (hall t hmem)
  have hargs : (freshShell [ascii ['e', 'c', 'h', 'o'], ascii ['h', 'i']]).args =
      [ascii ['e', 'c', 'h', 'o'], ascii ['h', 'i']].map some ++ none :: [] := rfl
  refine (launches_once_iff steadySys hc hargs rfl).mpr (Or.inl ⟨?_, ?_, rfl⟩)
  · simp
  · decide

/-- `ls > f` is launched a second time, without the redirection. -/
theorem redirect_launches_twice :
    CommandLine [ascii ['l', 's'], ascii ['>'], ascii ['f']] ∧
      ¬LaunchesOnce steadySys (freshShell [ascii ['l', 's'], ascii ['>'], ascii ['f']])
        [ascii ['l', 's'], ascii ['>'], ascii ['f']] := by
  constructor
  · refine ⟨by decide, by decide, fun l t l' hsplit ht => ?_⟩
    rcases l with _ | ⟨a, _ | ⟨b, l⟩⟩
    · cases hsplit
      exact absurd ht (by decide)
    · cases hsplit
      exact ⟨⟨_, List.mem_cons_self, by decide⟩, _, rfl, by decide⟩
    · have hmem : t ∈ [ascii ['f']] := by
        obtain ⟨-, -, hsplit⟩ : ascii ['l', 's'] = a ∧ ascii ['>'] = b ∧
            [ascii ['f']] = l ++ t :: l' := by
          simpa using hsplit
        rw [hsplit]
        exact List.mem_append_right _ List.mem_cons_self
      rw [List.mem_singleton.mp hmem] at ht
      exact absurd ht (by decide)
  · rintro ⟨s', e, hs, hone, -⟩
    have htwo : (shellLine steadySys (freshShell [ascii ['l', 's'], ascii ['>'], ascii ['f']])).map
        (fun s => s.launches.length) = some 2 := by decide
    rw [hs, Option.map_some, hone] at htwo
    cases htwo

end FreeBSDEdits
