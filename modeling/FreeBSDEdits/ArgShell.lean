import Mathlib.Data.List.Basic

namespace FreeBSDEdits

/-- The bytes of a C string, without the NUL. -/
abbrev Bytes := List UInt8

def ascii (chars : List Char) : Bytes := chars.map fun ch => UInt8.ofNat ch.toNat

/-- SIZE -/
abbrev argsSize : Nat := 256

/-- An element of an array of pointers: `none` has not been stored, `some none` is NULL. -/
abbrev Cell := Option (Option Bytes)

/-- What a child does with its standard input or output; a file may be NULL. -/
inductive Redirect
  | input (file : Option Bytes)
  | output (file : Option Bytes)
  | append (file : Option Bytes)
  | pipeRead
  | pipeWrite
  deriving DecidableEq

/-- A child that gets to execvp. -/
structure Launch where
  argv : List Cell
  redirects : List Redirect
  deriving DecidableEq

/-- What the system calls answer. Calls in a child are numbered by the fork that made it. -/
structure Sys where
  fork : Nat → Bool
  /-- open or creat, and dup2 -/
  dup2 : Nat → Bool
  pipe : Nat → Bool
  /-- the new working directory -/
  chdir : Bytes → Option Bytes

/-- The shell, with the vector that get_args returned. -/
structure Shell where
  args : List (Option Bytes)
  cwd : Bytes
  /-- the calls of fork so far -/
  forks : Nat
  launches : List Launch
  exited : Bool
  deriving DecidableEq

namespace Shell

/-- `args[i]` -/
def arg (s : Shell) (i : Nat) : Option Bytes := s.args[i]?.join

/-- `args[i] = NULL` -/
def clear (s : Shell) (i : Nat) : Shell := { s with args := s.args.set i none }

def exit (s : Shell) : Shell := { s with exited := true }

end Shell

/-- open fails on NULL. -/
def Redirect.Opens : Redirect → Prop
  | .input file | .output file | .append file => file ≠ none
  | .pipeRead | .pipeWrite => True

instance : DecidablePred Redirect.Opens := fun r => by
  rcases r <;> unfold Redirect.Opens <;> infer_instance

/-- fork, the redirections and execvp; a child that fails on the way exits. `exits` tells what the
shell does when fork fails. -/
def launchWith (sys : Sys) (s : Shell) (redirects : List Redirect) (exits : Bool) : Shell :=
  let n := s.forks
  let s := { s with forks := n + 1 }
  if sys.fork n then
    if ∀ r ∈ redirects, r.Opens ∧ sys.dup2 n then
      { s with launches := s.launches ++ [⟨s.args.map some, redirects⟩] }
    else s
  else if exits then s.exit
  else s

def defaultCommand (sys : Sys) (s : Shell) : Shell := launchWith sys s [] true

def inputRedirect (sys : Sys) (s : Shell) (file : Option Bytes) : Shell :=
  launchWith sys s [.input file] true

def outputRedirect (sys : Sys) (s : Shell) (file : Option Bytes) : Shell :=
  launchWith sys s [.output file] false

def outputRedirectAppend (sys : Sys) (s : Shell) (file : Option Bytes) : Shell :=
  launchWith sys s [.append file] false

/-- `for (j = 0; args[j] != NULL; j++) pipeArgs[j] = args[j]`; `none` is an access outside. -/
def copyPipeArgs : List (Option Bytes) → Nat → List Cell → Option (List Cell)
  | [], _, _ => none
  | none :: _, _, v => some v
  | some t :: l, j, v =>
    if j < v.length then copyPipeArgs l (j + 1) (v.set j (some (some t))) else none

/-- `for (k = i; args[k] != NULL; k++) pipeArgs2[k - i] = args[k + 1]`, from `args[i]` on. -/
def copyPipeArgs2 : List (Option Bytes) → Nat → List Cell → Option (List Cell)
  | some _ :: arg :: l, j, v =>
    if j < v.length then copyPipeArgs2 (arg :: l) (j + 1) (v.set j (some arg)) else none
  | none :: _, _, v => some v
  | _, _, _ => none

/-- The vectors for both calls of execvp, when `args[i]` has been cleared. -/
def pipeVectors (args : List (Option Bytes)) (i : Nat) : Option (List Cell × List Cell) :=
  (copyPipeArgs args 0 (List.replicate argsSize none)).bind fun pipeArgs =>
    (copyPipeArgs2 (args.drop i) 0 (List.replicate argsSize none)).map fun pipeArgs2 =>
      (pipeArgs, pipeArgs2)

def pipeCommand (sys : Sys) (s : Shell) (i : Nat) : Option Shell :=
  let s := s.clear i
  (pipeVectors s.args i).map fun (pipeArgs, pipeArgs2) =>
    if sys.pipe s.forks = false then s.exit
    else if sys.fork s.forks = false then Shell.exit { s with forks := s.forks + 1 }
    else if sys.fork (s.forks + 1) = false then { s with forks := s.forks + 2 }
    else
      { s with
        forks := s.forks + 2
        launches := s.launches ++
          (if sys.dup2 (s.forks + 1) then [⟨pipeArgs2, [.pipeRead]⟩] else []) ++
          (if sys.dup2 s.forks then [⟨pipeArgs, [.pipeWrite]⟩] else []) }

/-- `none` is the access through NULL, or a path that does not fit its buffer. -/
def changeDirectory (sys : Sys) (s : Shell) : Option Shell :=
  (s.arg 1).bind fun path =>
    let dir := if path.head? = some '/'.toUInt8 then path else s.cwd ++ ascii ['/'] ++ path
    if dir.length < argsSize then
      match sys.chdir dir with
      | some cwd => some { s with cwd := cwd }
      | none => some s.exit
    else none

/-- The loop body of main for the argument `t = args[i]`. -/
def dispatchArg (sys : Sys) (s : Shell) (i : Nat) (t : Bytes) : Option Shell :=
  if t = ascii ['<'] then some (inputRedirect sys (s.clear i) ((s.clear i).arg (i + 1)))
  else if t = ascii ['>'] then some (outputRedirect sys (s.clear i) ((s.clear i).arg (i + 1)))
  else if t = ascii ['>', '>'] then
    some (outputRedirectAppend sys (s.clear i) ((s.clear i).arg (i + 1)))
  else if t = ascii ['|'] then pipeCommand sys s i
  else some s

/-- The loop from `args[i]` on; the first number bounds its turns. -/
def dispatch (sys : Sys) : Nat → Nat → Shell → Option Shell
  | 0, _, s => some s
  | n + 1, i, s =>
    match s.arg i with
    | none => some s
    | some t =>
      (dispatchArg sys s i t).bind fun s => if s.exited then some s else dispatch sys n (i + 1) s

/-- What main does with a line. -/
def shellLine (sys : Sys) (s : Shell) : Option Shell :=
  match s.arg 0 with
  | none => some s
  | some t =>
    if t = ascii ['c', 'd'] then changeDirectory sys s
    else if t = ascii ['e', 'x', 'i', 't'] then some s.exit
    else (dispatch sys s.args.length 0 s).map fun s => if s.exited then s else defaultCommand sys s

end FreeBSDEdits
