import FreeBSDEdits.ArgShell
import FreeBSDEdits.MaximalMunch
import Mathlib.Logic.Function.Basic

namespace FreeBSDEdits

/-- The rules of shell.l. -/
inductive LexRule
  | token
  | newline
  | blanks
  /-- `.` -/
  | other
  deriving DecidableEq

/-- `[a-zA-Z_0-9\/\.-]` -/
def isWordByte (b : UInt8) : Bool :=
  ('a'.toUInt8 ≤ b && b ≤ 'z'.toUInt8) || ('A'.toUInt8 ≤ b && b ≤ 'Z'.toUInt8) ||
    ('0'.toUInt8 ≤ b && b ≤ '9'.toUInt8) || (ascii ['_', '/', '.', '-']).contains b

/-- `[()><|&;*]` -/
def isSpecialByte (b : UInt8) : Bool := (ascii ['(', ')', '>', '<', '|', '&', ';', '*']).contains b

def isWord (t : List UInt8) : Bool := t ≠ [] && t.all isWordByte

def isSpecial (t : List UInt8) : Bool := t ≠ [] && t.all isSpecialByte

def isQuoteBy (quote : UInt8) : List UInt8 → Bool
  | b :: t => b = quote && t.getLast? = some quote && !t.dropLast.contains quote
  | [] => false

/-- An apostrophe or a quotation mark on both sides. -/
def isQuote (t : List UInt8) : Bool := isQuoteBy 0x27 t || isQuoteBy 0x22 t

abbrev newlineByte : UInt8 := '\n'.toUInt8

def LexRule.accepts : LexRule → List UInt8 → Bool
  | .token, t => isWord t || isSpecial t || isQuote t
  | .newline, t => t = [newlineByte]
  | .blanks, t => t ≠ [] && t.all (ascii [' ', '\t']).contains
  | .other, t => t.length = 1 && t ≠ [newlineByte]

/-- The longest text counts, and the first rule for it. -/
def shellRules : MaximalMunch.Rules UInt8 LexRule :=
  ⟨[.token, .newline, .blanks, .other], LexRule.accepts, (· = .newline)⟩

/-- The buffers of the lexer; a pointer into `_linebuf` is an index, and NULL is `none`. -/
structure Lexer where
  args : Nat → Option Nat
  argcount : Nat
  bufpos : Nat
  linebuf : Nat → UInt8

abbrev linebufSize : Nat := 4096

namespace Lexer

/-- A store into `_args`; `none` is one outside the array, and the same below. -/
def storeArg (st : Lexer) (i : Nat) (p : Option Nat) : Option Lexer :=
  if i < argsSize then some { st with args := Function.update st.args i p } else none

/-- `_linebuf[_bufpos++] = b` -/
def storeByte (st : Lexer) (b : UInt8) : Option Lexer :=
  if st.bufpos < linebufSize then
    some { st with
      linebuf := Function.update st.linebuf st.bufpos b
      bufpos := st.bufpos + 1 }
  else none

/-- The loop over yytext, which flex ends with NUL. -/
def copyText : List UInt8 → Lexer → Option Lexer
  | [], st => some st
  | b :: t, st => if b = 0 then some st else (st.storeByte b).bind (copyText t)

/-- The action for WORD, SPECIAL and QUOTE. -/
def addArg (st : Lexer) (yytext : List UInt8) : Option Lexer :=
  if st.argcount < argsSize - 1 then do
    let st ← st.storeArg st.argcount (some st.bufpos)
    let st := { st with argcount := st.argcount + 1 }
    let st ← st.storeArg st.argcount none
    let st ← copyText yytext st
    st.storeByte 0
  else some st

def act : LexRule → List UInt8 → Lexer → Option Lexer
  | .token, yytext, st => st.addArg yytext
  | _, _, st => some st

/-- What yylex does first. -/
def reset (st : Lexer) : Option Lexer := { st with argcount := 0, bufpos := 0 }.storeArg 0 none

/-- The flag tells whether the newline was reached; the input may end before it. -/
def yylex (st : Lexer) (input : List UInt8) : Option (Lexer × Bool) :=
  st.reset.bind (shellRules.run act input.length input)

end Lexer

end FreeBSDEdits
