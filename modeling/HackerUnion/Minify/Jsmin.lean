import Mathlib.Data.List.Basic
import Mathlib.Order.Basic

namespace HackerUnion.Minify

abbrev Script := List Char

/-- Why a script is not minified. The last is for a loop that has not ended in the rounds it is
given. -/
inductive Failure where
  | unterminatedComment
  | unterminatedStringLiteral
  | unterminatedRegularExpression
  | endless
  deriving DecidableEq

/-- What is read behind the end. -/
def eof : Char := '\x00'

def isAlphanum (c : Char) : Bool :=
  ('a' ≤ c && c ≤ 'z') || ('0' ≤ c && c ≤ '9') || ('A' ≤ c && c ≤ 'Z') || c = '_' || c = '$' ||
    c = '\\' || 126 < c.toNat

/-- A control character is a linefeed or a space. -/
def translate (c : Char) : Char :=
  if ' ' ≤ c ∨ c = '\n' then c else if c = '\r' then '\n' else ' '

/-- `_get`. A character that was looked at before is in front of the others. -/
def get : Script → Char × Script
  | [] => (eof, [])
  | c :: ins => (translate c, ins)

/-- `_peek` -/
def peek (ins : Script) : Char × Script := ((get ins).1, (get ins).1 :: (get ins).2)

/-- `while c > '\n'` -/
def lineComment : Script → Char × Script
  | [] => (eof, [])
  | c :: ins => if '\n' < translate c then lineComment ins else (translate c, ins)

/-- The rest of a comment, and the space it is read as. -/
def blockComment : Script → Except Failure (Char × Script)
  | [] => .error .unterminatedComment
  | [_] => .error .unterminatedComment
  | c :: d :: ins =>
    if translate c = '*' ∧ translate d = '/' then .ok (' ', ins) else blockComment (d :: ins)

/-- `_next` -/
def next (ins : Script) : Except Failure (Char × Script) :=
  let (c, ins) := get ins
  if c = '/' then
    let (p, ins) := peek ins
    if p = '/' then .ok (lineComment ins)
    else if p = '*' then blockComment ins.tail
    else .ok (c, ins)
  else .ok (c, ins)

/-- What of a string literal is behind its first quote: what is left behind its end, and what has
been written. -/
def copyString (quote : Char) : Script → Script → Except Failure (Script × Script)
  | [], _ => .error .unterminatedStringLiteral
  | c :: ins, outs =>
    if translate c = quote then .ok (ins, outs)
    else if translate c ≤ '\n' then .error .unterminatedStringLiteral
    else if translate c = '\\' then
      match ins with
      | [] => .error .unterminatedStringLiteral
      | d :: ins => copyString quote ins (outs ++ [translate c, translate d])
    else copyString quote ins (outs ++ [translate c])

/-- The same of a regular expression. -/
def copyRegexp : Script → Script → Except Failure (Script × Script)
  | [], _ => .error .unterminatedRegularExpression
  | c :: ins, outs =>
    if translate c = '/' then .ok (ins, outs)
    else if translate c = '\\' then
      match ins with
      | [] => .error .unterminatedRegularExpression
      | d :: ins => copyRegexp ins (outs ++ [translate c, translate d])
    else if translate c ≤ '\n' then .error .unterminatedRegularExpression
    else copyRegexp ins (outs ++ [translate c])

/-- The characters behind which a slash begins a regular expression. -/
def precedesRegexp (a : Char) : Bool :=
  a ∈ ['(', ',', '=', ':', '[', '?', '!', '&', '|', ';', '\x7b', '\x7d', '\n']

structure State where
  theA : Char
  theB : Char
  ins : Script
  outs : Script

def State.outA (s : State) : State := { s with outs := s.outs ++ [s.theA] }

/-- Copy B to A, of a string literal all but its last quote. -/
def copyB (s : State) : Except Failure State :=
  if s.theB = '\'' ∨ s.theB = '"' then do
    let (ins, outs) ← copyString s.theB s.ins (s.outs ++ [s.theB])
    return { s with theA := s.theB, ins, outs }
  else .ok { s with theA := s.theB }

/-- Get the next B. -/
def nextB (s : State) : Except Failure State := do
  let (b, ins) ← next s.ins
  if b = '/' ∧ precedesRegexp s.theA then
    let (ins, outs) ← copyRegexp ins (s.outs ++ [s.theA, b])
    let (b, ins) ← next ins
    return ⟨'/', b, ins, outs⟩
  else return { s with theB := b, ins }

inductive Action where
  | outputA
  | deleteA
  | deleteB
  deriving DecidableEq

/-- `_action` -/
def action (s : State) : Action → Except Failure State
  | .outputA => copyB s.outA >>= nextB
  | .deleteA => copyB s >>= nextB
  | .deleteB => nextB s

/-- What is done with a character and the next one. -/
def choose (a b : Char) : Action :=
  if a = ' ' then
    if isAlphanum b then .outputA else .deleteA
  else if a = '\n' then
    if b ∈ ['\x7b', '[', '(', '+', '-'] then .outputA
    else if b = ' ' then .deleteB
    else if isAlphanum b then .outputA
    else .deleteA
  else if b = ' ' then
    if isAlphanum a then .outputA else .deleteB
  else if b = '\n' then
    if a ∈ ['\x7d', ']', ')', '+', '-', '"', '\''] then .outputA
    else if isAlphanum a then .outputA
    else .deleteB
  else .outputA

/-- The loop of `_jsmin`, which is given so many rounds. -/
def loop : Nat → State → Except Failure Script
  | rounds, s =>
    if s.theA = eof then .ok s.outs
    else
      match rounds with
      | 0 => .error .endless
      | rounds + 1 => action s (choose s.theA s.theB) >>= loop rounds

/-- Without the line end that may be written first. -/
def stripped (str : Script) : Script := if str.head? = some '\n' then str.tail else str

def jsmin (js : Script) : Except Failure Script := do
  let s ← nextB ⟨'\n', eof, js, []⟩
  let str ← loop (2 * js.length + 2) s
  return stripped str

end HackerUnion.Minify
