import HackerUnion.Bash.Echo
import HackerUnion.Bash.Words

namespace HackerUnion.Membership

open Bash

/-- `[a-z0-9]` under `grep -i` -/
def isLetterOrDigit (c : Char) : Bool := c.isDigit || ('a' ≤ c.toLower && c.toLower ≤ 'z')

/-- So many characters of a kind in a row: the expression `p{n,m}`, which is not anchored. -/
def hasRun (p : Char → Bool) (n : Nat) (line : Text) : Bool :=
  line.tails.any (fun t => n ≤ (t.takeWhile p).length)

/-- `.{1,100}@.{1,100}` -/
def hasAddress (line : Text) : Bool :=
  line.tails.any (fun t => t.length > 2 && t[1]? = some '@')

/-- `echo "$t" | grep -qv` finds no line. -/
def everyLine (p : Text → Bool) (t : Text) : Bool := (lines (echo [t])).all p

/-- A text that neither `read` nor `cut` takes apart. -/
def Bare (t : Text) : Prop := '|' ∉ t ∧ Line t ∧ '\\' ∉ t

instance (t : Text) : Decidable (Bare t) := inferInstanceAs (Decidable (_ ∧ _ ∧ _))

/-- The fields of the form, with the address of the client and what `date` prints. -/
structure Submission where
  ip : Text
  name : Text
  email : Text
  username : Text
  note : Text
  submit : Text
  date : Text
  ip_bare : Bare ip
  date_bare : Bare date
  deriving DecidableEq

def validName (name : Text) : Bool := everyLine (hasRun (fun c => !isSpace c) 3) name

def validNote (note : Text) : Bool := everyLine (fun line => line.length < 5000) note

def validEmail (email : Text) : Bool := everyLine hasAddress email

def validUsername (username : Text) : Bool := everyLine (hasRun isLetterOrDigit 2) username

/-- `STATUS` stays at 200 and `SAVE` is set. -/
def accepted (s : Submission) : Bool :=
  s.submit ≠ [] && validName s.name && validNote s.note && validEmail s.email &&
    validUsername s.username

/-- ``note="`echo $note | sed -e 's/[[:space:]]/ /g'`"`` -/
def spaced (glob : Text → List Text) (note : Text) : Text :=
  let blank (c : Char) : Char := if isSpace c then ' ' else c
  capture (unlines ((lines (echo (expand glob note))).map (·.map blank)))

/-- The line that is added to the data file. -/
def applied (glob : Text → List Text) (s : Submission) : Text :=
  List.intercalate ['|']
    [text "1", s.ip, s.name, s.email, s.username, s.date, spaced glob s.note]

def save (glob : Text → List Text) (data : Text) (s : Submission) : Text :=
  data ++ echo [applied glob s]

/-- The data file after a request. -/
def apply (glob : Text → List Text) (data : Text) (s : Submission) : Text :=
  if accepted s then save glob data s else data

/-- The data file after the requests, from an empty one. -/
def applyAll (glob : Text → List Text) (submissions : List Submission) : Text :=
  submissions.foldl (apply glob) []

end HackerUnion.Membership
