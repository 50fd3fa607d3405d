import HackerUnion.Bash.Read

namespace HackerUnion.Bash

/-- A basic regular expression, as it is read. -/
inductive Expression where
  | empty
  | one (kind : Char → Bool)
  | between (kind : Option Char → Option Char → Bool)
  | group (n : Nat) (e : Expression)
  | back (n : Nat)
  | cat (e e' : Expression)
  | alt (e e' : Expression)
  | repeated (e : Expression) (least : Nat) (most : Option Nat)

namespace Expression

/-- How far a match has come, and what the groups have matched, the last first. -/
structure Spot where
  pos : Nat
  groups : List (Nat × Text)

def Spot.next (s : Spot) (n : Nat) : Spot := { s with pos := s.pos + n }

section Matching

def rounds (f : Spot → List Spot) : Nat → Spot → List Spot
  | 0, s => [s]
  | n + 1, s => (f s).flatMap (rounds f n)

variable (t : Text)

/-- Where a match that begins at a spot may end. -/
def ends : Expression → Spot → List Spot
  | empty, s => [s]
  | one kind, s => if t[s.pos]?.any kind then [s.next 1] else []
  | between kind, s =>
    let before := if s.pos = 0 then none else t[s.pos - 1]?
    if kind before t[s.pos]? then [s] else []
  | group n e, s => (ends e s).map fun s' =>
      { s' with groups := (n, (t.take s'.pos).drop s.pos) :: s'.groups }
  | back n, s =>
    match s.groups.lookup n with
    | some u => if u.isPrefixOf (t.drop s.pos) then [s.next u.length] else []
    | none => []
  | cat e e', s => (ends e s).flatMap (ends e')
  | alt e e', s => ends e s ++ ends e' s
  | repeated e least most, s =>
    -- as many more rounds as there are characters: those that match nothing are not needed
    let more := (most.getD (least + t.length)) + 1 - least
    (List.range more).flatMap fun n => rounds (ends e) (least + n) s

def found (e : Expression) : Bool :=
  (List.range (t.length + 1)).any fun i => !(ends t e ⟨i, []⟩).isEmpty

end Matching

section Bracket

/-- A character of a bracket expression, and how many more it is written with. Classes are left
out. -/
def collated (c : Char) (t : Text) : Option (Char × Nat) :=
  match c, t with
  | '[', d :: t =>
    if d = '.' ∨ d = '=' then
      match t with
      | e :: d' :: ']' :: _ => if d' = d then some (e, 4) else none
      | _ => none
    else if d = ':' then none
    else some ('[', 0)
  | c, _ => some (c, 0)

/-- A character or a range, and how many more it is written with. -/
def member (c : Char) (t : Text) : Option ((Char → Bool) × Nat) := do
  let (a, n) ← collated c t
  match t.drop n with
  | '-' :: b :: t =>
    if b = ']' then some (fun c => c = a, n)
    else do
      let (b, m) ← collated b t
      if a ≤ b then some (fun c => a ≤ c && c ≤ b, n + 2 + m) else none
  | _ => some (fun c => c = a, n)

/-- What stands in the brackets up to the one that closes them, which is not the first character,
and how many characters it takes up. `none` where nothing closes them. -/
def members : Text → Nat → Bool → Option ((Char → Bool) × Nat)
  | [], _, _ => none
  | _ :: t, skip + 1, _ => (members t skip false).map fun (kind, n) => (kind, n + 1)
  | c :: t, 0, first =>
    if c = ']' ∧ first = false then some (fun _ => false, 1)
    else do
      let (kind, skip) ← member c t
      let (others, n) ← members t skip false
      some (fun c => kind c || others c, n + 1)

def bracket : Text → Option ((Char → Bool) × Nat)
  | '^' :: t => (members t 0 true).map fun (kind, n) => (fun c => !kind c, n + 1)
  | t => members t 0 true

end Bracket

section Operators

def numeral (t : Text) : Nat := Nat.ofDigitChars 10 t 0

def dupMax : Nat := 32767

/-- The bounds that stand behind `\{`, and how many characters they take up. -/
def interval (t : Text) : Option (Nat × Option Nat × Nat) :=
  let m := t.takeWhile Char.isDigit
  match t.drop m.length with
  | '\\' :: '}' :: _ =>
    if m = [] ∨ dupMax < numeral m then none
    else some (numeral m, some (numeral m), m.length + 2)
  | ',' :: t =>
    let n := t.takeWhile Char.isDigit
    match t.drop n.length with
    | '\\' :: '}' :: _ =>
      if dupMax < numeral m ∨ dupMax < numeral n then none
      else if n = [] then some (numeral m, none, m.length + 3)
      else if numeral n < numeral m then none
      else some (numeral m, some (numeral n), m.length + n.length + 3)
    | _ => none
  | _ => none

def isWord (c : Char) : Bool := c.isAlphanum || c = '_'

def lineStart : Expression := between fun before _ => before.isNone

def lineEnd : Expression := between fun _ behind => behind.isNone

/-- What a character with a backslash before it stands for, when it is none of the operators. -/
def escaped (c : Char) : Expression :=
  match c with
  | 'w' => one isWord
  | 'W' => one fun c => !isWord c
  | 's' => one isSpace
  | 'S' => one fun c => !isSpace c
  | '<' => between fun before behind => !before.any isWord && behind.any isWord
  | '>' => between fun before behind => before.any isWord && !behind.any isWord
  | 'b' => between fun before behind => before.any isWord != behind.any isWord
  | 'B' => between fun before behind => before.any isWord == behind.any isWord
  | '\x60' => lineStart
  | '\x27' => lineEnd
  | c => one fun d => d = c

end Operators

/-- What has been read of a group: the alternatives before, and the parts of the last, of which the
latest comes first and may be repeated. -/
structure Frame where
  earlier : List Expression
  parts : List Expression
  repeatable : Bool

namespace Frame

def opened : Frame := ⟨[], [], false⟩

def branch (f : Frame) : Expression := f.parts.reverse.foldr cat empty

def expression (f : Frame) : Expression := f.earlier.foldl (fun e e' => alt e' e) f.branch

def push (f : Frame) (e : Expression) : Frame :=
  { f with parts := e :: f.parts, repeatable := true }

def anchor (f : Frame) (e : Expression) : Frame := { f with parts := e :: f.parts }

/-- An operator that has nothing to repeat stands for itself. -/
def again (f : Frame) (c : Char) (least : Nat) (most : Option Nat) : Frame :=
  match f.parts, f.repeatable with
  | e :: parts, true => { f with parts := repeated e least most :: parts }
  | _, _ => f.push (one fun d => d = c)

end Frame

/-- The groups that are open stand around the frame, each with its number. -/
structure Reader where
  frame : Frame
  outer : List (Nat × Frame)
  opened : Nat
  closed : List Nat

namespace Reader

def push (r : Reader) (e : Expression) : Reader := { r with frame := r.frame.push e }

def anchor (r : Reader) (e : Expression) : Reader := { r with frame := r.frame.anchor e }

def again (r : Reader) (c : Char) (least : Nat) (most : Option Nat) : Reader :=
  { r with frame := r.frame.again c least most }

def openGroup (r : Reader) : Reader :=
  { r with frame := .opened, outer := (r.opened + 1, r.frame) :: r.outer, opened := r.opened + 1 }

def closeGroup (r : Reader) : Option Reader :=
  match r.outer with
  | [] => none
  | (n, f) :: outer => some { r with
      frame := f.push (group n r.frame.expression)
      outer := outer
      closed := n :: r.closed }

def alternative (r : Reader) : Reader :=
  { r with frame := ⟨r.frame.branch :: r.frame.earlier, [], false⟩ }

/-- What a backslash and the character behind it do, and how many more characters they use up. -/
def operator (r : Reader) (c : Char) (t : Text) : Option (Reader × Nat) :=
  match c with
  | '(' => some (r.openGroup, 0)
  | ')' => r.closeGroup.map fun r => (r, 0)
  | '|' => some (r.alternative, 0)
  | '+' => some (r.again c 1 none, 0)
  | '?' => some (r.again c 0 (some 1), 0)
  | '{' =>
    if r.frame.repeatable then
      (interval t).map fun (least, most, n) => (r.again c least most, n)
    else some (r.push (escaped c), 0)
  | c =>
    if '1' ≤ c ∧ c ≤ '9' then
      let n := c.toNat - '0'.toNat
      if n ∈ r.closed then some (r.push (back n), 0) else none
    else
      match escaped c with
      | between kind => some (r.anchor (between kind), 0)
      | e => some (r.push e, 0)

/-- Whether a branch ends here. -/
def branchEnds : Text → Bool
  | [] => true
  | '\\' :: c :: _ => c = ')' || c = '|'
  | _ => false

def read (r : Reader) (c : Char) (t : Text) : Option (Reader × Nat) :=
  match c with
  | '.' => some (r.push (one fun _ => true), 0)
  | '*' => some (r.again c 0 none, 0)
  | '[' => (bracket t).map fun (kind, n) => (r.push (one kind), n)
  | '^' =>
    if r.frame.parts.isEmpty then some (r.anchor lineStart, 0)
    else some (r.push (one fun d => d = c), 0)
  | '$' =>
    if branchEnds t then some (r.anchor lineEnd, 0)
    else some (r.push (one fun d => d = c), 0)
  | '\\' =>
    match t with
    | [] => none
    | c :: t => (r.operator c t).map fun (r, n) => (r, n + 1)
  | c => some (r.push (one fun d => d = c), 0)

end Reader

/-- So many characters have been read already. -/
def parseFrom : Text → Nat → Reader → Option Expression
  | [], _, r => if r.outer.isEmpty then some r.frame.expression else none
  | _ :: t, skip + 1, r => parseFrom t skip r
  | c :: t, 0, r => do
    let (r, skip) ← r.read c t
    parseFrom t skip r

/-- What a text means as an expression. `none` where `grep` refuses it. -/
def parse (t : Text) : Option Expression := parseFrom t 0 ⟨.opened, [], 0, []⟩

end Expression

/-- Whether `grep "$p"` prints the line. -/
def basicGrep (p line : Text) : Bool := (Expression.parse p).any (Expression.found line)

namespace Expression

variable {p t : Text} {parts : List Expression} {s : Spot} {c : Char}

/-- Characters that stand for themselves wherever they are. -/
def isOrdinary (c : Char) : Bool := c ∉ ['.', '*', '[', '^', '$', '\\']

theorem read_ordinary (hc : isOrdinary c = true) (r : Reader) (t : Text) :
    r.read c t = some (r.push (one fun d => d = c), 0) := by
  have hc := of_decide_eq_true hc
  simp only [List.mem_cons, List.not_mem_nil, or_false, not_or] at hc
  simp [Reader.read, hc]

/-- Each character is a part of its own. -/
theorem parseFrom_ordinary (hp : ∀ c ∈ p, isOrdinary c = true) (r : Reader) (ho : r.outer = []) :
    ∃ repeatable, parseFrom p 0 r = some (Frame.expression
      ⟨r.frame.earlier, (p.map fun c => one fun d => d = c).reverse ++ r.frame.parts,
        repeatable⟩) := by
  induction p generalizing r with
  | nil => exact ⟨r.frame.repeatable, by simp [parseFrom, ho]⟩
  | cons c p ih =>
    obtain ⟨hc, hp⟩ := List.forall_mem_cons.mp hp
    obtain ⟨repeatable, hrest⟩ := ih hp (r.push (one fun d => d = c)) ho
    refine ⟨repeatable, ?_⟩
    have hread := read_ordinary hc r p
    simp only [parseFrom, hread, Option.bind_eq_bind, Option.bind_some, hrest]
    simp [Reader.push, Frame.push]

/-- A row of characters matches where it stands. -/
theorem ends_row (p t : Text) (s : Spot) :
    ends t ((p.map fun c => one fun d => d = c).foldr cat empty) s =
      if p.isPrefixOf (t.drop s.pos) then [s.next p.length] else [] := by
  induction p generalizing s with
  | nil => simp [ends, Spot.next]
  | cons c p ih =>
    rw [List.map_cons, List.foldr_cons, ends, ends]
    cases hhead : t.drop s.pos with
    | nil =>
      have hnone : t[s.pos]? = none := by
        rw [← List.head?_drop, hhead, List.head?_nil]
      simp [hnone]
    | cons d rest =>
      have hsome : t[s.pos]? = some d := by
        rw [← List.head?_drop, hhead, List.head?_cons]
      have hrest : t.drop (s.pos + 1) = rest := by
        rw [← List.drop_drop, hhead, List.drop_one, List.tail_cons]
      by_cases hd : c = d
      · have hnext : (s.next 1).next p.length = s.next (p.length + 1) := by
          rw [Spot.next, Spot.next, Spot.next, Nat.add_comm p.length, Nat.add_assoc]
        have hpos : (s.next 1).pos = s.pos + 1 := rfl
        simp [hsome, hd, ih, hpos, hrest, hnext]
      · simp [hsome, hd, Ne.symm hd]

end Expression

open Expression in
/-- Of a text in which nothing is special the lines are found that begin with it. -/
theorem basicGrep_anchored {p : Text} (hp : ∀ c ∈ p, isOrdinary c = true) (l : Text) :
    basicGrep ('^' :: p) l = p.isPrefixOf l := by
  obtain ⟨repeatable, hparse⟩ := parseFrom_ordinary hp
    ⟨Frame.opened.anchor lineStart, [], 0, []⟩ rfl
  have hexpression : parse ('^' :: p) =
      some (cat lineStart ((p.map fun c => one fun d => d = c).foldr cat empty)) := by
    have hstep : parse ('^' :: p) = parseFrom p 0 ⟨Frame.opened.anchor lineStart, [], 0, []⟩ := rfl
    rw [hstep, hparse]
    simp [Frame.expression, Frame.branch, Frame.anchor, Frame.opened]
  have hends (i : Nat) (hi : i < l.length + 1) : ends l
      (cat lineStart ((p.map fun c => one fun d => d = c).foldr cat empty)) ⟨i, []⟩ =
        if i = 0 ∧ p.isPrefixOf l then [⟨p.length, []⟩] else [] := by
    cases i with
    | zero => simp [ends, lineStart, ends_row, Spot.next]
    | succ i =>
      have hbefore : l[i]? = some l[i] := List.getElem?_eq_getElem (by omega)
      simp [ends, lineStart, hbefore]
  rw [basicGrep, hexpression, Option.any_some, found, Bool.eq_iff_iff, List.any_eq_true]
  constructor
  · intro h
    obtain ⟨i, hi, hne⟩ := h
    rw [hends i (List.mem_range.mp hi)] at hne
    split at hne
    · next hprefix => exact hprefix.2
    · cases hne
  · intro h
    refine ⟨0, List.mem_range.mpr (Nat.succ_pos _), ?_⟩
    rw [hends 0 (Nat.succ_pos _), if_pos ⟨rfl, h⟩]
    rfl

/-- An asterisk repeats the letter before it, and a word may stand in a group. -/
example : basicGrep (text "^an*$") (text "ann") = true ∧
    basicGrep (text "^a[^n]") (text "ann") = false ∧
    basicGrep (text "^\\(an\\|bo\\)\\1$") (text "anbo") = false := by decide

end HackerUnion.Bash
