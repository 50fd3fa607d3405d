import HackerUnion.Js.Members
import HackerUnion.StackEditor.Document
import HackerUnion.StackEditor.Sheet
import HackerUnion.StackEditor.Shift

namespace HackerUnion.StackEditor

open Js

/-- What an object has under `f`. -/
inductive Code (F : Type) where
  | absent
  | null
  | function (f : F)
  deriving DecidableEq

/-- What an object may be given after it was made. -/
inductive Property where
  | source | markdown | style
  deriving DecidableEq

/-- What a cell, a card and the stack have in common. -/
structure Coded (F : Type) where
  f : Code F
  added : Obj Property Text
  deriving DecidableEq

structure Cell (F : Type) where
  fg : Text
  bg : Text
  val : Text
  go : Option Text
  code : Coded F
  deriving DecidableEq

/-- A card without its name. -/
structure Body (F : Type) where
  data : List (List (Cell F))
  code : Coded F
  deriving DecidableEq

variable {F : Type}

def made : Coded F := ⟨.null, Obj.empty⟩

def Coded.source (obj : Coded F) : Text := (obj.added.get .source).getD []

def Coded.add (obj : Coded F) (property : Property) (text : Text) : Coded F :=
  { obj with added := obj.added.set property text }

/-- The code units of a literal. -/
def literal (s : String) : Text := s.toList.map fun c => UInt16.ofNat c.toNat

def createCell (fg bg val : Text) (go : Option Text) : Cell F where
  fg := if fg = [] then literal "#000" else fg
  bg := if bg = [] then literal "#fff" else bg
  val := val
  go := go.filter (· ≠ [])
  code := made

/-- Nothing stands for `NaN`. -/
def createBlankCard (rows cols : Option Int) : Body F where
  data := List.replicate (rows.getD 0).toNat
    (List.replicate (cols.getD 0).toNat (createCell (literal "#000") (literal "#eee") [space] none))
  code := made

/-- A stack that is made of cards, and what it has itself. -/
def createStack (name home : String) (cards : List (Card (Body F))) : Stack (Body F) × Coded F :=
  (⟨name, home, home, cards.foldl (fun r c => r.set c.name c) Obj.empty⟩, made)

section Draw

-- `js` is `eval` and gives nothing when it throws. `returns` tells whether the last of the
-- functions called so far returns. The functions are taken to leave the stack, the card and the
-- cell that they are given alone, and to keep nothing from one call to the next, so that what a
-- source compiles to is the same function each time.
variable (js : Text → Option F) (returns : List F → Bool)

/-- Also the object, which keeps what it is asked for. -/
def getCallback (obj : Coded F) : Option (Option F × Coded F) :=
  match obj.f with
  | .function f => some (some f, obj)
  | .absent | .null =>
    if obj.source = [] then some (none, obj)
    else (js obj.source).map fun f => (some f, { obj with f := .function f })

/-- What drawing leaves of an object, the functions called so far and whether it came to its end. -/
structure Drawn (F α : Type) where
  obj : α
  called : List F
  through : Bool

variable {α : Type}

/-- The call is recorded: the function changes nothing of the document. -/
def runCallback (called : List F) (obj : Coded F) : Drawn F (Coded F) :=
  match getCallback js obj with
  | none => ⟨obj, called, false⟩
  | some (none, obj) => ⟨obj, called, true⟩
  | some (some f, obj) => ⟨obj, called ++ [f], returns (called ++ [f])⟩

/-- One after the other, until one does not come to its end. -/
def drawAll (draw : List F → α → Drawn F α) (called : List F) : List α → Drawn F (List α)
  | [] => ⟨[], called, true⟩
  | x :: xs =>
    let first := draw called x
    if first.through then
      let rest := drawAll draw first.called xs
      ⟨first.obj :: rest.obj, rest.called, rest.through⟩
    else ⟨first.obj :: xs, first.called, false⟩

def drawCell (called : List F) (cell : Cell F) : Drawn F (Cell F) :=
  let drawn := runCallback js returns called cell.code
  ⟨{ cell with code := drawn.obj }, drawn.called, drawn.through⟩

def renderCard (called : List F) (card : Body F) : Drawn F (Body F) :=
  let cells := drawAll (drawAll (drawCell js returns)) called card.data
  if cells.through then
    let drawn := runCallback js returns cells.called card.code
    ⟨⟨cells.obj, drawn.obj⟩, drawn.called, drawn.through⟩
  else ⟨{ card with data := cells.obj }, cells.called, false⟩

end Draw

/-- The document, what the stack itself has, and the functions called so far. -/
structure Session (F : Type) where
  editor : Editor (Body F)
  code : Coded F
  called : List F
  deriving DecidableEq

namespace Session

variable (js : Text → Option F) (returns : List F → Bool) (s : Session F)

/-- The card on display. -/
def card : Option (Card (Body F)) := s.editor.stack.cards.get s.editor.stack.card

/-- An assignment to what is stored for the card on display. -/
def setCard (card : Card (Body F)) : Session F :=
  { s with editor.stack.cards := s.editor.stack.cards.set s.editor.stack.card card }

/-- `renderCard` of the card on display; without one it throws. -/
def repaint : Drawn F (Session F) :=
  match s.card with
  | none => ⟨s, s.called, false⟩
  | some card =>
    let drawn := renderCard js returns s.called card.rest
    ⟨{ s.setCard { card with rest := drawn.obj } with called := drawn.called }, drawn.called,
      drawn.through⟩

/-- The same with what `renderStack` adds. -/
def paint : Drawn F (Session F) :=
  let cards := repaint js returns s
  if cards.through then
    let drawn := runCallback js returns cards.called cards.obj.code
    ⟨{ cards.obj with code := drawn.obj, called := drawn.called }, drawn.called, drawn.through⟩
  else cards

def refreshTools : Session F := { s with editor := StackEditor.refreshTools s.editor }

def navigateCard (card : String) : Session F :=
  let drawn := repaint js returns { s with editor.stack.card := card }
  if drawn.through then refreshTools drawn.obj else drawn.obj

/-- Not followed when the painting throws: the tools have lost their handlers then. -/
def navigateStack (stack : Stack (Body F)) (code : Coded F) : Option (Session F) :=
  let drawn := paint js returns
    { s with editor.stack := { stack with card := stack.home }, code := code }
  if drawn.through then some (refreshTools drawn.obj) else none

def newCard (rows cols : Option Int) : Option (Session F) :=
  let stack := s.editor.stack
  (freshName stack.cards (rounds stack.cards) 0).map fun name =>
    navigateCard js returns
      { s with editor.stack := addCard stack ⟨name, createBlankCard rows cols⟩ } name

def deleteCard (confirmed : Bool) : Session F :=
  if !confirmed then s
  else if s.editor.stack.cards.ownKeys.length = 1 then s
  else
    match removeCard s.editor.stack s.editor.stack.card with
    | some stack => navigateCard js returns { s with editor.stack := stack } stack.home
    | none => s

def navigate (go : String) : Session F :=
  if s.editor.stack.cards.hasIn go then navigateCard js returns s go else s

/-- Without a card on display it throws before anything is changed, and also where a cell is not
there. -/
def setCells (active : List Loc) (change : Cell F → Cell F) : Session F :=
  match s.card with
  | none => s
  | some card =>
    if active.all fun loc => (getloc card.rest.data loc).isSome then
      let data := active.foldl (fun data loc =>
        data.modify loc.row fun row => row.modify loc.col change) card.rest.data
      s.setCard { card with rest := { card.rest with data := data } }
    else s

/-- Not followed where an inherited function is on display. -/
def changeCard (change : Body F → Body F) : Option (Session F) :=
  match s.card with
  | some card => some (s.setCard { card with rest := change card.rest })
  | none => if inherited.contains s.editor.stack.card then none else some s

end Session

/-- `trim` -/
def trimText (text : Text) : Text :=
  let space (u : UInt16) := isSpace (Char.ofNat u.toNat)
  ((text.dropWhile space).reverse.dropWhile space).reverse

/-- `/^#([a-f0-9]{3}|[a-f0-9]{6})$/i` -/
def is_color : Text → Bool
  | [] => false
  | c :: digits =>
    c.toNat = '#'.toNat && (digits.length = 3 || digits.length = 6) &&
      digits.all fun u => ((digit (Char.ofNat u.toNat)).any (· < 16))

/-- Whose code is set. -/
inductive CodeMode where
  | cell | card | stack
  deriving DecidableEq

/-- Offsets that are exact, with which a shift moves the cells and doubles none. -/
def Exact (x y : Int) : Prop := x.natAbs ≤ 2 ^ 52 ∧ y.natAbs ≤ 2 ^ 52

instance (x y : Int) : Decidable (Exact x y) := inferInstanceAs (Decidable (_ ∧ _))

/-- `active` are the active cells, the texts are what the boxes hold. -/
inductive Action where
  | newCard (rows cols : Option Int)
  | deleteCard (confirmed : Bool)
  | setName (metadata name : String)
  /-- A click on a cell that leads to `go`. -/
  | follow (go : String)
  | choose (name : String)
  | setCode (mode : CodeMode) (active : List Loc) (source : Text)
  | setFg (active : List Loc) (fg : Text)
  | setBg (active : List Loc) (bg : Text)
  | setGo (active : List Loc) (go : Text)
  | keypress (active : List Loc) (letter : UInt16)
  | setMarkdown (markdown : Text)
  | setStyle (style : Text)
  | shift (active : List Loc) (x y : Int)
  | refresh
  | importStack (confirmed : Bool) (json : List Char)

end HackerUnion.StackEditor
