import HackerUnion.Lists.EditGraph
import Mathlib.Logic.Function.Basic

namespace HackerUnion.Diff.JsDiff

open HackerUnion.Lists (Edit)

/-- A string, as the code units it has. -/
abbrev Str := List UInt16

/-- So many tokens, which are `added`, `removed`, or neither. -/
structure Component where
  count : Nat
  edit : Edit
  deriving DecidableEq, Repr

structure Path where
  newPos : Int
  components : List Component

/-- An array that is used with negative indices, too. -/
abbrev Paths := Int → Option Path

def pushComponent (components : List Component) (edit : Edit) : List Component :=
  match components.getLast? with
  | some last =>
    if last.edit = edit then components.dropLast ++ [⟨last.count + 1, edit⟩]
    else components ++ [⟨1, edit⟩]
  | none => [⟨1, edit⟩]

section Search

variable {α : Type} (equals : α → α → Bool) (newString oldString : List α)

/-- How many tokens are the same from here on. -/
def commonCount : List α → List α → Nat
  | a :: as, b :: bs => if equals a b then commonCount as bs + 1 else 0
  | _, _ => 0

/-- The path along what is the same, and its place in the old text. Nothing equals what stands
before the first token. -/
def extractCommon (basePath : Path) (diagonalPath : Int) : Path × Int :=
  let oldPos := basePath.newPos - diagonalPath
  let count :=
    if oldPos + 1 < 0 then 0
    else commonCount equals (newString.drop (basePath.newPos + 1).toNat)
      (oldString.drop (oldPos + 1).toNat)
  ({ newPos := basePath.newPos + count
     components :=
      if count = 0 then basePath.components else basePath.components ++ [⟨count, .keep⟩] },
    oldPos + count)

def atEnd (path : Path) (oldPos : Int) : Bool :=
  newString.length ≤ path.newPos + 1 && oldString.length ≤ oldPos + 1

/-- The path that is gone on with on a diagonal, unless that is a dead end. -/
def branch (bestPath : Paths) (diagonalPath : Int) : Option Path :=
  let addPath := bestPath (diagonalPath - 1)
  let removePath := bestPath (diagonalPath + 1)
  let oldPos := removePath.elim 0 Path.newPos - diagonalPath
  let canAdd := addPath.filter fun path => path.newPos + 1 < (newString.length : Int)
  let canRemove := removePath.filter fun _ => 0 ≤ oldPos ∧ oldPos < (oldString.length : Int)
  let add (path : Path) : Path := ⟨path.newPos + 1, pushComponent path.components .add⟩
  let remove (path : Path) : Path := ⟨path.newPos, pushComponent path.components .remove⟩
  match canAdd, canRemove with
  | none, none => none
  | none, some path => some (remove path)
  | some path, none => some (add path)
  | some added, some removed =>
    if added.newPos < removed.newPos then some (remove removed) else some (add added)

/-- The path of a diagonal after one edit more. -/
def extend (bestPath : Paths) (diagonalPath : Int) : Option (Path × Int) :=
  (branch newString oldString bestPath diagonalPath).map fun path =>
    extractCommon equals newString oldString path diagonalPath

/-- One pass of the loop of `execEditLength`: the parts when both ends are reached, or the paths
that are left. -/
def execDiagonal (bestPath : Paths) (diagonalPath : Int) : List Component ⊕ Paths :=
  -- no other diagonal is going to use the path from which this one adds
  let cleared := Function.update bestPath (diagonalPath - 1) none
  match extend equals newString oldString bestPath diagonalPath with
  | none => .inr (Function.update cleared diagonalPath none)
  | some (path, oldPos) =>
    if atEnd newString oldString path oldPos then .inl path.components
    else .inr (Function.update cleared diagonalPath (some path))

def execDiagonals : List Int → Paths → List Component ⊕ Paths
  | [], bestPath => .inr bestPath
  | diagonalPath :: rest, bestPath =>
    match execDiagonal equals newString oldString bestPath diagonalPath with
    | .inl components => .inl components
    | .inr bestPath => execDiagonals rest bestPath

/-- Every other diagonal, so many of them. -/
def diagonals (diagonalPath : Int) : Nat → List Int
  | 0 => []
  | n + 1 => diagonalPath :: diagonals (diagonalPath + 2) n

def execEditLength (editLength : Nat) (bestPath : Paths) : List Component ⊕ Paths :=
  execDiagonals equals newString oldString (diagonals (-editLength) (editLength + 1)) bestPath

/-- `while (editLength <= maxEditLength)`, in so many rounds. -/
def execFrom : Nat → Nat → Paths → Option (List Component)
  | 0, _, _ => none
  | rounds + 1, editLength, bestPath =>
    match execEditLength equals newString oldString editLength bestPath with
    | .inl components => some components
    | .inr bestPath => execFrom rounds (editLength + 1) bestPath

/-- What the two texts have in common at their beginning. -/
def seed : Path × Int := extractCommon equals newString oldString ⟨-1, []⟩ 0

/-- The search for the parts, from what is the same at the beginning. -/
def search (path : Path) : Option (List Component) :=
  execFrom equals newString oldString (newString.length + oldString.length) 1
    (Function.update (fun _ => none) 0 (some path))

end Search

/-- A part of a comparison. Only those that were searched for have a count. -/
structure Part where
  value : Str
  count : Option Nat
  edit : Edit
  deriving DecidableEq, Repr

/-- What is removed goes before what was added last. `done` is what is put out so far, the last part
first. -/
def putRemoved (part : Part) : List Part → List Part
  | [] => [part]
  | last :: done => if last.edit = .add then last :: part :: done else part :: last :: done

def buildValuesFrom (newString oldString : List Str) (useLongestToken : Bool) :
    List Part → Nat → Nat → List Component → List Part
  | done, _, _, [] => done.reverse
  | done, newPos, oldPos, ⟨count, edit⟩ :: rest =>
    let news := (newString.drop newPos).take count
    let olds := (oldString.drop oldPos).take count
    match edit with
    | .remove =>
      buildValuesFrom newString oldString useLongestToken
        (putRemoved ⟨olds.flatten, some count, .remove⟩ done) newPos (oldPos + count) rest
    | .add =>
      buildValuesFrom newString oldString useLongestToken
        (⟨news.flatten, some count, .add⟩ :: done) (newPos + count) oldPos rest
    | .keep =>
      let values :=
        if useLongestToken then
          List.zipWith (fun value oldValue =>
            if oldValue.length > value.length then oldValue else value) news olds
        else news
      buildValuesFrom newString oldString useLongestToken
        (⟨values.flatten, some count, .keep⟩ :: done) (newPos + count) (oldPos + count) rest

def buildValues (components : List Component) (newString oldString : List Str)
    (useLongestToken : Bool) : List Part :=
  buildValuesFrom newString oldString useLongestToken [] 0 0 components

/-- What tells one kind of comparison from another. -/
structure Differ where
  tokenize : Str → List Str
  equals : Str → Str → Bool
  useLongestToken : Bool

/-- The parts of two texts that are split into tokens. -/
def Differ.compare (differ : Differ) (newString oldString : List Str) : Option (List Part) :=
  let (path, oldPos) := seed differ.equals newString oldString
  if atEnd newString oldString path oldPos then some [⟨newString.flatten, none, .keep⟩]
  else
    (search differ.equals newString oldString path).map fun components =>
      buildValues components newString oldString differ.useLongestToken

/-- `diff`, called without a callback. -/
def Differ.diff (differ : Differ) (oldString newString : Str) : Option (List Part) :=
  if newString = oldString then some [⟨newString, none, .keep⟩]
  else if newString = [] then some [⟨oldString, none, .remove⟩]
  else if oldString = [] then some [⟨newString, none, .add⟩]
  else differ.compare (differ.tokenize newString) (differ.tokenize oldString)

end HackerUnion.Diff.JsDiff
