import Mathlib.Data.Rat.Floor
import Mathlib.Data.List.Dedup
import HackerUnion.Js.Object

namespace Js

/-- The operations a program uses on numbers, without laws: doubles round, exact numbers do not.
`round` is `Math.round` and gives nothing for `NaN`. -/
class Number (F : Type) extends Add F, Sub F, Mul F, Div F where
  lit : Rat → F
  sqrt : F → F
  ge : F → F → Bool
  round : F → Option Int
  isNaN : F → Bool

/-- Exact rationals with a square root of twelve decimal places, to run programs on. -/
instance : Number Rat where
  lit q := q
  sqrt q := (Nat.sqrt (q * 10 ^ 24).floor.toNat : Rat) / 10 ^ 12
  ge a b := decide (b ≤ a)
  round q := some (q + 1 / 2).floor
  isNaN _ := false

/-- `x || 0`. -/
def Number.orZero {F : Type} [Number F] (x : F) : F := if isNaN x then lit 0 else x

/-- What a parsed form or query string holds under a name: nothing, a string, or an array of
the strings given when the name is repeated. -/
inductive Field where
  | absent
  | text (s : String)
  | many (l : List String)
  deriving DecidableEq, Repr

/-- Arrays are truthy, strings are unless they are empty. -/
def Field.truthy : Field → Bool
  | .absent => false
  | .text s => s ≠ ""
  | .many _ => true

/-- The string, for code that calls a method only strings have and throws on anything else. -/
def Field.string : Field → Option String
  | .text s => some s
  | _ => none

/-- The string it becomes when it is appended to one or compared with one by `==`. -/
def Field.joined : Field → String
  | .absent => "undefined"
  | .text s => s
  | .many l => ",".intercalate l

/-- `indexOf("@") != -1`: a string is searched for the character, an array for an element. -/
def Field.hasAt : Field → Bool
  | .absent => false
  | .text s => s.toList.contains '@'
  | .many l => l.contains "@"

/-- White space as `trim` and the class `\s` understand it. -/
def isSpace (c : Char) : Bool :=
  c.val ∈ [0x09, 0x0a, 0x0b, 0x0c, 0x0d, 0x20, 0xa0, 0x1680, 0x2028, 0x2029, 0x202f, 0x205f,
    0x3000, 0xfeff] || (0x2000 ≤ c.val && c.val ≤ 0x200a)

/-- The class `\w`. -/
def isWord (c : Char) : Bool := c.isAlphanum || c = '_'

def trim (s : String) : String :=
  String.ofList ((s.toList.dropWhile isSpace).reverse.dropWhile isSpace).reverse

/-- The length in UTF-16 code units. -/
def length (s : String) : Nat :=
  (s.toList.map (fun c => if c.val < 0x10000 then 1 else 2)).sum

/-- What a character is worth as a digit. -/
def digit (c : Char) : Option Nat :=
  if c.isDigit then some (c.toNat - '0'.toNat)
  else if c.isLower then some (c.toNat - 'a'.toNat + 10)
  else if c.isUpper then some (c.toNat - 'A'.toNat + 10)
  else none

/-- The digits that a text begins with, or nothing. -/
def parseDigits (radix : Nat) (t : List Char) : Option Nat :=
  match (t.map digit).takeWhile (·.any (· < radix)) with
  | [] => none
  | ds => some (ds.foldl (fun n d => n * radix + d.getD 0) 0)

/-- `parseInt`, with nothing for `NaN`. -/
def parseInt (s : String) : Option Int :=
  let unsigned (t : List Char) : Option Int :=
    match t with
    | '0' :: 'x' :: t => (parseDigits 16 t).map Int.ofNat
    | '0' :: 'X' :: t => (parseDigits 16 t).map Int.ofNat
    | t => (parseDigits 10 t).map Int.ofNat
  match s.toList.dropWhile isSpace with
  | '-' :: t => (unsigned t).map (- ·)
  | '+' :: t => unsigned t
  | t => unsigned t

/-- The names arrays inherit besides those of every object. -/
def arrayNames : List String :=
  ["length", "concat", "copyWithin", "entries", "every", "fill", "filter", "find", "findIndex",
    "forEach", "indexOf", "join", "keys", "lastIndexOf", "map", "pop", "push", "reduce",
    "reduceRight", "reverse", "shift", "slice", "some", "sort", "splice", "unshift", "values"]

/-- `k in xs` for an array, which asks for an index or an inherited name, never for an element. -/
def inArray {α : Type} (k : String) (xs : List α) : Bool :=
  match arrayIndex k with
  | some i => i < xs.length
  | none => k ∈ arrayNames || k ∈ inherited

/-- An array as a condition: true, whatever is in it. -/
def arrayTruthy {α : Type} (_ : List α) : Bool := true

/-- `_.intersection`. -/
def intersection {α : Type} [DecidableEq α] (xs ys : List α) : List α :=
  (xs.filter (fun x => x ∈ ys)).dedup

end Js
