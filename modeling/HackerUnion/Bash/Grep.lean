import HackerUnion.Bash.Echo

namespace HackerUnion.Bash

/-- Whether a text begins with a match of an expression of which the dot is the only special
character. -/
def matchesHere : Text → Text → Bool
  | [], _ => true
  | _ :: _, [] => false
  | p :: ps, c :: cs => (p = '.' || p = c) && matchesHere ps cs

/-- What stands before and what stands behind the leftmost match. -/
def firstMatch (p : Text) : Text → Option (Text × Text)
  | [] => if p = [] then some ([], []) else none
  | c :: t =>
    if matchesHere p (c :: t) then some ([], (c :: t).drop p.length)
    else (firstMatch p t).map fun m => (c :: m.1, m.2)

/-- `grep -q "$p"` on one line -/
def grep (p line : Text) : Bool := (firstMatch p line).isSome

/-- `sed -e "s/$p//"` on one line -/
def erase (p line : Text) : Text :=
  match firstMatch p line with
  | some m => m.1 ++ m.2
  | none => line

variable {p t a b : Text}

theorem matchesHere_append (p t : Text) : matchesHere p (p ++ t) = true := by
  induction p with
  | nil => rfl
  | cons c p ih => simp [matchesHere, ih]

/-- A text that stands there is found, though perhaps not where it stands. -/
theorem grep_of_mem (a p b : Text) : grep p (a ++ p ++ b) = true := by
  induction a with
  | nil =>
    cases p with
    | nil => cases b <;> rfl
    | cons c p =>
      have hhere := matchesHere_append (c :: p) b
      rw [List.cons_append] at hhere
      rw [grep, List.nil_append, List.cons_append, firstMatch, if_pos hhere]
      rfl
  | cons c a ih =>
    rw [grep] at ih ⊢
    rw [List.cons_append, List.cons_append, firstMatch]
    split
    · rfl
    · rw [Option.isSome_map]
      exact ih

theorem erase_eq (h : firstMatch p t = some (a, b)) : erase p t = a ++ b := by
  rw [erase, h]

end HackerUnion.Bash
