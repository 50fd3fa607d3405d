import HackerUnion.Sbin.Users

namespace HackerUnion.Sbin

open Bash

/-- `USERNAME` -/
def username (line : Text) : Text := column 1 line

/-- The line of `/etc/shadow` is that of the name. -/
def owns (name line : Text) : Bool := (name ++ [':']).isPrefixOf line

def hashOf (line : Text) : Text := cut ':' 2 line

/-- Of the lines that begin like the name, that of the account comes first and the others have no
hash. An account without a hash needs only the latter. Where the characters of the name have a
meaning by which its own line is not found, one of the same hash has to stand in for it. -/
def Undisturbed (shadow name : Text) : Prop :=
  ∀ line ∈ lines shadow, owns name line = true →
    if hashOf line = [] then
      ∀ other ∈ (lines shadow).filter (beginsLike name), hashOf other = []
    else ∃ first rest, (lines shadow).filter (beginsLike name) = first :: rest ∧
      (first = line ∨ beginsLike name line = false ∧ hashOf first = hashOf line) ∧
      ∀ other ∈ rest, hashOf other = []

section Capture

variable {x h : Text} {xs : List Text}

end Capture

section Matched

variable {name line l shadow : Text}

/-- A name without special characters that begins no line but its own is never disturbed. -/
theorem undisturbed_of_ordinary (hname : ∀ c ∈ name, Expression.isOrdinary c = true)
    (h : ∀ line ∈ lines shadow, owns name line = true →
      (lines shadow).filter (name.isPrefixOf ·) = [line]) : Undisturbed shadow name := by
  intro line hline howns
  have hlike : beginsLike name = (name.isPrefixOf ·) := funext (basicGrep_anchored hname)
  rw [hlike, h line hline howns]
  split
  · next hnil =>
    intro other hother
    rw [List.mem_singleton.mp hother, hnil]
  · exact ⟨line, [], rfl, .inl rfl, fun _ hother => absurd hother List.not_mem_nil⟩

end Matched

variable {home passwd shadow line : Text}

end HackerUnion.Sbin
