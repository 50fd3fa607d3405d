import HackerUnion.Bash.Text
import Mathlib.Data.List.Sort
import Mathlib.Data.List.Destutter
import Mathlib.Data.List.Lex
import Mathlib.Data.Char

namespace HackerUnion.Bash

/-- An order on lines, as the locale has it. -/
structure Collation where
  le : Text → Text → Bool
  total : ∀ a b, le a b = true ∨ le b a = true
  trans : ∀ a b c, le a b = true → le b c = true → le a c = true
  antisymm : ∀ a b, le a b = true → le b a = true → a = b

/-- The order of the locale `C`. -/
def Collation.bytes : Collation where
  le a b := decide (a ≤ b)
  total a b := by simpa using le_total a b
  trans a b c := by simpa using le_trans
  antisymm a b := by simpa using le_antisymm

variable (c : Collation) {ls : List Text}

def sort (ls : List Text) : List Text := ls.insertionSort (fun a b => c.le a b = true)

/-- `sort -u`. -/
def sortUnique (ls : List Text) : List Text := (sort c ls).destutter (· ≠ ·)

theorem sort_perm (ls : List Text) : (sort c ls).Perm ls := List.perm_insertionSort _ _

theorem sort_pairwise (ls : List Text) : (sort c ls).Pairwise (fun a b => c.le a b = true) := by
  have : Std.Total (fun a b => c.le a b = true) := ⟨c.total⟩
  have : IsTrans Text (fun a b => c.le a b = true) := ⟨c.trans⟩
  exact List.pairwise_insertionSort _ _

/-- Lines that differ are only put in order. -/
theorem sortUnique_of_nodup (h : ls.Nodup) : sortUnique c ls = sort c ls := by
  apply List.destutter_of_isChain
  have hnodup : (sort c ls).Nodup := (sort_perm c ls).nodup_iff.mpr h
  exact List.Pairwise.isChain hnodup

end HackerUnion.Bash
