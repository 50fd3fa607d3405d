import Mathlib.Data.List.Basic
import Mathlib.Data.List.Induction

namespace HackerUnion.Lists

variable {α : Type} (sep : List α)

theorem intercalate_append {ws ws' : List (List α)} (h : ws ≠ []) (h' : ws' ≠ []) :
    List.intercalate sep (ws ++ ws') =
      List.intercalate sep ws ++ sep ++ List.intercalate sep ws' := by
  induction ws with
  | nil => exact absurd rfl h
  | cons w ws ih =>
    cases ws with
    | nil =>
      rw [List.singleton_append, List.intercalate_cons_of_ne_nil h', List.intercalate_singleton]
    | cons v ws =>
      have hrest : v :: ws ++ ws' ≠ [] := List.cons_ne_nil v _
      have hcons : v :: ws ≠ [] := List.cons_ne_nil v ws
      rw [List.cons_append, List.intercalate_cons_of_ne_nil hrest, ih hcons,
        List.intercalate_cons_of_ne_nil hcons]
      simp only [List.append_assoc]

theorem intercalate_concat (ls : List (List α)) (l : List α) :
    List.intercalate sep (ls ++ [l]) = ls.flatMap (· ++ sep) ++ l := by
  induction ls with
  | nil => exact List.intercalate_singleton
  | cons l' ls ih =>
    rw [List.cons_append, List.intercalate_cons_of_ne_nil (List.concat_ne_nil l ls), ih,
      List.flatMap_cons, List.append_assoc (l' ++ sep)]

theorem intercalate_nil_cons (ls : List (List α)) :
    List.intercalate sep ([] :: ls) = ls.flatMap (sep ++ ·) := by
  induction ls with
  | nil => exact List.intercalate_singleton
  | cons l ls ih =>
    cases ls with
    | nil =>
      rw [List.intercalate_cons_cons, List.intercalate_singleton, List.flatMap_singleton]
      rfl
    | cons l' ls =>
      rw [List.intercalate_cons_cons] at ih
      rw [List.intercalate_cons_cons, List.intercalate_cons_cons, List.flatMap_cons, ← ih]
      simp only [List.nil_append, List.append_assoc]

theorem head?_intercalate {l : List α} (h : l ≠ []) (sep : List α) (ls : List (List α)) :
    (List.intercalate sep (l :: ls)).head? = l.head? := by
  cases ls with
  | nil => rw [List.intercalate_singleton]
  | cons l' ls =>
    rw [List.intercalate_cons_cons, List.append_assoc, List.head?_append_of_ne_nil _ h]

theorem not_mem_intercalate {sep : List α} {c : α} {ls : List (List α)} (hsep : c ∉ sep)
    (h : ∀ l ∈ ls, c ∉ l) : c ∉ List.intercalate sep ls := by
  induction ls with
  | nil => exact List.not_mem_nil
  | cons l ls ih =>
    have hl := h l List.mem_cons_self
    have hls := ih fun l hl => h l (List.mem_cons_of_mem _ hl)
    cases ls with
    | nil =>
      rw [List.intercalate_singleton]
      exact hl
    | cons l' ls =>
      rw [List.intercalate_cons_cons, List.mem_append, List.mem_append]
      intro hmem
      rcases hmem with (hmem | hmem) | hmem
      · exact hl hmem
      · exact hsep hmem
      · exact hls hmem

/-- Every piece is followed by the separator; the last one is then cut off. -/
theorem dropLast_flatMap_concat (x : α) (ls : List (List α)) :
    (ls.flatMap (· ++ [x])).dropLast = List.intercalate [x] ls := by
  induction ls using List.reverseRecOn with
  | nil => rfl
  | append_singleton ls l _ =>
    rw [intercalate_concat, List.flatMap_append, List.flatMap_singleton, ← List.append_assoc,
      List.dropLast_concat]

end HackerUnion.Lists
