import HackerUnion.Lists.Intercalate
import Mathlib.Data.List.Forall2

namespace HackerUnion.Lists

variable {α : Type} [DecidableEq α] (sep : α)

omit [DecidableEq α] in
/-- What is in a piece is in the list and is no separator. -/
theorem mem_splitOnP {p : α → Bool} {l piece : List α} {c : α} (h : piece ∈ l.splitOnP p)
    (hc : c ∈ piece) : p c = false ∧ c ∈ l := by
  induction l generalizing piece with
  | nil =>
    rw [List.splitOnP_nil, List.mem_singleton] at h
    rw [h] at hc
    exact absurd hc List.not_mem_nil
  | cons d l ih =>
    rw [List.splitOnP_cons_eq_if_modifyHead] at h
    split at h
    · rcases List.mem_cons.mp h with h | h
      · rw [h] at hc
        exact absurd hc List.not_mem_nil
      · exact (ih h hc).imp_right (List.mem_cons_of_mem d)
    · next hd =>
      obtain ⟨first, rest, hsplit⟩ := List.exists_cons_of_ne_nil (List.splitOnP_ne_nil p l)
      rw [hsplit, List.modifyHead_cons] at h
      rcases List.mem_cons.mp h with h | h
      · rw [h] at hc
        rcases List.mem_cons.mp hc with hc | hc
        · rw [hc]
          exact ⟨Bool.eq_false_iff.mpr hd, List.mem_cons_self⟩
        · exact (ih (hsplit ▸ List.mem_cons_self) hc).imp_right (List.mem_cons_of_mem d)
      · exact (ih (hsplit ▸ List.mem_cons_of_mem first h) hc).imp_right (List.mem_cons_of_mem d)

theorem not_mem_of_mem_splitOn {l piece : List α} (h : piece ∈ l.splitOn sep) : sep ∉ piece := by
  intro hmem
  rw [List.splitOn_eq_splitOnP] at h
  have hno := (mem_splitOnP h hmem).1
  rw [beq_self_eq_true] at hno
  cases hno

theorem splitOn_append {u : List α} (hu : sep ∉ u) (y : List α) :
    (u ++ y).splitOn sep = (y.splitOn sep).modifyHead (u ++ ·) := by
  induction u with
  | nil => exact List.modifyHead_id.symm ▸ rfl
  | cons c u ih =>
    rw [List.mem_cons, not_or] at hu
    have hc : ¬(c == sep) = true := by
      rw [beq_iff_eq]
      exact fun heq => hu.1 heq.symm
    rw [List.cons_append, List.splitOn_cons_eq_if_modifyHead, if_neg hc, ih hu.2,
      List.modifyHead_modifyHead]
    rfl

/-- What is put in between ends up in one piece. -/
theorem exists_splitOn_append (x y : List α) :
    ∃ ps p q qs, x.splitOn sep = ps ++ [p] ∧ y.splitOn sep = q :: qs ∧
      ∀ u, sep ∉ u → (x ++ u ++ y).splitOn sep = ps ++ (p ++ u ++ q) :: qs := by
  obtain ⟨q, qs, hy⟩ := List.exists_cons_of_ne_nil (List.splitOn_ne_nil sep y)
  induction x with
  | nil =>
    refine ⟨[], [], q, qs, List.splitOn_nil sep, hy, ?_⟩
    intro u hu
    rw [List.nil_append, splitOn_append sep hu, hy]
    rfl
  | cons c x ih =>
    obtain ⟨ps, p, q, qs, hx, hy, hu⟩ := ih
    by_cases hc : (c == sep) = true
    · refine ⟨[] :: ps, p, q, qs, ?_, hy, ?_⟩
      · rw [List.splitOn_cons_eq_if_modifyHead, if_pos hc, hx]
        rfl
      · intro u hsep
        rw [List.cons_append, List.cons_append, List.splitOn_cons_eq_if_modifyHead, if_pos hc,
          hu u hsep]
        rfl
    · cases ps with
      | nil =>
        refine ⟨[], c :: p, q, qs, ?_, hy, ?_⟩
        · rw [List.splitOn_cons_eq_if_modifyHead, if_neg hc, hx]
          rfl
        · intro u hsep
          rw [List.cons_append, List.cons_append, List.splitOn_cons_eq_if_modifyHead, if_neg hc,
            hu u hsep]
          rfl
      | cons p' ps =>
        refine ⟨(c :: p') :: ps, p, q, qs, ?_, hy, ?_⟩
        · rw [List.splitOn_cons_eq_if_modifyHead, if_neg hc, hx]
          rfl
        · intro u hsep
          rw [List.cons_append, List.cons_append, List.splitOn_cons_eq_if_modifyHead, if_neg hc,
            hu u hsep]
          rfl

/-- Where a piece comes from that is among the first `n`. -/
theorem exists_of_mem_take_splitOn {l piece : List α} {n : Nat}
    (h : piece ∈ (l.splitOn sep).take n) :
    ∃ x y, l = x ++ piece ++ y ∧
      ∀ pre, sep ∉ pre → ((x ++ pre).splitOn sep).length ≤ n := by
  obtain ⟨ps, qs, hsplit⟩ := List.append_of_mem h
  have hps : ps.length + 1 ≤ n := by
    have hlength := congrArg List.length hsplit
    rw [List.length_take, List.length_append, List.length_cons] at hlength
    omega
  have hpieces : l.splitOn sep = ps ++ (piece :: (qs ++ (l.splitOn sep).drop n)) := by
    rw [← List.cons_append, ← List.append_assoc, ← hsplit, List.take_append_drop]
  have hl : l = [sep].intercalate (ps ++ (piece :: (qs ++ (l.splitOn sep).drop n))) := by
    rw [← hpieces, List.intercalate_splitOn]
  refine ⟨ps.flatMap (· ++ [sep]), ?_⟩
  have hcut : ∃ y, l = ps.flatMap (· ++ [sep]) ++ piece ++ y := by
    rw [← intercalate_concat]
    cases hrest : qs ++ (l.splitOn sep).drop n with
    | nil =>
      rw [hrest] at hl
      exact ⟨[], by rw [List.append_nil]; exact hl⟩
    | cons q qs =>
      rw [hrest, List.append_cons, intercalate_append [sep] (List.concat_ne_nil _ _)
        (List.cons_ne_nil _ _), List.append_assoc] at hl
      exact ⟨_, hl⟩
  obtain ⟨y, hy⟩ := hcut
  refine ⟨y, hy, ?_⟩
  intro pre hpre
  have hnot : ∀ p ∈ ps ++ [pre], sep ∉ p := by
    intro p hp
    rcases List.mem_append.mp hp with hp | hp
    · exact not_mem_of_mem_splitOn sep (hpieces ▸ List.mem_append_left _ hp)
    · rw [List.mem_singleton.mp hp]
      exact hpre
  rw [← intercalate_concat, List.splitOn_intercalate sep hnot (List.concat_ne_nil _ _),
    List.length_append]
  exact hps

end HackerUnion.Lists
