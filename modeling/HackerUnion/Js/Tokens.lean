import Mathlib.Data.List.Basic

namespace Js

variable {α : Type}

/-- The pieces between separators, without the empty ones. -/
def tokens (p : α → Bool) (t : List α) : List (List α) := (t.splitOnP p).filter (· ≠ [])

variable {p : α → Bool} {t w sep : List α} {c : α}

theorem tokens_append_cons (h : p c = true) (t t' : List α) :
    tokens p (t ++ c :: t') = tokens p t ++ tokens p t' := by
  rw [tokens, List.splitOnP_append_cons t t' h, List.filter_append]
  rfl

theorem tokens_separators_append (h : ∀ c ∈ sep, p c = true) (t : List α) :
    tokens p (sep ++ t) = tokens p t := by
  induction sep with
  | nil => rfl
  | cons c sep ih =>
    have hcons := tokens_append_cons (h c List.mem_cons_self) [] (sep ++ t)
    have hnil : tokens p ([] : List α) = [] := rfl
    rw [hnil, List.nil_append, List.nil_append] at hcons
    rw [List.cons_append, hcons]
    exact ih fun d hd => h d (List.mem_cons_of_mem c hd)

theorem tokens_append (h : ∀ c ∈ sep, p c = true) (hne : sep ≠ []) (t t' : List α) :
    tokens p (t ++ sep ++ t') = tokens p t ++ tokens p t' := by
  obtain ⟨c, sep, rfl⟩ := List.exists_cons_of_ne_nil hne
  rw [List.append_assoc, List.cons_append, tokens_append_cons (h c List.mem_cons_self),
    tokens_separators_append fun d hd => h d (List.mem_cons_of_mem c hd)]

theorem tokens_of_word (h : ∀ c ∈ w, p c = false) (hne : w ≠ []) : tokens p w = [w] := by
  rw [tokens, List.splitOnP_eq_singleton h]
  simp [hne]

/-- A piece has its characters from the text, and no separator. -/
theorem of_mem_splitOnP (hw : w ∈ t.splitOnP p) (hc : c ∈ w) : c ∈ t ∧ p c = false := by
  induction t generalizing w with
  | nil =>
    obtain rfl := List.mem_singleton.mp hw
    cases hc
  | cons d t ih =>
    rw [List.splitOnP_cons_eq_if_modifyHead] at hw
    cases hd : p d with
    | true =>
      rw [hd, if_pos rfl] at hw
      rcases List.mem_cons.mp hw with rfl | hw
      · cases hc
      · exact ⟨List.mem_cons_of_mem d (ih hw hc).1, (ih hw hc).2⟩
    | false =>
      rw [hd, if_neg Bool.false_ne_true] at hw
      obtain ⟨first, rest, hsplit⟩ := List.exists_cons_of_ne_nil (List.splitOnP_ne_nil p t)
      rw [hsplit] at hw ih
      rcases List.mem_cons.mp hw with rfl | hw
      · rcases List.mem_cons.mp hc with rfl | hc
        · exact ⟨List.mem_cons_self, hd⟩
        · have h := ih List.mem_cons_self hc
          exact ⟨List.mem_cons_of_mem d h.1, h.2⟩
      · have h := ih (List.mem_cons_of_mem first hw) hc
        exact ⟨List.mem_cons_of_mem d h.1, h.2⟩

theorem of_mem_tokens (hw : w ∈ tokens p t) : w ≠ [] ∧ ∀ c ∈ w, c ∈ t ∧ p c = false := by
  obtain ⟨hmem, hne⟩ := List.mem_filter.mp hw
  exact ⟨of_decide_eq_true hne, fun c hc => of_mem_splitOnP hmem hc⟩

/-- Words that are joined by separators are found again. -/
theorem tokens_intercalate {ws : List (List α)} (hsep : ∀ c ∈ sep, p c = true) (hne : sep ≠ [])
    (hws : ∀ w ∈ ws, w ≠ [] ∧ ∀ c ∈ w, p c = false) : tokens p (sep.intercalate ws) = ws := by
  induction ws with
  | nil => rfl
  | cons w ws ih =>
    obtain ⟨hw, hrest⟩ := List.forall_mem_cons.mp hws
    cases ws with
    | nil =>
      rw [List.intercalate_singleton]
      exact tokens_of_word hw.2 hw.1
    | cons v ws =>
      rw [List.intercalate_cons_cons, tokens_append hsep hne, tokens_of_word hw.2 hw.1, ih hrest]
      rfl

end Js
