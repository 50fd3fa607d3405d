import Mathlib.Data.List.Basic

namespace Js

variable {α : Type} (drop : α → Bool)

/-- What a walk by index comes to when it removes elements on its way: when one is removed, the next
one moves up to where the walk has just been. `skip` says whether one has been. -/
def walked (skip : Bool) : List α → List α
  | [] => []
  | a :: l =>
    if skip then walked false l
    else if drop a then walked true l
    else a :: walked false l

/-- What such a walk leaves. -/
def spared (skip : Bool) : List α → List α
  | [] => []
  | a :: l =>
    if skip then a :: spared false l
    else if drop a then spared true l
    else a :: spared false l

variable (l : List α)

/-- It only comes to elements that it does not remove. -/
theorem walked_sublist (skip : Bool) :
    (walked drop skip l).Sublist (l.filter fun a => !drop a) := by
  induction l generalizing skip with
  | nil => exact List.Sublist.refl _
  | cons a l ih =>
    unfold walked
    cases skip with
    | true =>
      rw [if_pos rfl]
      exact (ih false).trans ((List.sublist_cons_self a l).filter _)
    | false =>
      rw [if_neg Bool.false_ne_true]
      cases ha : drop a with
      | true =>
        rw [if_pos rfl]
        exact (ih true).trans ((List.sublist_cons_self a l).filter _)
      | false =>
        rw [if_neg Bool.false_ne_true, List.filter_cons_of_pos (by simp [ha])]
        exact (ih false).cons_cons a

/-- It leaves all that it is not to remove. -/
theorem sublist_spared (skip : Bool) :
    (l.filter fun a => !drop a).Sublist (spared drop skip l) := by
  induction l generalizing skip with
  | nil => exact List.Sublist.refl _
  | cons a l ih =>
    unfold spared
    cases ha : drop a with
    | true =>
      rw [List.filter_cons_of_neg (by simp [ha])]
      cases skip with
      | true => exact (ih false).cons a
      | false => exact ih true
    | false =>
      rw [List.filter_cons_of_pos (by simp [ha])]
      cases skip with
      | true => exact (ih false).cons_cons a
      | false => exact (ih false).cons_cons a

variable {drop l} in
/-- It comes to all that it is not to remove and leaves no more than that exactly when nothing is
behind an element that it removes. -/
theorem walked_spared_iff :
    (walked drop false l = l.filter fun a => !drop a) ∧
        (spared drop false l).length = (l.filter fun a => !drop a).length ↔
      ∀ a ∈ l.dropLast, drop a = false := by
  induction l with
  | nil => simp [walked, spared]
  | cons a l ih =>
    cases ha : drop a with
    | false =>
      have hdropLast : (∀ x ∈ (a :: l).dropLast, drop x = false) ↔
          ∀ x ∈ l.dropLast, drop x = false := by
        cases l with
        | nil => simp
        | cons b l => simp [ha]
      rw [hdropLast, ← ih, List.filter_cons_of_pos (by simp [ha])]
      simp [walked, spared, ha]
    | true =>
      rw [List.filter_cons_of_neg (by simp [ha])]
      cases l with
      | nil => simp [walked, spared, ha]
      | cons b l =>
        have hnot : ¬∀ x ∈ (a :: b :: l).dropLast, drop x = false := by
          intro h
          have hfalse := h a (by simp)
          rw [ha] at hfalse
          cases hfalse
        refine iff_of_false ?_ hnot
        intro h
        obtain ⟨hwalked, hspared⟩ := h
        -- `b` is neither come to nor removed
        have hw : walked drop false (a :: b :: l) = walked drop false l := by
          simp [walked, ha]
        have hs : spared drop false (a :: b :: l) = b :: spared drop false l := by
          simp [spared, ha]
        rw [hw] at hwalked
        rw [hs, List.length_cons] at hspared
        cases hb : drop b with
        | true =>
          have hle := (sublist_spared drop l false).length_le
          rw [List.filter_cons_of_neg (by simp [hb])] at hspared
          omega
        | false =>
          have hle := (walked_sublist drop l false).length_le
          rw [hwalked, List.filter_cons_of_pos (by simp [hb]), List.length_cons] at hle
          omega

end Js
