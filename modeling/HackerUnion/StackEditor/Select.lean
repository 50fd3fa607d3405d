import Mathlib.Data.Rat.Defs
import Mathlib.Algebra.Order.Ring.Rat
import Mathlib.Order.Interval.Set.UnorderedInterval
import Mathlib.Data.Set.Prod
import Mathlib.Tactic.Linarith

namespace HackerUnion.StackEditor

section Intersect

def intersectPoint (X Y x y w h : Rat) : Bool := X ≥ x && X ≤ x + w && Y ≥ y && Y ≤ y + h

/-- The width of the first is not used. -/
def intersectMiddle (X Y _W H x y w h : Rat) : Bool :=
  X ≥ x && X ≤ x + w && ((Y ≥ y && Y ≤ y + h) || (y ≥ Y && y ≤ Y + H))

def intersectOne (X Y W H x y w h : Rat) : Bool :=
  intersectPoint (X + 0) (Y + 0) x y w h ||
  intersectPoint (X + W) (Y + 0) x y w h ||
  intersectPoint (X + W) (Y + H) x y w h ||
  intersectPoint (X + 0) (Y + H) x y w h ||
  intersectMiddle X Y W H x y w h

def intersect (X Y W H x y w h : Rat) : Bool :=
  intersectOne X Y W H x y w h || intersectOne x y w h X Y W H

end Intersect

/-- Where an element is on the page, and how large it is. -/
structure Box where
  left : Rat
  top : Rat
  width : Rat
  height : Rat
  width_nonneg : 0 ≤ width
  height_nonneg : 0 ≤ height

/-- The condition under which an element is pushed. -/
def selects (x1 y1 x2 y2 : Rat) (strict : Bool) (b : Box) : Bool :=
  let overlap := !strict && intersect x1 y1 (x2 - x1) (y2 - y1) b.left b.top b.width b.height
  overlap || (b.left ≥ x1 && b.top ≥ y1 && b.left + b.width ≤ x2 && b.top + b.height ≤ y2)

/-- `elements` are those that the selector finds. -/
def rectangleSelect {E : Type} (elements : List E) (box : E → Box) (sx sy ex ey : Rat)
    (strict : Bool) : List E :=
  let x1 := min sx ex
  let y1 := min sy ey
  let x2 := max sx ex
  let y2 := max sy ey
  elements.foldl
    (fun found e => if selects x1 y1 x2 y2 strict (box e) then found ++ [e] else found) []

namespace Box

/-- The points of the box, its border among them. -/
def region (b : Box) : Set (Rat × Rat) :=
  Set.Icc b.left (b.left + b.width) ×ˢ Set.Icc b.top (b.top + b.height)

/-- In neither direction is one of them behind the other. -/
structure Overlap (a b : Box) : Prop where
  left : a.left ≤ b.left + b.width
  right : b.left ≤ a.left + a.width
  top : a.top ≤ b.top + b.height
  bottom : b.top ≤ a.top + a.height

variable {a b : Box}

theorem Overlap.symm (h : Overlap a b) : Overlap b a := ⟨h.right, h.left, h.bottom, h.top⟩

theorem overlap_iff : Overlap a b ↔ (a.region ∩ b.region).Nonempty := by
  have ha := a.width_nonneg
  have hb := b.width_nonneg
  have ha' := a.height_nonneg
  have hb' := b.height_nonneg
  rw [region, region, Set.prod_inter_prod, Set.prod_nonempty_iff, Set.Icc_inter_Icc,
    Set.Icc_inter_Icc, Set.nonempty_Icc, Set.nonempty_Icc]
  simp only [sup_le_iff, le_inf_iff]
  constructor
  · intro h
    obtain ⟨hleft, hright, htop, hbottom⟩ := h
    exact ⟨⟨⟨by linarith, hright⟩, hleft, by linarith⟩, ⟨by linarith, hbottom⟩, htop, by linarith⟩
  · intro h
    obtain ⟨⟨⟨-, hright⟩, hleft, -⟩, ⟨-, hbottom⟩, htop, -⟩ := h
    exact ⟨hleft, hright, htop, hbottom⟩

theorem overlap_of_intersectOne
    (h : intersectOne a.left a.top a.width a.height b.left b.top b.width b.height = true) :
    Overlap a b := by
  have ha := a.width_nonneg
  have hb := b.width_nonneg
  have ha' := a.height_nonneg
  have hb' := b.height_nonneg
  simp only [intersectOne, intersectPoint, intersectMiddle, Bool.or_eq_true, Bool.and_eq_true,
    decide_eq_true_eq, ge_iff_le] at h
  rcases h with (((h | h) | h) | h) | h
  · exact ⟨by linarith, by linarith, by linarith, by linarith⟩
  · exact ⟨by linarith, by linarith, by linarith, by linarith⟩
  · exact ⟨by linarith, by linarith, by linarith, by linarith⟩
  · exact ⟨by linarith, by linarith, by linarith, by linarith⟩
  · obtain ⟨hx, hy | hy⟩ := h
    · exact ⟨by linarith, by linarith, by linarith, by linarith⟩
    · exact ⟨by linarith, by linarith, by linarith, by linarith⟩

/-- Of two boxes that overlap, the one that begins further right does so in the other, which is what
the test for the middle looks for. -/
theorem intersectOne_of_overlap (h : Overlap a b) (hx : b.left ≤ a.left) :
    intersectOne a.left a.top a.width a.height b.left b.top b.width b.height = true := by
  have hmiddle :
      intersectMiddle a.left a.top a.width a.height b.left b.top b.width b.height = true := by
    simp only [intersectMiddle, Bool.or_eq_true, Bool.and_eq_true, decide_eq_true_eq, ge_iff_le]
    rcases le_total b.top a.top with hy | hy
    · exact ⟨⟨hx, h.left⟩, Or.inl ⟨hy, h.top⟩⟩
    · exact ⟨⟨hx, h.left⟩, Or.inr ⟨hy, h.bottom⟩⟩
  rw [intersectOne, hmiddle, Bool.or_true]

theorem intersect_iff :
    intersect a.left a.top a.width a.height b.left b.top b.width b.height = true ↔
      (a.region ∩ b.region).Nonempty := by
  rw [← overlap_iff, intersect, Bool.or_eq_true]
  constructor
  · intro h
    rcases h with h | h
    · exact overlap_of_intersectOne h
    · exact (overlap_of_intersectOne h).symm
  · intro h
    rcases le_total b.left a.left with hx | hx
    · exact Or.inl (intersectOne_of_overlap h hx)
    · exact Or.inr (intersectOne_of_overlap h.symm hx)

/-- The rectangle that is dragged from one corner to the other. -/
def dragged (sx sy ex ey : Rat) : Box where
  left := min sx ex
  top := min sy ey
  width := max sx ex - min sx ex
  height := max sy ey - min sy ey
  width_nonneg := sub_nonneg.mpr min_le_max
  height_nonneg := sub_nonneg.mpr min_le_max

theorem region_dragged (sx sy ex ey : Rat) :
    (dragged sx sy ex ey).region = Set.uIcc sx ex ×ˢ Set.uIcc sy ey := by
  rw [region, dragged, Set.uIcc, Set.uIcc]
  congr 2
  · exact add_sub_cancel _ _
  · exact add_sub_cancel _ _

/-- A box that lies in the rectangle meets it as well. -/
theorem selects_iff (sx sy ex ey : Rat) (b : Box) :
    selects (min sx ex) (min sy ey) (max sx ex) (max sy ey) false b = true ↔
      (b.region ∩ Set.uIcc sx ex ×ˢ Set.uIcc sy ey).Nonempty := by
  have hintersect : intersect (min sx ex) (min sy ey) (max sx ex - min sx ex)
      (max sy ey - min sy ey) b.left b.top b.width b.height = true ↔
      Overlap (dragged sx sy ex ey) b :=
    (intersect_iff (a := dragged sx sy ex ey)).trans overlap_iff.symm
  rw [← region_dragged, Set.inter_comm, ← overlap_iff, selects, Bool.not_false, Bool.true_and,
    Bool.or_eq_true, hintersect]
  constructor
  · intro h
    rcases h with h | h
    · exact h
    · have hb := b.width_nonneg
      have hb' := b.height_nonneg
      simp only [Bool.and_eq_true, decide_eq_true_eq, ge_iff_le] at h
      obtain ⟨⟨⟨hleft, htop⟩, hright⟩, hbottom⟩ := h
      refine ⟨?_, ?_, ?_, ?_⟩
      · show min sx ex ≤ b.left + b.width
        linarith
      · show b.left ≤ min sx ex + (max sx ex - min sx ex)
        linarith
      · show min sy ey ≤ b.top + b.height
        linarith
      · show b.top ≤ min sy ey + (max sy ey - min sy ey)
        linarith
  · exact Or.inl

end Box

theorem rectangleSelect_swap {E : Type} (elements : List E) (box : E → Box) (sx sy ex ey : Rat)
    (strict : Bool) :
    rectangleSelect elements box ex sy sx ey strict =
        rectangleSelect elements box sx sy ex ey strict ∧
      rectangleSelect elements box sx ey ex sy strict =
        rectangleSelect elements box sx sy ex ey strict := by
  unfold rectangleSelect
  rw [min_comm ex sx, max_comm ex sx, min_comm ey sy, max_comm ey sy]
  exact ⟨rfl, rfl⟩

theorem foldl_push {E : Type} (p : E → Bool) (elements found : List E) :
    elements.foldl (fun found e => if p e then found ++ [e] else found) found =
      found ++ elements.filter p := by
  induction elements generalizing found with
  | nil => exact (List.append_nil found).symm
  | cons e elements ih =>
    rw [List.foldl_cons, ih]
    cases he : p e with
    | true =>
      rw [if_pos rfl, List.filter_cons_of_pos he, List.append_assoc]
      rfl
    | false => rw [if_neg Bool.false_ne_true, List.filter_cons_of_neg (by simp [he])]

open Classical in
theorem rectangleSelect_eq {E : Type} (elements : List E) (box : E → Box) (sx sy ex ey : Rat) :
    rectangleSelect elements box sx sy ex ey false =
      elements.filter fun e => ((box e).region ∩ Set.uIcc sx ex ×ˢ Set.uIcc sy ey).Nonempty := by
  refine (foldl_push _ elements []).trans ?_
  rw [List.nil_append]
  refine List.filter_congr ?_
  intro e _
  rw [Bool.eq_iff_iff, decide_eq_true_eq]
  exact Box.selects_iff sx sy ex ey (box e)

open Classical in
/-- Two boxes intersect exactly when they share a point, and what is selected are the elements whose
boxes share one with the rectangle, in order, whichever corners it is dragged between. -/
theorem rectangleSelect_meets :
    (∀ a b : Box, intersect a.left a.top a.width a.height b.left b.top b.width b.height = true ↔
        (a.region ∩ b.region).Nonempty) ∧
      ∀ (E : Type) (elements : List E) (box : E → Box) (sx sy ex ey : Rat),
        let found := rectangleSelect elements box sx sy ex ey false
        (found = elements.filter fun e =>
            ((box e).region ∩ Set.uIcc sx ex ×ˢ Set.uIcc sy ey).Nonempty) ∧
          (elements.Nodup → found.Nodup) ∧
          found = rectangleSelect elements box ex ey sx sy false ∧
          found = rectangleSelect elements box sx ey ex sy false ∧
          found = rectangleSelect elements box ex sy sx ey false := by
  refine ⟨fun a b => Box.intersect_iff, ?_⟩
  intro E elements box sx sy ex ey found
  have hfound := rectangleSelect_eq elements box sx sy ex ey
  have hswap := rectangleSelect_swap elements box sx sy ex ey false
  refine ⟨hfound, ?_, ?_, hswap.2.symm, hswap.1.symm⟩
  · intro hnodup
    show (rectangleSelect elements box sx sy ex ey false).Nodup
    rw [hfound]
    exact hnodup.filter _
  · exact (hswap.1.symm).trans (rectangleSelect_swap elements box ex sy sx ey false).2.symm

end HackerUnion.StackEditor
