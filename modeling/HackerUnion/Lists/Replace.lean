import Mathlib.Data.List.Infix

namespace HackerUnion.Lists

variable {α : Type} [DecidableEq α]

/-- The occurrences of a part replaced, from the left, the first `skip` members left out. -/
def replaceFrom (p r : List α) : Nat → List α → List α
  | _, [] => []
  | skip + 1, _ :: l => replaceFrom p r skip l
  | 0, a :: l =>
    if p.isPrefixOf (a :: l) then r ++ replaceFrom p r (p.length - 1) l
    else a :: replaceFrom p r 0 l

def replaceAll (p r l : List α) : List α := replaceFrom p r 0 l

variable {p r u l : List α} {d : α}

theorem replaceFrom_skip (u l : List α) :
    replaceFrom p r u.length (u ++ l) = replaceFrom p r 0 l := by
  induction u with
  | nil => rfl
  | cons a u ih => simpa [replaceFrom] using ih

/-- The part itself is replaced where it stands first. -/
theorem replaceAll_hit (d : α) (p r l : List α) :
    replaceAll (d :: p) r (d :: p ++ l) = r ++ replaceAll (d :: p) r l := by
  have hprefix : (d :: p).isPrefixOf (d :: (p ++ l)) = true := by simp
  rw [replaceAll, List.cons_append, replaceFrom, if_pos hprefix]
  simp [replaceAll, replaceFrom_skip]

/-- What the part does not begin in is left. -/
theorem replaceAll_free (h : d ∉ u) (l : List α) :
    replaceAll (d :: p) r (u ++ l) = u ++ replaceAll (d :: p) r l := by
  induction u with
  | nil => rfl
  | cons a u ih =>
    obtain ⟨ha, hu⟩ : d ≠ a ∧ d ∉ u := by simpa using h
    have hprefix : ¬(d :: p).isPrefixOf (a :: (u ++ l)) = true := by simp [ha]
    rw [replaceAll, List.cons_append, replaceFrom, if_neg hprefix]
    exact congrArg (a :: ·) (ih hu)

/-- The same of what begins like the part and goes on differently. -/
theorem replaceAll_pass (h : d ∉ u) (hstart : ¬p <+: u ++ l) :
    replaceAll (d :: p) r (d :: u ++ l) = d :: u ++ replaceAll (d :: p) r l := by
  have hnot : ¬(d :: p).isPrefixOf (d :: (u ++ l)) = true := by
    simpa [List.isPrefixOf_iff_prefix] using hstart
  rw [replaceAll, List.cons_append, replaceFrom, if_neg hnot]
  exact congrArg (d :: ·) (replaceAll_free h l)

theorem replaceAll_absent (h : d ∉ l) : replaceAll (d :: p) r l = l := by
  have hfree := replaceAll_free (p := p) (r := r) h []
  simpa [replaceAll, replaceFrom] using hfree

end HackerUnion.Lists
