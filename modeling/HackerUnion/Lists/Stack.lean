import Mathlib.Data.List.DropRight

namespace HackerUnion.Lists

/-- What an element of a list does to a stack: it goes on top, it takes the top off, or neither. -/
inductive Move where
  | push | pop | stay
  deriving DecidableEq

variable {α : Type} (move : α → Move)

/-- The top of the stack is the last element. Nothing is taken off an empty one. -/
def act (all : List α) (c : α) : List α :=
  match move c with
  | .push => all ++ [c]
  | .pop => all.dropLast
  | .stay => all

/-- In some first part more is taken off than is put on. -/
def TakenBack (l : List α) : Prop :=
  ∃ p, p <+: l ∧ (p.map move).count .push < (p.map move).count .pop

/-- An element that is put on, and that nothing behind it takes off. -/
structure Stays (l pre : List α) (c : α) (rest : List α) : Prop where
  split : l = pre ++ c :: rest
  push : move c = .push
  kept : ¬TakenBack move rest

/-- How much is taken off below where the stack began. -/
def excess : List α → Nat
  | [] => 0
  | c :: l =>
    match move c with
    | .push => excess l - 1
    | .pop => excess l + 1
    | .stay => excess l

def kept : List α → List α
  | [] => []
  | c :: l => if move c = .push ∧ excess move l = 0 then c :: kept l else kept l

variable {move} {l pre rest : List α} {c x : α} {p : α → Bool}

theorem foldl_act (l all : List α) :
    l.foldl (act move) all = all.rdrop (excess move l) ++ kept move l := by
  induction l generalizing all with
  | nil => simp [excess, kept]
  | cons c l ih =>
    rw [List.foldl_cons, ih]
    rw [act, excess, kept]
    cases hmove : move c with
    | push =>
      cases hexcess : excess move l with
      | zero => simp
      | succ n => simp [List.rdrop_concat_succ]
    | pop =>
      have hdrop : all.dropLast.rdrop (excess move l) = all.rdrop (excess move l + 1) := by
        rw [List.rdrop, List.rdrop, List.dropLast_eq_take, List.length_take, List.take_take]
        congr 1
        omega
      simp [hdrop]
    | stay => simp

theorem foldl_act_nil (l : List α) : l.foldl (act move) [] = kept move l := by
  rw [foldl_act, List.rdrop_nil, List.nil_append]

theorem lt_excess_iff {n : Nat} : n < excess move l ↔
    ∃ p, p <+: l ∧ (p.map move).count .push + n < (p.map move).count .pop := by
  induction l generalizing n with
  | nil =>
    constructor
    · intro h
      cases h
    · intro h
      obtain ⟨p, hp, hlt⟩ := h
      rw [List.prefix_nil.mp hp] at hlt
      cases hlt
  | cons c l ih =>
    have hcons : (∃ p, p <+: c :: l ∧
        (p.map move).count .push + n < (p.map move).count .pop) ↔
        ∃ p, p <+: l ∧ ((c :: p).map move).count .push + n < ((c :: p).map move).count .pop := by
      constructor
      · intro h
        obtain ⟨p, hp, hlt⟩ := h
        rcases List.prefix_cons_iff.mp hp with rfl | ⟨q, rfl, hq⟩
        · cases hlt
        · exact ⟨q, hq, hlt⟩
      · intro h
        obtain ⟨p, hp, hlt⟩ := h
        exact ⟨c :: p, List.prefix_cons_iff.mpr (Or.inr ⟨p, rfl, hp⟩), hlt⟩
    rw [hcons, excess]
    simp only [List.map_cons, List.count_cons]
    cases hmove : move c with
    | push =>
      have hshift : n < excess move l - 1 ↔ n + 1 < excess move l := by omega
      simp only [hshift, ih]
      simp [Nat.add_assoc, Nat.add_comm 1]
    | pop =>
      simp only [beq_self_eq_true, if_true]
      cases n with
      | zero =>
        simp only [Nat.zero_lt_succ, true_iff]
        refine ⟨[], List.nil_prefix, ?_⟩
        simp
      | succ n =>
        simp only [Nat.add_lt_add_iff_right, ih]
        simp [← Nat.add_assoc]
    | stay => simpa using ih

theorem takenBack_iff : TakenBack move l ↔ 0 < excess move l := by
  rw [lt_excess_iff]
  rfl

theorem Stays.cons (h : Stays move l pre c rest) (x : α) :
    Stays move (x :: l) (x :: pre) c rest :=
  ⟨congrArg (x :: ·) h.split, h.push, h.kept⟩

theorem stays_cons_iff : Stays move (x :: l) pre c rest ↔
    (pre = [] ∧ c = x ∧ rest = l ∧ move x = .push ∧ excess move l = 0) ∨
      ∃ pre', pre = x :: pre' ∧ Stays move l pre' c rest := by
  constructor
  · intro h
    obtain ⟨hsplit, hpush, hkept⟩ := h
    cases pre with
    | nil =>
      obtain ⟨rfl, rfl⟩ := List.cons.inj hsplit
      rw [takenBack_iff] at hkept
      exact Or.inl ⟨rfl, rfl, rfl, hpush, by omega⟩
    | cons y pre =>
      obtain ⟨rfl, rfl⟩ := List.cons.inj hsplit
      exact Or.inr ⟨pre, rfl, rfl, hpush, hkept⟩
  · intro h
    rcases h with ⟨rfl, rfl, rfl, hpush, hkept⟩ | ⟨pre', rfl, rfl, hpush, hkept⟩
    · refine ⟨rfl, hpush, ?_⟩
      rw [takenBack_iff]
      omega
    · exact Stays.cons ⟨rfl, hpush, hkept⟩ x

theorem mem_kept_iff : c ∈ kept move l ↔ ∃ pre rest, Stays move l pre c rest := by
  induction l with
  | nil =>
    constructor
    · intro h
      cases h
    · intro h
      obtain ⟨pre, rest, hsplit, -⟩ := h
      cases pre <;> cases hsplit
  | cons x l ih =>
    have hcons : c ∈ kept move (x :: l) ↔
        (c = x ∧ move x = .push ∧ excess move l = 0) ∨ c ∈ kept move l := by
      rw [kept]
      split
      · next hstays => simp [hstays]
      · next hgone => simp [hgone]
    rw [hcons, ih]
    constructor
    · intro h
      rcases h with ⟨rfl, hstays⟩ | ⟨pre, rest, hstays⟩
      · exact ⟨[], l, stays_cons_iff.mpr (Or.inl ⟨rfl, rfl, rfl, hstays⟩)⟩
      · exact ⟨x :: pre, rest, hstays.cons x⟩
    · intro h
      obtain ⟨pre, rest, h⟩ := h
      rcases stays_cons_iff.mp h with ⟨-, rfl, -, hstays⟩ | ⟨pre', -, hstays⟩
      · exact Or.inl ⟨rfl, hstays⟩
      · exact Or.inr ⟨pre', rest, hstays⟩

/-- Where an element stays, nothing else does. -/
def OnlyOne (move : α → Move) (l : List α) (a : α) : Prop :=
  ∀ pre rest, Stays move l pre a rest → ∀ pre' c rest', Stays move l pre' c rest' → pre' = pre

section OnlyOne

variable {a : α}

/-- An element that does not stay makes no difference to the others. -/
theorem stays_tail_iff (hx : ¬(move x = .push ∧ excess move l = 0)) :
    Stays move (x :: l) pre c rest ↔ ∃ pre', pre = x :: pre' ∧ Stays move l pre' c rest := by
  rw [stays_cons_iff]
  constructor
  · intro h
    rcases h with ⟨-, -, -, h⟩ | h
    · exact absurd h hx
    · exact h
  · exact Or.inr

theorem onlyOne_cons_self (ha : move a = .push ∧ excess move l = 0) :
    OnlyOne move (a :: l) a ↔ kept move l = [] := by
  have hfirst : Stays move (a :: l) [] a l := stays_cons_iff.mpr (Or.inl ⟨rfl, rfl, rfl, ha⟩)
  constructor
  · intro h
    refine List.eq_nil_iff_forall_not_mem.mpr ?_
    intro c hc
    obtain ⟨pre, rest, hstays⟩ := mem_kept_iff.mp hc
    cases h [] l hfirst (a :: pre) c rest (hstays.cons a)
  · intro h
    have hnone (pre : List α) (c : α) (rest : List α)
        (hstays : Stays move (a :: l) pre c rest) : pre = [] := by
      rcases stays_cons_iff.mp hstays with ⟨hpre, -⟩ | ⟨pre', -, hstays⟩
      · exact hpre
      · have hmem := mem_kept_iff.mpr ⟨pre', rest, hstays⟩
        rw [h] at hmem
        cases hmem
    intro pre rest hstays pre' c rest' hstays'
    rw [hnone pre a rest hstays, hnone pre' c rest' hstays']

theorem onlyOne_cons_ne (hx : move x = .push ∧ excess move l = 0) (ha : a ≠ x) :
    OnlyOne move (x :: l) a ↔ a ∉ kept move l := by
  have hfirst : Stays move (x :: l) [] x l := stays_cons_iff.mpr (Or.inl ⟨rfl, rfl, rfl, hx⟩)
  constructor
  · intro h hmem
    obtain ⟨pre, rest, hstays⟩ := mem_kept_iff.mp hmem
    cases h (x :: pre) rest (hstays.cons x) [] x l hfirst
  · intro h pre rest hstays
    rcases stays_cons_iff.mp hstays with ⟨-, hax, -⟩ | ⟨pre', -, hstays⟩
    · exact absurd hax ha
    · exact absurd (mem_kept_iff.mpr ⟨pre', rest, hstays⟩) h

theorem onlyOne_tail_iff (hx : ¬(move x = .push ∧ excess move l = 0)) :
    OnlyOne move (x :: l) a ↔ OnlyOne move l a := by
  constructor
  · intro h pre rest hstays pre' c rest' hstays'
    have hsame := h (x :: pre) rest (hstays.cons x) (x :: pre') c rest' (hstays'.cons x)
    exact (List.cons.inj hsame).2
  · intro h pre rest hstays pre' c rest' hstays'
    obtain ⟨pre, rfl, hfirst⟩ := (stays_tail_iff hx).mp hstays
    obtain ⟨pre', rfl, hsecond⟩ := (stays_tail_iff hx).mp hstays'
    rw [h pre rest hfirst pre' c rest' hsecond]

theorem onlyOne_iff : OnlyOne move l a ↔ a ∉ kept move l ∨ kept move l = [a] := by
  induction l with
  | nil =>
    simp only [kept, List.not_mem_nil, not_false_eq_true, true_or, iff_true]
    intro pre rest h
    obtain ⟨hsplit, -⟩ := h
    cases pre <;> cases hsplit
  | cons x l ih =>
    by_cases hx : move x = .push ∧ excess move l = 0
    · rw [kept, if_pos hx]
      by_cases ha : a = x
      · subst ha
        rw [onlyOne_cons_self hx]
        simp
      · have hne : x :: kept move l ≠ [a] := fun h => ha (List.cons.inj h).1.symm
        rw [onlyOne_cons_ne hx ha]
        simp [ha, hne]
    · rw [kept, if_neg hx, onlyOne_tail_iff hx, ih]

end OnlyOne

section Filter

variable (hp : ∀ c, p c = false → move c = .push)

include hp

theorem excess_le_filter (l : List α) : excess move l ≤ excess move (l.filter p) := by
  induction l with
  | nil => exact Nat.le_refl 0
  | cons c l ih =>
    cases hc : p c with
    | false =>
      rw [List.filter_cons_of_neg (by simp [hc]), excess, hp c hc]
      dsimp only
      omega
    | true =>
      rw [List.filter_cons_of_pos hc, excess, excess]
      cases move c <;> dsimp only <;> omega

theorem kept_filter_sublist (l : List α) :
    (kept move (l.filter p)).Sublist ((kept move l).filter p) := by
  induction l with
  | nil => exact List.Sublist.refl []
  | cons c l ih =>
    have hle := excess_le_filter hp l
    cases hc : p c with
    | false =>
      rw [List.filter_cons_of_neg (by simp [hc]), kept]
      split
      · rw [List.filter_cons_of_neg (by simp [hc])]
        exact ih
      · exact ih
    | true =>
      rw [List.filter_cons_of_pos hc, kept, kept]
      split
      · next hstays =>
        rw [if_pos ⟨hstays.1, by omega⟩, List.filter_cons_of_pos hc]
        exact ih.cons_cons c
      · split
        · rw [List.filter_cons_of_pos hc]
          exact ih.cons c
        · exact ih

/-- The same stays with one more element where the same stays behind it, and it is not kept for want
of what is left out. -/
theorem kept_filter_cons_iff : kept move ((x :: l).filter p) = (kept move (x :: l)).filter p ↔
    (move x = .push → p x = true → 0 < excess move (l.filter p) → 0 < excess move l) ∧
      kept move (l.filter p) = (kept move l).filter p := by
  have hle := excess_le_filter hp l
  have hsub := kept_filter_sublist hp l
  cases hx : p x with
  | false =>
    rw [List.filter_cons_of_neg (by simp [hx]), kept]
    split
    · rw [List.filter_cons_of_neg (by simp [hx])]
      simp
    · simp
  | true =>
    rw [List.filter_cons_of_pos hx, kept, kept]
    by_cases hpush : move x = .push
    · by_cases hbelow : excess move (l.filter p) = 0
      · rw [if_pos ⟨hpush, hbelow⟩, if_pos ⟨hpush, by omega⟩, List.filter_cons_of_pos hx]
        simp [hbelow]
      · rw [if_neg (by simp [hbelow])]
        by_cases hstays : excess move l = 0
        · -- `x` would be one more than there are without what is left out
          rw [if_pos ⟨hpush, hstays⟩, List.filter_cons_of_pos hx]
          have hne : kept move (l.filter p) ≠ x :: (kept move l).filter p := by
            intro heq
            have hlength := hsub.length_le
            rw [heq, List.length_cons] at hlength
            omega
          simp only [hne, false_iff, not_and]
          intro h
          have hlt := h hpush trivial (by omega)
          omega
        · rw [if_neg (by simp [hstays])]
          simp only [iff_and_self]
          intro _ _ _ _
          omega
    · rw [if_neg (by simp [hpush]), if_neg (by simp [hpush])]
      simp [hpush]

/-- The same stays without some of what is put on exactly when nothing is taken back for that. -/
theorem kept_filter_iff : kept move (l.filter p) = (kept move l).filter p ↔
    ∀ pre c rest, l = pre ++ c :: rest → move c = .push → p c = true →
      TakenBack move (rest.filter p) → TakenBack move rest := by
  induction l with
  | nil =>
    simp only [List.filter_nil, kept, true_iff]
    intro pre c rest hsplit
    cases pre <;> cases hsplit
  | cons x l ih =>
    rw [kept_filter_cons_iff hp, ih]
    simp only [← takenBack_iff]
    constructor
    · intro h pre c rest hsplit
      cases pre with
      | nil =>
        obtain ⟨rfl, rfl⟩ := List.cons.inj hsplit
        exact h.1
      | cons y pre =>
        exact h.2 pre c rest (List.cons.inj hsplit).2
    · intro h
      refine ⟨h [] x l rfl, ?_⟩
      intro pre c rest hsplit
      exact h (x :: pre) c rest (congrArg (x :: ·) hsplit)

end Filter

end HackerUnion.Lists
