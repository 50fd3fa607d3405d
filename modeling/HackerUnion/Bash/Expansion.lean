import HackerUnion.Bash.Text
import Mathlib.Data.List.Basic

namespace HackerUnion.Bash

/-- A part of a pattern. Bracket expressions and backslashes are left out. -/
inductive Glob where
  | star
  | any
  | char (c : Char)
  deriving DecidableEq

abbrev Pattern := List Glob

def glob? (c : Char) : Option Glob :=
  if c = '*' then some .star
  else if c = '?' then some .any
  else if c = '[' ∨ c = '\\' then none
  else some (.char c)

/-- What a text means where a pattern is expected. -/
def pattern? (t : Text) : Option Pattern := t.mapM glob?

def Pattern.fits : Pattern → Text → Bool
  | [], t => t = []
  | .star :: p, t => t.tails.any (Pattern.fits p)
  | .any :: _, [] => false
  | .any :: p, _ :: t => Pattern.fits p t
  | .char _ :: _, [] => false
  | .char c :: p, d :: t => c = d && Pattern.fits p t

/-- The length of the shortest prefix that matches. -/
def Pattern.shortest (p : Pattern) (t : Text) : Option Nat :=
  (List.range (t.length + 1)).find? fun n => p.fits (t.take n)

def Pattern.longest (p : Pattern) (t : Text) : Option Nat :=
  (List.range (t.length + 1)).reverse.find? fun n => p.fits (t.take n)

/-- `${t#p}` -/
def removePrefix (p : Pattern) (t : Text) : Text :=
  match p.shortest t with
  | some n => t.drop n
  | none => t

/-- `${t%%p}` -/
def removeSuffix (p : Pattern) (t : Text) : Text :=
  match (List.range (t.length + 1)).find? fun n => p.fits (t.drop n) with
  | some n => t.take n
  | none => t

/-- `${t/p/}`, for a pattern that the empty text does not match. -/
def eraseMatch (p : Pattern) : Text → Text
  | [] => []
  | c :: t =>
    match p.longest (c :: t) with
    | some n => (c :: t).drop n
    | none => c :: eraseMatch p t

/-- What a command substitution gives of any output: it holds no NUL. -/
def substitution (out : Text) : Text := capture (out.filter (· ≠ '\x00'))

/-- Whether what stands behind a dollar sign makes an expansion of it. -/
def expands (c : Char) : Bool := c.isAlphanum || c ∈ text "_@*#?-$!\x7b(["

/-- What a text stands for between double quotes, when they do not end in it and nothing in it is
expanded or run. -/
def quoted : Text → Option Text
  | [] => some []
  | '\\' :: t =>
    match t with
    | [] => none
    | c :: t =>
      if c ∈ text "$\x60\"\\" then (quoted t).map (c :: ·)
      else if c = '\n' then quoted t
      else (quoted t).map ('\\' :: c :: ·)
  | c :: t =>
    if c = '"' ∨ c = '\x60' ∨ c = '$' ∧ t.head?.any expands then none
    else (quoted t).map (c :: ·)

namespace Pattern

variable {p q : Pattern} {t : Text} {c : Char}

theorem fits_append (p q : Pattern) (t : Text) :
    (p ++ q).fits t = true ↔ ∃ a b, t = a ++ b ∧ p.fits a = true ∧ q.fits b = true := by
  induction p generalizing t with
  | nil => simp [fits]
  | cons g p ih =>
    cases g with
    | star =>
      simp only [List.cons_append, fits, List.any_eq_true, List.mem_tails, ih]
      constructor
      · intro ⟨s, ⟨x, hs⟩, a, b, hab, ha, hb⟩
        exact ⟨x ++ a, b, by simp [← hs, hab], ⟨a, ⟨x, rfl⟩, ha⟩, hb⟩
      · intro ⟨a, b, hab, ⟨s, ⟨x, hs⟩, ha⟩, hb⟩
        exact ⟨s ++ b, ⟨x, by simp [hab, ← hs]⟩, s, b, rfl, ha, hb⟩
    | any =>
      cases t with
      | nil => simp [fits]
      | cons d t =>
        simp only [List.cons_append, fits, ih]
        constructor
        · intro ⟨a, b, hab, ha, hb⟩
          exact ⟨d :: a, b, by simp [hab], by simpa [fits] using ha, hb⟩
        · intro ⟨a, b, hab, ha, hb⟩
          cases a with
          | nil => simp [fits] at ha
          | cons e a =>
            injection hab with _ hab
            exact ⟨a, b, hab, by simpa [fits] using ha, hb⟩
    | char c =>
      cases t with
      | nil => simp [fits]
      | cons d t =>
        simp only [List.cons_append, fits, Bool.and_eq_true, ih]
        constructor
        · intro ⟨hc, a, b, hab, ha, hb⟩
          exact ⟨d :: a, b, by simp [hab], by simp [fits, ha, hc], hb⟩
        · intro ⟨a, b, hab, ha, hb⟩
          cases a with
          | nil => simp [fits] at ha
          | cons e a =>
            injection hab with hd hab
            subst hd
            simp only [fits, Bool.and_eq_true] at ha
            exact ⟨ha.1, a, b, hab, ha.2, hb⟩

@[simp] theorem fits_star (t : Text) : fits [.star] t = true := by
  simp only [fits, List.any_eq_true, List.mem_tails]
  exact ⟨[], List.nil_suffix, rfl⟩

theorem fits_char : fits (.char c :: p) t = true ↔
    ∃ s, t = c :: s ∧ p.fits s = true := by
  cases t with
  | nil => simp [fits]
  | cons d t =>
    rw [fits, Bool.and_eq_true, decide_eq_true_eq]
    constructor
    · intro ⟨hc, ht⟩
      exact ⟨t, by rw [hc], ht⟩
    · intro ⟨s, hs, hp⟩
      injection hs with hd hs
      exact ⟨hd.symm, hs ▸ hp⟩

/-- A text that is taken for a pattern matches itself. -/
theorem fits_self (h : pattern? t = some p) : p.fits t = true := by
  induction t generalizing p with
  | nil =>
    obtain rfl : [] = p := by simpa [pattern?] using h
    rfl
  | cons c t ih =>
    simp only [pattern?, List.mapM_cons] at h
    cases hc : glob? c with
    | none => simp [hc] at h
    | some g =>
      cases ht : t.mapM glob? with
      | none => simp [hc, ht] at h
      | some r =>
        obtain rfl : g :: r = p := by simpa [hc, ht] using h
        have hr := ih ht
        unfold glob? at hc
        split at hc
        · obtain rfl := Option.some.inj hc
          simp only [fits, List.any_eq_true, List.mem_tails]
          exact ⟨t, List.suffix_cons c t, hr⟩
        split at hc
        · obtain rfl := Option.some.inj hc
          simpa [fits] using hr
        split at hc
        · cases hc
        · obtain rfl := Option.some.inj hc
          simpa [fits] using hr

theorem shortest_eq {n : Nat} (hn : n ≤ t.length) (h : p.fits (t.take n) = true)
    (hfirst : ∀ m < n, p.fits (t.take m) = false) : p.shortest t = some n := by
  rw [shortest, List.find?_range_eq_some]
  exact ⟨h, List.mem_range.mpr (by omega), fun m hm => by simp [hfirst m hm]⟩

end Pattern

section Remove

variable {p : Pattern} {t a b : Text} {c : Char}

theorem pattern?_isSome (h : ∀ c ∈ t, c ≠ '[' ∧ c ≠ '\\') : ∃ p, pattern? t = some p := by
  induction t with
  | nil => exact ⟨[], rfl⟩
  | cons c t ih =>
    obtain ⟨⟨hopen, hslash⟩, ht⟩ := List.forall_mem_cons.mp h
    obtain ⟨p, hp⟩ := ih ht
    have hc : ∃ g, glob? c = some g := by
      unfold glob?
      split
      · exact ⟨_, rfl⟩
      split
      · exact ⟨_, rfl⟩
      · exact ⟨.char c, by simp [hopen, hslash]⟩
    obtain ⟨g, hg⟩ := hc
    rw [pattern?] at hp
    exact ⟨g :: p, by simp [pattern?, hg, hp]⟩

/-- `${t#*c}` -/
theorem removePrefix_char (h : c ∉ a) (b : Text) :
    removePrefix [.star, .char c] (a ++ c :: b) = b := by
  have hmatch (s : Text) : Pattern.fits [.star, .char c] s = true ↔ ∃ x, s = x ++ [c] := by
    rw [← List.singleton_append, Pattern.fits_append]
    simp [Pattern.fits_char, Pattern.fits]
  have hshortest : Pattern.shortest [.star, .char c] (a ++ c :: b) = some (a.length + 1) := by
    refine Pattern.shortest_eq (by simp) ?_ fun m hm => ?_
    · rw [hmatch, List.take_length_add_append]
      exact ⟨a, rfl⟩
    · rw [Bool.eq_false_iff, Ne, hmatch]
      intro ⟨x, hx⟩
      rw [List.take_append_of_le_length (by omega)] at hx
      exact h (List.mem_of_mem_take (hx ▸ List.mem_append_right x List.mem_cons_self))
  rw [removePrefix, hshortest]
  simp

theorem removePrefix_absent (h : c ∉ t) : removePrefix [.star, .char c] t = t := by
  have hnone : Pattern.shortest [.star, .char c] t = none := by
    rw [Pattern.shortest, List.find?_eq_none]
    intro n hn
    rw [← List.singleton_append, Pattern.fits_append]
    intro ⟨x, y, hxy, _, hy⟩
    obtain ⟨s, rfl, -⟩ := Pattern.fits_char.mp hy
    exact h (List.mem_of_mem_take (hxy ▸ List.mem_append_right x List.mem_cons_self))
  rw [removePrefix, hnone]

/-- `${t%%c*}` -/
theorem removeSuffix_char (h : c ∉ a) (b : Text) :
    removeSuffix [.char c, .star] (a ++ c :: b) = a := by
  have hfirst : (List.range ((a ++ c :: b).length + 1)).find?
      (fun n => Pattern.fits [.char c, .star] ((a ++ c :: b).drop n)) = some a.length := by
    rw [List.find?_range_eq_some]
    have hlength : (a ++ c :: b).length = a.length + (b.length + 1) := by simp
    refine ⟨?_, List.mem_range.mpr (by omega), fun m hm => ?_⟩
    · simp [Pattern.fits_char]
    · rw [Bool.not_eq_true', Bool.eq_false_iff, Ne, Pattern.fits_char]
      intro ⟨s, hs, _⟩
      have hmem : c ∈ a := by
        rw [List.drop_append_of_le_length (by omega), List.drop_eq_getElem_cons hm,
          List.cons_append] at hs
        injection hs with hc
        exact hc ▸ List.getElem_mem hm
      exact h hmem
  rw [removeSuffix, hfirst]
  simp

theorem removeSuffix_absent (h : c ∉ t) : removeSuffix [.char c, .star] t = t := by
  have hnone : (List.range (t.length + 1)).find?
      (fun n => Pattern.fits [.char c, .star] (t.drop n)) = none := by
    rw [List.find?_eq_none]
    intro n hn hmatch
    obtain ⟨s, hs, -⟩ := Pattern.fits_char.mp hmatch
    exact h (List.mem_of_mem_drop (hs ▸ List.mem_cons_self))
  rw [removeSuffix, hnone]

/-- A text up to a separator, given as a pattern, takes the whole of itself and the separator. -/
theorem removePrefix_self (hp : pattern? a = some p) (h : c ∉ a) (b : Text) :
    removePrefix (p ++ [.char c, .star]) (a ++ c :: b) = b := by
  have hshortest : Pattern.shortest (p ++ [.char c, .star]) (a ++ c :: b) =
      some (a.length + 1) := by
    refine Pattern.shortest_eq (by simp) ?_ fun m hm => ?_
    · rw [Pattern.fits_append, List.take_length_add_append]
      exact ⟨a, [c], rfl, Pattern.fits_self hp, by simp [Pattern.fits_char]⟩
    · rw [Bool.eq_false_iff, Ne, Pattern.fits_append]
      intro ⟨x, y, hxy, _, hy⟩
      obtain ⟨s, rfl, -⟩ := Pattern.fits_char.mp hy
      rw [List.take_append_of_le_length (by omega)] at hxy
      exact h (List.mem_of_mem_take (hxy ▸ List.mem_append_right x List.mem_cons_self))
  rw [removePrefix, hshortest]
  simp

end Remove

end HackerUnion.Bash
