import HackerUnion.Lists.Intercalate
import Mathlib.Algebra.GroupWithZero.Nat
import Mathlib.Data.List.DropRight
import Mathlib.Data.List.Infix

namespace HackerUnion.Bash

abbrev Text := List Char

/-- A string literal as a text. -/
abbrev text (s : String) : Text := s.toList

-- Some libraries decide a bound on characters by trying every character there is. Over the
-- characters of one text, or of one option, these instances come first.

instance (priority := 2000) decidableForallText {p : Char → Prop} [DecidablePred p] (t : Text) :
    Decidable (∀ c ∈ t, p c) := List.decidableBAll p t

instance (priority := 2000) decidableExistsText {p : Char → Prop} [DecidablePred p] (t : Text) :
    Decidable (∃ c ∈ t, p c) := List.decidableBEx p t

instance (priority := 2000) decidableForallChar {p : Char → Prop} [DecidablePred p]
    (o : Option Char) : Decidable (∀ c ∈ o, p c) := Option.decidableForallMem o

instance (priority := 2000) decidableExistsChar {p : Char → Prop} [DecidablePred p]
    (o : Option Char) : Decidable (∃ c ∈ o, p c) := Option.decidableExistsMem o

instance (priority := 2000) decidableMemTexts (t : Text) (ts : List Text) : Decidable (t ∈ ts) :=
  List.instDecidableMemOfLawfulBEq t ts

/-- The lines of a file. The last one need not be ended. -/
def lines : Text → List Text
  | [] => []
  | c :: cs =>
    if c = '\n' then [] :: lines cs
    else
      match lines cs with
      | [] => [[c]]
      | l :: ls => (c :: l) :: ls

def unlines (ls : List Text) : Text := ls.flatMap (· ++ ['\n'])

/-- What a command substitution gives: newlines at the end are dropped. -/
def capture (out : Text) : Text := out.rdropWhile (· == '\n')

/-- `cut -d$d -f$n`. A line without the delimiter is printed whole. -/
def cut (d : Char) (n : Nat) (line : Text) : Text :=
  if d ∈ line then ((line.splitOn d)[n - 1]?).getD [] else line

def lower (t : Text) : Text := t.map Char.toLower

/-- The parts occur one after the other: the expression that has `.*` between them. -/
def inOrder : List Text → Text → Bool
  | [], _ => true
  | p :: ps, t => t.tails.any (fun s => p.isPrefixOf s && inOrder ps (s.drop p.length))

def contains (p t : Text) : Bool := inOrder [p] t

/-- `grep -i` with the expression that has `.*` between the parts. -/
def inOrderCI (ps : List Text) (t : Text) : Bool := inOrder (ps.map lower) (lower t)

/-- A text without the first occurrence of a part. -/
def eraseFirst (p : Text) : Text → Text
  | [] => []
  | c :: t => if p.isPrefixOf (c :: t) then (c :: t).drop p.length else c :: eraseFirst p t

/-- A text of one line. -/
def Line (t : Text) : Prop := '\n' ∉ t

instance (t : Text) : Decidable (Line t) := inferInstanceAs (Decidable (_ ∉ _))

section Lines

variable {l : Text} {ls : List Text} {t : Text}

@[simp] theorem unlines_nil : unlines [] = [] := rfl

@[simp] theorem unlines_cons (l : Text) (ls : List Text) :
    unlines (l :: ls) = l ++ '\n' :: unlines ls := by
  simp [unlines]

theorem unlines_append (ls ls' : List Text) : unlines (ls ++ ls') = unlines ls ++ unlines ls' := by
  simp [unlines]

theorem lines_ended (h : Line l) (t : Text) : lines (l ++ '\n' :: t) = l :: lines t := by
  induction l with
  | nil => simp [lines]
  | cons c cs ih =>
    have hc : c ≠ '\n' := by
      rintro rfl
      exact h List.mem_cons_self
    have hcs : Line cs := fun hmem => h (List.mem_cons_of_mem _ hmem)
    simp only [List.cons_append, lines, if_neg hc, ih hcs]

theorem lines_of_line (h : Line l) (hne : l ≠ []) : lines l = [l] := by
  induction l with
  | nil => exact absurd rfl hne
  | cons c cs ih =>
    have hc : c ≠ '\n' := by
      rintro rfl
      exact h List.mem_cons_self
    have hcs : Line cs := fun hmem => h (List.mem_cons_of_mem _ hmem)
    simp only [lines, if_neg hc]
    cases cs with
    | nil => rfl
    | cons d ds => rw [ih hcs (List.cons_ne_nil d ds)]

theorem lines_unlines (h : ∀ l ∈ ls, Line l) : lines (unlines ls) = ls := by
  induction ls with
  | nil => rfl
  | cons l ls ih =>
    rw [unlines_cons, lines_ended (h l List.mem_cons_self),
      ih fun l' hl' => h l' (List.mem_cons_of_mem _ hl')]

theorem line_of_mem_lines (hl : l ∈ lines t) : Line l := by
  induction t generalizing l with
  | nil => cases hl
  | cons c cs ih =>
    simp only [lines] at hl
    split at hl
    · rcases List.mem_cons.mp hl with rfl | hl
      · exact List.not_mem_nil
      · exact ih hl
    · rename_i hc
      split at hl
      · cases List.mem_singleton.mp hl
        simpa [Line] using Ne.symm hc
      · rename_i l' ls' heq
        rcases List.mem_cons.mp hl with rfl | hl
        · have hl' : Line l' := ih (by rw [heq]; exact List.mem_cons_self)
          simpa [Line, Ne.symm hc] using hl'
        · exact ih (by rw [heq]; exact List.mem_cons_of_mem _ hl)

/-- A text is its ended lines and what stands after the last of them. -/
theorem exists_unlines_append (t : Text) :
    ∃ ls rest, t = unlines ls ++ rest ∧ (∀ l ∈ ls, Line l) ∧ Line rest := by
  induction t with
  | nil => exact ⟨[], [], rfl, by simp, List.not_mem_nil⟩
  | cons c t ih =>
    obtain ⟨ls, rest, rfl, hls, hrest⟩ := ih
    by_cases hc : c = '\n'
    · subst hc
      refine ⟨[] :: ls, rest, by simp, ?_, hrest⟩
      intro l hl
      rcases List.mem_cons.mp hl with rfl | hl
      · exact List.not_mem_nil
      · exact hls l hl
    · have hcons {l : Text} (hl : Line l) : Line (c :: l) := by
        simpa [Line, Ne.symm hc] using hl
      cases ls with
      | nil => exact ⟨[], c :: rest, by simp, by simp, hcons hrest⟩
      | cons l ls =>
        refine ⟨(c :: l) :: ls, rest, by simp, ?_, hrest⟩
        intro l' hl'
        rcases List.mem_cons.mp hl' with rfl | hl'
        · exact hcons (hls l List.mem_cons_self)
        · exact hls l' (List.mem_cons_of_mem _ hl')

theorem lines_unlines_append {rest : Text} (h : ∀ l ∈ ls, Line l) (hrest : Line rest) :
    lines (unlines ls ++ rest) = ls ++ if rest = [] then [] else [rest] := by
  induction ls with
  | nil =>
    split
    · rename_i hnil
      simp [hnil, lines]
    · rename_i hne
      exact lines_of_line hrest hne
  | cons l ls ih =>
    have happend : unlines (l :: ls) ++ rest = l ++ '\n' :: (unlines ls ++ rest) := by simp
    rw [happend, lines_ended (h l List.mem_cons_self),
      ih fun l' hl' => h l' (List.mem_cons_of_mem _ hl')]
    rfl

/-- What is no newline stands in the lines as often as in the text. -/
theorem count_lines {c : Char} (hc : c ≠ '\n') (t : Text) :
    ((lines t).map (List.count c)).sum = t.count c := by
  induction t with
  | nil => rfl
  | cons d t ih =>
    rw [lines]
    split
    · rename_i hd
      simp [ih, hd, hc.symm]
    · rw [List.count_cons, ← ih]
      split
      · rename_i hnil
        simp [hnil, List.count_cons]
      · rename_i l ls hcons
        simp only [hcons, List.map_cons, List.sum_cons, List.count_cons]
        omega

end Lines

section DropRight

variable {α : Type}

theorem rdropWhile_cons (p : α → Bool) (c : α) (t : List α) :
    (c :: t).rdropWhile p = if t.rdropWhile p = [] ∧ p c then [] else c :: t.rdropWhile p := by
  rw [List.rdropWhile, List.reverse_cons, List.dropWhile_append]
  split
  · rename_i hempty
    have hnil : t.rdropWhile p = [] := by
      rw [List.rdropWhile, List.isEmpty_iff.mp hempty]
      rfl
    by_cases hc : p c <;> simp [hnil, hc]
  · rename_i hne
    have hnil : t.rdropWhile p ≠ [] := by
      simpa [List.rdropWhile] using hne
    simp [hnil]
    rfl

theorem rdropWhile_append_cons {p : α → Bool} {d : α} (hd : p d = false) (a b : List α) :
    (a ++ d :: b).rdropWhile p = a ++ d :: b.rdropWhile p := by
  induction a with
  | nil => simp [rdropWhile_cons, hd]
  | cons c a ih => simp [rdropWhile_cons, ih]

end DropRight

section Capture

variable {l : Text} {ls : List Text}

theorem capture_line (h : Line l) : capture l = l := by
  unfold capture
  rw [List.rdropWhile_eq_self_iff]
  intro hne heq
  have hlast : l.getLast hne = '\n' := by simpa using heq
  exact h (hlast ▸ List.getLast_mem hne)

theorem capture_append_newline (t : Text) : capture (t ++ ['\n']) = capture t := by
  simp [capture, List.rdropWhile_concat_pos]

/-- One line of output is given back as it is. -/
theorem capture_unlines_singleton (h : Line l) : capture (unlines [l]) = l := by
  rw [unlines_cons, unlines_nil, capture_append_newline, capture_line h]

/-- Lines of which the last is not empty are captured without the newline at the end. -/
theorem capture_unlines (hline : ∀ l ∈ ls, Line l) (hlast : ∀ l ∈ ls.getLast?, l ≠ [])
    (hls : ls ≠ []) : capture (unlines ls) ++ ['\n'] = unlines ls := by
  obtain ⟨init, z, rfl⟩ := List.eq_nil_or_concat ls |>.resolve_left hls
  have hz : z ≠ [] := hlast z (by simp)
  have hout : unlines (init ++ [z]) = (unlines init ++ z) ++ ['\n'] := by simp [unlines_append]
  have hkept : capture (unlines init ++ z) = unlines init ++ z := by
    rw [capture, List.rdropWhile_eq_self_iff]
    intro hnil hnewline
    have hgetLast : (unlines init ++ z).getLast hnil = z.getLast hz :=
      List.getLast_append_of_ne_nil _ _
    have hnewline : z.getLast hz = '\n' := by simpa [hgetLast] using hnewline
    exact hline z (by simp) (hnewline ▸ List.getLast_mem _)
  rw [List.concat_eq_append, hout, capture_append_newline, hkept]

end Capture

section InOrder

variable {p t : Text} {ps : List Text}

theorem inOrder_cons (p : Text) (ps : List Text) (t : Text) :
    inOrder (p :: ps) t = true ↔ ∃ a b, t = a ++ p ++ b ∧ inOrder ps b = true := by
  simp only [inOrder, List.any_eq_true, Bool.and_eq_true, List.mem_tails,
    List.isPrefixOf_iff_prefix]
  constructor
  · rintro ⟨s, ⟨a, rfl⟩, ⟨b, rfl⟩, hb⟩
    refine ⟨a, b, by simp, ?_⟩
    simpa using hb
  · rintro ⟨a, b, rfl, hb⟩
    refine ⟨p ++ b, ⟨a, by simp⟩, ⟨b, rfl⟩, ?_⟩
    simpa using hb

theorem contains_iff (p t : Text) : contains p t = true ↔ p <:+: t := by
  unfold contains
  rw [inOrder_cons]
  constructor
  · rintro ⟨a, b, rfl, -⟩
    exact ⟨a, b, rfl⟩
  · rintro ⟨a, b, rfl⟩
    exact ⟨a, b, rfl, rfl⟩

/-- What a text matches, a longer one matches. -/
theorem inOrder_append (a b : Text) (h : inOrder ps t = true) :
    inOrder ps (a ++ t ++ b) = true := by
  induction ps generalizing t a with
  | nil => rfl
  | cons p ps ih =>
    obtain ⟨c, d, rfl, hd⟩ := (inOrder_cons p ps t).mp h
    refine (inOrder_cons p ps _).mpr ⟨a ++ c, d ++ b, by simp, ?_⟩
    simpa using ih [] hd

theorem lower_append (s t : Text) : lower (s ++ t) = lower s ++ lower t := by
  simp [lower]

end InOrder

/-- The part before a separator ends where a text without it does, or goes past it. -/
theorem append_cons_cases {d : Char} {a s x t : Text} (ha : d ∉ a)
    (h : a ++ d :: s = x ++ d :: t) :
    (a = x ∧ s = t) ∨ ∃ y, x = a ++ d :: y ∧ s = y ++ d :: t := by
  rcases List.append_eq_append_iff.mp h with ⟨z, rfl, hz⟩ | ⟨z, rfl, hz⟩
  · cases z with
    | nil => exact Or.inl (by simpa using hz)
    | cons c z =>
      simp only [List.cons_append, List.cons.injEq] at hz
      exact Or.inr ⟨z, by rw [hz.1], hz.2⟩
  · cases z with
    | nil => exact Or.inl (by simpa using hz.symm)
    | cons c z =>
      simp only [List.cons_append, List.cons.injEq] at hz
      exact absurd (by simp [hz.1]) ha

/-- Texts that agree on what follows the first occurrence of a character agree on what is before. -/
theorem append_cons_inj {d : Char} {a b s t : Text} (ha : d ∉ a) (hb : d ∉ b)
    (h : a ++ d :: s = b ++ d :: t) : a = b ∧ s = t := by
  rcases append_cons_cases ha h with heq | ⟨y, rfl, -⟩
  · exact heq
  · exact absurd (by simp) hb

section Cut

variable {d : Char} {a b : Text}

theorem cut_one (h : d ∉ a) (b : Text) : cut d 1 (a ++ d :: b) = a := by
  have hmem : d ∈ a ++ d :: b := by simp
  rw [cut, if_pos hmem, List.splitOn_append_cons_self_of_not_mem h]
  rfl

/-- Past the first delimiter the count goes down by one. -/
theorem cut_succ (h : d ∉ a) (n : Nat) (hb : d ∈ b) :
    cut d (n + 2) (a ++ d :: b) = cut d (n + 1) b := by
  have hmem : d ∈ a ++ d :: b := by simp
  rw [cut, if_pos hmem, List.splitOn_append_cons_self_of_not_mem h, cut, if_pos hb]
  rfl

theorem cut_two_last (ha : d ∉ a) (hb : d ∉ b) : cut d 2 (a ++ d :: b) = b := by
  have hmem : d ∈ a ++ d :: b := by simp
  rw [cut, if_pos hmem, List.splitOn_append_cons_self_of_not_mem ha, List.splitOn_eq_singleton hb]
  rfl

/-- The columns of a line that was put together from them. -/
theorem cut_intercalate {cols : List Text} (h : ∀ col ∈ cols, d ∉ col) (hlen : 2 ≤ cols.length)
    (n : Nat) : cut d (n + 1) (List.intercalate [d] cols) = (cols[n]?).getD [] := by
  have hne : cols ≠ [] := by
    rintro rfl
    cases hlen
  have hmem : d ∈ List.intercalate [d] cols := by
    obtain ⟨a, b, rest, rfl⟩ : ∃ a b rest, cols = a :: b :: rest := by
      match cols, hlen with
      | a :: b :: rest, _ => exact ⟨a, b, rest, rfl⟩
    simp [List.intercalate]
  rw [cut, if_pos hmem, List.splitOn_intercalate d h hne]
  rfl

end Cut

end HackerUnion.Bash
