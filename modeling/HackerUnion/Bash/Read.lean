import HackerUnion.Bash.Text
import Mathlib.Algebra.Order.BigOperators.Group.List
import Mathlib.Algebra.Order.Group.Nat

namespace HackerUnion.Bash

/-- The whitespace of `IFS`. -/
def isBlank (c : Char) : Bool := c = ' ' || c = '\t' || c = '\n'

/-- `[[:space:]]` -/
def isSpace (c : Char) : Bool := isBlank c || c = '\x0b' || c = '\x0c' || c = '\r'

/-- The blanks at both ends go, but for those that were escaped. -/
def trimmed (line : List (Char × Bool)) : Text :=
  let bare : Char × Bool → Bool := fun (c, escaped) => isBlank c && !escaped
  ((line.dropWhile bare).rdropWhile bare).map Prod.fst

/-- The lines that `while read line` goes through: a backslash makes the next character literal and
joins a line to the next one, and a last line that is not ended is left out. `line` is what has been
read of the line and what of it was escaped, `escaped` whether a backslash has just been read. -/
def readLoop (line : List (Char × Bool)) (escaped : Bool) : Text → List Text
  | [] => []
  | c :: t =>
    if escaped then readLoop (if c = '\n' then line else line ++ [(c, true)]) false t
    else if c = '\n' then trimmed line :: readLoop [] false t
    else if c = '\\' then readLoop line true t
    else readLoop (line ++ [(c, false)]) false t

def readLines (t : Text) : List Text := readLoop [] false t

/-- A line that `read` gives back as it is. -/
def Plain (l : Text) : Prop :=
  '\\' ∉ l ∧ (∀ c ∈ l.head?, isBlank c = false) ∧ (∀ c ∈ l.getLast?, isBlank c = false)

instance (l : Text) : Decidable (Plain l) := inferInstanceAs (Decidable (_ ∧ _ ∧ _))

/-- What `read` leaves of a line without backslashes. -/
def trim (l : Text) : Text := (l.dropWhile isBlank).rdropWhile isBlank

variable {l : Text} {ls : List Text}

theorem trimmed_bare (l : Text) : trimmed (l.map (fun c => (c, false))) = trim l := by
  have hdrop (l : Text) : (l.map (fun c => (c, false))).dropWhile
      (fun p => isBlank p.1 && !p.2) = (l.dropWhile isBlank).map (fun c => (c, false)) := by
    rw [List.dropWhile_map]
    congr 1
    apply congrFun
    congr 1
    funext c
    simp
  simp only [trimmed, trim, hdrop]
  rw [List.rdropWhile, ← List.map_reverse, hdrop, ← List.map_reverse, List.map_map,
    List.rdropWhile]
  simp [Function.comp_def]

/-- Nothing but a newline and a backslash is special. -/
theorem readLoop_bare (hl : Line l) (hb : '\\' ∉ l) (line : List (Char × Bool)) (t : Text) :
    readLoop line false (l ++ t) = readLoop (line ++ l.map (fun c => (c, false))) false t := by
  induction l generalizing line with
  | nil => simp
  | cons c l ih =>
    have hc : c ≠ '\n' ∧ c ≠ '\\' := by
      refine ⟨?_, ?_⟩
      · rintro rfl
        exact hl List.mem_cons_self
      · rintro rfl
        exact hb List.mem_cons_self
    have hrest := ih (fun hmem => hl (List.mem_cons_of_mem _ hmem))
      (fun hmem => hb (List.mem_cons_of_mem _ hmem)) (line ++ [(c, false)])
    rw [List.cons_append, readLoop, if_neg Bool.false_ne_true, if_neg hc.1, if_neg hc.2, hrest]
    simp

theorem readLines_cons (hl : Line l) (hb : '\\' ∉ l) (t : Text) :
    readLines (l ++ '\n' :: t) = trim l :: readLines t := by
  have hnewline (line : List (Char × Bool)) :
      readLoop line false ('\n' :: t) = trimmed line :: readLines t := by
    simp [readLoop, readLines]
  rw [readLines, readLoop_bare hl hb, hnewline, List.nil_append, trimmed_bare]

/-- Without a blank at either end there is nothing to trim. -/
theorem trim_plain (h : Plain l) : trim l = l := by
  obtain ⟨-, hhead, hlast⟩ := h
  have hdrop : l.dropWhile isBlank = l := by
    cases l with
    | nil => rfl
    | cons c l => simp [hhead c rfl]
  rw [trim, hdrop, List.rdropWhile_eq_self_iff]
  intro hne hblank
  rw [hlast _ (List.getLast?_eq_getLast_of_ne_nil hne)] at hblank
  cases hblank

/-- A last line that is not ended is not read. -/
theorem readLoop_rest (hl : Line l) (hb : '\\' ∉ l) (line : List (Char × Bool)) :
    readLoop line false l = [] := by
  have hbare := readLoop_bare hl hb line []
  rwa [List.append_nil] at hbare

theorem readLines_unlines_append (hline : ∀ l ∈ ls, Line l) (hb : ∀ l ∈ ls, '\\' ∉ l)
    (hl : Line l) (hbl : '\\' ∉ l) : readLines (unlines ls ++ l) = ls.map trim := by
  induction ls with
  | nil => exact readLoop_rest hl hbl []
  | cons l' ls ih =>
    have hl' := hline l' List.mem_cons_self
    have happend : unlines (l' :: ls) ++ l = l' ++ '\n' :: (unlines ls ++ l) := by simp
    rw [happend, readLines_cons hl' (hb l' List.mem_cons_self),
      ih (fun l hmem => hline l (List.mem_cons_of_mem _ hmem))
        (fun l hmem => hb l (List.mem_cons_of_mem _ hmem))]
    rfl

theorem readLines_unlines (hline : ∀ l ∈ ls, Line l) (hb : ∀ l ∈ ls, '\\' ∉ l) :
    readLines (unlines ls) = ls.map trim := by
  have hrest : Line [] ∧ '\\' ∉ ([] : Text) := ⟨List.not_mem_nil, List.not_mem_nil⟩
  simpa using readLines_unlines_append hline hb hrest.1 hrest.2

theorem trim_sublist (l : Text) : List.Sublist (trim l) l :=
  (List.rdropWhile_prefix isBlank _).sublist.trans (List.dropWhile_suffix isBlank).sublist

theorem plain_of_trim (hb : '\\' ∉ l) (h : trim l = l) : Plain l := by
  have hdrop : l.dropWhile isBlank = l := by
    apply (List.dropWhile_suffix isBlank).sublist.eq_of_length_le
    have hle := (List.rdropWhile_prefix isBlank (l.dropWhile isBlank)).sublist.length_le
    have heq := congrArg List.length h
    rw [trim] at heq
    omega
  have hlast : l.rdropWhile isBlank = l := by
    rw [trim, hdrop] at h
    exact h
  refine ⟨hb, ?_, ?_⟩
  · intro c hc
    have hhead := List.head?_dropWhile_not isBlank l
    rw [hdrop, hc] at hhead
    exact hhead
  · intro c hc
    have hne : l ≠ [] := by
      rintro rfl
      cases hc
    rw [List.getLast?_eq_getLast_of_ne_nil hne] at hc
    have hblank := List.rdropWhile_eq_self_iff.mp hlast hne
    rw [Option.mem_some.mp hc] at hblank
    exact Bool.eq_false_iff.mpr hblank

theorem trimmed_sublist (line : List (Char × Bool)) :
    List.Sublist (trimmed line) (line.map Prod.fst) :=
  ((List.rdropWhile_prefix _ _).sublist.trans (List.dropWhile_suffix _).sublist).map _

/-- A backslash comes through only when it is doubled. -/
theorem count_readLoop (t : Text) (line : List (Char × Bool)) (escaped : Bool) :
    2 * ((readLoop line escaped t).map (List.count '\\')).sum ≤
      2 * (line.map Prod.fst).count '\\' + escaped.toNat + t.count '\\' := by
  induction t generalizing line escaped with
  | nil => simp [readLoop]
  | cons c t ih =>
    rw [readLoop]
    split
    · rename_i hescaped
      split
      · rename_i hc
        have ht := ih line false
        simp [hescaped, hc] at ht ⊢
        omega
      · rename_i hc
        have ht := ih (line ++ [(c, true)]) false
        simp [hescaped, List.count_cons] at ht ⊢
        split at ht <;> simp_all <;> omega
    · rename_i hescaped
      split
      · rename_i hc
        have ht := ih [] false
        have hle := (trimmed_sublist line).count_le '\\'
        simp [hescaped, hc] at ht ⊢
        omega
      · split
        · rename_i hc
          have ht := ih line true
          simp [hescaped, hc] at ht ⊢
          omega
        · rename_i hc
          have ht := ih (line ++ [(c, false)]) false
          simp [hescaped, hc] at ht ⊢
          omega

theorem line_of_mem_readLoop (t : Text) (line : List (Char × Bool)) (escaped : Bool)
    (hline : Line (line.map Prod.fst)) (hl : l ∈ readLoop line escaped t) : Line l := by
  induction t generalizing line escaped with
  | nil => cases hl
  | cons c t ih =>
    rw [readLoop] at hl
    split at hl
    · refine ih _ _ ?_ hl
      split
      · exact hline
      · rename_i hc
        simpa [Line, Ne.symm hc] using hline
    · split at hl
      · rcases List.mem_cons.mp hl with rfl | hl
        · exact fun hmem => hline ((trimmed_sublist line).subset hmem)
        · exact ih [] false List.not_mem_nil hl
      · split at hl
        · exact ih line true hline hl
        · rename_i hc _
          refine ih _ _ ?_ hl
          simpa [Line, Ne.symm hc] using hline

theorem line_of_mem_readLines {t : Text} (hl : l ∈ readLines t) : Line l :=
  line_of_mem_readLoop t [] false List.not_mem_nil hl

theorem count_readLines (t : Text) :
    2 * ((readLines t).map (List.count '\\')).sum ≤ t.count '\\' := by
  simpa [readLines] using count_readLoop t [] false

theorem no_backslash_of_mem_readLines {t : Text} (h : '\\' ∉ t) (hl : l ∈ readLines t) :
    '\\' ∉ l := by
  have hcount := count_readLines t
  have hle : l.count '\\' ≤ ((readLines t).map (List.count '\\')).sum :=
    List.single_le_sum (by simp) _ (List.mem_map_of_mem hl)
  rw [← List.count_eq_zero] at h ⊢
  omega

/-- A line that begins and ends bare is only trimmed after it. -/
theorem trimmed_front {c d : Char} (hc : isBlank c = false) (hd : isBlank d = false) (t : Text)
    (read : List (Char × Bool)) :
    ∃ u, trimmed ((c :: t ++ [d]).map (fun c => (c, false)) ++ read) = c :: t ++ d :: u := by
  have happend : (c :: t ++ [d]).map (fun c => (c, false)) ++ read =
      (c, false) :: t.map (fun c => (c, false)) ++ (d, false) :: read := by simp
  rw [happend, trimmed]
  simp only [List.cons_append, List.dropWhile_cons, hc, Bool.false_and, Bool.false_eq_true,
    if_false]
  rw [← List.cons_append, rdropWhile_append_cons (by simp [hd])]
  refine ⟨(read.rdropWhile (fun x => isBlank x.1 && !x.2)).map Prod.fst, ?_⟩
  simp [Function.comp_def]

/-- Whether a backslash at the end of a text waits for what follows it. -/
def pending : Bool → Text → Bool
  | escaped, [] => escaped
  | true, _ :: t => pending false t
  | false, c :: t => pending (c = '\\') t

/-- After a newline that ends a line reading starts afresh. -/
theorem readLoop_append {t : Text} {escaped : Bool} (h : pending escaped t = false)
    (line : List (Char × Bool)) (rest : Text) :
    readLoop line escaped (t ++ '\n' :: rest) =
      readLoop line escaped (t ++ ['\n']) ++ readLines rest := by
  induction t generalizing line escaped with
  | nil =>
    cases escaped with
    | true => cases h
    | false => simp [readLoop, readLines]
  | cons c t ih =>
    cases escaped with
    | true => simpa [readLoop] using ih h (if c = '\n' then line else line ++ [(c, true)])
    | false =>
      by_cases hnewline : c = '\n'
      · subst hnewline
        simpa [readLoop] using ih h []
      · by_cases hslash : c = '\\'
        · subst hslash
          simpa [readLoop] using ih h line
        · have hpending : pending false t = false := by simpa [pending, hslash] using h
          simpa [readLoop, hnewline, hslash] using ih hpending (line ++ [(c, false)])

/-- What has been read of a line only adds to the first line. -/
theorem exists_readLoop {t : Text} {escaped : Bool} (h : pending escaped t = false) :
    ∃ read ls, ∀ line, readLoop line escaped (t ++ ['\n']) = trimmed (line ++ read) :: ls := by
  induction t generalizing escaped with
  | nil =>
    cases escaped with
    | true => cases h
    | false => exact ⟨[], [], fun line => by simp [readLoop]⟩
  | cons c t ih =>
    cases escaped with
    | true =>
      obtain ⟨read, ls, hread⟩ := ih h
      by_cases hnewline : c = '\n'
      · exact ⟨read, ls, fun line => by simpa [readLoop, hnewline] using hread line⟩
      · refine ⟨(c, true) :: read, ls, fun line => ?_⟩
        simpa [readLoop, hnewline] using hread (line ++ [(c, true)])
    | false =>
      by_cases hnewline : c = '\n'
      · subst hnewline
        exact ⟨[], readLoop [] false (t ++ ['\n']), fun line => by simp [readLoop]⟩
      · by_cases hslash : c = '\\'
        · subst hslash
          obtain ⟨read, ls, hread⟩ := ih h
          exact ⟨read, ls, fun line => by simpa [readLoop] using hread line⟩
        · have hpending : pending false t = false := by simpa [pending, hslash] using h
          obtain ⟨read, ls, hread⟩ := ih hpending
          refine ⟨(c, false) :: read, ls, fun line => ?_⟩
          simpa [readLoop, hnewline, hslash] using hread (line ++ [(c, false)])

/-- Plain lines come through as they are. -/
theorem readLines_plain (hline : ∀ l ∈ ls, Line l) (h : ∀ l ∈ ls, Plain l) :
    readLines (unlines ls) = ls := by
  rw [readLines_unlines hline (fun l hl => (h l hl).1)]
  exact (List.map_congr_left fun l hl => trim_plain (h l hl)).trans (List.map_id _)

example :
    readLines (text "  a\\b \\  \nc\\\nd\n\nlost") = [text "ab  ", text "cd", []] := by
  decide

end HackerUnion.Bash
