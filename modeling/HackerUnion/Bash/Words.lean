import HackerUnion.Bash.Read
import HackerUnion.Bash.Echo
import HackerUnion.Lists.SplitOn

namespace HackerUnion.Bash

/-- An expansion that is not quoted is split at blanks. -/
def words (t : Text) : List Text := (t.splitOnP isBlank).filter (· ≠ [])

def isPattern (w : Text) : Bool := w.any (fun c => c = '*' || c = '?' || c = '[')

/-- The words of an expansion that is not quoted. `glob` gives the file names that a word matches; a
word that matches none stays. -/
def expand (glob : Text → List Text) (t : Text) : List Text :=
  (words t).flatMap (fun w => if isPattern w && glob w ≠ [] then glob w else [w])

/-- No word is a pattern that a file name matches. -/
def NoMatch (glob : Text → List Text) (t : Text) : Prop :=
  ∀ w ∈ words t, isPattern w = true → glob w = []

/-- Each run of blanks is one space. -/
def squeeze : Text → Text
  | [] => []
  | c :: t =>
    if isBlank c then if t.head?.any isBlank then squeeze t else ' ' :: squeeze t
    else c :: squeeze t

/-- The words with a space between them: what `echo` makes of them. -/
def joined (t : Text) : Text := List.intercalate [' '] (words t)

section Squeeze

variable {c d : Char} {t a b : Text}

theorem expand_noMatch {glob : Text → List Text} (h : NoMatch glob t) :
    expand glob t = words t := by
  have hword {w : Text} (hw : w ∈ words t) :
      (if isPattern w && glob w ≠ [] then glob w else [w]) = [w] := by
    cases hp : isPattern w with
    | false => simp
    | true => simp [h w hw hp]
  unfold expand
  rw [List.flatMap_congr fun w hw => hword hw]
  simp

theorem words_blank (hc : isBlank c = true) (t : Text) : words (c :: t) = words t := by
  simp [words, List.splitOnP_cons_eq_if_modifyHead, hc]

theorem words_char_blank (hc : isBlank c = false) (hd : isBlank d = true) (t : Text) :
    words (c :: d :: t) = [c] :: words t := by
  simp [words, List.splitOnP_cons_eq_if_modifyHead, hc, hd]

theorem words_char (hc : isBlank c = false) (hd : isBlank d = false) (t : Text) :
    ∃ w ws, words (d :: t) = w :: ws ∧ words (c :: d :: t) = (c :: w) :: ws := by
  obtain ⟨x, xs, hx⟩ := List.exists_cons_of_ne_nil (List.splitOnP_ne_nil isBlank t)
  refine ⟨d :: x, xs.filter (· ≠ []), ?_, ?_⟩
  · simp [words, List.splitOnP_cons_eq_if_modifyHead, hd, hx]
  · simp [words, List.splitOnP_cons_eq_if_modifyHead, hc, hd, hx]

/-- A blank parts the words before it from those after it. -/
theorem words_append (hc : isBlank c = true) (a b : Text) :
    words (a ++ c :: b) = words a ++ words b := by
  simp [words, List.splitOnP_append_cons _ _ hc]

theorem words_word (hne : t ≠ []) (h : ∀ c ∈ t, isBlank c = false) : words t = [t] := by
  simp [words, List.splitOnP_eq_singleton h, hne]

/-- Lines that are words are the words of what is captured of them. -/
theorem words_capture {ls : List Text} (h : ∀ l ∈ ls, l ≠ [] ∧ ∀ c ∈ l, isBlank c = false) :
    words (capture (unlines ls)) = ls := by
  have hunlines : words (unlines ls) = ls := by
    induction ls with
    | nil => rfl
    | cons l ls ih =>
      obtain ⟨hne, hblank⟩ := h l List.mem_cons_self
      rw [unlines_cons, words_append (by decide), words_word hne hblank,
        ih fun l hl => h l (List.mem_cons_of_mem _ hl)]
      rfl
  by_cases hls : ls = []
  · subst hls
    rfl
  · have hline : ∀ l ∈ ls, Line l := by
      intro l hl hmem
      exact absurd ((h l hl).2 _ hmem) (by decide)
    have hcapture := capture_unlines hline (fun l hl => (h l (List.mem_of_getLast? hl)).1) hls
    have hdrop := words_append (c := '\n') (by decide) (capture (unlines ls)) []
    have hnil : words [] = [] := rfl
    rw [hcapture, hunlines, hnil, List.append_nil] at hdrop
    exact hdrop.symm

theorem ne_nil_of_mem_words {w : Text} (h : w ∈ words t) : w ≠ [] := by
  simpa using (List.mem_filter.mp h).2

/-- A word is of characters that are no blanks. -/
theorem mem_words {w : Text} (h : w ∈ words t) (hc : c ∈ w) : isBlank c = false ∧ c ∈ t :=
  Lists.mem_splitOnP (List.mem_filter.mp h).1 hc

theorem joined_eq_nil (h : joined t = []) : words t = [] := by
  cases hw : words t with
  | nil => rfl
  | cons w ws =>
    have hne : w ≠ [] := ne_nil_of_mem_words (hw ▸ List.mem_cons_self)
    have hhead := Lists.head?_intercalate hne [' '] ws
    rw [← hw, ← joined, h] at hhead
    exact absurd (List.head?_eq_none_iff.mp hhead.symm) hne

theorem joined_cons (c : Char) (w : Text) (ws : List Text) :
    List.intercalate [' '] ((c :: w) :: ws) = c :: List.intercalate [' '] (w :: ws) := by
  cases ws <;> simp [List.intercalate]

/-- A character that is no blank comes first, before a space when a blank and a word follow. -/
theorem joined_char (hc : isBlank c = false) (t : Text) :
    joined (c :: t) =
      c :: if t.head?.any isBlank then if words t = [] then [] else ' ' :: joined t
        else joined t := by
  cases t with
  | nil => simp [joined, words, List.splitOnP_cons_eq_if_modifyHead, hc]
  | cons d t =>
    cases hd : isBlank d with
    | true =>
      rw [joined, words_char_blank hc hd]
      simp only [List.head?_cons, Option.any_some, hd, if_true, words_blank hd]
      cases hw : words t with
      | nil => simp [List.intercalate]
      | cons w ws => simp [joined, words_blank hd, hw, List.intercalate]
    | false =>
      obtain ⟨w, ws, hw, hcw⟩ := words_char hc hd t
      simp only [joined, hw, hcw, joined_cons, List.head?_cons, Option.any_some, hd,
        Bool.false_eq_true, if_false]

/-- The words with a space between them are what is left of the runs without a space at the end. -/
theorem rdropWhile_squeeze (t : Text) :
    (squeeze t).rdropWhile isBlank =
      if t.head?.any isBlank then if words t = [] then [] else ' ' :: joined t else joined t := by
  have hspace : isBlank ' ' = true := rfl
  induction t with
  | nil => rfl
  | cons c t ih =>
    cases hc : isBlank c with
    | true =>
      have hjoined : joined (c :: t) = joined t := by rw [joined, words_blank hc, joined]
      simp only [squeeze, hc, List.head?_cons, Option.any_some, if_true, words_blank hc, hjoined]
      split
      · rename_i hhead
        rw [ih, if_pos hhead]
      · rename_i hhead
        rw [rdropWhile_cons, ih, if_neg hhead]
        by_cases hw : words t = []
        · have hnil : joined t = [] := by rw [joined, hw]; rfl
          simp [hw, hnil, hspace]
        · have hne : joined t ≠ [] := fun h => hw (joined_eq_nil h)
          simp [hw, hne]
    | false =>
      simp only [squeeze, hc, List.head?_cons, Option.any_some, Bool.false_eq_true, if_false]
      rw [rdropWhile_cons, ih, joined_char hc]
      simp [hc]

theorem squeeze_append_cons (hd : isBlank d = false) (a b : Text) :
    squeeze (a ++ d :: b) = squeeze a ++ d :: squeeze b := by
  induction a with
  | nil => simp [squeeze, hd]
  | cons c a ih =>
    simp only [List.cons_append, squeeze, ih]
    cases hc : isBlank c with
    | true =>
      cases a with
      | nil => simp [hd, squeeze]
      | cons e a =>
        cases he : isBlank e <;> simp [he]
    | false => simp

theorem mem_squeeze (h : d ∈ squeeze t) : d = ' ' ∨ isBlank d = false ∧ d ∈ t := by
  induction t with
  | nil => cases h
  | cons c t ih =>
    simp only [squeeze] at h
    split at h
    · split at h
      · exact (ih h).imp_right fun h => ⟨h.1, List.mem_cons_of_mem _ h.2⟩
      · rcases List.mem_cons.mp h with rfl | h
        · exact .inl rfl
        · exact (ih h).imp_right fun h => ⟨h.1, List.mem_cons_of_mem _ h.2⟩
    · rename_i hc
      rcases List.mem_cons.mp h with rfl | h
      · exact .inr ⟨Bool.eq_false_iff.mpr hc, List.mem_cons_self⟩
      · exact (ih h).imp_right fun h => ⟨h.1, List.mem_cons_of_mem _ h.2⟩

theorem line_squeeze (t : Text) : Line (squeeze t) := by
  intro h
  rcases mem_squeeze h with h | h
  · exact absurd h (by decide)
  · exact absurd h.1 (by decide)

/-- The first word begins as the text does. -/
theorem words_cons (hc : isBlank c = false) (t : Text) :
    ∃ w ws, words (c :: t) = (c :: w) :: ws := by
  cases t with
  | nil => exact ⟨[], [], by simp [words, List.splitOnP_cons_eq_if_modifyHead, hc]⟩
  | cons d t =>
    cases hd : isBlank d with
    | true => exact ⟨[], words t, words_char_blank hc hd t⟩
    | false =>
      obtain ⟨w, ws, -, hw⟩ := words_char hc hd t
      exact ⟨w, ws, hw⟩

/-- What `echo` prints of the words when the first is no option. -/
theorem echo_words (hc : isBlank c = false) (hdash : c ≠ '-') (t : Text) :
    echo (words (c :: t)) = joined (c :: t) ++ ['\n'] := by
  obtain ⟨w, ws, hw⟩ := words_cons hc t
  have hopt : isOption (c :: w) = false := isOption_of_head (by simpa using hdash)
  rw [joined, hw, echo, echoWith, if_neg (by simp [hopt])]
  simp [echoRest]

end Squeeze

/-- Words with one space between any two of them. -/
structure Spaced (t : Text) : Prop where
  joined : joined t = t
  ne_nil : t ≠ []

section Spaced

variable {a b t : Text}

theorem spaced_word (hne : t ≠ []) (h : ∀ c ∈ t, isBlank c = false) : Spaced t := by
  refine ⟨?_, hne⟩
  simp [joined, words_word hne h]

theorem Spaced.words_ne_nil (h : Spaced t) : words t ≠ [] := by
  intro hw
  have hjoined := h.joined
  rw [Bash.joined, hw] at hjoined
  exact h.ne_nil hjoined.symm

theorem Spaced.append (ha : Spaced a) (hb : Spaced b) : Spaced (a ++ ' ' :: b) := by
  refine ⟨?_, by simp⟩
  have hspace : isBlank ' ' = true := rfl
  rw [Bash.joined, words_append hspace, Lists.intercalate_append _ ha.words_ne_nil hb.words_ne_nil,
    ← Bash.joined, ← Bash.joined, ha.joined, hb.joined, List.append_assoc, List.singleton_append]

theorem Spaced.line (h : Spaced t) : Line t := by
  rw [← h.joined]
  refine Lists.not_mem_intercalate (by decide) fun w hw hmem => ?_
  exact absurd (mem_words hw hmem).1 (by decide)

end Spaced

end HackerUnion.Bash
