import Mathlib.Data.List.Chain
import HackerUnion.Minify.Refine

namespace HackerUnion.Minify

/-- The white space of which something is left. -/
def kept (p : Char) (sep : Sep) (x : Lexeme) : Sep :=
  if context p sep = ' ' then if x.isWord then .blank else .none
  else if context p sep = '\n' then if x.startsLine then .newline else .none
  else .none

def settled (p : Char) : List (Sep × Lexeme) → List (Sep × Lexeme)
  | [] => []
  | (sep, x) :: xs => (kept p sep x, x) :: settled x.last xs

/-- A lexeme that is read back from its text. -/
def Lexeme.Proper : Lexeme → Prop
  | char c => translate c = c ∧ (c ≠ ' ' ∧ c ≠ '\n') ∧ c ≠ '\'' ∧ c ≠ '"'
  | literal q body => (q = '\'' ∨ q = '"') ∧
      ∀ rest, copyString q (body ++ q :: rest) [] = .ok (rest, body)
  | regexp body => (∃ c body', body = c :: body' ∧ translate c = c ∧ c ≠ '/' ∧ c ≠ '*') ∧
      ∀ rest, copyRegexp (body ++ '/' :: rest) [] = .ok (rest, body)

/-- Lexemes behind a character, of which each can stand where it does. -/
def Readable (p : Char) : List (Sep × Lexeme) → Prop
  | [] => True
  | (sep, x) :: xs => x.Proper ∧ (x.first = '/' →
      (precedesRegexp (context p sep) ↔ x ≠ .char '/')) ∧ Readable x.last xs

/-- No comment begins where a slash comes next to what is behind it. -/
def Apart : List (Sep × Lexeme) → Prop :=
  List.IsChain fun x y => x.2 = .char '/' → y.2 ≠ .char '/' ∧ y.2 ≠ .char '*'

section Copied

variable {c q : Char} {ins rest body outs outs' : Script}

/-- What was copied of a string is copied again. -/
theorem copyString_copied (hq : translate q = q) (h : copyString q ins outs = .ok (rest, outs')) :
    ∃ body, outs' = outs ++ body ∧
      ∀ rest outs, copyString q (body ++ q :: rest) outs = .ok (rest, outs ++ body) := by
  induction ins, outs using copyString.induct q with
  | case1 outs => cases h
  | case2 c ins outs hquote =>
    rw [copyString_cons, if_pos hquote] at h
    cases h
    refine ⟨[], (List.append_nil _).symm, fun rest outs => ?_⟩
    rw [List.nil_append, copyString_cons, if_pos hq, List.append_nil]
  | case3 c ins outs hquote hend =>
    rw [copyString_cons, if_neg hquote, if_pos hend] at h
    cases h
  | case4 c outs hquote hend hslash =>
    rw [copyString_cons, if_neg hquote, if_neg hend, if_pos hslash] at h
    cases h
  | case5 c outs hquote hend hslash d ins ih =>
    rw [copyString_escape hquote hslash] at h
    obtain ⟨body, rfl, hcopy⟩ := ih h
    refine ⟨translate c :: translate d :: body, by simp, fun rest outs => ?_⟩
    rw [List.cons_append, List.cons_append, copyString_escape (by simpa using hquote)
      (by simpa using hslash), hcopy, translate_translate, translate_translate, List.append_assoc]
    rfl
  | case6 c ins outs hquote hend hslash ih =>
    rw [copyString_cons, if_neg hquote, if_neg hend, if_neg hslash] at h
    obtain ⟨body, rfl, hcopy⟩ := ih h
    refine ⟨translate c :: body, by simp, fun rest outs => ?_⟩
    rw [List.cons_append, copyString_cons, translate_translate, if_neg hquote, if_neg hend,
      if_neg hslash, hcopy, List.append_assoc]
    rfl

/-- The same of a regular expression. It begins with what was in front of it. -/
theorem copyRegexp_copied (h : copyRegexp ins outs = .ok (rest, outs')) :
    ∃ body, outs' = outs ++ body ∧
      (∀ c, (get ins).1 = c → c ≠ '/' → ∃ body', body = c :: body') ∧
      ∀ rest outs, copyRegexp (body ++ '/' :: rest) outs = .ok (rest, outs ++ body) := by
  induction ins, outs using copyRegexp.induct with
  | case1 outs => cases h
  | case2 c ins outs hend =>
    rw [copyRegexp_cons, if_pos hend] at h
    cases h
    refine ⟨[], (List.append_nil _).symm, fun d hd hne => absurd (hd ▸ hend) hne,
      fun rest outs => ?_⟩
    rw [List.nil_append, copyRegexp_cons, if_pos (by decide), List.append_nil]
  | case3 c outs hend hslash =>
    rw [copyRegexp_cons, if_neg hend, if_pos hslash] at h
    cases h
  | case4 c outs hend hslash d ins ih =>
    rw [copyRegexp_escape hslash] at h
    obtain ⟨body, rfl, _, hcopy⟩ := ih h
    refine ⟨translate c :: translate d :: body, by simp,
      fun e he _ => ⟨translate d :: body, he ▸ rfl⟩, fun rest outs => ?_⟩
    rw [List.cons_append, List.cons_append, copyRegexp_escape (by simpa using hslash), hcopy,
      translate_translate, translate_translate, List.append_assoc]
    rfl
  | case5 c ins outs hend hslash hline =>
    rw [copyRegexp_cons, if_neg hend, if_neg hslash, if_pos hline] at h
    cases h
  | case6 c ins outs hend hslash hline ih =>
    rw [copyRegexp_cons, if_neg hend, if_neg hslash, if_neg hline] at h
    obtain ⟨body, rfl, _, hcopy⟩ := ih h
    refine ⟨translate c :: body, by simp,
      fun e he _ => ⟨body, he ▸ rfl⟩, fun rest outs => ?_⟩
    rw [List.cons_append, copyRegexp_cons, translate_translate, if_neg hend, if_neg hslash,
      if_neg hline, hcopy, List.append_assoc]
    rfl

theorem lineComment_end (ins : Script) :
    (lineComment ins).1 = eof ∨ (lineComment ins).1 = '\n' := by
  induction ins with
  | nil => exact Or.inl rfl
  | cons c ins ih =>
    rw [lineComment]
    split
    · exact ih
    · next hline =>
      refine Or.inr ?_
      rcases translate_cases c with hc | hc
      · exact absurd (Char.le_trans hc (Char.not_lt.mp hline)) (by decide)
      · exact hc

/-- What was read is translated already, and behind a slash comes nothing that begins a comment. -/
theorem next_translated (h : next ins = .ok (c, rest)) (hc : c ≠ eof) : translate c = c ∧
    (c = '/' → ∃ d rest', rest = d :: rest' ∧ translate d ≠ '/' ∧ translate d ≠ '*') := by
  cases ins with
  | nil =>
    cases h
    exact absurd rfl hc
  | cons d ins =>
    rw [next_cons] at h
    split at h
    · split at h
      · have hend := lineComment_end ((get ins).1 :: (get ins).2)
        rw [Except.ok.inj h] at hend
        obtain rfl := hend.resolve_left hc
        exact ⟨by decide, fun h => absurd h (by decide)⟩
      · split at h
        · obtain rfl := blockComment_space h
          exact ⟨by decide, fun h => absurd h (by decide)⟩
        · next hslash hstar =>
          cases h
          refine ⟨translate_translate d, fun _ => ⟨_, _, rfl, ?_⟩⟩
          cases ins with
          | nil => decide
          | cons e ins => simpa [get] using ⟨hslash, hstar⟩
    · next hslash =>
      cases h
      exact ⟨translate_translate d, fun h => absurd h hslash⟩

end Copied

section Read

variable {p c : Char} {sep : Sep} {x : Lexeme} {ins rest : Script} {xs : List (Sep × Lexeme)}

theorem map_cons_ok {r : Except Failure (List (Sep × Lexeme))}
    (h : r.map ((sep, x) :: ·) = .ok xs) : ∃ xs', r = .ok xs' ∧ xs = (sep, x) :: xs' := by
  cases r with
  | error e => cases h
  | ok xs' =>
    cases h
    exact ⟨xs', rfl, rfl⟩

/-- What is read of a script can stand where it does. -/
theorem lexemes_readable (h : lexemes p sep ins = .ok xs) : Readable p xs := by
  induction p, sep, ins using lexemes.induct generalizing xs with
  | case1 p sep ins e hnext =>
    rw [lexemes_eq, hnext] at h
    cases h
  | case2 p sep ins rest hnext =>
    rw [lexemes_end hnext] at h
    cases h
    exact trivial
  | case3 p sep ins rest hnext hc ih => exact ih (lexemes_blank hnext ▸ h)
  | case4 p sep ins rest hnext hc hc' ih => exact ih (lexemes_newline hnext ▸ h)
  | case5 p sep ins c rest hnext hc hblank hline hquote e hcopy =>
    rw [lexemes_literal hquote hnext, hcopy] at h
    cases h
  | case6 p sep ins q rest hnext hc hblank hline hquote rest' body hcopy ih =>
    rw [lexemes_literal hquote hnext, hcopy] at h
    obtain ⟨xs, hxs, rfl⟩ := map_cons_ok h
    obtain ⟨body, rfl, hcopied⟩ := copyString_copied (next_translated hnext hc).1 hcopy
    have hne : q ≠ '/' := by rcases hquote with rfl | rfl <;> decide
    exact ⟨⟨hquote, fun rest => hcopied rest []⟩, fun h => absurd h hne, ih hxs⟩
  | case7 p sep ins c rest hnext hc hblank hline hquote hregexp e hcopy =>
    obtain ⟨rfl, hregexp⟩ := hregexp
    rw [lexemes_regexp hregexp hnext, hcopy] at h
    cases h
  | case8 p sep ins c rest hnext hc hblank hline hquote hregexp rest' body hcopy ih =>
    obtain ⟨rfl, hregexp⟩ := hregexp
    rw [lexemes_regexp hregexp hnext, hcopy] at h
    obtain ⟨xs, hxs, rfl⟩ := map_cons_ok h
    obtain ⟨d, rest, rfl, hslash, hstar⟩ := (next_translated hnext hc).2 rfl
    obtain ⟨body, rfl, hfirst, hcopied⟩ := copyRegexp_copied hcopy
    obtain ⟨body', rfl⟩ := hfirst (translate d) rfl hslash
    exact ⟨⟨⟨_, body', rfl, translate_translate d, hslash, hstar⟩, fun rest => hcopied rest []⟩,
      fun _ => iff_of_true hregexp (by simp), ih hxs⟩
  | case9 p sep ins c rest hnext hc hblank hline hquote hregexp ih =>
    rw [lexemes_char ⟨hc, hblank, hline⟩ (not_or.mp hquote) (not_and.mp hregexp) hnext] at h
    obtain ⟨xs, hxs, rfl⟩ := map_cons_ok h
    exact ⟨⟨(next_translated hnext hc).1, ⟨hblank, hline⟩, not_or.mp hquote⟩,
      fun hslash => iff_of_false (not_and.mp hregexp hslash)
        (not_not.mpr (congrArg Lexeme.char hslash)), ih hxs⟩

end Read

section Write

variable {p c : Char} {sep : Sep} {x : Lexeme} {ins rest : Script} {xs : List (Sep × Lexeme)}

theorem next_char (hc : translate c = c) (hslash : c ≠ '/') (ins : Script) :
    next (c :: ins) = .ok (c, ins) := by
  rw [next_cons, hc, if_neg hslash]

/-- A slash before the end, or before what begins no comment. -/
theorem next_slash (d : Char) (ins : Script) (hd : translate d = d) (hne : d ≠ '/' ∧ d ≠ '*') :
    next ('/' :: d :: ins) = .ok ('/', d :: ins) := by
  have hslash : translate '/' = '/' := by decide
  simp [next_cons, get, hslash, hd, hne]

theorem next_last : next ['/'] = .ok ('/', [eof]) := rfl

theorem lexemes_eof (p : Char) (sep : Sep) : lexemes p sep [eof] = .ok [] := by
  have hnext : next [eof] = .ok (' ', []) := rfl
  rw [lexemes_blank hnext, lexemes_end rfl]

/-- White space that was kept is read as such again. -/
theorem lexemes_glue (p : Char) (sep : Sep) (x : Lexeme) (ins : Script) :
    lexemes p .none (glue p sep x ++ ins) = lexemes p (kept p sep x) ins := by
  unfold glue kept
  split
  · split
    · exact lexemes_blank (next_char (by decide) (by decide) ins)
    · rfl
  · split
    · split
      · exact lexemes_newline (next_char (by decide) (by decide) ins)
      · rfl
    · rfl

theorem context_cases (p : Char) (sep : Sep) : context p sep = p ∨
    (context p sep = ' ' ∧ isAlphanum p) ∨ (context p sep = '\n' ∧ endsLine p) := by
  cases sep with
  | none => exact Or.inl rfl
  | blank =>
    by_cases hword : isAlphanum p = true
    · exact Or.inr (Or.inl ⟨if_pos hword, hword⟩)
    · exact Or.inl (if_neg hword)
  | newline =>
    by_cases hends : endsLine p = true
    · exact Or.inr (Or.inr ⟨if_pos hends, hends⟩)
    · exact Or.inl (if_neg hends)

theorem precedesRegexp_word (h : isAlphanum p) : precedesRegexp p = false := by
  have hall : ∀ c ∈ ['(', ',', '=', ':', '[', '?', '!', '&', '|', ';', '\x7b', '\x7d', '\n'],
      isAlphanum c = false := by decide
  by_contra hregexp
  simp only [precedesRegexp, Bool.not_eq_false, decide_eq_true_eq] at hregexp
  rw [hall p hregexp] at h
  cases h

theorem Lexeme.Proper.slash (h : x.Proper) (hx : x.first = '/') :
    x = .char '/' ∨ ∃ body, x = .regexp body := by
  cases x with
  | char c => exact Or.inl (congrArg Lexeme.char hx)
  | literal q body =>
    have hq : q = '/' := hx
    rcases h.1 with hquote | hquote <;> exact absurd (hq.symm.trans hquote) (by decide)
  | regexp body => exact Or.inr ⟨body, rfl⟩

/-- The white space that is left before a slash counts for as much. -/
theorem precedesRegexp_kept (hp : p ≠ ' ') (hx : x = .char '/' ∨ ∃ body, x = .regexp body)
    (hregexp : precedesRegexp (context p sep) ↔ x ≠ .char '/') :
    precedesRegexp (context p (kept p sep x)) = precedesRegexp (context p sep) := by
  unfold kept
  rcases context_cases p sep with hstay | ⟨hblank, hword⟩ | ⟨hline, hends⟩
  · by_cases hline : p = '\n'
    · subst hline
      rw [context_newline, context_newline]
    · rw [hstay, if_neg hp, if_neg hline]
      rfl
  · have hslash : x.isWord = false := by
      rcases hx with rfl | ⟨body, rfl⟩ <;> rfl
    rw [if_pos hblank, hslash, if_neg Bool.false_ne_true, hblank, context,
      precedesRegexp_word hword]
    rfl
  · rw [hline] at hregexp ⊢
    obtain ⟨body, rfl⟩ := hx.resolve_left (hregexp.mp rfl)
    rw [if_neg (by decide), if_pos rfl, Lexeme.startsLine, if_pos rfl, context, if_pos hends]

/-- A lexeme is read back from its text, if no comment begins with it. -/
theorem lexemes_text (h : x.Proper)
    (hregexp : x.first = '/' → (precedesRegexp (context p sep) ↔ x ≠ .char '/'))
    (hcomment : x = .char '/' → ∀ d ∈ ins.head?, translate d = d ∧ d ≠ '/' ∧ d ≠ '*') :
    lexemes p sep (x.text ++ ins) = (lexemes x.last .none ins).map ((sep, x) :: ·) := by
  cases x with
  | char c =>
    obtain ⟨hc, hvisible, hquote⟩ := h
    have hne : c ≠ eof := by
      intro h
      rw [h] at hc
      exact absurd hc (by decide)
    have hplain (h : c = '/') : ¬precedesRegexp (context p sep) := fun hpre =>
      (hregexp h).mp hpre (congrArg Lexeme.char h)
    rw [Lexeme.text, Lexeme.last, List.singleton_append]
    by_cases hslash : c = '/'
    · subst hslash
      cases ins with
      | nil =>
        rw [lexemes_char ⟨hne, hvisible⟩ hquote hplain next_last, lexemes_eof, lexemes_end rfl]
      | cons d ins =>
        obtain ⟨hd, hne'⟩ := hcomment rfl d rfl
        exact lexemes_char ⟨hne, hvisible⟩ hquote hplain (next_slash d ins hd hne')
    · exact lexemes_char ⟨hne, hvisible⟩ hquote hplain (next_char hc hslash ins)
  | literal q body =>
    obtain ⟨hquote, hcopy⟩ := h
    have hq : translate q = q ∧ q ≠ '/' := by rcases hquote with rfl | rfl <;> decide
    rw [Lexeme.text, List.cons_append, List.append_assoc, List.singleton_append,
      lexemes_literal hquote (next_char hq.1 hq.2 _), hcopy]
    rfl
  | regexp body =>
    obtain ⟨⟨c, body, rfl, hc, hne⟩, hcopy⟩ := h
    have hpre := (hregexp rfl).mpr (by simp)
    have hnext : next ('/' :: (c :: body ++ '/' :: ins)) = .ok ('/', c :: body ++ '/' :: ins) :=
      next_slash c (body ++ '/' :: ins) hc hne
    rw [Lexeme.text, List.cons_append, List.append_assoc, List.singleton_append,
      lexemes_regexp hpre hnext, hcopy]
    rfl

theorem Lexeme.Proper.head (h : x.Proper) (ins : Script) :
    (x.text ++ ins).head? = some x.first ∧ translate x.first = x.first := by
  cases x with
  | char c => exact ⟨rfl, h.1⟩
  | literal q body =>
    refine ⟨rfl, ?_⟩
    show translate q = q
    rcases h.1 with rfl | rfl <;> rfl
  | regexp body => exact ⟨rfl, rfl⟩

theorem Lexeme.Proper.last_ne (h : x.Proper) : x.last ≠ ' ' := by
  cases x with
  | char c => exact h.2.1.1
  | literal q body =>
    show q ≠ ' '
    rcases h.1 with rfl | rfl <;> decide
  | regexp body => exact show '/' ≠ ' ' by decide

/-- What comes behind a slash begins no comment with it. -/
theorem Apart.behind (hapart : Apart ((sep, .char '/') :: xs)) (h : Readable '/' xs) :
    ∀ d ∈ (render '/' xs).head?, translate d = d ∧ d ≠ '/' ∧ d ≠ '*' := by
  intro d hd
  cases xs with
  | nil => cases hd
  | cons entry xs =>
    obtain ⟨sep', y⟩ := entry
    obtain ⟨hproper, hregexp, _⟩ := h
    have hglue : glue '/' sep' y = [] := by cases sep' <;> rfl
    have hhead := hproper.head (render y.last xs)
    rw [render, hglue, List.nil_append, hhead.1] at hd
    obtain rfl : y.first = d := Option.some.inj hd
    have hne := (List.isChain_cons_cons.mp hapart).1 rfl
    refine ⟨hhead.2, fun hslash => ?_, fun hstar => ?_⟩
    · have hpre := (hregexp hslash).mpr hne.1
      cases sep' <;> exact absurd hpre (by decide)
    · cases y with
      | char c => exact hne.2 (congrArg Lexeme.char hstar)
      | literal q body =>
        have hq : q = '*' := hstar
        rcases hproper.1 with hquote | hquote <;> exact absurd (hq.symm.trans hquote) (by decide)
      | regexp body => exact absurd hstar (show '/' ≠ '*' by decide)

/-- What is written out is read back, and of the white space what was kept. -/
theorem lexemes_render (hp : p ≠ ' ') (h : Readable p xs) (hapart : Apart xs) :
    lexemes p .none (render p xs) = .ok (settled p xs) := by
  induction xs generalizing p with
  | nil => exact lexemes_end rfl
  | cons entry xs ih =>
    obtain ⟨sep, x⟩ := entry
    obtain ⟨hproper, hregexp, hrest⟩ := h
    rw [render, List.append_assoc, lexemes_glue, lexemes_text hproper,
      ih hproper.last_ne hrest hapart.tail]
    · rfl
    · intro hx
      rw [precedesRegexp_kept hp (hproper.slash hx) (hregexp hx)]
      exact hregexp hx
    · intro hx
      subst hx
      exact hapart.behind hrest

theorem glue_kept (hp : p ≠ ' ') (sep : Sep) (x : Lexeme) :
    glue p (kept p sep x) x = glue p sep x := by
  by_cases hline : p = '\n'
  · subst hline
    unfold glue
    rw [context_newline, context_newline]
  · have hnone : glue p .none x = [] := by
      rw [glue, context, if_neg hp, if_neg hline]
    rcases context_cases p sep with hstay | ⟨hblank, hword⟩ | ⟨hend, hends⟩
    · rw [kept, hstay, if_neg hp, if_neg hline, hnone, glue, hstay, if_neg hp, if_neg hline]
    · have hcontext : context p .blank = ' ' := if_pos hword
      by_cases hx : x.isWord = true
      · simp [kept, hblank, hx, glue, hcontext]
      · rw [kept, if_pos hblank, if_neg hx, hnone, glue, if_pos hblank, if_neg hx]
    · have hcontext : context p .newline = '\n' := if_pos hends
      by_cases hx : x.startsLine = true
      · simp [kept, hend, hx, glue, hcontext]
      · have hkept : kept p sep x = .none := by simp [kept, hend, hx]
        rw [hkept, hnone]
        simp [glue, hend, hx]

theorem render_settled (hp : p ≠ ' ') (h : Readable p xs) :
    render p (settled p xs) = render p xs := by
  induction xs generalizing p with
  | nil => rfl
  | cons entry xs ih =>
    obtain ⟨sep, x⟩ := entry
    obtain ⟨hproper, _, hrest⟩ := h
    rw [settled, render, glue_kept hp, ih hproper.last_ne hrest]
    rfl

/-- Nothing is left of the white space at the beginning. -/
theorem stripped_render (h : x.Proper) (sep : Sep) (xs : List (Sep × Lexeme)) :
    stripped (render '\n' ((sep, x) :: xs)) = x.text ++ render x.last xs := by
  have hhead := (h.head (render x.last xs)).1
  have hfirst : x.first ≠ '\n' := by
    cases x with
    | char c => exact h.2.1.2
    | literal q body =>
      show q ≠ '\n'
      rcases h.1 with rfl | rfl <;> decide
    | regexp body => exact show '/' ≠ '\n' by decide
  rw [render, glue, context_newline, if_neg (by decide), if_pos rfl, List.append_assoc]
  split
  · rfl
  · rw [List.nil_append, stripped, hhead, if_neg (by simpa using hfirst)]

end Write

/-- What is minified has the lexemes of the script, with what is kept of the white space before
them, and is not changed when it is minified again. But no slash may come next to a slash or a
star: a comment would begin there. -/
theorem jsmin_again {js : Script} {xs : List (Sep × Lexeme)} (h : lexemes '\n' .none js = .ok xs)
    (hapart : Apart xs) : ∃ out, jsmin js = .ok out ∧
      lexemes '\n' .none out = .ok ((settled '\n' xs).modifyHead fun entry => (.none, entry.2)) ∧
      jsmin out = .ok out := by
  have hreadable := lexemes_readable h
  cases xs with
  | nil =>
    have hempty : lexemes '\n' .none [] = .ok [] := lexemes_end rfl
    refine ⟨[], ?_, hempty, ?_⟩
    · rw [jsmin_eq, h]
      rfl
    · rw [jsmin_eq, hempty]
      rfl
  | cons entry xs =>
    obtain ⟨sep, x⟩ := entry
    obtain ⟨hproper, hregexp, hrest⟩ := hreadable
    have hagain : lexemes '\n' .none (x.text ++ render x.last xs) =
        .ok ((.none, x) :: settled x.last xs) := by
      have hregexp' : x.first = '/' →
          (precedesRegexp (context '\n' .none) ↔ x ≠ .char '/') := by
        rwa [context_newline] at hregexp ⊢
      rw [lexemes_text hproper hregexp', lexemes_render hproper.last_ne hrest hapart.tail]
      · rfl
      · intro hx
        subst hx
        exact hapart.behind hrest
    refine ⟨x.text ++ render x.last xs, ?_, hagain, ?_⟩
    · rw [jsmin_eq, h]
      exact congrArg Except.ok (stripped_render hproper sep xs)
    · rw [jsmin_eq, hagain]
      have hout := stripped_render hproper .none (settled x.last xs)
      rw [render_settled hproper.last_ne hrest] at hout
      exact congrArg Except.ok hout

/-- A line end that may end a statement, and a regular expression behind a bracket. -/
theorem jsmin_again_line : ∃ out,
    jsmin ['b', ' ', '\n', ' ', '+', '(', ' ', '/', ' ', '/'] = .ok out ∧
    lexemes '\n' .none out = .ok ((settled '\n' [(.none, .char 'b'), (.newline, .char '+'),
      (.none, .char '('), (.blank, .regexp [' '])]).modifyHead fun entry => (.none, entry.2)) ∧
    jsmin out = .ok out := by
  refine jsmin_again ?_ ?_
  · rw [lexemes_char (by decide) (by decide) (by decide) rfl, lexemes_blank rfl,
      lexemes_newline rfl, lexemes_blank rfl,
      lexemes_char (by decide) (by decide) (by decide) rfl,
      lexemes_char (by decide) (by decide) (by decide) rfl, lexemes_blank rfl,
      lexemes_regexp (by decide) rfl]
    have hcopy : copyRegexp ((get [' ', '/']).1 :: (get [' ', '/']).2) [] = .ok ([], [' ']) := rfl
    have hend : lexemes '/' .none [] = .ok [] := lexemes_end rfl
    rw [hcopy]
    simp only [bind, Except.bind, hend]
    rfl
  · simp [Apart]

/-- A division by a regular expression is a comment afterwards. -/
example : jsmin ['a', ' ', '/', ' ', '/', 'b', '/'] = .ok ['a', '/', '/', 'b', '/'] := by
  have hend : lexemes (translate '/') .none [eof] = .ok [] := lexemes_eof _ _
  rw [jsmin_eq, lexemes_char (by decide) (by decide) (by decide) rfl, lexemes_blank rfl,
    lexemes_char (by decide) (by decide) (by decide) rfl, lexemes_blank rfl,
    lexemes_char (by decide) (by decide) (by decide) rfl,
    lexemes_char (by decide) (by decide) (by decide) rfl,
    lexemes_char (by decide) (by decide) (by decide) rfl]
  simp only [get, hend]
  rfl

end HackerUnion.Minify
