import HackerUnion.Minify.Jsmin

namespace HackerUnion.Minify

/-- What a script consists of, but for white space and comments. -/
inductive Lexeme where
  | char (c : Char)
  | literal (quote : Char) (body : Script)
  | regexp (body : Script)
  deriving DecidableEq

/-- What stands before a lexeme: nothing, or white space and comments without or with a line end. -/
inductive Sep where
  | none
  | blank
  | newline
  deriving DecidableEq

def Lexeme.text : Lexeme → Script
  | char c => [c]
  | literal q body => q :: (body ++ [q])
  | regexp body => '/' :: (body ++ ['/'])

def Lexeme.first : Lexeme → Char
  | char c => c
  | literal q _ => q
  | regexp _ => '/'

def Lexeme.last : Lexeme → Char
  | char c => c
  | literal q _ => q
  | regexp _ => '/'

/-- The characters behind which a line end may end a statement. The line end itself is there for the
beginning of the script. -/
def endsLine (p : Char) : Bool :=
  p = '\n' || p ∈ ['\x7d', ']', ')', '+', '-', '"', '\''] || isAlphanum p

def Lexeme.isWord : Lexeme → Bool
  | char c => isAlphanum c
  | _ => false

def Lexeme.startsLine : Lexeme → Bool
  | char c => c ∈ ['\x7b', '[', '(', '+', '-'] || isAlphanum c
  | literal _ _ => false
  | regexp _ => true

/-- What white space counts for behind a character. -/
def context (p : Char) : Sep → Char
  | .none => p
  | .blank => if isAlphanum p then ' ' else p
  | .newline => if endsLine p then '\n' else p

def Sep.blanked : Sep → Sep
  | .none => .blank
  | sep => sep

section Reading

variable {c : Char} {ins rest outs body : Script}

def weight : Script → Nat
  | [] => 0
  | c :: ins => (if c = eof then 1 else 2) + weight ins

@[simp] theorem weight_nil : weight [] = 0 := rfl

@[simp] theorem weight_cons (c : Char) (ins : Script) :
    weight (c :: ins) = (if c = eof then 1 else 2) + weight ins := rfl

theorem weight_pos (c : Char) (ins : Script) : weight ins < weight (c :: ins) := by
  rw [weight_cons]
  split <;> omega

theorem translate_cases (c : Char) : ' ' ≤ translate c ∨ translate c = '\n' := by
  unfold translate
  split
  · assumption
  · split
    · exact Or.inr rfl
    · exact Or.inl (by decide)

theorem translate_of (h : ' ' ≤ c ∨ c = '\n') : translate c = c := by
  rw [translate, if_pos h]

@[simp] theorem translate_translate (c : Char) : translate (translate c) = translate c :=
  translate_of (translate_cases c)

theorem translate_ne_eof (c : Char) : translate c ≠ eof := by
  intro h
  rcases translate_cases c with hc | hc
  · rw [h] at hc
    exact absurd hc (by decide)
  · rw [h] at hc
    exact absurd hc (by decide)

theorem weight_lineComment (ins : Script) : weight (lineComment ins).2 ≤ weight ins := by
  induction ins with
  | nil => exact Nat.le_refl _
  | cons c ins ih =>
    have hpos := weight_pos c ins
    rw [lineComment]
    split
    · omega
    · exact Nat.le_of_lt hpos

theorem weight_blockComment (h : blockComment ins = .ok (c, rest)) : weight rest ≤ weight ins := by
  induction ins with
  | nil => cases h
  | cons d ins ih =>
    cases ins with
    | nil => cases h
    | cons e ins =>
      have hd := weight_pos d (e :: ins)
      have he := weight_pos e ins
      rw [blockComment] at h
      split at h
      · cases h
        omega
      · have := ih h
        omega

theorem next_cons (d : Char) (ins : Script) : next (d :: ins) =
    if translate d = '/' then
      if (get ins).1 = '/' then .ok (lineComment ((get ins).1 :: (get ins).2))
      else if (get ins).1 = '*' then blockComment (get ins).2
      else .ok (translate d, (get ins).1 :: (get ins).2)
    else .ok (translate d, ins) := rfl

theorem lineComment_eof (h : lineComment ins = (eof, rest)) : rest = [] := by
  induction ins with
  | nil =>
    cases h
    rfl
  | cons c ins ih =>
    rw [lineComment] at h
    split at h
    · exact ih h
    · exact absurd (congrArg Prod.fst h) (translate_ne_eof c)

theorem blockComment_space (h : blockComment ins = .ok (c, rest)) : c = ' ' := by
  induction ins with
  | nil => cases h
  | cons d ins ih =>
    cases ins with
    | nil => cases h
    | cons e ins =>
      rw [blockComment] at h
      split at h
      · cases h
        rfl
      · exact ih h

/-- Nothing is left behind the end. -/
theorem next_eof (h : next ins = .ok (eof, rest)) : rest = [] := by
  cases ins with
  | nil =>
    cases h
    rfl
  | cons d ins =>
    rw [next_cons] at h
    have hd (rest' : Script) (h : Except.ok (translate d, rest') =
        (Except.ok (eof, rest) : Except Failure (Char × Script))) : rest = [] := by
      have hpair := Except.ok.inj h
      exact absurd (congrArg Prod.fst hpair) (translate_ne_eof d)
    split at h
    · split at h
      · exact lineComment_eof (Except.ok.inj h)
      · split at h
        · exact absurd (blockComment_space h) (by decide)
        · exact hd _ h
    · exact hd _ h

/-- There is less left after each character. -/
theorem weight_next (h : next ins = .ok (c, rest)) (hc : c ≠ eof) : weight rest < weight ins := by
  cases ins with
  | nil =>
    cases h
    exact absurd rfl hc
  | cons d ins =>
    have hd := weight_pos d ins
    rw [next_cons] at h
    split at h
    · next hslash =>
      have hdne : d ≠ eof := by
        intro hd
        rw [hd] at hslash
        exact absurd hslash (by decide)
      have hpeek : weight ((get ins).1 :: (get ins).2) ≤ weight ins + 1 := by
        cases ins with
        | nil => simp [get]
        | cons e ins =>
          simp only [get, weight_cons, translate_ne_eof e, if_false]
          split <;> omega
      have hget := weight_pos (get ins).1 (get ins).2
      rw [weight_cons, if_neg hdne]
      split at h
      · have hline : weight (lineComment ((get ins).1 :: (get ins).2)).2 ≤ _ :=
          weight_lineComment _
        rw [Except.ok.inj h] at hline
        exact Nat.lt_of_le_of_lt hline (by omega)
      · split at h
        · have hblock := weight_blockComment h
          omega
        · cases h
          omega
    · cases h
      exact hd

theorem copyString_cons (q c : Char) (ins outs : Script) : copyString q (c :: ins) outs =
    if translate c = q then .ok (ins, outs)
    else if translate c ≤ '\n' then .error .unterminatedStringLiteral
    else if translate c = '\\' then
      match ins with
      | [] => .error .unterminatedStringLiteral
      | d :: ins => copyString q ins (outs ++ [translate c, translate d])
    else copyString q ins (outs ++ [translate c]) :=
  copyString.eq_def q (c :: ins) outs

theorem copyRegexp_cons (c : Char) (ins outs : Script) : copyRegexp (c :: ins) outs =
    if translate c = '/' then .ok (ins, outs)
    else if translate c = '\\' then
      match ins with
      | [] => .error .unterminatedRegularExpression
      | d :: ins => copyRegexp ins (outs ++ [translate c, translate d])
    else if translate c ≤ '\n' then .error .unterminatedRegularExpression
    else copyRegexp ins (outs ++ [translate c]) :=
  copyRegexp.eq_def (c :: ins) outs

theorem copyString_escape {q : Char} (hquote : translate c ≠ q) (hslash : translate c = '\\')
    (d : Char) (ins outs : Script) :
    copyString q (c :: d :: ins) outs = copyString q ins (outs ++ [translate c, translate d]) := by
  have hend : ¬translate c ≤ '\n' := by rw [hslash]; decide
  rw [copyString_cons, if_neg hquote, if_neg hend, if_pos hslash]

theorem copyRegexp_escape (hslash : translate c = '\\') (d : Char) (ins outs : Script) :
    copyRegexp (c :: d :: ins) outs = copyRegexp ins (outs ++ [translate c, translate d]) := by
  have hend : translate c ≠ '/' := by rw [hslash]; decide
  rw [copyRegexp_cons, if_neg hend, if_pos hslash]

theorem weight_copyString {q : Char} (h : copyString q ins outs = .ok (rest, body)) :
    weight rest ≤ weight ins := by
  induction ins, outs using copyString.induct q with
  | case1 outs => cases h
  | case2 c ins outs hquote =>
    rw [copyString_cons, if_pos hquote] at h
    cases h
    exact Nat.le_of_lt (weight_pos c _)
  | case3 c ins outs hquote hend =>
    rw [copyString_cons, if_neg hquote, if_pos hend] at h
    cases h
  | case4 c outs hquote hend hslash =>
    rw [copyString_cons, if_neg hquote, if_neg hend, if_pos hslash] at h
    cases h
  | case5 c outs hquote hend hslash d ins ih =>
    rw [copyString_escape hquote hslash] at h
    have hc := weight_pos c (d :: ins)
    have hd := weight_pos d ins
    have := ih h
    omega
  | case6 c ins outs hquote hend hslash ih =>
    rw [copyString_cons, if_neg hquote, if_neg hend, if_neg hslash] at h
    have hc := weight_pos c ins
    have := ih h
    omega

theorem weight_copyRegexp (h : copyRegexp ins outs = .ok (rest, body)) :
    weight rest ≤ weight ins := by
  induction ins, outs using copyRegexp.induct with
  | case1 outs => cases h
  | case2 c ins outs hend =>
    rw [copyRegexp_cons, if_pos hend] at h
    cases h
    exact Nat.le_of_lt (weight_pos c _)
  | case3 c outs hend hslash =>
    rw [copyRegexp_cons, if_neg hend, if_pos hslash] at h
    cases h
  | case4 c outs hend hslash d ins ih =>
    rw [copyRegexp_escape hslash] at h
    have hc := weight_pos c (d :: ins)
    have hd := weight_pos d ins
    have := ih h
    omega
  | case5 c ins outs hend hslash hline =>
    rw [copyRegexp_cons, if_neg hend, if_neg hslash, if_pos hline] at h
    cases h
  | case6 c ins outs hend hslash hline ih =>
    rw [copyRegexp_cons, if_neg hend, if_neg hslash, if_neg hline] at h
    have hc := weight_pos c ins
    have := ih h
    omega

end Reading

/-- The lexemes of a script behind a character, and what stands before each of them. -/
def lexemes (p : Char) (sep : Sep) (ins : Script) : Except Failure (List (Sep × Lexeme)) :=
  match _read : next ins with
  | .error e => .error e
  | .ok (c, rest) =>
    if _hc : c = eof then .ok []
    else if c = ' ' then lexemes p sep.blanked rest
    else if c = '\n' then lexemes p .newline rest
    else if c = '\'' ∨ c = '"' then
      match _copied : copyString c rest [] with
      | .error e => .error e
      | .ok (rest', body) => (lexemes c .none rest').map ((sep, .literal c body) :: ·)
    else if c = '/' ∧ precedesRegexp (context p sep) then
      match _copied : copyRegexp rest [] with
      | .error e => .error e
      | .ok (rest', body) => (lexemes '/' .none rest').map ((sep, .regexp body) :: ·)
    else (lexemes c .none rest).map ((sep, .char c) :: ·)
  termination_by weight ins
  decreasing_by
    · exact weight_next _read _hc
    · exact weight_next _read _hc
    · exact Nat.lt_of_le_of_lt (weight_copyString _copied) (weight_next _read _hc)
    · exact Nat.lt_of_le_of_lt (weight_copyRegexp _copied) (weight_next _read _hc)
    · exact weight_next _read _hc

theorem lexemes_eq (p : Char) (sep : Sep) (ins : Script) : lexemes p sep ins =
    next ins >>= fun r =>
      if r.1 = eof then .ok []
      else if r.1 = ' ' then lexemes p sep.blanked r.2
      else if r.1 = '\n' then lexemes p .newline r.2
      else if r.1 = '\'' ∨ r.1 = '"' then
        copyString r.1 r.2 [] >>= fun r' =>
          (lexemes r.1 .none r'.1).map ((sep, .literal r.1 r'.2) :: ·)
      else if r.1 = '/' ∧ precedesRegexp (context p sep) then
        copyRegexp r.2 [] >>= fun r' => (lexemes '/' .none r'.1).map ((sep, .regexp r'.2) :: ·)
      else (lexemes r.1 .none r.2).map ((sep, .char r.1) :: ·) := by
  rw [lexemes]
  cases hnext : next ins with
  | error e => rfl
  | ok r =>
    obtain ⟨c, rest⟩ := r
    simp only [bind, Except.bind, dite_eq_ite]
    congr 4
    · cases copyString c rest [] <;> rfl
    · congr 1
      cases copyRegexp rest [] <;> rfl

section Step

variable {p c q : Char} {sep : Sep} {ins rest : Script}

theorem lexemes_end (h : next ins = .ok (eof, rest)) : lexemes p sep ins = .ok [] := by
  rw [lexemes_eq, h]
  rfl

theorem lexemes_blank (h : next ins = .ok (' ', rest)) :
    lexemes p sep ins = lexemes p sep.blanked rest := by
  rw [lexemes_eq p sep ins, h]
  rfl

theorem lexemes_newline (h : next ins = .ok ('\n', rest)) :
    lexemes p sep ins = lexemes p .newline rest := by
  rw [lexemes_eq p sep ins, h]
  rfl

theorem lexemes_literal (hq : q = '\'' ∨ q = '"') (h : next ins = .ok (q, rest)) :
    lexemes p sep ins = copyString q rest [] >>= fun r =>
      (lexemes q .none r.1).map ((sep, .literal q r.2) :: ·) := by
  rw [lexemes_eq p sep ins, h]
  rcases hq with rfl | rfl <;> rfl

theorem lexemes_regexp (hregexp : precedesRegexp (context p sep)) (h : next ins = .ok ('/', rest)) :
    lexemes p sep ins = copyRegexp rest [] >>= fun r =>
      (lexemes '/' .none r.1).map ((sep, .regexp r.2) :: ·) := by
  rw [lexemes_eq p sep ins, h]
  exact if_pos ⟨rfl, hregexp⟩

theorem lexemes_char (hc : c ≠ eof ∧ c ≠ ' ' ∧ c ≠ '\n') (hquote : c ≠ '\'' ∧ c ≠ '"')
    (hregexp : c = '/' → ¬precedesRegexp (context p sep)) (h : next ins = .ok (c, rest)) :
    lexemes p sep ins = (lexemes c .none rest).map ((sep, .char c) :: ·) := by
  rw [lexemes_eq p sep ins, h]
  simp only [bind, Except.bind, if_neg hc.1, if_neg hc.2.1, if_neg hc.2.2,
    if_neg (not_or.mpr hquote), if_neg (not_and.mpr hregexp)]

end Step

/-- What is written between a character and a lexeme. -/
def glue (p : Char) (sep : Sep) (x : Lexeme) : Script :=
  if context p sep = ' ' then if x.isWord then [' '] else []
  else if context p sep = '\n' then if x.startsLine then ['\n'] else []
  else []

/-- The lexemes written out behind a character. -/
def render (p : Char) : List (Sep × Lexeme) → Script
  | [] => []
  | (sep, x) :: xs => glue p sep x ++ x.text ++ render x.last xs

end HackerUnion.Minify
