import HackerUnion.Bash.Text

namespace HackerUnion.Bash

def hexDigit (c : Char) : Option Nat :=
  if c.isDigit then some (c.toNat - '0'.toNat)
  else if 'a' ≤ c ∧ c ≤ 'f' then some (c.toNat - 'a'.toNat + 10)
  else if 'A' ≤ c ∧ c ≤ 'F' then some (c.toNat - 'A'.toNat + 10)
  else none

/-- The value of the digits a text begins with, `most` of them at most, and their number. -/
def digits (base : Nat) : Nat → Text → Nat × Nat → Nat × Nat
  | 0, _, acc => acc
  | _, [], acc => acc
  | most + 1, c :: t, (value, count) =>
    match hexDigit c with
    | some d => if d < base then digits base most t (value * base + d, count + 1) else (value, count)
    | none => (value, count)

/-- What stands after a backslash: the end of the output, a character written in so many
characters, or nothing special. -/
inductive Escape where
  | stop
  | char (c : Char) (length : Nat)
  | none

def simpleEscapes : List (Char × Char) :=
  [('a', '\x07'), ('b', '\x08'), ('e', '\x1b'), ('E', '\x1b'), ('f', '\x0c'), ('n', '\n'),
    ('r', '\r'), ('t', '\t'), ('v', '\x0b'), ('\\', '\\')]

def numbered (base most : Nat) (t : Text) (bare : Escape) : Escape :=
  let (value, count) := digits base most t (0, 0)
  if count = 0 then bare else .char (Char.ofNat value) (count + 1)

def escape : Text → Escape
  | [] => .none
  | c :: t =>
    match simpleEscapes.lookup c with
    | some e => .char e 1
    | none =>
      match c with
      | 'c' => .stop
      | '0' => numbered 8 3 t (.char (Char.ofNat 0) 1)
      | 'x' => numbered 16 2 t .none
      | 'u' => numbered 16 4 t .none
      | 'U' => numbered 16 8 t .none
      | _ => .none

/-- The backslash escapes of `echo -e`, the first `skip` characters left out, and whether they end
the output. -/
def unescape : Nat → Text → Text × Bool
  | _, [] => ([], false)
  | skip + 1, _ :: t => unescape skip t
  | 0, c :: t =>
    if c = '\\' then
      match escape t with
      | .stop => ([], true)
      | .char e length => (e :: (unescape length t).1, (unescape length t).2)
      | .none => (c :: (unescape 0 t).1, (unescape 0 t).2)
    else (c :: (unescape 0 t).1, (unescape 0 t).2)

def isOption (arg : Text) : Bool :=
  arg.length > 1 && arg.head? = some '-' && arg.tail.all (fun c => c = 'n' || c = 'e' || c = 'E')

/-- Whether a newline ends the output and whether escapes are interpreted. -/
structure EchoOptions where
  newline : Bool
  escapes : Bool
  deriving DecidableEq

def EchoOptions.set (o : EchoOptions) (c : Char) : EchoOptions :=
  match c with
  | 'n' => { o with newline := false }
  | 'e' => { o with escapes := true }
  | _ => { o with escapes := false }

def echoRest (o : EchoOptions) (args : List Text) : Text :=
  let out := List.intercalate [' '] args
  let (out, stop) := if o.escapes then unescape 0 out else (out, false)
  if o.newline && !stop then out ++ ['\n'] else out

def echoWith (o : EchoOptions) : List Text → Text
  | [] => echoRest o []
  | arg :: args =>
    if isOption arg then echoWith (arg.tail.foldl EchoOptions.set o) args
    else echoRest o (arg :: args)

def echo (args : List Text) : Text := echoWith ⟨true, false⟩ args

variable {t : Text}

/-- Nothing is interpreted where there is no backslash. -/
theorem unescape_plain (h : '\\' ∉ t) : unescape 0 t = (t, false) := by
  induction t with
  | nil => rfl
  | cons c t ih =>
    have hc : c ≠ '\\' := by
      rintro rfl
      exact h List.mem_cons_self
    rw [unescape, if_neg hc, ih fun hmem => h (List.mem_cons_of_mem _ hmem)]

theorem unescape_append (h : '\\' ∉ t) (s : Text) :
    unescape 0 (t ++ s) = (t ++ (unescape 0 s).1, (unescape 0 s).2) := by
  induction t with
  | nil => rfl
  | cons c t ih =>
    have hc : c ≠ '\\' := by
      rintro rfl
      exact h List.mem_cons_self
    rw [List.cons_append, unescape, if_neg hc, ih fun hmem => h (List.mem_cons_of_mem _ hmem)]
    rfl

/-- Lines with a written out `\n` between them become lines. -/
theorem unescape_joined {ls : List Text} (hne : ls ≠ []) (h : ∀ l ∈ ls, '\\' ∉ l) :
    (unescape 0 (List.intercalate (text "\\n") ls)).1 ++ ['\n'] = unlines ls ∧
      (unescape 0 (List.intercalate (text "\\n") ls)).2 = false := by
  induction ls with
  | nil => exact absurd rfl hne
  | cons l ls ih =>
    have hl := h l List.mem_cons_self
    cases ls with
    | nil => simp [List.intercalate, unescape_plain hl]
    | cons l' ls =>
      obtain ⟨hout, hstop⟩ := ih (List.cons_ne_nil _ _)
        fun l hmem => h l (List.mem_cons_of_mem _ hmem)
      have hcons : List.intercalate (text "\\n") (l :: l' :: ls) =
          l ++ '\\' :: 'n' :: List.intercalate (text "\\n") (l' :: ls) := by
        simp [List.intercalate]
        rfl
      have hescape (t : Text) : unescape 0 ('\\' :: 'n' :: t) =
          ('\n' :: (unescape 0 t).1, (unescape 0 t).2) := rfl
      rw [hcons, unescape_append hl, hescape]
      exact ⟨by rw [unlines_cons, ← hout]; simp, hstop⟩

/-- The backslashes that do not begin a newline. -/
def loose : Text → Nat
  | [] => 0
  | c :: t => (if c = '\\' ∧ t.head? ≠ some 'n' then 1 else 0) + loose t

theorem loose_drop (n : Nat) (t : Text) : loose (t.drop n) ≤ loose t := by
  induction n generalizing t with
  | zero => exact le_refl _
  | succ n ih =>
    cases t with
    | nil => exact le_refl _
    | cons c t => exact (ih t).trans (Nat.le_add_left _ _)

theorem loose_append (t s : Text) : loose (t ++ s) ≤ t.count '\\' + loose s := by
  induction t with
  | nil => simp
  | cons c t ih =>
    rw [List.cons_append, loose, List.count_cons]
    by_cases hc : c = '\\'
    · simp only [hc]
      split <;> simp <;> omega
    · simp [hc]
      exact ih

theorem escape_newline (h : t.head? = some 'n') : escape t = .char '\n' 1 := by
  cases t with
  | nil => cases h
  | cons c t =>
    cases h
    rfl

/-- Each backslash of the output comes from one that does not begin a newline. -/
theorem count_unescape (skip : Nat) (t : Text) :
    (unescape skip t).1.count '\\' ≤ loose (t.drop skip) := by
  induction t generalizing skip with
  | nil => cases skip <;> simp [unescape]
  | cons c t ih =>
    cases skip with
    | succ skip => exact ih skip
    | zero =>
      rw [unescape, List.drop_zero, loose]
      split
      · rename_i hc
        split
        · simp
        · rename_i e length hescape
          have ht := (ih length).trans (loose_drop length t)
          by_cases hn : t.head? = some 'n'
          · rw [escape_newline hn] at hescape
            injection hescape with he
            simp [← he, hn]
            exact ht
          · have hone : (e :: (unescape length t).1).count '\\' ≤
                (unescape length t).1.count '\\' + 1 := by
              rw [List.count_cons]
              split <;> omega
            simp only [hc, hn, ne_eq, not_false_eq_true, and_self, if_true]
            omega
        · rename_i hescape
          have hn : t.head? ≠ some 'n' := by
            intro hn
            rw [escape_newline hn] at hescape
            cases hescape
          have ht := ih 0
          simp [hc, hn] at ht ⊢
          omega
      · rename_i hc
        have ht := ih 0
        simp [hc] at ht ⊢
        exact ht

theorem echo_quoted (h : isOption t = false) : echo [t] = t ++ ['\n'] := by
  simp [echo, echoWith, echoRest, h]

theorem echo_e_quoted (h : isOption t = false) (hplain : '\\' ∉ t) :
    echo [text "-e", t] = t ++ ['\n'] := by
  have he : echo [text "-e", t] = echoWith ⟨true, true⟩ [t] := rfl
  rw [he, echoWith, if_neg (by simp [h])]
  simp [echoRest, unescape_plain hplain]

theorem isOption_of_head (h : t.head? ≠ some '-') : isOption t = false := by
  simp [isOption, h]

/-- What is captured of `echo` is the text, unless it is an option. -/
theorem capture_echo (h : Line t) : capture (echo [t]) = if isOption t then [] else t := by
  cases hopt : isOption t with
  | false =>
    rw [echo_quoted hopt, capture_append_newline, capture_line h, if_neg Bool.false_ne_true]
  | true =>
    have hecho : ∃ o, echo [t] = echoRest o [] :=
      ⟨t.tail.foldl EchoOptions.set ⟨true, false⟩, by rw [echo, echoWith, hopt, if_pos rfl]; rfl⟩
    obtain ⟨⟨newline, escapes⟩, ho⟩ := hecho
    rw [ho, if_pos rfl]
    cases newline <;> cases escapes <;> rfl

theorem lines_echo_joined {ls : List Text} (hne : ls ≠ []) (hline : ∀ l ∈ ls, Line l)
    (h : ∀ l ∈ ls, '\\' ∉ l) (hopt : isOption (List.intercalate (text "\\n") ls) = false) :
    lines (echo [text "-e", List.intercalate (text "\\n") ls]) = ls := by
  obtain ⟨hout, hstop⟩ := unescape_joined hne h
  have he (t : Text) : echo [text "-e", t] = echoWith ⟨true, true⟩ [t] := rfl
  have hecho : echo [text "-e", List.intercalate (text "\\n") ls] = unlines ls := by
    rw [he, echoWith, if_neg (by simp [hopt]), ← hout]
    simp [echoRest, hstop]
  rw [hecho, lines_unlines hline]

/-- What is captured of lines of which the first is no option is no option. -/
theorem isOption_capture {ls : List Text} (hline : ∀ l ∈ ls, Line l) (hne : ∀ l ∈ ls, l ≠ [])
    (hdash : ∀ l ∈ ls, l.head? ≠ some '-') : isOption (capture (unlines ls)) = false := by
  apply isOption_of_head
  cases ls with
  | nil => simp [capture]
  | cons l ls =>
    have hlast : ∀ z ∈ (l :: ls).getLast?, z ≠ [] := fun z hz => hne z (List.mem_of_getLast? hz)
    have hkept := capture_unlines hline hlast (List.cons_ne_nil _ _)
    cases hcapture : capture (unlines (l :: ls)) with
    | nil => simp
    | cons c t =>
      have hhead := congrArg List.head? hkept
      rw [hcapture, unlines_cons, List.head?_append_of_ne_nil _ (hne l List.mem_cons_self)]
        at hhead
      rw [show (c :: t).head? = l.head? from hhead]
      exact hdash l List.mem_cons_self

/-- The lines of a command's output come back when the output is kept and printed. -/
theorem lines_echo_capture {ls : List Text} (hline : ∀ l ∈ ls, Line l) (hne : ∀ l ∈ ls, l ≠ [])
    (hdash : ∀ l ∈ ls, l.head? ≠ some '-') :
    lines (echo [capture (unlines ls)]) = if ls = [] then [[]] else ls := by
  split
  · rename_i hnil
    subst hnil
    rfl
  · rename_i hls
    have hlast : ∀ z ∈ ls.getLast?, z ≠ [] := fun z hz => hne z (List.mem_of_getLast? hz)
    rw [echo_quoted (isOption_capture hline hne hdash), capture_unlines hline hlast hls,
      lines_unlines hline]

/-- The same where backslashes would be interpreted and there is none. -/
theorem lines_echo_e_capture {ls : List Text} (hline : ∀ l ∈ ls, Line l) (hne : ∀ l ∈ ls, l ≠ [])
    (hdash : ∀ l ∈ ls, l.head? ≠ some '-') (hb : ∀ l ∈ ls, '\\' ∉ l) :
    lines (echo [text "-e", capture (unlines ls)]) = if ls = [] then [[]] else ls := by
  have hplain : '\\' ∉ capture (unlines ls) := by
    intro hmem
    have hmem : '\\' ∈ unlines ls := (List.rdropWhile_prefix _ _).subset hmem
    simp only [unlines, List.mem_flatMap, List.mem_append, List.mem_singleton] at hmem
    obtain ⟨l, hl, hmem | hmem⟩ := hmem
    · exact hb l hl hmem
    · cases hmem
  have hopt := isOption_capture hline hne hdash
  rw [echo_e_quoted hopt hplain, ← echo_quoted hopt]
  exact lines_echo_capture hline hne hdash

example : echo [text "-ne", text "a\\tb\\x41\\0101\\q", text "\\cd"] = text "a\tbAA\\q " := by
  decide

end HackerUnion.Bash
