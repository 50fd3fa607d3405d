import HackerUnion.Bash.Echo
import Mathlib.Data.Nat.Digits.Defs

namespace HackerUnion.Sbin

open Bash

def decimal (n : Nat) : Text := Nat.toDigits 10 n

/-- The entry that is asked for: the one of a number, or any. -/
inductive Entry where
  | at (i : Nat)
  | any

/-- The parts of `QUERY`, between which anything may stand. -/
def query (entry : Entry) (name : Text) : List Text :=
  match entry with
  | .at i => ['[' :: decimal i ++ text ",\"" ++ name ++ text "\"", text "]"]
  | .any => [text "[", '"' :: name ++ text "\"", text "]"]

/-- `sed -e 's/^"\(.*\)"$/\1/'` -/
def unquote (value : Text) : Text :=
  if value.length > 1 ∧ value.head? = some '"' ∧ value.getLast? = some '"'
    then value.tail.dropLast else value

/-- The lines that `field` prints. -/
def field (json : Text) (entry : Entry) (name : Text) : List Text :=
  ((lines (echo [json])).filter (inOrderCI (query entry name))).map
    (fun line => unquote (cut '\t' 2 line))

/-- The value `sort -n` gives a line. -/
def numeric (key : Text) : Nat := Nat.ofDigitChars 10 (key.takeWhile Char.isDigit) 0

/-- The greatest number. A line without digits counts as 0 and goes after those that have some, so
that nothing is found only when no line has any. -/
def last (json : Text) : Int :=
  let keys := ((lines (echo [json])).map (fun line => (cut ',' 1 line).drop 1)).filter (· ≠ [])
  if keys = [] then -1 else ((keys.map numeric).foldl max 0 : Nat)

/-- A leaf of an entry, as `json -b` prints it: the key, the place in an array if it is one, and the
value as it is written. -/
structure Leaf where
  name : Text
  index : Option Nat
  value : Text
  deriving DecidableEq

def Leaf.line (i : Nat) (leaf : Leaf) : Text :=
  '[' :: decimal i ++ text ",\"" ++ leaf.name ++ text "\"" ++
    (leaf.index.elim [] fun j => ',' :: decimal j) ++ text "]\t" ++ leaf.value

/-- Empty strings are left out. -/
def Leaf.printed (leaf : Leaf) : Bool := leaf.value ≠ text "\"\""

/-- The lines of a table of entries. -/
def flatLines (start : Nat) : List (List Leaf) → List Text
  | [] => []
  | leaves :: table =>
    (leaves.filter Leaf.printed).map (Leaf.line start) ++ flatLines (start + 1) table

/-- What `json -b` prints of a table, as a command substitution takes it. -/
def flat (table : List (List Leaf)) : Text := capture (unlines (flatLines 0 table))

/-- No comma is followed by a quote and something more. -/
def noKey : Text → Bool
  | [] => true
  | c :: t => !(c = ',' && t.head? = some '"' && t.length > 1) && noKey t

/-- What `json` takes for the inside of a string: quotes are escaped, four digits follow an escaped
`u`, and control characters do not occur. -/
def isStringBody : Bool → Text → Bool
  | escaped, [] => !escaped
  | true, c :: t => !isControl c && (c ≠ 'u' || isCode t) && isStringBody false t
  | false, c :: t =>
    if c = '\\' then isStringBody true t else c ≠ '"' && !isControl c && isStringBody false t
where
  isControl (c : Char) : Bool := c.toNat < 32 || c.toNat = 127
  isCode (t : Text) : Bool := 4 ≤ t.length && (t.take 4).all (fun c => (hexDigit c).isSome)

/-- The inside of a string, as it is written. -/
structure Literal where
  body : Text
  isBody : isStringBody false body = true
  deriving DecidableEq

def Literal.quoted (l : Literal) : Text := '"' :: l.body ++ ['"']

/-- A value on one line in which no key can be found. -/
structure Token (v : Text) : Prop where
  line : Line v
  tab : '\t' ∉ v
  noKey : noKey v = true

/-- A key in small letters. -/
def IsKey (name : Text) : Prop := ∀ c ∈ name, c.isLower = true

instance (name : Text) : Decidable (IsKey name) := inferInstanceAs (Decidable (∀ _ ∈ _, _))

structure Leaf.Sound (leaf : Leaf) : Prop where
  name : IsKey leaf.name
  value : Token leaf.value

section Lower

theorem isUpper_iff {c : Char} : c.isUpper = true ↔ 'A'.val ≤ c.val ∧ c.val ≤ 'Z'.val :=
  decide_eq_true_iff

theorem isLower_eq (c : Char) :
    c.isLower = (decide ('a'.val ≤ c.val) && decide (c.val ≤ 'z'.val)) := rfl

theorem isAlpha_eq (c : Char) : c.isAlpha = (c.isUpper || c.isLower) := rfl

theorem toLower_of_not_isUpper {c : Char} (h : c.isUpper = false) : c.toLower = c := by
  have hc : ¬ (c.val ≥ 'A'.val ∧ c.val ≤ 'Z'.val) := fun hc => by
    rw [isUpper_iff.mpr hc] at h
    cases h
  exact dif_neg hc

theorem isLower_toLower {c : Char} (h : c.isUpper = true) : c.toLower.isLower = true := by
  rw [isUpper_iff] at h
  have htoLower : c.toLower = ⟨c.val + ('a'.val - 'A'.val), _⟩ := dif_pos h
  rw [htoLower]
  obtain ⟨hlow, hhigh⟩ := h
  rw [UInt32.le_iff_toNat_le] at hlow hhigh
  simp only [isLower_eq, UInt32.le_iff_toNat_le, UInt32.toNat_add]
  simp at hlow hhigh ⊢
  omega

/-- Only letters are changed, and into small letters. -/
theorem toLower_eq_iff {c d : Char} (hd : d.isLower = false) (hd' : d.isUpper = false) :
    c.toLower = d ↔ c = d := by
  by_cases hc : c.isUpper = true
  · have hlow := isLower_toLower hc
    constructor
    · intro heq
      rw [heq, hd] at hlow
      cases hlow
    · rintro rfl
      rw [hc] at hd'
      cases hd'
  · rw [toLower_of_not_isUpper (Bool.eq_false_iff.mpr hc)]

theorem lower_eq_self {t : Text} (h : ∀ c ∈ t, c.isUpper = false) : lower t = t := by
  unfold lower
  exact (List.map_congr_left fun c hc => toLower_of_not_isUpper (h c hc)).trans (List.map_id _)

theorem isUpper_of_isLower {c : Char} (h : c.isLower = true) : c.isUpper = false := by
  simp only [isLower_eq, Bool.and_eq_true, decide_eq_true_eq, UInt32.le_iff_toNat_le] at h
  simp only [← Bool.not_eq_true, isUpper_iff, UInt32.le_iff_toNat_le]
  simp at h ⊢
  omega

theorem isUpper_of_isDigit {c : Char} (h : c.isDigit = true) : c.isUpper = false := by
  simp only [Char.isDigit, Bool.and_eq_true, decide_eq_true_eq, UInt32.le_iff_toNat_le] at h
  simp only [← Bool.not_eq_true, isUpper_iff, UInt32.le_iff_toNat_le]
  simp at h ⊢
  omega

theorem lower_key {name : Text} (h : IsKey name) : lower name = name :=
  lower_eq_self fun c hc => isUpper_of_isLower (h c hc)

end Lower

section Decimal

theorem isDigit_of_mem_decimal {n : Nat} {c : Char} (h : c ∈ decimal n) : c.isDigit = true :=
  Nat.isDigit_of_mem_toDigits (by decide) (by decide) h

theorem not_mem_decimal {c : Char} (h : c.isDigit = false) (n : Nat) : c ∉ decimal n := by
  intro hmem
  rw [isDigit_of_mem_decimal hmem] at h
  cases h

theorem decimal_ne_nil (n : Nat) : decimal n ≠ [] := Nat.toDigits_ne_nil

theorem lower_decimal (n : Nat) : lower (decimal n) = decimal n :=
  lower_eq_self fun _ hc => isUpper_of_isDigit (isDigit_of_mem_decimal hc)

theorem numeric_decimal (n : Nat) : numeric (decimal n) = n := by
  have hall : (decimal n).takeWhile Char.isDigit = decimal n :=
    List.takeWhile_eq_self_iff.mpr fun c hc => isDigit_of_mem_decimal hc
  rw [numeric, hall]
  exact Nat.ofDigitChars_ten_toDigits

theorem decimal_injective : Function.Injective decimal := by
  intro m n h
  rw [← numeric_decimal m, ← numeric_decimal n, h]

end Decimal

section Keys

variable {a b x y t : Text} {c : Char}

theorem noKey_cons (h : c ≠ ',') (t : Text) : noKey (c :: t) = noKey t := by
  simp [noKey, h]

theorem noKey_append (h : ',' ∉ a) (t : Text) : noKey (a ++ t) = noKey t := by
  induction a with
  | nil => rfl
  | cons c a ih =>
    have hc : c ≠ ',' := by
      rintro rfl
      exact h List.mem_cons_self
    rw [List.cons_append, noKey_cons hc, ih fun hmem => h (List.mem_cons_of_mem _ hmem)]

theorem noKey_comma (h : t.head? ≠ some '"') : noKey (',' :: t) = noKey t := by
  simp [noKey, h]

theorem noKey_suffix (a : Text) (h : noKey (a ++ t) = true) : noKey t = true := by
  induction a with
  | nil => exact h
  | cons c a ih =>
    rw [List.cons_append, noKey, Bool.and_eq_true] at h
    exact ih h.2

/-- In a text without keys nothing more follows a comma and a quote. -/
theorem nil_of_noKey (h : noKey (a ++ ',' :: '"' :: b) = true) : b = [] := by
  have hkey := noKey_suffix a h
  cases b with
  | nil => rfl
  | cons c b => simp [noKey] at hkey

theorem noKey_lower (t : Text) : noKey (lower t) = noKey t := by
  induction t with
  | nil => rfl
  | cons c t ih =>
    have hcomma : c.toLower = ',' ↔ c = ',' := toLower_eq_iff (by decide) (by decide)
    have hhead : (lower t).head? = some '"' ↔ t.head? = some '"' := by
      cases t with
      | nil => simp [lower]
      | cons d t => simpa [lower] using toLower_eq_iff (by decide) (by decide)
    have hlen : (lower t).length = t.length := List.length_map ..
    have hcons : lower (c :: t) = c.toLower :: lower t := rfl
    simp only [hcons, noKey, ih, hcomma, hhead, hlen]

/-- A key is found where it was written and nowhere else. -/
theorem key_unique (ha : ',' ∉ a) (hy : noKey y = true) (hb : b ≠ [])
    (h : a ++ ',' :: '"' :: y = x ++ ',' :: '"' :: b) : a = x ∧ y = b := by
  rcases List.append_eq_append_iff.mp h with ⟨z, rfl, hz⟩ | ⟨z, rfl, hz⟩
  · cases z with
    | nil => simpa using hz
    | cons c z =>
      cases z with
      | nil => simp at hz
      | cons d z =>
        simp only [List.cons_append, List.cons.injEq] at hz
        rw [hz.2.2] at hy
        exact absurd (nil_of_noKey hy) hb
  · cases z with
    | nil => simpa using hz.symm
    | cons c z =>
      simp only [List.cons_append, List.cons.injEq] at hz
      exact absurd (by simp [← hz.1]) ha

end Keys

section Literal

/-- What is left after the first character is the inside of a string, where a backslash may stand
open. -/
theorem isStringBody_cons {escaped : Bool} {c : Char} {body : Text}
    (h : isStringBody escaped (c :: body) = true) :
    isStringBody.isControl c = false ∧
      isStringBody (!escaped && c = '\\') body = true := by
  cases escaped with
  | true =>
    simp only [isStringBody, Bool.and_eq_true, Bool.not_eq_true'] at h
    simpa using ⟨h.1.1, h.2⟩
  | false =>
    by_cases hc : c = '\\'
    · subst hc
      exact ⟨by decide, by simpa [isStringBody] using h⟩
    · simp only [isStringBody, hc, if_false, Bool.and_eq_true, Bool.not_eq_true'] at h
      exact ⟨h.1.2, by simpa [hc] using h.2⟩

theorem isStringBody_head {c : Char} {body : Text} (h : isStringBody false (c :: body) = true) :
    c ≠ '"' := by
  rintro rfl
  simp [isStringBody] at h

/-- After a comma the string goes on without a quote or ends. -/
theorem noKey_body {escaped : Bool} {body : Text} (h : isStringBody escaped body = true) :
    noKey (body ++ ['"']) = true := by
  induction body generalizing escaped with
  | nil => rfl
  | cons c body ih =>
    have hbody := (isStringBody_cons h).2
    rw [List.cons_append]
    by_cases hc : c = ','
    · subst hc
      cases body with
      | nil => rfl
      | cons d body =>
        have hd : d ≠ '"' := isStringBody_head (by simpa using hbody)
        rw [noKey_comma (by simpa using hd)]
        exact ih hbody
    · rw [noKey_cons hc]
      exact ih hbody

theorem isStringBody_of {t : Text}
    (h : ∀ c ∈ t, c ≠ '\\' ∧ c ≠ '"' ∧ isStringBody.isControl c = false) :
    isStringBody false t = true := by
  induction t with
  | nil => rfl
  | cons c t ih =>
    obtain ⟨hslash, hquote, hcontrol⟩ := h c List.mem_cons_self
    simp [isStringBody, hslash, hquote, hcontrol, ih fun c hc => h c (List.mem_cons_of_mem _ hc)]

theorem isControl_of_alphanum {c : Char} (h : c.isAlphanum = true) :
    isStringBody.isControl c = false := by
  simp only [Char.isAlphanum, isAlpha_eq, isUpper_iff, isLower_eq, Char.isDigit, Bool.or_eq_true,
    Bool.and_eq_true, decide_eq_true_eq, UInt32.le_iff_toNat_le, ge_iff_le] at h
  simp only [isStringBody.isControl, Char.toNat, Bool.or_eq_false_iff, decide_eq_false_iff_not]
  simp at h ⊢
  omega

theorem isControl_of_mem {escaped : Bool} {body : Text} (h : isStringBody escaped body = true) :
    ∀ c ∈ body, isStringBody.isControl c = false := by
  induction body generalizing escaped with
  | nil => simp
  | cons c body ih =>
    obtain ⟨hc, hbody⟩ := isStringBody_cons h
    intro d hd
    rcases List.mem_cons.mp hd with rfl | hd
    · exact hc
    · exact ih hbody d hd

namespace Literal

variable (l : Literal)

theorem not_mem {c : Char} (hc : isStringBody.isControl c = true) : c ∉ l.body := by
  intro hmem
  rw [isControl_of_mem l.isBody c hmem] at hc
  cases hc

theorem line : Line l.body := l.not_mem (by decide)

theorem token : Token l.quoted := by
  have hline : '\n' ∉ l.body := l.line
  have htab : '\t' ∉ l.body := l.not_mem (by decide)
  refine ⟨?_, ?_, ?_⟩
  · simp [quoted, Line, hline]
  · simp [quoted, htab]
  · rw [quoted, List.cons_append, noKey_cons (by decide)]
    exact noKey_body l.isBody

theorem unquote : unquote l.quoted = l.body := by
  simp [Sbin.unquote, quoted, List.getLast?_cons]

theorem quoted_eq_empty : l.quoted = text "\"\"" ↔ l.body = [] := by
  have hempty : text "\"\"" = ['"', '"'] := rfl
  rw [hempty, quoted]
  simp

end Literal

theorem token_bare {v : Text} (h : ∀ c ∈ v, c.isDigit = true ∨ c.isLower = true) : Token v := by
  have hno (c : Char) (hc : ¬ (c.isDigit = true ∨ c.isLower = true)) : c ∉ v :=
    fun hmem => hc (h c hmem)
  refine ⟨hno _ (by decide), hno _ (by decide), ?_⟩
  have hcomma := noKey_append (hno ',' (by decide)) []
  rw [List.append_nil] at hcomma
  exact hcomma

theorem unquote_bare {v : Text} (h : ∀ c ∈ v, c.isDigit = true ∨ c.isLower = true) :
    unquote v = v := by
  unfold unquote
  rw [if_neg]
  rintro ⟨-, hhead, -⟩
  have hmem : '"' ∈ v := List.mem_of_mem_head? (by simp [hhead])
  exact absurd (h _ hmem) (by decide)

end Literal

section Field

variable {name : Text} {leaf : Leaf} {i j : Nat}

theorem comma_not_mem_key (h : IsKey name) : ',' ∉ name := by
  intro hmem
  exact absurd (h ',' hmem) (by decide)

theorem quote_not_mem_key (h : IsKey name) : '"' ∉ name := by
  intro hmem
  exact absurd (h '"' hmem) (by decide)

/-- What stands after the key in the line of a leaf. -/
def Leaf.rest (leaf : Leaf) : Text :=
  (leaf.index.elim [] fun j => ',' :: decimal j) ++ text "]\t" ++ leaf.value

theorem Leaf.line_eq (i : Nat) (leaf : Leaf) : leaf.line i =
    ('[' :: decimal i) ++ ',' :: '"' :: (leaf.name ++ '"' :: leaf.rest) := by
  simp [Leaf.line, Leaf.rest]
  rfl

theorem lower_rest (leaf : Leaf) : lower leaf.rest =
    (leaf.index.elim [] fun j => ',' :: decimal j) ++ text "]\t" ++ lower leaf.value := by
  have hindex : lower (leaf.index.elim [] fun j => ',' :: decimal j) =
      leaf.index.elim [] fun j => ',' :: decimal j := by
    cases leaf.index with
    | none => rfl
    | some j => exact congrArg _ (lower_decimal j)
  rw [Leaf.rest, lower_append, lower_append, hindex]
  rfl

theorem lower_line (h : leaf.Sound) (i : Nat) : lower (leaf.line i) =
    ('[' :: decimal i) ++ ',' :: '"' :: (leaf.name ++ '"' :: lower leaf.rest) := by
  have hcons (c : Char) (t : Text) : lower (c :: t) = c.toLower :: lower t := rfl
  rw [Leaf.line_eq, lower_append, hcons, hcons, hcons, lower_append, hcons, lower_decimal,
    lower_key h.name]
  rfl

theorem noKey_rest (h : leaf.Sound) : noKey (leaf.name ++ '"' :: lower leaf.rest) = true := by
  rw [noKey_append (comma_not_mem_key h.name), noKey_cons (by decide), lower_rest]
  have hvalue : noKey (text "]\t" ++ lower leaf.value) = true := by
    rw [noKey_append (by decide), noKey_lower]
    exact h.value.noKey
  cases leaf.index with
  | none => exact hvalue
  | some j =>
    have hdecimal : ',' ∉ decimal j := not_mem_decimal (by decide) j
    simp only [Option.elim_some, List.cons_append, List.append_assoc]
    rw [noKey_comma, noKey_append hdecimal, hvalue]
    obtain ⟨c, cs, hcs⟩ := List.exists_cons_of_ne_nil (decimal_ne_nil j)
    have hc : c.isDigit = true := isDigit_of_mem_decimal (by rw [hcs]; exact List.mem_cons_self)
    rw [hcs, List.cons_append, List.head?_cons]
    rintro ⟨⟩
    cases hc

theorem query_at (hn : IsKey name) (i : Nat) : (query (.at i) name).map lower =
    [('[' :: decimal i) ++ ',' :: '"' :: (name ++ ['"']), text "]"] := by
  have hneedle : '[' :: decimal i ++ text ",\"" ++ name ++ text "\"" =
      ('[' :: decimal i) ++ ',' :: '"' :: (name ++ ['"']) := by
    simp
    rfl
  have hcons (c : Char) (t : Text) : lower (c :: t) = c.toLower :: lower t := rfl
  simp only [query, List.map_cons, List.map_nil, hneedle, lower_append, hcons, lower_decimal,
    lower_key hn]
  rfl

/-- The query for a key of an entry finds its leaves only. -/
theorem inOrderCI_line (h : leaf.Sound) (hn : IsKey name) (i j : Nat) :
    inOrderCI (query (.at i) name) (leaf.line j) = true ↔ j = i ∧ leaf.name = name := by
  have hbracket (n : Nat) : ',' ∉ '[' :: decimal n := by
    simp [not_mem_decimal (c := ',') (by decide) n]
  rw [inOrderCI, query_at hn, lower_line h, inOrder_cons]
  constructor
  · rintro ⟨a, b, heq, -⟩
    have heq : ('[' :: decimal j) ++ ',' :: '"' :: (leaf.name ++ '"' :: lower leaf.rest) =
        (a ++ '[' :: decimal i) ++ ',' :: '"' :: (name ++ '"' :: b) := by
      simpa using heq
    obtain ⟨hentry, hname⟩ := key_unique (hbracket j) (noKey_rest h) (by simp) heq
    have hname := append_cons_inj (quote_not_mem_key h.name) (quote_not_mem_key hn) hname
    refine ⟨?_, hname.1⟩
    have hfirst : a = [] := by
      cases a with
      | nil => rfl
      | cons c a =>
        simp only [List.cons_append, List.cons.injEq] at hentry
        have hmem : '[' ∈ decimal j := by simp [hentry.2]
        exact absurd hmem (not_mem_decimal (by decide) j)
    subst hfirst
    exact decimal_injective (by simpa using hentry)
  · rintro ⟨rfl, rfl⟩
    refine ⟨[], lower leaf.rest, by simp, ?_⟩
    rw [lower_rest]
    refine (inOrder_cons _ _ _).mpr ⟨leaf.index.elim [] fun j => ',' :: decimal j,
      '\t' :: lower leaf.value, ?_, rfl⟩
    simp
    rfl

theorem cut_line (h : leaf.Sound) (i : Nat) : cut '\t' 2 (leaf.line i) = leaf.value := by
  have hline : leaf.line i = ('[' :: decimal i ++ text ",\"" ++ leaf.name ++ text "\"" ++
      (leaf.index.elim [] fun j => ',' :: decimal j) ++ [']']) ++ '\t' :: leaf.value := by
    simp [Leaf.line]
    rfl
  have hname : '\t' ∉ leaf.name := fun hmem => absurd (h.name '\t' hmem) (by decide)
  have hentry : '\t' ∉ decimal i := not_mem_decimal (by decide) i
  have hindex : '\t' ∉ (leaf.index.elim [] fun j => ',' :: decimal j) := by
    cases leaf.index with
    | none => exact List.not_mem_nil
    | some j =>
      have hj : '\t' ∉ decimal j := not_mem_decimal (by decide) j
      simp [hj]
  rw [hline]
  apply cut_two_last _ h.value.tab
  simp [hname, hentry, hindex]
  decide

theorem cut_line_entry (leaf : Leaf) (i : Nat) : (cut ',' 1 (leaf.line i)).drop 1 = decimal i := by
  have hbracket : ',' ∉ '[' :: decimal i := by simp [not_mem_decimal (c := ',') (by decide) i]
  rw [Leaf.line_eq, cut_one hbracket]
  rfl

end Field

section Flat

variable {table : List (List Leaf)} {name : Text} {i start : Nat}

theorem mem_flatLines {l : Text} (hl : l ∈ flatLines start table) :
    ∃ i leaf, l = Leaf.line i leaf ∧ ∃ leaves ∈ table, leaf ∈ leaves := by
  induction table generalizing start with
  | nil => cases hl
  | cons leaves table ih =>
    rcases List.mem_append.mp hl with hl | hl
    · obtain ⟨leaf, hleaf, rfl⟩ := List.mem_map.mp hl
      exact ⟨_, leaf, rfl, leaves, List.mem_cons_self, (List.mem_filter.mp hleaf).1⟩
    · obtain ⟨i, leaf, rfl, leaves', hmem, hleaf⟩ := ih hl
      exact ⟨i, leaf, rfl, leaves', List.mem_cons_of_mem _ hmem, hleaf⟩

theorem lines_flat (h : ∀ leaves ∈ table, ∀ leaf ∈ leaves, leaf.Sound) :
    lines (echo [flat table]) = if flatLines 0 table = [] then [[]] else flatLines 0 table := by
  apply lines_echo_capture
  · intro l hl
    obtain ⟨i, leaf, rfl, leaves, hmem, hleaf⟩ := mem_flatLines hl
    have hs := h leaves hmem leaf hleaf
    have hname : '\n' ∉ leaf.name := fun hmem => absurd (hs.name '\n' hmem) (by decide)
    have hentry : '\n' ∉ decimal i := not_mem_decimal (by decide) i
    have hvalue : '\n' ∉ leaf.value := hs.value.line
    have hindex : '\n' ∉ (leaf.index.elim [] fun j => ',' :: decimal j) := by
      cases leaf.index with
      | none => exact List.not_mem_nil
      | some j =>
        have hj : '\n' ∉ decimal j := not_mem_decimal (by decide) j
        simp [hj]
    simp [Line, Leaf.line, hname, hentry, hvalue, hindex]
    decide
  · intro l hl
    obtain ⟨i, leaf, rfl, -⟩ := mem_flatLines hl
    simp [Leaf.line]
  · intro l hl
    obtain ⟨i, leaf, rfl, -⟩ := mem_flatLines hl
    simp [Leaf.line]

/-- The lines of later entries are not asked for. -/
theorem filter_flatLines_of_lt (h : ∀ leaves ∈ table, ∀ leaf ∈ leaves, leaf.Sound)
    (hn : IsKey name) (hi : i < start) :
    (flatLines start table).filter (inOrderCI (query (.at i) name)) = [] := by
  induction table generalizing start with
  | nil => rfl
  | cons leaves table ih =>
    rw [flatLines, List.filter_append,
      ih (fun leaves hmem => h leaves (List.mem_cons_of_mem _ hmem)) (by omega), List.append_nil,
      List.filter_eq_nil_iff]
    intro l hl
    obtain ⟨leaf, hleaf, rfl⟩ := List.mem_map.mp hl
    rw [inOrderCI_line (h leaves List.mem_cons_self leaf (List.mem_filter.mp hleaf).1) hn]
    omega

theorem filter_flatLines (h : ∀ leaves ∈ table, ∀ leaf ∈ leaves, leaf.Sound) (hn : IsKey name) :
    (flatLines start table).filter (inOrderCI (query (.at (start + i)) name)) =
      ((table[i]?.getD []).filter (fun leaf => leaf.printed && leaf.name = name)).map
        (Leaf.line (start + i)) := by
  induction table generalizing start i with
  | nil => rfl
  | cons leaves table ih =>
    have hleaves := h leaves List.mem_cons_self
    have htable : ∀ leaves ∈ table, ∀ leaf ∈ leaves, leaf.Sound :=
      fun leaves hmem => h leaves (List.mem_cons_of_mem _ hmem)
    cases i with
    | zero =>
      rw [flatLines, List.filter_append, Nat.add_zero,
        filter_flatLines_of_lt htable hn (Nat.lt_succ_self start), List.append_nil,
        List.filter_map, List.filter_filter]
      refine congrArg _ (List.filter_congr fun leaf hleaf => ?_)
      have hiff := inOrderCI_line (hleaves leaf hleaf) hn start start
      simp only [Function.comp_apply, true_and] at hiff ⊢
      rw [Bool.and_comm]
      congr 1
      exact Bool.eq_iff_iff.mpr (by simpa using hiff)
    | succ i =>
      have hskip : ((leaves.filter Leaf.printed).map (Leaf.line start)).filter
          (inOrderCI (query (.at (start + (i + 1))) name)) = [] := by
        rw [List.filter_eq_nil_iff]
        intro l hl
        obtain ⟨leaf, hleaf, rfl⟩ := List.mem_map.mp hl
        rw [inOrderCI_line (hleaves leaf (List.mem_filter.mp hleaf).1) hn]
        omega
      have hnext : start + (i + 1) = start + 1 + i := by omega
      rw [flatLines, List.filter_append, hskip, List.nil_append, hnext, ih htable]
      rfl

/-- What `field` prints of a table: the values of the key in the entry, without their quotes. -/
theorem field_flat (h : ∀ leaves ∈ table, ∀ leaf ∈ leaves, leaf.Sound) (hn : IsKey name)
    (i : Nat) : field (flat table) (.at i) name =
      ((table[i]?.getD []).filter (fun leaf => leaf.printed && leaf.name = name)).map
        (fun leaf => unquote leaf.value) := by
  have hfilter : (lines (echo [flat table])).filter (inOrderCI (query (.at i) name)) =
      ((table[i]?.getD []).filter (fun leaf => leaf.printed && leaf.name = name)).map
        (Leaf.line i) := by
    have hrest : (flatLines 0 table).filter (inOrderCI (query (.at (0 + i)) name)) = _ :=
      filter_flatLines h hn
    rw [Nat.zero_add] at hrest
    rw [lines_flat h]
    split
    · rename_i hnil
      rw [← hrest, hnil]
      have hblank : inOrderCI (query (.at i) name) [] = false := by
        simp [inOrderCI, query, inOrder, lower]
      simp [hblank]
    · exact hrest
  rw [field, hfilter, List.map_map]
  refine List.map_congr_left fun leaf hleaf => ?_
  have hmem := (List.mem_filter.mp hleaf).1
  have hs : leaf.Sound := by
    cases htable : table[i]? with
    | none => simp [htable] at hmem
    | some leaves =>
      rw [htable] at hmem
      exact h leaves (List.mem_of_getElem? htable) leaf hmem
  simp [cut_line hs]

theorem foldl_max_eq {ks : List Nat} {n acc : Nat} (hacc : acc ≤ n) (hle : ∀ k ∈ ks, k ≤ n)
    (hmem : n ∈ ks ∨ acc = n) : ks.foldl max acc = n := by
  induction ks generalizing acc with
  | nil => simpa using hmem
  | cons k ks ih =>
    have hk := hle k List.mem_cons_self
    apply ih (by omega) fun k' hk' => hle k' (List.mem_cons_of_mem _ hk')
    rcases hmem with hmem | hmem
    · rcases List.mem_cons.mp hmem with rfl | hmem
      · right
        omega
      · exact Or.inl hmem
    · right
      omega

/-- Every line is one of an entry of the table. -/
theorem cut_flatLines {l : Text} (hl : l ∈ flatLines start table) :
    ∃ i < table.length, (cut ',' 1 l).drop 1 = decimal (start + i) := by
  induction table generalizing start with
  | nil => cases hl
  | cons leaves table ih =>
    rcases List.mem_append.mp hl with hl | hl
    · obtain ⟨leaf, -, rfl⟩ := List.mem_map.mp hl
      exact ⟨0, by simp, cut_line_entry leaf start⟩
    · obtain ⟨i, hi, hcut⟩ := ih hl
      refine ⟨i + 1, by simpa using hi, ?_⟩
      rw [hcut, Nat.add_assoc, Nat.add_comm 1 i]

/-- Every entry with something printed has a line. -/
theorem exists_flatLines {leaves : List Leaf} (hi : table[i]? = some leaves)
    (hp : ∃ leaf ∈ leaves, leaf.printed = true) :
    ∃ l ∈ flatLines start table, (cut ',' 1 l).drop 1 = decimal (start + i) := by
  induction table generalizing start i with
  | nil => cases hi
  | cons leaves' table ih =>
    cases i with
    | zero =>
      cases hi
      obtain ⟨leaf, hleaf, hprinted⟩ := hp
      refine ⟨leaf.line start, ?_, cut_line_entry leaf start⟩
      apply List.mem_append_left
      exact List.mem_map.mpr ⟨leaf, List.mem_filter.mpr ⟨hleaf, hprinted⟩, rfl⟩
    | succ i =>
      obtain ⟨l, hl, hcut⟩ := ih hi
      refine ⟨l, List.mem_append_right _ hl, ?_⟩
      rw [hcut, Nat.add_assoc, Nat.add_comm 1 i]

/-- The last entry of a table. -/
theorem last_flat (h : ∀ leaves ∈ table, ∀ leaf ∈ leaves, leaf.Sound)
    (hp : ∀ leaves ∈ table, ∃ leaf ∈ leaves, leaf.printed = true) :
    last (flat table) = (table.length : Int) - 1 := by
  unfold last
  rw [lines_flat h]
  rcases List.eq_nil_or_concat table with rfl | ⟨init, leaves, htable⟩
  · rfl
  · have hlast : table[init.length]? = some leaves := by simp [htable]
    have hlen : table.length = init.length + 1 := by simp [htable]
    obtain ⟨l, hl, hcut⟩ : ∃ l ∈ flatLines 0 table,
        (cut ',' 1 l).drop 1 = decimal (0 + init.length) :=
      exists_flatLines hlast (hp leaves (List.mem_of_getElem? hlast))
    rw [if_neg (List.ne_nil_of_mem hl)]
    let keys := ((flatLines 0 table).map (fun line => (cut ',' 1 line).drop 1)).filter (· ≠ [])
    have hmem : decimal init.length ∈ keys := by
      rw [Nat.zero_add] at hcut
      refine List.mem_filter.mpr ⟨List.mem_map.mpr ⟨l, hl, hcut⟩, ?_⟩
      simpa using decimal_ne_nil init.length
    have hmax : (keys.map numeric).foldl max 0 = init.length := by
      apply foldl_max_eq (Nat.zero_le _)
      · intro k hk
        obtain ⟨key, hkey, rfl⟩ := List.mem_map.mp hk
        obtain ⟨l', hl', rfl⟩ := List.mem_map.mp (List.mem_filter.mp hkey).1
        obtain ⟨i, hi, hcut'⟩ := cut_flatLines hl'
        rw [hcut', numeric_decimal]
        omega
      · exact Or.inl (List.mem_map.mpr ⟨_, hmem, numeric_decimal _⟩)
    simp only [show keys ≠ [] from List.ne_nil_of_mem hmem, if_false, hmax, hlen, keys]
    omega

end Flat

end HackerUnion.Sbin
