import HackerUnion.Sbin.Common
import HackerUnion.Bash.Read

namespace HackerUnion.Sbin

open Bash

/-- How long a string is of which a text is the rest, the closing quote not counted. -/
def bodyLength : Bool → Text → Option Nat
  | _, [] => none
  | true, c :: t =>
    if isStringBody.isControl c || c = 'u' && !isStringBody.isCode t then none
    else (bodyLength false t).map (· + 1)
  | false, c :: t =>
    if c = '"' then some 0
    else if c = '\\' then (bodyLength true t).map (· + 1)
    else if isStringBody.isControl c then none
    else (bodyLength false t).map (· + 1)

/-- `STRING`, and so on: how many characters at the front of a text match, 0 when it does not. -/
def stringLength : Text → Nat
  | [] => 0
  | c :: t => if c = '"' then ((bodyLength false t).map (· + 2)).getD 0 else 0

def digitsLength (t : Text) : Nat := (t.takeWhile Char.isDigit).length

/-- `([.][0-9]*)?` -/
def fractionLength (t : Text) : Nat :=
  if t.head? = some '.' then 1 + digitsLength t.tail else 0

/-- `([eE][+-]?[0-9]*)?` -/
def exponentLength (t : Text) : Nat :=
  if t.head? = some 'e' ∨ t.head? = some 'E' then
    let sign := if t.tail.head? = some '+' ∨ t.tail.head? = some '-' then 1 else 0
    1 + sign + digitsLength (t.tail.drop sign)
  else 0

def numberLength (t : Text) : Nat :=
  let sign := if t.head? = some '-' then 1 else 0
  let whole := if (t.drop sign).head? = some '0' then 1 else digitsLength (t.drop sign)
  if whole = 0 then 0
  else
    let n := sign + whole
    let n := n + fractionLength (t.drop n)
    n + exponentLength (t.drop n)

def keywordLength (t : Text) : Nat :=
  if (text "null").isPrefixOf t then 4
  else if (text "false").isPrefixOf t then 5
  else if (text "true").isPrefixOf t then 4
  else 0

/-- What `grep -o` takes at the front of a text: the longest match. -/
def matchLength (t : Text) : Nat :=
  max (stringLength t) (max (numberLength t) (max (keywordLength t)
    (max (t.takeWhile isSpace).length 1)))

/-- The matches in a line, after the characters that belong to the last one. -/
def splitTokens : Nat → Text → List Text
  | _, [] => []
  | skip + 1, _ :: t => splitTokens skip t
  | 0, c :: t => (c :: t).take (matchLength (c :: t)) :: splitTokens (matchLength (c :: t) - 1) t

/-- The tokens of a text. Those that are spaces are left out. -/
def tokenize (t : Text) : List Text :=
  ((lines t).flatMap (splitTokens 0)).filter (fun token => !token.all isSpace)

/-- The lines that have been printed, and the tokens that are left when nothing was thrown. -/
abbrev Parsed := List Text × Option (List Text)

def Parsed.then (p : Parsed) (next : List Text → Parsed) : Parsed :=
  match p.2 with
  | none => p
  | some tokens => (p.1 ++ (next tokens).1, (next tokens).2)

/-- A token that is no value: nothing, or one character that is not a digit. -/
def isNoValue (token : Text) : Bool :=
  token = [] || token.length = 1 && !token.all Char.isDigit

def extend (path key : Text) : Text := if path = [] then key else path ++ ',' :: key

def isQuoted (token : Text) : Bool :=
  token.length > 1 && token.head? = some '"' && token.getLast? = some '"'

/-- `read -r token`, which gives nothing at the end. -/
def readToken (tokens : List Text) (next : Text → List Text → Parsed) : Parsed :=
  next (tokens.head?.getD []) tokens.tail

mutual

/-- `parse_value` with the option `-b`: leaves are printed if they are not empty. The first argument
bounds the calls that are open. -/
def parseValue : Nat → Text → Text → List Text → Parsed
  | 0, _, _, _ => ([], none)
  | calls + 1, path, token, tokens =>
    if token = text "\x7b" then parseObject calls path tokens
    else if token = text "[" then parseArray calls path tokens
    else if isNoValue token then ([], none)
    else if token = text "\"\"" then ([], some tokens)
    else (['[' :: path ++ text "]\t" ++ token], some tokens)

def parseArray : Nat → Text → List Text → Parsed
  | 0, _, _ => ([], none)
  | calls + 1, path, tokens =>
    readToken tokens fun token tokens =>
      if token = text "]" then ([], some tokens) else parseElements calls path 0 token tokens

/-- The loop of `parse_array`. -/
def parseElements : Nat → Text → Nat → Text → List Text → Parsed
  | 0, _, _, _, _ => ([], none)
  | calls + 1, path, index, token, tokens =>
    (parseValue calls (extend path (decimal index)) token tokens).then fun tokens =>
      readToken tokens fun token tokens =>
        if token = text "]" then ([], some tokens)
        else if token = text "," then
          readToken tokens fun token tokens => parseElements calls path (index + 1) token tokens
        else ([], none)

def parseObject : Nat → Text → List Text → Parsed
  | 0, _, _ => ([], none)
  | calls + 1, path, tokens =>
    readToken tokens fun token tokens =>
      if token = text "\x7d" then ([], some tokens) else parseMembers calls path token tokens

/-- The loop of `parse_object`. -/
def parseMembers : Nat → Text → Text → List Text → Parsed
  | 0, _, _, _ => ([], none)
  | calls + 1, path, key, tokens =>
    if !isQuoted key then ([], none)
    else
      readToken tokens fun token tokens =>
        if token ≠ text ":" then ([], none)
        else
          readToken tokens fun token tokens =>
            (parseValue calls (extend path key) token tokens).then fun tokens =>
              readToken tokens fun token tokens =>
                if token = text "\x7d" then ([], some tokens)
                else if token = text "," then
                  readToken tokens fun key tokens => parseMembers calls path key tokens
                else ([], none)

end

/-- The calls that can be open: three for each token. -/
def parse (tokens : List Text) : Parsed :=
  readToken tokens fun token rest =>
    (parseValue (3 * tokens.length + 3) [] token rest).then fun rest =>
      if rest = [] then ([], some []) else ([], none)

/-- `json -b`: what is printed, whether or not something is thrown. -/
def json (t : Text) : Text := unlines (parse (tokenize t)).1

section Parse

/-- The tokens are those of a value, for which this is printed under a path. -/
structure Reads (tokens : List Text) (out : Text → List Text) : Prop where
  ne_nil : tokens ≠ []
  value : ∀ calls path rest, 3 * tokens.length ≤ calls →
    readToken (tokens ++ rest) (parseValue calls path) = (out path, some rest)

variable {tokens rest : List Text} {out : Text → List Text} {path key : Text} {calls : Nat}

theorem readToken_cons (token : Text) (tokens : List Text) (next : Text → List Text → Parsed) :
    readToken (token :: tokens) next = next token tokens := rfl

theorem Parsed.then_some (printed : List Text) (next : List Text → Parsed) :
    Parsed.then (printed, some rest) next = (printed ++ (next rest).1, (next rest).2) := rfl

theorem Reads.then (h : Reads tokens out) (hcalls : 3 * tokens.length ≤ calls)
    (next : List Text → Parsed) :
    readToken (tokens ++ rest)
        (fun token tokens => (parseValue calls path token tokens).then next) =
      (out path ++ (next rest).1, (next rest).2) := by
  have hthen : readToken (tokens ++ rest)
      (fun token tokens => (parseValue calls path token tokens).then next) =
        (readToken (tokens ++ rest) (parseValue calls path)).then next := rfl
  rw [hthen, h.value calls path rest hcalls]
  rfl

/-- A token that is a leaf. -/
structure IsLeaf (token : Text) : Prop where
  notObject : token ≠ text "\x7b"
  notArray : token ≠ text "["
  isValue : isNoValue token = false

def leafOut (token path : Text) : List Text :=
  if token = text "\"\"" then [] else ['[' :: path ++ text "]\t" ++ token]

theorem Reads.leaf {token : Text} (h : IsLeaf token) : Reads [token] (leafOut token) where
  ne_nil := List.cons_ne_nil _ _
  value calls path rest hcalls := by
    obtain ⟨calls, rfl⟩ : ∃ n, calls = n + 1 := ⟨calls - 1, by simp at hcalls; omega⟩
    rw [List.singleton_append, readToken_cons, parseValue, if_neg h.notObject,
      if_neg h.notArray, if_neg (by simp [h.isValue]), leafOut]
    split <;> rfl

/-- What is printed for the elements of an array, counted from a number. -/
def elementsOut (path : Text) : Nat → List (Text → List Text) → List Text
  | _, [] => []
  | index, out :: outs => out (extend path (decimal index)) ++ elementsOut path (index + 1) outs

def commas (values : List (List Text)) : List Text := List.intercalate [text ","] values

theorem commas_cons_cons (ts ts' : List Text) (values : List (List Text)) :
    commas (ts :: ts' :: values) = ts ++ text "," :: commas (ts' :: values) := by
  simp [commas, List.intercalate]

theorem commas_singleton (ts : List Text) : commas [ts] = ts := by
  simp [commas, List.intercalate]

theorem commas_head {ts : List Text} (h : ts ≠ []) (values : List (List Text)) :
    (commas (ts :: values)).head? = ts.head? := by
  cases values with
  | nil => rw [commas_singleton]
  | cons ts' values => rw [commas_cons_cons, List.head?_append_of_ne_nil _ h]

theorem commas_ne_nil {ts : List Text} (h : ts ≠ []) (values : List (List Text)) :
    commas (ts :: values) ≠ [] := by
  intro hnil
  have hhead := commas_head h values
  rw [hnil] at hhead
  exact h (List.head?_eq_none_iff.mp hhead.symm)

/-- A value does not begin as an array ends. -/
theorem Reads.head_ne (h : Reads tokens out) {token : Text} (hhead : tokens.head? = some token) :
    token ≠ text "]" := by
  rintro rfl
  cases tokens with
  | nil => cases hhead
  | cons t ts =>
    cases hhead
    have hvalue := h.value (3 * (ts.length + 1) + 1) [] [] (by simp)
    rw [List.cons_append, readToken_cons, parseValue, if_neg (by decide), if_neg (by decide),
      if_pos (by decide)] at hvalue
    exact absurd (congrArg Prod.snd hvalue) (by simp)

variable {values : List (List Text × (Text → List Text))}

theorem parseElements_reads (path : Text) (rest : List Text)
    (hvalues : ∀ v ∈ values, Reads v.1 v.2) (hne : values ≠ [])
    (index : Nat) (hcalls : 3 * (commas (values.map Prod.fst)).length + 1 ≤ calls) :
    readToken (commas (values.map Prod.fst) ++ text "]" :: rest)
        (parseElements calls path index) =
      (elementsOut path index (values.map Prod.snd), some rest) := by
  induction values generalizing calls index with
  | nil => exact absurd rfl hne
  | cons v values ih =>
    obtain ⟨ts, out⟩ := v
    have hv : Reads ts out := hvalues (ts, out) List.mem_cons_self
    obtain ⟨calls, rfl⟩ : ∃ n, calls = n + 1 := ⟨calls - 1, by omega⟩
    cases values with
    | nil =>
      rw [List.map_singleton, commas_singleton] at hcalls ⊢
      simp only [parseElements]
      have hfits : 3 * ts.length ≤ calls := by
        simp only at hcalls
        omega
      rw [hv.then hfits, readToken_cons, if_pos rfl]
      rfl
    | cons v' values =>
      simp only [List.map_cons, commas_cons_cons, List.length_append, List.length_cons] at hcalls
      have hrest := ih (fun v hv => hvalues v (List.mem_cons_of_mem _ hv))
        (List.cons_ne_nil _ _) (index + 1) (show _ ≤ calls by simp only [List.map_cons]; omega)
      simp only [List.map_cons] at hrest
      simp only [parseElements, List.map_cons, commas_cons_cons, List.append_assoc,
        List.cons_append]
      have hfits : 3 * ts.length ≤ calls := by omega
      rw [hv.then hfits, readToken_cons, if_neg (by decide), if_pos rfl, hrest]
      rfl

theorem Reads.array (values : List (List Text × (Text → List Text)))
    (hvalues : ∀ v ∈ values, Reads v.1 v.2) :
    Reads (text "[" :: commas (values.map Prod.fst) ++ [text "]"])
      (fun path => elementsOut path 0 (values.map Prod.snd)) where
  ne_nil := by simp
  value calls path rest hcalls := by
    simp only [List.length_append, List.length_cons, List.length_nil] at hcalls
    obtain ⟨calls, rfl⟩ : ∃ n, calls = n + 2 := ⟨calls - 2, by omega⟩
    rw [List.cons_append, List.cons_append, readToken_cons, parseValue, if_neg (by decide),
      if_pos rfl, parseArray]
    cases values with
    | nil => rfl
    | cons v values =>
      have hread := parseElements_reads path rest hvalues (List.cons_ne_nil _ _) 0
        (show _ ≤ calls by omega)
      obtain ⟨token, tokens, htokens⟩ := List.exists_cons_of_ne_nil
        (commas_ne_nil (hvalues v List.mem_cons_self).ne_nil (values.map Prod.fst))
      have hopen : token ≠ text "]" := by
        apply (hvalues v List.mem_cons_self).head_ne
        have hhead := commas_head (hvalues v List.mem_cons_self).ne_nil (values.map Prod.fst)
        rw [← hhead]
        rw [htokens]
        rfl
      simp only [List.map_cons] at hread
      rw [List.map_cons, htokens, List.append_assoc, List.singleton_append, List.cons_append,
        readToken_cons, if_neg hopen]
      rw [htokens, List.cons_append, readToken_cons] at hread
      exact hread

/-- A member of an object: its key, the tokens of its value and what they print. -/
structure Member where
  key : Text
  tokens : List Text
  out : Text → List Text

def Member.all (m : Member) : List Text := m.key :: text ":" :: m.tokens

structure Member.Sound (m : Member) : Prop where
  key : isQuoted m.key = true
  value : Reads m.tokens m.out

def membersOut (path : Text) (members : List Member) : List Text :=
  members.flatMap (fun m => m.out (extend path m.key))

variable {members : List Member}

theorem parseMembers_reads (path : Text) (rest : List Text)
    (hmembers : ∀ m ∈ members, m.Sound) (hne : members ≠ [])
    (hcalls : 3 * (commas (members.map Member.all)).length + 1 ≤ calls) :
    readToken (commas (members.map Member.all) ++ text "\x7d" :: rest) (parseMembers calls path) =
      (membersOut path members, some rest) := by
  induction members generalizing calls with
  | nil => exact absurd rfl hne
  | cons m members ih =>
    obtain ⟨hkey, hvalue⟩ := hmembers m List.mem_cons_self
    obtain ⟨calls, rfl⟩ : ∃ n, calls = n + 1 := ⟨calls - 1, by omega⟩
    cases members with
    | nil =>
      rw [List.map_singleton, commas_singleton] at hcalls ⊢
      have hfits : 3 * m.tokens.length ≤ calls := by
        simp only [Member.all, List.length_cons] at hcalls
        omega
      rw [Member.all, List.cons_append, readToken_cons, parseMembers, if_neg (by simp [hkey]),
        List.cons_append, readToken_cons, if_neg (by simp), hvalue.then hfits, readToken_cons,
        if_pos rfl]
      simp [membersOut]
    | cons m' members =>
      simp only [List.map_cons, commas_cons_cons, List.length_append, List.length_cons] at hcalls
      have hfits : 3 * m.tokens.length ≤ calls := by
        simp only [Member.all, List.length_cons] at hcalls
        omega
      have hrest := ih (fun m hm => hmembers m (List.mem_cons_of_mem _ hm))
        (List.cons_ne_nil _ _) (show _ ≤ calls by simp only [List.map_cons]; omega)
      simp only [List.map_cons] at hrest
      rw [List.map_cons, List.map_cons, commas_cons_cons, List.append_assoc, Member.all,
        List.cons_append, readToken_cons, parseMembers, if_neg (by simp [hkey]), List.cons_append,
        readToken_cons, if_neg (by simp), hvalue.then hfits, List.cons_append, readToken_cons,
        if_neg (by decide), if_pos rfl, hrest]
      simp [membersOut]

theorem Reads.object (members : List Member) (hmembers : ∀ m ∈ members, m.Sound) :
    Reads (text "\x7b" :: commas (members.map Member.all) ++ [text "\x7d"])
      (fun path => membersOut path members) where
  ne_nil := by simp
  value calls path rest hcalls := by
    simp only [List.length_append, List.length_cons, List.length_nil] at hcalls
    obtain ⟨calls, rfl⟩ : ∃ n, calls = n + 2 := ⟨calls - 2, by omega⟩
    rw [List.cons_append, List.cons_append, readToken_cons, parseValue, if_pos rfl, parseObject]
    cases members with
    | nil => rfl
    | cons m members =>
      have hread := parseMembers_reads path rest hmembers (List.cons_ne_nil _ _)
        (show _ ≤ calls by omega)
      have hquoted := (hmembers m List.mem_cons_self).key
      have hclose : m.key ≠ text "\x7d" := by
        intro heq
        rw [heq] at hquoted
        exact absurd hquoted (by decide)
      have hcons : ∃ tokens, commas ((m :: members).map Member.all) = m.key :: tokens := by
        cases members with
        | nil => exact ⟨_, by rw [List.map_singleton, commas_singleton]; rfl⟩
        | cons m' members => exact ⟨_, by rw [List.map_cons, List.map_cons, commas_cons_cons]; rfl⟩
      obtain ⟨tokens, htokens⟩ := hcons
      rw [htokens, List.append_assoc, List.singleton_append, List.cons_append, readToken_cons,
        if_neg hclose]
      rw [htokens, List.cons_append, readToken_cons] at hread
      exact hread

/-- A text whose tokens are those of a value. -/
theorem parse_eq {t : Text} (h : Reads (tokenize t) out) :
    parse (tokenize t) = (out [], some []) := by
  have hfits : 3 * (tokenize t).length ≤ 3 * (tokenize t).length + 3 := by omega
  have hthen : readToken (tokenize t ++ [])
      (fun token rest => (parseValue (3 * (tokenize t).length + 3) [] token rest).then
        fun rest => if rest = [] then ([], some []) else ([], none)) =
      (out [] ++ [], some []) := h.then hfits _
  rw [List.append_nil, List.append_nil] at hthen
  exact hthen

theorem json_eq {t : Text} (h : Reads (tokenize t) out) : json t = unlines (out []) := by
  rw [json, parse_eq h]

end Parse

section Tokens

variable {c : Char} {t rest : Text}

/-- The tokens of a line. -/
def tokens (line : Text) : List Text :=
  (splitTokens 0 line).filter (fun token => !token.all isSpace)

theorem tokenize_eq (t : Text) : tokenize t = (lines t).flatMap tokens := by
  rw [tokenize, List.filter_flatMap]
  rfl

theorem splitTokens_skip (n : Nat) (t : Text) : splitTokens n t = splitTokens 0 (t.drop n) := by
  induction n generalizing t with
  | zero => rfl
  | succ n ih =>
    cases t with
    | nil => rfl
    | cons c t => exact ih t

theorem splitTokens_match (h : matchLength (t ++ rest) = t.length) (hne : t ≠ []) :
    splitTokens 0 (t ++ rest) = t :: splitTokens 0 rest := by
  obtain ⟨c, t, rfl⟩ := List.exists_cons_of_ne_nil hne
  rw [List.cons_append] at h ⊢
  rw [splitTokens, h, splitTokens_skip]
  simp

theorem tokens_match (h : matchLength (t ++ rest) = t.length) (hc : ∃ c ∈ t, isSpace c = false) :
    tokens (t ++ rest) = t :: tokens rest := by
  obtain ⟨c, hmem, hspace⟩ := hc
  have hall : t.all isSpace = false := by
    rw [List.all_eq_false]
    exact ⟨c, hmem, by simp [hspace]⟩
  rw [tokens, splitTokens_match h (List.ne_nil_of_mem hmem),
    List.filter_cons_of_pos (by simp [hall])]
  rfl

theorem numberLength_other (hsign : c ≠ '-') (hdigit : c.isDigit = false) (t : Text) :
    numberLength (c :: t) = 0 := by
  have hzero : c ≠ '0' := by
    rintro rfl
    cases hdigit
  simp [numberLength, hsign, hzero, digitsLength, hdigit]

theorem keywordLength_other (h : c ∉ ['n', 'f', 't']) (t : Text) :
    keywordLength (c :: t) = 0 := by
  have hne : 'n' ≠ c ∧ 'f' ≠ c ∧ 't' ≠ c := by simpa [eq_comm] using h
  have hprefix {d : Char} (hd : d ≠ c) (p : Text) : (d :: p).isPrefixOf (c :: t) = false := by
    simp [List.isPrefixOf, hd]
  have hnull := hprefix hne.1 (text "ull")
  have hfalse := hprefix hne.2.1 (text "alse")
  have htrue := hprefix hne.2.2 (text "rue")
  unfold keywordLength
  rw [if_neg, if_neg, if_neg]
  · exact Bool.eq_false_iff.mp htrue
  · exact Bool.eq_false_iff.mp hfalse
  · exact Bool.eq_false_iff.mp hnull

/-- Where no string, number or keyword begins. -/
theorem matchLength_other (hquote : c ≠ '"') (hsign : c ≠ '-') (hdigit : c.isDigit = false)
    (hkeyword : c ∉ ['n', 'f', 't']) (t : Text) :
    matchLength (c :: t) = max ((c :: t).takeWhile isSpace).length 1 := by
  have hstring : stringLength (c :: t) = 0 := by simp [stringLength, hquote]
  rw [matchLength, hstring, numberLength_other hsign hdigit, keywordLength_other hkeyword]
  omega

theorem tokens_mark (hc : c ∈ text "\x7b\x7d[]:,") (t : Text) :
    tokens (c :: t) = [c] :: tokens t := by
  have hall : ∀ c ∈ text "\x7b\x7d[]:,", isSpace c = false ∧ c ≠ '"' ∧ c ≠ '-' ∧
      c.isDigit = false ∧ c ∉ ['n', 'f', 't'] := by decide
  obtain ⟨hspace, hquote, hsign, hdigit, hkeyword⟩ := hall c hc
  have hmatch := matchLength_other hquote hsign hdigit hkeyword t
  rw [List.takeWhile_cons_of_neg (by simp [hspace])] at hmatch
  exact tokens_match hmatch ⟨c, List.mem_singleton_self c, hspace⟩

/-- Spaces are no tokens. -/
theorem tokens_dropWhile (t : Text) : tokens (t.dropWhile isSpace) = tokens t := by
  cases t with
  | nil => rfl
  | cons c u =>
    cases hc : isSpace c with
    | false => rw [List.dropWhile_cons_of_neg (by simp [hc])]
    | true =>
      have hall : ∀ c, isSpace c = true → c ≠ '"' ∧ c ≠ '-' ∧ c.isDigit = false ∧
          c ∉ ['n', 'f', 't'] := by
        intro c hc
        simp only [isSpace, isBlank, Bool.or_eq_true, decide_eq_true_eq] at hc
        rcases hc with ((((rfl | rfl) | rfl) | rfl) | rfl) | rfl
        all_goals decide
      obtain ⟨hquote, hsign, hdigit, hkeyword⟩ := hall c hc
      have hsplit : (c :: u).takeWhile isSpace ++ (c :: u).dropWhile isSpace = c :: u :=
        List.takeWhile_append_dropWhile
      have hne : (c :: u).takeWhile isSpace ≠ [] := by
        rw [List.takeWhile_cons_of_pos hc]
        exact List.cons_ne_nil _ _
      have hmatch : matchLength (c :: u) = ((c :: u).takeWhile isSpace).length := by
        have hpos := List.length_pos_of_ne_nil hne
        rw [matchLength_other hquote hsign hdigit hkeyword]
        omega
      have hspaces : ((c :: u).takeWhile isSpace).all isSpace = true :=
        List.all_takeWhile
      rw [← hsplit] at hmatch
      rw [← hsplit, tokens, tokens, splitTokens_match (by rw [hmatch, hsplit]) hne,
        List.filter_cons_of_neg (by simp [hspaces]), hsplit]

theorem tokens_space (t : Text) : tokens (' ' :: t) = tokens t := by
  rw [← tokens_dropWhile, List.dropWhile_cons_of_pos (by decide), tokens_dropWhile]

theorem bodyLength_body {escaped : Bool} {body : Text} (h : isStringBody escaped body = true)
    (rest : Text) : bodyLength escaped (body ++ '"' :: rest) = some body.length := by
  induction body generalizing escaped with
  | nil =>
    cases escaped with
    | true => cases h
    | false => rfl
  | cons c body ih =>
    cases escaped with
    | true =>
      simp only [isStringBody, Bool.and_eq_true, Bool.not_eq_true'] at h
      have hcode : c = 'u' → isStringBody.isCode (body ++ '"' :: rest) = true := by
        rintro rfl
        have hcode : isStringBody.isCode body = true := by simpa using h.1.2
        simp only [isStringBody.isCode, Bool.and_eq_true, decide_eq_true_eq] at hcode ⊢
        rw [List.take_append_of_le_length hcode.1, List.length_append]
        exact ⟨by omega, hcode.2⟩
      simp only [List.cons_append, bodyLength, h.1.1, ih h.2]
      by_cases hc : c = 'u'
      · simp [hc, hcode hc]
      · simp [hc]
    | false =>
      by_cases hslash : c = '\\'
      · subst hslash
        simp only [isStringBody, if_true] at h
        simp [bodyLength, ih h]
      · simp only [isStringBody, hslash, if_false, Bool.and_eq_true, Bool.not_eq_true',
          decide_eq_true_eq] at h
        simp [bodyLength, hslash, h.1.1, h.1.2, ih h.2]

theorem tokens_quoted (l : Literal) (rest : Text) :
    tokens (l.quoted ++ rest) = l.quoted :: tokens rest := by
  have hlength : stringLength (l.quoted ++ rest) = l.quoted.length := by
    simp [Literal.quoted, stringLength, bodyLength_body l.isBody]
  have hmatch : matchLength (l.quoted ++ rest) = l.quoted.length := by
    have hcons : l.quoted ++ rest = '"' :: (l.body ++ '"' :: rest) := by simp [Literal.quoted]
    have hpos : 2 ≤ l.quoted.length := by simp [Literal.quoted]
    rw [matchLength, hlength, hcons, numberLength_other (by decide) (by decide),
      keywordLength_other (by decide), List.takeWhile_cons_of_neg (by decide), List.length_nil]
    omega
  exact tokens_match hmatch ⟨'"', by simp [Literal.quoted], by decide⟩

theorem tokens_keyword (hk : t ∈ [text "null", text "false", text "true"]) (rest : Text) :
    tokens (t ++ rest) = t :: tokens rest := by
  have hall : ∀ t ∈ [text "null", text "false", text "true"],
      ∃ c u, t = c :: u ∧ c ≠ '"' ∧ c ≠ '-' ∧ c.isDigit = false ∧ isSpace c = false := by
    simp only [List.mem_cons, List.not_mem_nil, or_false]
    rintro t (rfl | rfl | rfl)
    · exact ⟨'n', text "ull", rfl, by decide⟩
    · exact ⟨'f', text "alse", rfl, by decide⟩
    · exact ⟨'t', text "rue", rfl, by decide⟩
  have hkeyword : keywordLength (t ++ rest) = t.length := by
    simp only [List.mem_cons, List.not_mem_nil, or_false] at hk
    rcases hk with rfl | rfl | rfl
    · rfl
    · rfl
    · rfl
  obtain ⟨c, u, rfl, hquote, hsign, hdigit, hspace⟩ := hall t hk
  have hmatch : matchLength ((c :: u) ++ rest) = (c :: u).length := by
    have hstring : stringLength (c :: (u ++ rest)) = 0 := by simp [stringLength, hquote]
    rw [matchLength, hkeyword, List.cons_append, hstring, numberLength_other hsign hdigit,
      List.takeWhile_cons_of_neg (by simp [hspace]), List.length_cons, List.length_nil]
    omega
  exact tokens_match hmatch ⟨c, List.mem_cons_self, hspace⟩

end Tokens

end HackerUnion.Sbin
