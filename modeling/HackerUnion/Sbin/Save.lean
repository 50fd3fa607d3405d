import HackerUnion.Sbin.Json

namespace HackerUnion.Sbin

open Bash

/-- `s/ *, *$//` -/
def uncomma (line : Text) : Text :=
  let kept := line.rdropWhile (· = ' ')
  if kept.getLast? = some ',' then kept.dropLast.rdropWhile (· = ' ') else line

/-- The last line loses the comma at its end. -/
def nocomma (t : Text) : Text :=
  let ls := lines (echo [text "-e", t])
  unlines (ls.dropLast ++ (ls.getLast?.map uncomma).toList)

/-- Empty lines at both ends go. -/
def noblank (t : Text) : Text :=
  unlines (((lines (echo [text "-e", t])).dropWhile (· = [])).rdropWhile (· = []))

/-- What the save scripts write of the entries they have printed. -/
def arrayText (entries : Text) : Text :=
  echo [text "-e",
    text "[\\n" ++ capture (noblank (capture (nocomma (capture entries)))) ++ text "\\n]"]

/-- An object on one line, which reads as a value. -/
structure IsEntry (e : Text) (ts : List Text) : Prop where
  opens : e.head? = some '\x7b'
  closes : e.getLast? = some '\x7d'
  line : Line e
  bare : '\\' ∉ e
  tokens : ∀ rest, tokens (e ++ rest) = ts ++ tokens rest

variable {entries : List (Text × List Text)} {e : Text} {ts : List Text}

/-- The lines of the entries with a comma after each but the last. -/
def commaLines : List Text → List Text
  | [] => []
  | [e] => [e]
  | e :: e' :: es => (e ++ [',']) :: commaLines (e' :: es)

section Lines

theorem uncomma_entry (h : IsEntry e ts) : uncomma (e ++ [',']) = e := by
  have hspace : e.rdropWhile (· = ' ') = e := by
    rw [List.rdropWhile_eq_self_iff]
    intro hne hlast
    have hcloses := h.closes
    rw [List.getLast?_eq_getLast_of_ne_nil hne] at hcloses
    rw [Option.some.inj hcloses] at hlast
    exact absurd hlast (by decide)
  have hkept : (e ++ [',']).rdropWhile (· = ' ') = e ++ [','] :=
    List.rdropWhile_concat_neg _ _ _ (by decide)
  simp only [uncomma, hkept]
  rw [if_pos (by simp), List.dropLast_concat, hspace]

theorem entry_ne_nil (h : IsEntry e ts) : e ≠ [] := by
  rintro rfl
  cases h.opens

/-- What the lines of entries have in common: with a comma or without, they begin as objects do. -/
structure IsLine (l : Text) : Prop where
  opens : l.head? = some '\x7b'
  line : Line l
  bare : '\\' ∉ l

theorem IsLine.ne_nil {l : Text} (h : IsLine l) : l ≠ [] := by
  rintro rfl
  cases h.opens

theorem IsEntry.isLine (h : IsEntry e ts) : IsLine e := ⟨h.opens, h.line, h.bare⟩

theorem IsEntry.isLine_comma (h : IsEntry e ts) : IsLine (e ++ [',']) := by
  have hline : '\n' ∉ e := h.line
  refine ⟨?_, ?_, ?_⟩
  · rw [List.head?_append_of_ne_nil _ (entry_ne_nil h), h.opens]
  · simp [Line, hline]
  · simp [h.bare]

theorem isLine_commaLines (h : ∀ p ∈ entries, IsEntry p.1 p.2) :
    ∀ l ∈ commaLines (entries.map Prod.fst), IsLine l := by
  induction entries with
  | nil => simp [commaLines]
  | cons p entries ih =>
    have hp := h p List.mem_cons_self
    have hrest := ih fun p hp => h p (List.mem_cons_of_mem _ hp)
    cases entries with
    | nil =>
      intro l hl
      cases List.mem_singleton.mp hl
      exact hp.isLine
    | cons p' entries =>
      intro l hl
      rcases List.mem_cons.mp hl with rfl | hl
      · exact hp.isLine_comma
      · exact hrest l hl

/-- The lines of a text that is captured and printed with `echo -e`. -/
theorem lines_captured {ls : List Text} (h : ∀ l ∈ ls, IsLine l) :
    lines (echo [text "-e", capture (unlines ls)]) = if ls = [] then [[]] else ls := by
  apply lines_echo_e_capture
  · exact fun l hl => (h l hl).line
  · exact fun l hl => (h l hl).ne_nil
  · intro l hl
    rw [(h l hl).opens]
    decide
  · exact fun l hl => (h l hl).bare

theorem dropLast_uncomma (h : ∀ p ∈ entries, IsEntry p.1 p.2) :
    (entries.map (fun p => p.1 ++ [','])).dropLast ++
        ((entries.map (fun p => p.1 ++ [','])).getLast?.map uncomma).toList =
      commaLines (entries.map Prod.fst) := by
  induction entries with
  | nil => rfl
  | cons p entries ih =>
    have hp := h p List.mem_cons_self
    have hrest := ih fun p hp => h p (List.mem_cons_of_mem _ hp)
    cases entries with
    | nil => simp [commaLines, uncomma_entry hp]
    | cons p' entries =>
      simp only [List.map_cons, List.dropLast_cons_cons, List.getLast?_cons_cons, List.cons_append,
        commaLines] at hrest ⊢
      rw [hrest]

theorem nocomma_entries (h : ∀ p ∈ entries, IsEntry p.1 p.2) (hne : entries ≠ []) :
    nocomma (capture (unlines (entries.map (fun p => p.1 ++ [','])))) =
      unlines (commaLines (entries.map Prod.fst)) := by
  have hall : ∀ l ∈ entries.map (fun p => p.1 ++ [',']), IsLine l := by
    intro l hl
    obtain ⟨p, hp, rfl⟩ := List.mem_map.mp hl
    exact (h p hp).isLine_comma
  rw [nocomma, lines_captured hall, if_neg (by simpa using hne), dropLast_uncomma h]

theorem noblank_lines {ls : List Text} (h : ∀ l ∈ ls, IsLine l) :
    noblank (capture (unlines ls)) = unlines ls := by
  rw [noblank, lines_captured h]
  split
  · rename_i hnil
    simp [hnil]
  · have hdrop : ls.dropWhile (· = []) = ls := by
      cases ls with
      | nil => rfl
      | cons l ls =>
        rw [List.dropWhile_cons_of_neg (by simpa using (h l List.mem_cons_self).ne_nil)]
    have hrdrop : ls.rdropWhile (· = []) = ls := by
      rw [List.rdropWhile_eq_self_iff]
      intro hne
      simpa using (h _ (List.getLast_mem hne)).ne_nil
    rw [hdrop, hrdrop]

theorem echo_bracketed {t : Text} (h : '\\' ∉ t) :
    echo [text "-e", text "[\\n" ++ t ++ text "\\n]"] = text "[\n" ++ t ++ text "\n]\n" := by
  have he (t : Text) : echo [text "-e", t] = echoWith ⟨true, true⟩ [t] := rfl
  have hopen : text "[\\n" ++ t ++ text "\\n]" = '[' :: '\\' :: 'n' :: (t ++ text "\\n]") := by
    simp
    rfl
  have hescape (t : Text) : unescape 0 ('[' :: '\\' :: 'n' :: t) =
      ('[' :: '\n' :: (unescape 0 t).1, (unescape 0 t).2) := rfl
  have hclose : unescape 0 (text "\\n]") = (text "\n]", false) := rfl
  have hopt : isOption ('[' :: '\\' :: 'n' :: (t ++ text "\\n]")) = false :=
    isOption_of_head (by simp)
  rw [he, hopen, echoWith, if_neg (by simp [hopt])]
  simp only [echoRest, if_true, List.intercalate, List.intersperse, List.flatten_cons,
    List.flatten_nil, List.append_nil, hescape, unescape_append h, hclose]
  simp
  rfl

/-- The lines of the file that is written. -/
theorem lines_arrayText (h : ∀ p ∈ entries, IsEntry p.1 p.2) (hne : entries ≠ []) :
    lines (arrayText (unlines (entries.map (fun p => p.1 ++ [','])))) =
      text "[" :: commaLines (entries.map Prod.fst) ++ [text "]"] := by
  have hcomma := isLine_commaLines h
  have hlines : commaLines (entries.map Prod.fst) ≠ [] := by
    cases entries with
    | nil => exact absurd rfl hne
    | cons p entries => cases entries <;> simp [commaLines]
  have hbare : '\\' ∉ capture (unlines (commaLines (entries.map Prod.fst))) := by
    intro hmem
    have hmem : '\\' ∈ unlines (commaLines (entries.map Prod.fst)) :=
      (List.rdropWhile_prefix _ _).subset hmem
    simp only [unlines, List.mem_flatMap, List.mem_append, List.mem_singleton] at hmem
    obtain ⟨l, hl, hmem | hmem⟩ := hmem
    · exact (hcomma l hl).bare hmem
    · cases hmem
  have hkept := capture_unlines (fun l hl => (hcomma l hl).line)
    (fun l hl => (hcomma l (List.mem_of_getLast? hl)).ne_nil) hlines
  have htext {t : Text} {ls : List Text} (h : t ++ ['\n'] = unlines ls) :
      text "[\n" ++ t ++ text "\n]\n" = unlines (text "[" :: ls ++ [text "]"]) := by
    rw [List.cons_append, unlines_cons, unlines_append, ← h]
    simp
    rfl
  rw [arrayText, nocomma_entries h hne, noblank_lines hcomma, echo_bracketed hbare,
    htext hkept]
  apply lines_unlines
  intro l hl
  rw [List.cons_append, List.mem_cons, List.mem_append, List.mem_singleton] at hl
  rcases hl with rfl | hl | rfl
  · decide
  · exact (hcomma l hl).line
  · decide

theorem tokens_commaLines (h : ∀ p ∈ entries, IsEntry p.1 p.2) :
    (commaLines (entries.map Prod.fst)).flatMap tokens = commas (entries.map Prod.snd) := by
  have hone {p : Text × List Text} (hp : IsEntry p.1 p.2) : tokens p.1 = p.2 := by
    have htokens := hp.tokens []
    rw [List.append_nil] at htokens
    rw [htokens]
    exact List.append_nil _
  have hcomma : tokens [','] = [text ","] := rfl
  induction entries with
  | nil => rfl
  | cons p entries ih =>
    have hp := h p List.mem_cons_self
    have hrest := ih fun p hp => h p (List.mem_cons_of_mem _ hp)
    cases entries with
    | nil => simp [commaLines, commas_singleton, hone hp]
    | cons p' entries =>
      simp only [List.map_cons, commaLines, List.flatMap_cons, commas_cons_cons] at hrest ⊢
      rw [hrest, hp.tokens, hcomma]
      simp

end Lines

/-- The tokens of the file that is written: an array of the entries. -/
theorem tokenize_arrayText (h : ∀ p ∈ entries, IsEntry p.1 p.2) :
    tokenize (arrayText (unlines (entries.map (fun p => p.1 ++ [','])))) =
      text "[" :: commas (entries.map Prod.snd) ++ [text "]"] := by
  rw [tokenize_eq]
  by_cases hne : entries = []
  · subst hne
    rfl
  · rw [lines_arrayText h hne, List.flatMap_append, List.flatMap_cons, tokens_commaLines h]
    rfl

/-- An entry with its tokens and with what is printed of it. -/
structure Saved where
  line : Text
  tokens : List Text
  out : Text → List Text

structure Saved.Sound (p : Saved) : Prop where
  entry : IsEntry p.line p.tokens
  reads : Reads p.tokens p.out

/-- What `json -b` prints of the file: what it prints of each entry, under its number. -/
theorem json_arrayText (saved : List Saved) (h : ∀ p ∈ saved, p.Sound) :
    json (arrayText (unlines (saved.map (fun p => p.line ++ [','])))) =
      unlines (elementsOut [] 0 (saved.map Saved.out)) := by
  have hentries : ∀ q ∈ saved.map (fun p => (p.line, p.tokens)), IsEntry q.1 q.2 := by
    intro q hq
    obtain ⟨p, hp, rfl⟩ := List.mem_map.mp hq
    exact (h p hp).entry
  have hvalues : ∀ q ∈ saved.map (fun p => (p.tokens, p.out)), Reads q.1 q.2 := by
    intro q hq
    obtain ⟨p, hp, rfl⟩ := List.mem_map.mp hq
    exact (h p hp).reads
  have htokens := tokenize_arrayText hentries
  have harray := Reads.array _ hvalues
  simp only [List.map_map, Function.comp_def] at htokens harray
  rw [← htokens] at harray
  exact json_eq harray

section Object

/-- The value of a member of an object: a token, or an array of them. -/
inductive Val where
  | one (token : Text)
  | many (tokens : List Text)

def Val.text : Val → Text
  | .one token => token
  | .many tokens => '[' :: List.intercalate [',', ' '] tokens ++ [']']

def Val.tokens : Val → List Text
  | .one token => [token]
  | .many tokens => Bash.text "[" :: commas (tokens.map fun token => [token]) ++ [Bash.text "]"]

def Val.leaves (name : Text) : Val → List Leaf
  | .one token => [⟨name, none, token⟩]
  | .many tokens => tokens.mapIdx (fun j token => ⟨name, some j, token⟩)

def Val.all : Val → List Text
  | .one token => [token]
  | .many tokens => tokens

/-- An object on one line, as the save scripts lay it out. -/
def objectText (members : List (Text × Val)) : Text :=
  '\x7b' :: ' ' :: List.intercalate [',', ' ']
    (members.map fun (name, v) => '"' :: name ++ '"' :: ':' :: ' ' :: v.text) ++ [' ', '\x7d']

def leavesOf (members : List (Text × Val)) : List Leaf :=
  members.flatMap (fun (name, v) => v.leaves name)

/-- A text that is these tokens, whatever follows. -/
structure Spelt (x : Text) (ts : List Text) : Prop where
  tokens : ∀ rest, Sbin.tokens (x ++ rest) = ts ++ Sbin.tokens rest

/-- A token that is a leaf and stands for itself. -/
structure IsScalar (token : Text) : Prop where
  leaf : IsLeaf token
  spelt : Spelt token [token]
  line : Line token
  bare : '\\' ∉ token

variable {x y : Text} {us : List Text}

theorem Spelt.append (hx : Spelt x ts) (hy : Spelt y us) : Spelt (x ++ y) (ts ++ us) where
  tokens rest := by rw [List.append_assoc, hx.tokens, hy.tokens, List.append_assoc]

theorem Spelt.mark {c : Char} (hc : c ∈ text "\x7b\x7d[]:,") : Spelt [c] [[c]] where
  tokens rest := tokens_mark hc rest

/-- A space before a token is nothing. -/
theorem Spelt.after_space {c : Char} (hc : c ∈ text "\x7b\x7d[]:,") (hx : Spelt x ts) :
    Spelt (c :: ' ' :: x) ([c] :: ts) where
  tokens rest := by
    rw [List.cons_append, List.cons_append, tokens_mark hc, tokens_space, hx.tokens]
    rfl

theorem Spelt.quoted (l : Literal) : Spelt l.quoted [l.quoted] where
  tokens rest := tokens_quoted l rest

theorem IsScalar.quoted {l : Literal} (h : '\\' ∉ l.body) : IsScalar l.quoted where
  leaf := by
    have hopens {c : Char} (hc : some '"' ≠ some c) (t : Text) : l.quoted ≠ c :: t :=
      fun heq => hc (congrArg List.head? heq)
    refine ⟨hopens (by decide) [], hopens (by decide) [], ?_⟩
    simp [isNoValue, Literal.quoted]
  spelt := .quoted l
  line := l.token.line
  bare := by simp [Literal.quoted, h]

/-- Values with commas and spaces between them. -/
theorem Spelt.separated (xs : List (Text × List Text)) (h : ∀ p ∈ xs, Spelt p.1 p.2)
    (hne : xs ≠ []) :
    Spelt (List.intercalate [',', ' '] (xs.map Prod.fst)) (commas (xs.map Prod.snd)) := by
  induction xs with
  | nil => exact absurd rfl hne
  | cons p xs ih =>
    have hp := h p List.mem_cons_self
    cases xs with
    | nil => simpa [List.intercalate, commas_singleton] using hp
    | cons p' xs =>
      have hrest := ih (fun p hp => h p (List.mem_cons_of_mem _ hp)) (List.cons_ne_nil _ _)
      have hcomma : ',' ∈ text "\x7b\x7d[]:," := by decide
      have happend := hp.append (Spelt.after_space hcomma hrest)
      have htext : List.intercalate [',', ' '] ((p :: p' :: xs).map Prod.fst) =
          p.1 ++ ',' :: ' ' :: List.intercalate [',', ' '] ((p' :: xs).map Prod.fst) := by
        simp [List.intercalate]
      have hcommas : commas ((p :: p' :: xs).map Prod.snd) =
          p.2 ++ text "," :: commas ((p' :: xs).map Prod.snd) := commas_cons_cons _ _ _
      rw [htext, hcommas]
      exact happend

structure Val.Sound (v : Val) : Prop where
  scalars : ∀ token ∈ v.all, IsScalar token

theorem Val.Sound.spelt {v : Val} (h : v.Sound) : Spelt v.text v.tokens := by
  cases v with
  | one token => exact (h.scalars token (List.mem_singleton_self _)).spelt
  | many tokens =>
    have hopen : Spelt (Bash.text "[") [Bash.text "["] := .mark (by decide)
    have hclose : Spelt (Bash.text "]") [Bash.text "]"] := .mark (by decide)
    cases tokens with
    | nil => exact hopen.append hclose
    | cons token tokens =>
      have hsep := Spelt.separated
        ((token :: tokens).map fun token => (token, [token])) (by
          intro p hp
          obtain ⟨token, htoken, rfl⟩ := List.mem_map.mp hp
          exact (h.scalars token htoken).spelt) (by simp)
      have hall := (hopen.append hsep).append hclose
      simp only [List.map_map, Function.comp_def, List.map_id'] at hall
      exact hall

/-- What is printed of a value. -/
def Val.out : Val → Text → List Text
  | .one token => leafOut token
  | .many tokens => fun path => elementsOut path 0 (tokens.map leafOut)

theorem Val.Sound.reads {v : Val} (h : v.Sound) : Reads v.tokens v.out := by
  cases v with
  | one token => exact .leaf (h.scalars token (List.mem_singleton_self _)).leaf
  | many tokens =>
    have harray := Reads.array (tokens.map fun token => ([token], leafOut token)) (by
      intro p hp
      obtain ⟨token, htoken, rfl⟩ := List.mem_map.mp hp
      exact .leaf (h.scalars token htoken).leaf)
    simp only [List.map_map, Function.comp_def] at harray
    exact harray

/-- The path of a member of an entry. -/
def pathOf (i : Nat) (name : Text) : Text := extend (decimal i) ('"' :: name ++ ['"'])

theorem extend_ne_nil {path : Text} (h : path ≠ []) (key : Text) :
    extend path key = path ++ ',' :: key := if_neg h

theorem pathOf_eq (i : Nat) (name : Text) :
    pathOf i name = decimal i ++ text ",\"" ++ name ++ ['"'] := by
  rw [pathOf, extend_ne_nil (decimal_ne_nil i)]
  simp
  rfl

theorem pathOf_ne_nil (i : Nat) (name : Text) : pathOf i name ≠ [] := by
  simp [pathOf_eq]

theorem leafOut_eq (i : Nat) (name : Text) (index : Option Nat) (token : Text) :
    leafOut token (pathOf i name ++ index.elim [] fun j => ',' :: decimal j) =
      ([⟨name, index, token⟩].filter Leaf.printed).map (Leaf.line i) := by
  by_cases hempty : token = text "\"\""
  · simp [leafOut, Leaf.printed, hempty]
  · simp [leafOut, Leaf.printed, hempty, Leaf.line, pathOf_eq]
    rfl

theorem elementsOut_leaves (i : Nat) (name : Text) (tokens : List Text) (k : Nat) :
    elementsOut (pathOf i name) k (tokens.map leafOut) =
      ((tokens.mapIdx (fun j token => ⟨name, some (k + j), token⟩)).filter Leaf.printed).map
        (Leaf.line i) := by
  induction tokens generalizing k with
  | nil => rfl
  | cons token tokens ih =>
    have hone := leafOut_eq i name (some k) token
    have hnext : (fun j token => (⟨name, some (k + (j + 1)), token⟩ : Leaf)) =
        fun j token => ⟨name, some (k + 1 + j), token⟩ := by
      funext j token
      rw [Nat.add_assoc, Nat.add_comm 1 j]
    rw [List.map_cons, elementsOut, ih, extend_ne_nil (pathOf_ne_nil i name), List.mapIdx_cons]
    rw [Option.elim_some] at hone
    rw [hone, hnext, ← List.map_append, ← List.filter_append]
    rfl

/-- What is printed of a value is what its leaves are printed as. -/
theorem Val.out_leaves (v : Val) (i : Nat) (name : Text) :
    v.out (pathOf i name) = ((v.leaves name).filter Leaf.printed).map (Leaf.line i) := by
  cases v with
  | one token =>
    have hone := leafOut_eq i name none token
    rw [Option.elim_none, List.append_nil] at hone
    exact hone
  | many tokens =>
    have hmany := elementsOut_leaves i name tokens 0
    simp only [Nat.zero_add] at hmany
    exact hmany

/-- A member whose key and value are written as `json` reads them. -/
structure SoundMember (m : Text × Val) : Prop where
  key : isStringBody false m.1 = true
  value : m.2.Sound

def memberOf (m : Text × Val) : Member := ⟨'"' :: m.1 ++ ['"'], m.2.tokens, m.2.out⟩

def objectTokens (members : List (Text × Val)) : List Text :=
  text "\x7b" :: commas (members.map fun m => (memberOf m).all) ++ [text "\x7d"]

def objectOut (members : List (Text × Val)) (path : Text) : List Text :=
  membersOut path (members.map memberOf)

variable {members : List (Text × Val)}

theorem Spelt.before_space {c : Char} (hc : c ∈ text "\x7b\x7d[]:,") (hx : Spelt x ts) :
    Spelt (x ++ [' ', c]) (ts ++ [[c]]) where
  tokens rest := by
    have hmark := Spelt.mark hc
    have hcons : [' ', c] ++ rest = ' ' :: ([c] ++ rest) := rfl
    rw [List.append_assoc, hx.tokens, List.append_assoc, hcons, tokens_space, hmark.tokens]

theorem SoundMember.spelt {m : Text × Val} (h : SoundMember m) :
    Spelt ('"' :: m.1 ++ '"' :: ':' :: ' ' :: m.2.text) (memberOf m).all := by
  have hkey := Spelt.quoted ⟨m.1, h.key⟩
  have hcolon : ':' ∈ text "\x7b\x7d[]:," := by decide
  have hall := hkey.append (Spelt.after_space hcolon h.value.spelt)
  simp only [Literal.quoted, List.append_assoc, List.cons_append, List.nil_append] at hall ⊢
  exact hall

theorem spelt_object (h : ∀ m ∈ members, SoundMember m) (hne : members ≠ []) :
    Spelt (objectText members) (objectTokens members) := by
  have hsep := Spelt.separated
    (members.map fun m => ('"' :: m.1 ++ '"' :: ':' :: ' ' :: m.2.text, (memberOf m).all)) (by
      intro p hp
      obtain ⟨m, hm, rfl⟩ := List.mem_map.mp hp
      exact (h m hm).spelt) (by simpa using hne)
  have hopen : '\x7b' ∈ text "\x7b\x7d[]:," := by decide
  have hclose : '\x7d' ∈ text "\x7b\x7d[]:," := by decide
  have hall := Spelt.before_space hclose (Spelt.after_space hopen hsep)
  simp only [List.map_map, Function.comp_def] at hall
  exact hall

theorem SoundMember.sound {m : Text × Val} (h : SoundMember m) : (memberOf m).Sound where
  key := by simp [memberOf, isQuoted, List.getLast?_cons]
  value := h.value.reads

theorem reads_object (h : ∀ m ∈ members, SoundMember m) :
    Reads (objectTokens members) (objectOut members) := by
  have hobject := Reads.object (members.map memberOf) (by
    intro p hp
    obtain ⟨m, hm, rfl⟩ := List.mem_map.mp hp
    exact (h m hm).sound)
  simp only [List.map_map] at hobject
  exact hobject

/-- What is printed of an entry is what its leaves are printed as. -/
theorem objectOut_leaves (members : List (Text × Val)) (i : Nat) :
    objectOut members (decimal i) =
      ((leavesOf members).filter Leaf.printed).map (Leaf.line i) := by
  induction members with
  | nil => rfl
  | cons m members ih =>
    have hm := m.2.out_leaves i m.1
    have hcons : objectOut (m :: members) (decimal i) =
        m.2.out (pathOf i m.1) ++ objectOut members (decimal i) := rfl
    have hleaves : leavesOf (m :: members) = m.2.leaves m.1 ++ leavesOf members := rfl
    rw [hcons, hm, ih, hleaves, List.filter_append, List.map_append]

theorem elementsOut_objects (objects : List (List (Text × Val))) (k : Nat) :
    elementsOut [] k (objects.map objectOut) = flatLines k (objects.map leavesOf) := by
  induction objects generalizing k with
  | nil => rfl
  | cons members objects ih =>
    have hpath : extend [] (decimal k) = decimal k := if_pos rfl
    rw [List.map_cons, elementsOut, hpath, objectOut_leaves, ih]
    rfl

/-- Nothing in an object ends its line or is interpreted by `echo -e`. -/
theorem not_mem_objectText {c : Char} (h : ∀ m ∈ members, c ∉ m.1 ∧ ∀ t ∈ m.2.all, c ∉ t)
    (hc : c ∉ text "\x7b\x7d[]:, \"") : c ∉ objectText members := by
  have hmarks : text "\x7b\x7d[]:, \"" = ['\x7b', '\x7d', '[', ']', ':', ',', ' ', '"'] := rfl
  rw [hmarks] at hc
  simp only [List.mem_cons, List.not_mem_nil, or_false, not_or] at hc
  have hvalue {v : Val} (hv : ∀ t ∈ v.all, c ∉ t) : c ∉ v.text := by
    cases v with
    | one token => exact hv token (List.mem_singleton_self _)
    | many tokens =>
      have hsep : c ∉ List.intercalate [',', ' '] tokens := Lists.not_mem_intercalate (by simp [hc]) hv
      simp [Val.text, hsep, hc]
  have hmembers : c ∉ List.intercalate [',', ' ']
      (members.map fun (name, v) => '"' :: name ++ '"' :: ':' :: ' ' :: v.text) := by
    apply Lists.not_mem_intercalate (by simp [hc])
    intro l hl
    obtain ⟨m, hm, rfl⟩ := List.mem_map.mp hl
    simp [(h m hm).1, hvalue (h m hm).2, hc]
  unfold objectText
  generalize List.intercalate [',', ' '] _ = t at hmembers ⊢
  simp [hmembers, hc]

theorem isEntry_object (h : ∀ m ∈ members, SoundMember m) (hslash : ∀ m ∈ members, '\\' ∉ m.1)
    (hne : members ≠ []) : IsEntry (objectText members) (objectTokens members) where
  opens := rfl
  closes := by simp [objectText, List.getLast?_cons]
  line := by
    apply not_mem_objectText _ (by decide)
    intro m hm
    exact ⟨(⟨m.1, (h m hm).key⟩ : Literal).line, fun t ht => ((h m hm).value.scalars t ht).line⟩
  bare := by
    apply not_mem_objectText _ (by decide)
    intro m hm
    exact ⟨hslash m hm, fun t ht => ((h m hm).value.scalars t ht).bare⟩
  tokens := (spelt_object h hne).tokens

/-- What `json -b` prints of the entries that were saved: the lines of their leaves. -/
theorem json_objects (objects : List (List (Text × Val)))
    (h : ∀ members ∈ objects, ∀ m ∈ members, SoundMember m)
    (hslash : ∀ members ∈ objects, ∀ m ∈ members, '\\' ∉ m.1)
    (hne : ∀ members ∈ objects, members ≠ []) :
    json (arrayText (unlines (objects.map fun members => objectText members ++ [',']))) =
      unlines (flatLines 0 (objects.map leavesOf)) := by
  have hjson := json_arrayText
    (objects.map fun members => ⟨objectText members, objectTokens members, objectOut members⟩) (by
      intro p hp
      obtain ⟨members, hmem, rfl⟩ := List.mem_map.mp hp
      exact ⟨isEntry_object (h members hmem) (hslash members hmem) (hne members hmem),
        reads_object (h members hmem)⟩)
  simp only [List.map_map, Function.comp_def] at hjson
  rw [hjson, elementsOut_objects]

end Object

end HackerUnion.Sbin
