import HackerUnion.Cgi.Fields
import HackerUnion.Js.Uri
import HackerUnion.Listing.Live

namespace HackerUnion.Cgi

open HackerUnion.Lists Bash Listing
open String (utf8EncodeChar)
open Js.Uri (encodeURIComponent encodeChar escapeByte isUnreserved upperHex)

/-- `$.param` of an object with one member. -/
def param (key value : Text) : Text :=
  replaceAll (text "%20") (text "+") (encodeURIComponent key ++ '=' :: encodeURIComponent value)

/-- The address that a `GET` with data is sent to:
`(url + "&" + query).replace(/[&?]{1,2}/, "?")`. -/
def withQuery (url query : Text) : Text :=
  let address := url ++ '&' :: query
  let separates (c : Char) : Bool := c = '&' || c = '?'
  let tail := address.dropWhile fun c => !separates c
  let rest := if (tail.drop 1).head?.any separates then tail.drop 2 else tail.drop 1
  address.takeWhile (fun c => !separates c) ++ '?' :: rest

/-- What a server gives a script of an address: the text behind the question mark. -/
def getRequest (address : Text) : Request where
  queryString := (address.dropWhile (· ≠ '?')).drop 1
  requestMethod := text "GET"
  contentLength := []
  input := []

/-- The bytes of a text, each of which is a character of the shell. -/
def utf8 (t : Text) : Text := t.flatMap fun c => (utf8EncodeChar c).map fun b => Char.ofNat b.toNat

/-- The text that bytes are. -/
def ofUtf8 (bytes : Text) : Option Text :=
  (String.fromUTF8? (bytes.map fun c => UInt8.ofNat c.toNat).toByteArray).map String.toList

/-- The value of a variable after the assignments. One that is not set is empty. -/
def variableOf (key : Text) (assignments : List Assignment) : Text :=
  ((assignments.filter (·.1 = key)).getLast?.map Prod.snd).getD []

/-- A script that begins with `cgi_getvars GET path`. `none` where it is not known what it does. -/
def runScript (glob : Text → List Text) (script : Text → Response) (r : Request) :
    Option Response :=
  match cgiGetvars glob [text "path"] .get r with
  | .ok assignments => (ofUtf8 (variableOf (text "path") assignments)).map script
  | .error _ => none

/-- What the disk has under a path: nothing that may be read, or what `cat` prints of it. -/
abbrev Disk := Text → Option Text

/-- `cat` -/
def cat (disk : Disk) (path : Text) : Response :=
  let file := ((disk path).map substitution).getD []
  { status := if (disk path).isSome then 200 else 500
    body := echo [text "\x7b \"path\": \"" ++ path ++ text "\", \"value\": " ++ jsonEscape file ++
      text " \x7d"] }

/-- What the callback of a request is given: no answer that is one of JSON, or its value. -/
def answered (r : Response) : Option Js.Json.Value :=
  if 200 ≤ r.status ∧ r.status < 300 then Js.Json.parse r.body else none

/-- `_fetch` without a cache -/
def fetch (glob : Text → List Text) (script : Text → Response) (endpoint uri : Text) :
    Option (Option Js.Json.Value) :=
  (runScript glob script (getRequest (withQuery endpoint (param (text "path") uri)))).map answered

section Tokens

variable {t : Text} {ts : List Token} {c : Char} {b : UInt8}

def escapeToken (b : UInt8) : Token := .escape (upperHex (b.toNat / 16)) (upperHex (b.toNat % 16))

def charTokens (c : Char) : List Token :=
  if isUnreserved c then [.plain c] else (utf8EncodeChar c).map escapeToken

def encodedTokens (t : Text) : List Token := t.flatMap charTokens

theorem written_flatMap (t : Text) (f : Char → List Token) :
    written (t.flatMap f) = t.flatMap fun c => written (f c) := by
  simp [written, List.flatMap_assoc]

theorem written_encodedTokens (t : Text) : written (encodedTokens t) = encodeURIComponent t := by
  rw [encodedTokens, written_flatMap, encodeURIComponent]
  congr 1
  funext c
  unfold charTokens encodeChar
  split
  · rfl
  · rw [written, List.flatMap_map]
    rfl

/-- Tokens that a part of two digits after a percent sign is found in only as one of them. -/
def Apart : Token → Prop
  | .plain c => c ≠ '%'
  | .escape h l => h ≠ '%' ∧ l ≠ '%'

/-- The tokens after a replacement of one escape by a character. -/
def replaced (h l c : Char) (t : Token) : Token := if t = .escape h l then .plain c else t

theorem replaceAll_escape {x y : Char} (h : ∀ t ∈ ts, Apart t) (c : Char) :
    replaceAll ['%', x, y] [c] (written ts) = written (ts.map (replaced x y c)) := by
  induction ts with
  | nil => rfl
  | cons t ts ih =>
    obtain ⟨ht, hts⟩ := List.forall_mem_cons.mp h
    have hcons : written (t :: ts) = t.text ++ written ts := by simp [written]
    have hcons' : written ((t :: ts).map (replaced x y c)) =
        (replaced x y c t).text ++ written (ts.map (replaced x y c)) := by simp [written]
    rw [hcons, hcons', ← ih hts]
    cases t with
    | plain d =>
      have hd : '%' ∉ [d] := by simpa using Ne.symm ht
      have hne : replaced x y c (.plain d) = .plain d := by simp [replaced]
      rw [hne]
      exact replaceAll_free hd _
    | escape a b =>
      by_cases heq : Token.escape a b = .escape x y
      · rw [replaced, if_pos heq, heq]
        exact replaceAll_hit '%' [x, y] [c] _
      · rw [replaced, if_neg heq]
        have hab : '%' ∉ [a, b] := by simp [Ne.symm ht.1, Ne.symm ht.2]
        refine replaceAll_pass hab ?_
        intro hstart
        simp at hstart
        exact heq (by rw [hstart.1, hstart.2])

theorem hexDigit_upperHex {d : Nat} (h : d < 16) : hexDigit (upperHex d) = some d := by
  have hall : ∀ d < 16, hexDigit (upperHex d) = some d := by decide
  exact hall d h

theorem escapeToken_eq_iff {m n : Nat} (hm : m < 16) (hn : n < 16) :
    escapeToken b = .escape (upperHex m) (upperHex n) ↔ b.toNat = 16 * m + n := by
  have hb := b.toNat_lt
  have hinj {i j : Nat} (hi : i < 16) (hj : j < 16) : upperHex i = upperHex j ↔ i = j := by
    constructor
    · intro h
      have hdigit := hexDigit_upperHex hi
      rw [h, hexDigit_upperHex hj] at hdigit
      exact (Option.some.inj hdigit).symm
    · exact congrArg upperHex
  rw [escapeToken, Token.escape.injEq, hinj (by omega) hm, hinj (by omega) hn]
  omega

theorem value_escapeToken (b : UInt8) : (escapeToken b).value = Token.ofByte b.toNat := by
  have hb := b.toNat_lt
  rw [escapeToken, Token.value, hexDigit_upperHex (by omega), hexDigit_upperHex (by omega)]
  show Token.ofByte (16 * (b.toNat / 16) + b.toNat % 16) = _
  rw [Nat.div_add_mod]

/-- The tokens of a character as they are when the variables are read: `$.param` has made a plus
sign of a space, and the script a slash of a backquote. -/
def sentTokens (t : Text) : List Token :=
  ((encodedTokens t).map (replaced '2' '0' '+')).map (replaced '6' '0' '/')

/-- What of a text is sent: all but newlines and NUL, and a slash for a backquote. -/
def sentChar (c : Char) : Text :=
  if c = '\n' ∨ c = '\x00' then [] else if c = '\x60' then ['/'] else [c]

def sent (t : Text) : Text := t.flatMap sentChar

theorem mem_encodedTokens {t : Text} {token : Token} (h : token ∈ encodedTokens t) :
    (∃ c, isUnreserved c = true ∧ token = .plain c) ∨
      ∃ b : UInt8, b.toNat ≠ 40 ∧ token = escapeToken b := by
  obtain ⟨c, -, hc⟩ := List.mem_flatMap.mp h
  unfold charTokens at hc
  split at hc
  · next hunreserved => exact Or.inl ⟨c, hunreserved, List.mem_singleton.mp hc⟩
  · next hreserved =>
    obtain ⟨b, hb, rfl⟩ := List.mem_map.mp hc
    refine Or.inr ⟨b, ?_, rfl⟩
    intro h40
    by_cases hascii : c.toNat < 0x80
    · rw [Js.Uri.utf8EncodeChar_ascii hascii, List.mem_singleton] at hb
      rw [hb, UInt8.toNat_ofNat', Nat.mod_eq_of_lt (by omega)] at h40
      have hparen : c = '(' := by
        rw [← Char.ofNat_toNat c, h40]
      rw [hparen] at hreserved
      exact hreserved rfl
    · have := Js.Uri.le_of_mem_utf8EncodeChar (by omega) hb
      omega

theorem value_sentToken (b : UInt8) :
    (replaced '6' '0' '/' (replaced '2' '0' '+' (escapeToken b))).value =
      if b.toNat = 0x20 then [' '] else if b.toNat = 0x60 then ['/'] else Token.ofByte b.toNat := by
  have hspace := escapeToken_eq_iff (b := b) (m := 2) (n := 0) (by decide) (by decide)
  have hquote := escapeToken_eq_iff (b := b) (m := 6) (n := 0) (by decide) (by decide)
  have h2 : upperHex 2 = '2' := rfl
  have h6 : upperHex 6 = '6' := rfl
  have h0 : upperHex 0 = '0' := rfl
  rw [h2, h0] at hspace
  rw [h6, h0] at hquote
  by_cases hb : b.toNat = 0x20
  · rw [if_pos hb, replaced, replaced, if_pos (hspace.mpr hb)]
    rfl
  · by_cases hb' : b.toNat = 0x60
    · rw [if_neg hb, if_pos hb', replaced, replaced, if_neg (mt hspace.mp hb),
        if_pos (hquote.mpr hb')]
      rfl
    · rw [if_neg hb, if_neg hb', replaced, replaced, if_neg (mt hspace.mp hb),
        if_neg (mt hquote.mp hb'), value_escapeToken]

theorem utf8_cons (c : Char) (t : Text) : utf8 (c :: t) = utf8 [c] ++ utf8 t := by simp [utf8]

theorem utf8_append (s t : Text) : utf8 (s ++ t) = utf8 s ++ utf8 t := by simp [utf8]

theorem utf8_ascii (h : c.toNat < 0x80) : utf8 [c] = [c] := by
  have hmod : c.toNat % 256 = c.toNat := Nat.mod_eq_of_lt (by omega)
  simp [utf8, Js.Uri.utf8EncodeChar_ascii h, hmod]

theorem valueOf_append (ts ts' : List Token) : valueOf (ts ++ ts') = valueOf ts ++ valueOf ts' := by
  simp [valueOf]

theorem sentTokens_cons (c : Char) (t : Text) :
    sentTokens (c :: t) = sentTokens [c] ++ sentTokens t := by
  simp [sentTokens, encodedTokens]

theorem valueOf_sentChar (c : Char) : valueOf (sentTokens [c]) = utf8 (sentChar c) := by
  have hsingle : sentTokens [c] =
      (charTokens c).map fun t => replaced '6' '0' '/' (replaced '2' '0' '+' t) := by
    simp [sentTokens, encodedTokens]
  cases hc : isUnreserved c with
  | true =>
    have hplus : c ≠ '+' := Js.Uri.isUnreserved_ne hc rfl
    have hnewline : c ≠ '\n' := Js.Uri.isUnreserved_ne hc rfl
    have hnul : c ≠ '\x00' := Js.Uri.isUnreserved_ne hc rfl
    have hquote : c ≠ '\x60' := Js.Uri.isUnreserved_ne hc rfl
    have hsent : sentChar c = [c] := by simp [sentChar, hnewline, hnul, hquote]
    rw [hsingle, hsent, utf8_ascii (Js.Uri.toNat_lt_of_isUnreserved hc)]
    simp [charTokens, hc, replaced, valueOf, Token.value, plusToSpace, hplus]
  | false =>
    have hvalue : valueOf (sentTokens [c]) = (utf8EncodeChar c).flatMap fun b =>
        if b.toNat = 0x20 then [' '] else if b.toNat = 0x60 then ['/']
        else Token.ofByte b.toNat := by
      simp only [hsingle, charTokens, hc, Bool.false_eq_true, if_false, valueOf, List.map_map,
        List.flatMap_map]
      congr 1
      funext b
      exact value_sentToken b
    rw [hvalue]
    by_cases hascii : c.toNat < 0x80
    · have hnat : (UInt8.ofNat c.toNat).toNat = c.toNat := by
        rw [UInt8.toNat_ofNat', Nat.mod_eq_of_lt (by omega)]
      have hne {n : Nat} (h : c ≠ Char.ofNat n) : c.toNat ≠ n := by
        intro hn
        exact h (hn ▸ (Char.ofNat_toNat c).symm)
      rw [Js.Uri.utf8EncodeChar_ascii hascii, List.flatMap_singleton, hnat]
      by_cases hspace : c = ' '
      · rw [hspace]
        rfl
      by_cases hquote : c = '\x60'
      · rw [hquote]
        rfl
      by_cases hnewline : c = '\n'
      · rw [hnewline]
        rfl
      by_cases hnul : c = '\x00'
      · rw [hnul]
        rfl
      have hsent : sentChar c = [c] := by simp [sentChar, hnewline, hnul, hquote]
      rw [if_neg (hne hspace), if_neg (hne hquote), hsent, utf8_ascii hascii, Token.ofByte,
        if_neg (not_or.mpr ⟨hne hnewline, hne hnul⟩), Char.ofNat_toNat]
    · have hsent : sentChar c = [c] := by
        have hne {d : Char} (hd : d.toNat < 0x80) : c ≠ d := by
          intro h
          exact hascii (h ▸ hd)
        simp [sentChar, hne (d := '\n') (by decide), hne (d := '\x00') (by decide),
          hne (d := '\x60') (by decide)]
      rw [hsent, utf8, List.flatMap_singleton, List.map_eq_flatMap]
      refine List.flatMap_congr fun b hb => ?_
      have hb := Js.Uri.le_of_mem_utf8EncodeChar (by omega) hb
      rw [if_neg (by omega), if_neg (by omega), Token.ofByte, if_neg (by omega)]

/-- The bytes that arrive. -/
theorem valueOf_sentTokens (t : Text) : valueOf (sentTokens t) = utf8 (sent t) := by
  induction t with
  | nil => rfl
  | cons c t ih =>
    have hsent : sent (c :: t) = sentChar c ++ sent t := rfl
    rw [sentTokens_cons, valueOf_append, ih, valueOf_sentChar, hsent, utf8_append]

/-- Tokens on which no replacement of the script but one of single escapes works. -/
structure Harmless (t : Token) : Prop where
  apart : Apart t
  paren : t ≠ .escape '2' '8'
  quote : '\x60' ∉ t.text
  dollar : '$' ∉ t.text

theorem harmless_plain (h : c ∉ ['%', '\x60', '$']) : Harmless (.plain c) := by
  simp only [List.mem_cons, not_or] at h
  refine ⟨h.1, Token.noConfusion, ?_, ?_⟩
  · simpa [Token.text, eq_comm] using h.2.1
  · simpa [Token.text, eq_comm] using h.2.2.1

theorem harmless_escape (hb : b.toNat ≠ 40) : Harmless (escapeToken b) := by
  have hlt := b.toNat_lt
  have hdigit {d : Nat} (hd : d < 16) {x : Char} (hx : hexDigit x = none) : upperHex d ≠ x := by
    intro h
    have := hexDigit_upperHex hd
    rw [h, hx] at this
    cases this
  have hhigh {x : Char} (hx : hexDigit x = none) := hdigit (d := b.toNat / 16) (by omega) hx
  have hlow {x : Char} (hx : hexDigit x = none) := hdigit (d := b.toNat % 16) (by omega) hx
  refine ⟨⟨hhigh rfl, hlow rfl⟩, ?_, ?_, ?_⟩
  · have hparen := (escapeToken_eq_iff (b := b) (m := 2) (n := 8) (by decide) (by decide)).mp
    exact fun h => hb (hparen h)
  · have hh : upperHex (b.toNat / 16) ≠ '\x60' := hhigh rfl
    have hl : upperHex (b.toNat % 16) ≠ '\x60' := hlow rfl
    simp [escapeToken, Token.text, Ne.symm hh, Ne.symm hl]
  · have hh : upperHex (b.toNat / 16) ≠ '$' := hhigh rfl
    have hl : upperHex (b.toNat % 16) ≠ '$' := hlow rfl
    simp [escapeToken, Token.text, Ne.symm hh, Ne.symm hl]

theorem harmless_replaced {t : Token} {x y d : Char} (ht : Harmless t)
    (hd : d ∉ ['%', '\x60', '$']) : Harmless (replaced x y d t) := by
  unfold replaced
  split
  · exact harmless_plain hd
  · exact ht

theorem harmless_encodedTokens {s : Text} {t : Token} (h : t ∈ encodedTokens s) : Harmless t := by
  rcases mem_encodedTokens h with ⟨c, hc, rfl⟩ | ⟨b, hb, rfl⟩
  · have hpercent : c ≠ '%' := Js.Uri.isUnreserved_ne hc rfl
    have hquote : c ≠ '\x60' := Js.Uri.isUnreserved_ne hc rfl
    have hdollar : c ≠ '$' := Js.Uri.isUnreserved_ne hc rfl
    exact harmless_plain (by simp [hpercent, hquote, hdollar])
  · exact harmless_escape hb

theorem replaceAll_parens (h : ∀ t ∈ ts, Harmless t) (r : Text) :
    replaceAll (text "%24%28") r (written ts) = written ts := by
  induction ts with
  | nil => rfl
  | cons t ts ih =>
    obtain ⟨ht, hts⟩ := List.forall_mem_cons.mp h
    have hpart : text "%24%28" = '%' :: ['2', '4', '%', '2', '8'] := rfl
    have hcons : written (t :: ts) = t.text ++ written ts := by simp [written]
    rw [hpart] at ih ⊢
    rw [hcons]
    cases t with
    | plain d =>
      have hd : '%' ∉ [d] := by simpa using Ne.symm ht.apart
      exact (replaceAll_free hd _).trans (congrArg _ (ih hts))
    | escape x y =>
      have hxy : '%' ∉ [x, y] := by simp [Ne.symm ht.apart.1, Ne.symm ht.apart.2]
      refine (replaceAll_pass hxy ?_).trans (congrArg _ (ih hts))
      -- the second escape would have to be one of an opening parenthesis
      intro hprefix
      simp only [List.cons_append, List.nil_append, List.cons_prefix_cons] at hprefix
      obtain ⟨-, -, hrest⟩ := hprefix
      cases ts with
      | nil => simp [written] at hrest
      | cons t' ts =>
        obtain ⟨ht', -⟩ := List.forall_mem_cons.mp hts
        cases t' with
        | plain d =>
          simp only [written, Token.text, List.flatMap_cons, List.cons_append,
            List.cons_prefix_cons] at hrest
          exact ht'.apart hrest.1.symm
        | escape x' y' =>
          simp only [written, Token.text, List.flatMap_cons, List.cons_append,
            List.cons_prefix_cons] at hrest
          exact ht'.paren (by rw [← hrest.2.1, ← hrest.2.2.1])

end Tokens

section Sent

variable {key t : Text}

/-- The tokens of a field with its key. -/
def fieldTokens (key : Text) (ts : List Token) : List Token := key.map .plain ++ .plain '=' :: ts

theorem written_fieldTokens (key : Text) (ts : List Token) :
    written (fieldTokens key ts) = Field.text ⟨key, ts⟩ := by
  have hkey : (key.map Token.plain).flatMap Token.text = key := by
    rw [List.flatMap_map]
    simp [Token.text]
  simp [fieldTokens, written, Field.text, hkey, Token.text]

theorem map_fieldTokens (key : Text) (ts : List Token) (x y c : Char) :
    (fieldTokens key ts).map (replaced x y c) = fieldTokens key (ts.map (replaced x y c)) := by
  simp [fieldTokens, replaced]

theorem encodeURIComponent_name (hk : isName key = true) : encodeURIComponent key = key := by
  have hall : ∀ c ∈ key, encodeChar c = [c] := by
    intro c hc
    have hname := mem_isName hk hc
    rw [isNameChar, Bool.or_eq_true, decide_eq_true_eq] at hname
    have hunreserved : isUnreserved c = true := by
      rcases hname with hname | rfl
      · exact Js.Uri.isUnreserved_alphanum hname
      · rfl
    rw [encodeChar, if_pos hunreserved]
  rw [encodeURIComponent, List.flatMap_congr hall]
  simp

theorem harmless_fieldTokens {ts : List Token} (hk : isName key = true)
    (h : ∀ t ∈ ts, Harmless t) : ∀ t ∈ fieldTokens key ts, Harmless t := by
  intro t ht
  rcases List.mem_append.mp ht with ht | ht
  · obtain ⟨c, hc, rfl⟩ := List.mem_map.mp ht
    have hne {d : Char} (hd : isNameChar d = false) : c ≠ d := by
      intro heq
      have := mem_isName hk hc
      rw [heq, hd] at this
      cases this
    have hpercent : c ≠ '%' := hne rfl
    have hquote : c ≠ '\x60' := hne rfl
    have hdollar : c ≠ '$' := hne rfl
    exact harmless_plain (by simp [hpercent, hquote, hdollar])
  · rcases List.mem_cons.mp ht with rfl | ht
    · exact harmless_plain (by decide)
    · exact h t ht

/-- What the replacements of the script make of what `$.param` gives. -/
theorem preventExecution_param (hk : isName key = true) (t : Text) :
    preventExecution (param key t) = formText [⟨key, sentTokens t⟩] := by
  have hencoded : ∀ u ∈ fieldTokens key (encodedTokens t), Harmless u :=
    harmless_fieldTokens hk fun u hu => harmless_encodedTokens hu
  have hplus : ∀ u ∈ fieldTokens key ((encodedTokens t).map (replaced '2' '0' '+')),
      Harmless u := by
    rw [← map_fieldTokens]
    intro u hu
    obtain ⟨v, hv, rfl⟩ := List.mem_map.mp hu
    exact harmless_replaced (hencoded v hv) (by decide)
  have hslash : ∀ u ∈ fieldTokens key (sentTokens t), Harmless u := by
    rw [sentTokens, ← map_fieldTokens]
    intro u hu
    obtain ⟨v, hv, rfl⟩ := List.mem_map.mp hu
    exact harmless_replaced (hplus v hv) (by decide)
  have hwritten : encodeURIComponent key ++ '=' :: encodeURIComponent t =
      written (fieldTokens key (encodedTokens t)) := by
    rw [written_fieldTokens, Field.text, written_encodedTokens, encodeURIComponent_name hk]
  have hparam : param key t =
      written (fieldTokens key ((encodedTokens t).map (replaced '2' '0' '+'))) := by
    rw [param, hwritten, ← map_fieldTokens]
    exact replaceAll_escape (fun u hu => (hencoded u hu).apart) '+'
  have hform : formText [⟨key, sentTokens t⟩] = written (fieldTokens key (sentTokens t)) := by
    rw [written_fieldTokens, formText]
    simp
  have hfirst : replaceAll (text "%60") (text "/") (param key t) =
      written (fieldTokens key (sentTokens t)) := by
    rw [hparam, sentTokens, ← map_fieldTokens key (List.map _ _)]
    exact replaceAll_escape (fun u hu => (hplus u hu).apart) '/'
  have hquote : replaceAll (text "\x60") (text "/") (written (fieldTokens key (sentTokens t))) =
      written (fieldTokens key (sentTokens t)) := by
    refine replaceAll_absent fun hmem => ?_
    obtain ⟨u, hu, hmem⟩ := List.mem_flatMap.mp hmem
    exact (hslash u hu).quote hmem
  have hdollar : replaceAll (text "$(") (text "/") (written (fieldTokens key (sentTokens t))) =
      written (fieldTokens key (sentTokens t)) := by
    refine replaceAll_absent fun hmem => ?_
    obtain ⟨u, hu, hmem⟩ := List.mem_flatMap.mp hmem
    exact (hslash u hu).dollar hmem
  rw [preventExecution, hfirst, hquote, hdollar, replaceAll_parens hslash, hform]

theorem sound_replaced {u : Token} {x y d : Char} (hu : u.Sound)
    (hd : Token.Sound (.plain d)) : (replaced x y d u).Sound := by
  unfold replaced
  split
  · exact hd
  · exact hu

theorem sound_sentTokens (t : Text) : ∀ u ∈ sentTokens t, u.Sound := by
  intro u hu
  obtain ⟨v, hv, rfl⟩ := List.mem_map.mp hu
  obtain ⟨w, hw, rfl⟩ := List.mem_map.mp hv
  refine sound_replaced (sound_replaced ?_ (by decide)) (by decide)
  rcases mem_encodedTokens hw with ⟨c, hc, rfl⟩ | ⟨b, -, rfl⟩
  · have hne {d : Char} (hd : isUnreserved d = false) : c ≠ d := Js.Uri.isUnreserved_ne hc hd
    simp only [Token.Sound, List.mem_cons, List.not_mem_nil, or_false, not_or]
    exact ⟨hne rfl, hne rfl, hne rfl, hne rfl, hne rfl, hne rfl, hne rfl, hne rfl⟩
  · have hb := b.toNat_lt
    rw [escapeToken, Token.Sound, hexDigit_upperHex (by omega), hexDigit_upperHex (by omega)]
    exact ⟨rfl, rfl⟩

/-- What `cgi_getvars GET path` makes of a path that is sent. -/
theorem cgiGetvars_param {glob : Text → List Text} {r : Request}
    (h : r.queryString = param (text "path") t) :
    cgiGetvars glob [text "path"] .get r =
      match quoted (echoed (utf8 (sent t))) with
      | some value => .ok [(text "path", value)]
      | none => .error .command := by
  have hname : isName (text "path") = true := by decide
  have hsound : ∀ f ∈ [Field.mk (text "path") (sentTokens t)], f.Sound := by
    intro f hf
    rw [List.mem_singleton.mp hf]
    exact ⟨hname, sound_sentTokens t⟩
  have hquery : preventExecution r.queryString =
      formText [⟨text "path", sentTokens t⟩] := by
    rw [h, preventExecution_param hname]
  have hcarries : Carries r [⟨text "path", sentTokens t⟩] .get := hquery
  rw [cgiGetvars_carries askable_path hsound hcarries, List.mapM_cons, List.mapM_nil, received,
    if_pos List.mem_cons_self, valueOf_sentTokens]
  cases quoted (echoed (utf8 (sent t))) <;> rfl

/-- Characters that come through: none of the syntax of the shell and of JSON, and no control. -/
def Plainly (c : Char) : Prop := 0x20 ≤ c.toNat ∧ c ∉ ['"', '\\', '$', '\x60']

instance : DecidablePred Plainly := fun _ => inferInstanceAs (Decidable (_ ∧ _))

theorem sent_eq (h : ∀ c ∈ t, Plainly c) : sent t = t := by
  have hchar : ∀ c ∈ t, sentChar c = [c] := by
    intro c hc
    obtain ⟨hcontrol, hspecial⟩ := h c hc
    have hnewline : c ≠ '\n' := by
      intro hc
      exact absurd hcontrol (by rw [hc]; decide)
    have hnul : c ≠ '\x00' := by
      intro hc
      exact absurd hcontrol (by rw [hc]; decide)
    simp only [List.mem_cons, not_or] at hspecial
    simp [sentChar, hnewline, hnul, hspecial]
  rw [sent, List.flatMap_congr hchar]
  simp

theorem mem_utf8 {c : Char} (hc : c ∈ utf8 t) : c ∈ t ∨ 0x80 ≤ c.toNat := by
  obtain ⟨d, hd, hc⟩ := List.mem_flatMap.mp hc
  by_cases hascii : d.toNat < 0x80
  · have hone : utf8 [d] = (utf8EncodeChar d).map fun b => Char.ofNat b.toNat := by simp [utf8]
    rw [← hone, utf8_ascii hascii, List.mem_singleton] at hc
    exact Or.inl (hc ▸ hd)
  · obtain ⟨b, hb, rfl⟩ := List.mem_map.mp hc
    have := Js.Uri.le_of_mem_utf8EncodeChar (by omega) hb
    exact Or.inr (by rw [toNat_byte b.toNat_lt]; exact this)

theorem quoted_eq (h : ∀ c ∈ t, c ∉ ['"', '\\', '$', '\x60']) : quoted t = some t := by
  induction t with
  | nil => rfl
  | cons c t ih =>
    obtain ⟨hc, ht⟩ := List.forall_mem_cons.mp h
    simp only [List.mem_cons, List.not_mem_nil, or_false, not_or] at hc
    rw [quoted]
    · simp [hc, ih ht]
    · simp [hc]

theorem ofUtf8_utf8 (t : Text) : ofUtf8 (utf8 t) = some t := by
  have hbytes : (utf8 t).map (fun c => UInt8.ofNat c.toNat) = t.flatMap utf8EncodeChar := by
    rw [utf8, List.map_flatMap]
    refine List.flatMap_congr fun c _ => ?_
    rw [List.map_map]
    refine (List.map_congr_left fun b _ => ?_).trans (List.map_id _)
    simp [toNat_byte b.toNat_lt]
  have hencode : (t.flatMap utf8EncodeChar).toByteArray = t.utf8Encode := rfl
  rw [ofUtf8, hbytes, hencode, String.fromUTF8?, dif_pos ByteArray.isValidUTF8_utf8Encode]
  show some (String.ofList t).toList = some t
  rw [String.toList_ofList]

/-- An address without a query of its own. -/
def NoQuery (url : Text) : Prop := '&' ∉ url ∧ '?' ∉ url

instance (url : Text) : Decidable (NoQuery url) := inferInstanceAs (Decidable (_ ∧ _))

theorem queryString_withQuery {url query : Text} {c : Char} (hurl : NoQuery url)
    (hc : c ≠ '&' ∧ c ≠ '?') :
    (getRequest (withQuery url (c :: query))).queryString = c :: query := by
  have hseparates : ∀ d ∈ url, (!(decide (d = '&') || decide (d = '?'))) = true := by
    intro d hd
    have hamp : d ≠ '&' := fun h => hurl.1 (h ▸ hd)
    have hquestion : d ≠ '?' := fun h => hurl.2 (h ▸ hd)
    simp [hamp, hquestion]
  have hquestion : ∀ d ∈ url, decide (d ≠ '?') = true := by
    intro d hd
    have hne : d ≠ '?' := fun h => hurl.2 (h ▸ hd)
    simp [hne]
  have haddress : withQuery url (c :: query) = url ++ '?' :: c :: query := by
    simp only [withQuery]
    rw [List.dropWhile_append_of_pos hseparates, List.takeWhile_append_of_pos hseparates]
    simp [hc.1, hc.2]
  show ((withQuery url (c :: query)).dropWhile (· ≠ '?')).drop 1 = _
  rw [haddress, List.dropWhile_append_of_pos hquestion]
  simp

theorem param_path (t : Text) : ∃ query, param (text "path") t = 'p' :: query := by
  have hkey : encodeURIComponent (text "path") = text "path" := by decide
  have hfree : '%' ∉ text "path" := by decide
  refine ⟨text "ath" ++ replaceAll (text "%20") (text "+") ('=' :: encodeURIComponent t), ?_⟩
  rw [param, hkey]
  exact replaceAll_free hfree _

variable {glob : Text → List Text} {endpoint : Text}

/-- The script is run with what the shell makes of the path that is sent. -/
theorem fetch_eq (script : Text → Response) (hendpoint : NoQuery endpoint) (uri : Text) :
    fetch glob script endpoint uri =
      ((quoted (echoed (utf8 (sent uri)))).bind ofUtf8).map fun path => answered (script path) := by
  obtain ⟨query, hquery⟩ := param_path uri
  have hrequest : (getRequest (withQuery endpoint (param (text "path") uri))).queryString =
      param (text "path") uri := by
    rw [hquery]
    exact queryString_withQuery hendpoint (by decide)
  rw [fetch, runScript, cgiGetvars_param hrequest]
  cases quoted (echoed (utf8 (sent uri))) with
  | none => rfl
  | some value =>
    have hvariable : variableOf (text "path") [(text "path", value)] = value := by
      simp [variableOf]
    simp only [hvariable, Option.bind_some, Option.map_map]
    rfl

theorem fetch_plainly (script : Text → Response) (hendpoint : NoQuery endpoint) {uri : Text}
    (h : ∀ c ∈ uri, Plainly c) (hslash : uri.head? = some '/') :
    fetch glob script endpoint uri = some (answered (script uri)) := by
  have hoption : isOption (utf8 uri) = false := by
    refine isOption_of_head ?_
    cases uri with
    | nil => cases hslash
    | cons c uri =>
      obtain rfl := Option.some.inj hslash
      rw [utf8_cons, utf8_ascii (by decide)]
      simp
  have hquoted : quoted (utf8 uri) = some (utf8 uri) := by
    refine quoted_eq fun c hc => ?_
    rcases mem_utf8 hc with hc | hc
    · exact (h c hc).2
    · intro hmem
      simp only [List.mem_cons, List.not_mem_nil, or_false] at hmem
      rcases hmem with rfl | rfl | rfl | rfl <;> exact absurd hc (by decide)
  rw [fetch_eq script hendpoint, sent_eq h, echoed, hoption, if_neg Bool.false_ne_true, hquoted,
    Option.bind_some, ofUtf8_utf8, Option.map_some]

end Sent

section Cat

open Js.Json

/-- What stands for itself in a string of JSON. -/
theorem run_plainly {ms : Option (List (List Nat × Value))} {us : List Nat} {stack : List Frame}
    {t : Text} (h : ∀ c ∈ t, Plainly c) :
    run ⟨.string ms us .plain, stack⟩ t = some ⟨.string ms (us ++ utf16 t) .plain, stack⟩ := by
  induction t generalizing us with
  | nil => simp
  | cons c t ih =>
    obtain ⟨⟨hcontrol, hspecial⟩, ht⟩ := List.forall_mem_cons.mp h
    simp only [List.mem_cons, not_or] at hspecial
    have hstep : step ⟨.string ms us .plain, stack⟩ c =
        some ⟨.string ms (us ++ utf16Char c) .plain, stack⟩ := by
      have hle : ¬c.toNat < 0x20 := by omega
      simp [step, stringStep, hspecial, hle]
    rw [run_cons, hstep, Option.bind_some, ih ht]
    simp

/-- The answer of `cat` is an object with the path and what the file holds. -/
theorem parse_cat (disk : Disk) {path : Text} (h : ∀ c ∈ path, Plainly c) :
    parse (cat disk path).body = some (.object [(utf16 (text "path"), .string (utf16 path)),
      (utf16 (text "value"),
        .string (utf16 (echoed (((disk path).map substitution).getD []))))]) := by
  obtain ⟨file, hfile⟩ : ∃ file, file = ((disk path).map substitution).getD [] := ⟨_, rfl⟩
  have hhead : (text "\x7b \"path\": \"" ++ path ++ text "\", \"value\": " ++ jsonEscape file ++
      text " \x7d").head? = some '\x7b' := rfl
  have hoption := isOption_of_head (t := text "\x7b \"path\": \"" ++ path ++
    text "\", \"value\": " ++ jsonEscape file ++ text " \x7d") (by rw [hhead]; decide)
  have hbody : (cat disk path).body = text "\x7b \"path\": \"" ++ (path ++
      (text "\", \"value\": " ++ (quote (echoed file) ++ (text " \x7d" ++ ['\n'])))) := by
    have hecho : (cat disk path).body = echo [text "\x7b \"path\": \"" ++ path ++
        text "\", \"value\": " ++ jsonEscape file ++ text " \x7d"] := by rw [cat, ← hfile]
    rw [hecho, echo_quoted hoption, jsonEscape_eq]
    simp only [List.append_assoc]
  have hopen : run ⟨.value, []⟩ (text "\x7b \"path\": \"") =
      some ⟨.string none [] .plain, [.object [] (utf16 (text "path"))]⟩ := rfl
  have hmiddle : run ⟨.string none (utf16 path) .plain, [.object [] (utf16 (text "path"))]⟩
      (text "\", \"value\": ") = some ⟨.value,
        [.object [(utf16 (text "path"), .string (utf16 path))] (utf16 (text "value"))]⟩ := rfl
  rw [parse, hbody, run_text hopen, run_text (run_plainly h), List.nil_append, run_text hmiddle,
    run_text (run_value_quote _), hfile]
  rfl

/-- What the shell gets of a file is what it holds, but for NUL and newlines at its end, and
nothing of a text that `echo` takes for an option. -/
theorem fetch_cat (glob : Text → List Text) (disk : Disk) (endpoint uri : Text)
    (hendpoint : NoQuery endpoint) (h : ∀ c ∈ uri, Plainly c) (hslash : uri.head? = some '/') :
    fetch glob (cat disk) endpoint uri = some ((disk uri).map fun file =>
      .object [(utf16 (text "path"), .string (utf16 uri)),
        (utf16 (text "value"), .string (utf16 (echoed (substitution file))))]) := by
  rw [fetch_plainly (cat disk) hendpoint h hslash]
  have hparse := parse_cat disk h
  cases hdisk : disk uri with
  | none =>
    have hstatus : (cat disk uri).status = 500 := by rw [cat, hdisk]; rfl
    simp [answered, hstatus]
  | some file =>
    have hstatus : (cat disk uri).status = 200 := by rw [cat, hdisk]; rfl
    rw [hdisk] at hparse
    simp [answered, hstatus, hparse]

theorem fetch_cat_note :
    fetch (fun _ => []) (cat fun path => if path = text "/a b%" then some (text "hi\n") else none)
        (text "/cgi-bin/cat") (text "/a b%") =
      some ((some (text "hi\n")).map fun file =>
        .object [(utf16 (text "path"), .string (utf16 (text "/a b%"))),
          (utf16 (text "value"), .string (utf16 (echoed (substitution file))))]) := by
  have hslash : (text "/a b%").head? = some '/' := rfl
  exact fetch_cat (fun _ => [])
    (fun path => if path = text "/a b%" then some (text "hi\n") else none) (text "/cgi-bin/cat")
    (text "/a b%") (by decide) (by decide) hslash

end Cat

end HackerUnion.Cgi
