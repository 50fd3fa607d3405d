import HackerUnion.Cgi.Getvar
import HackerUnion.Listing.Ls

namespace HackerUnion.Cgi

open HackerUnion.Lists Bash Listing

/-- A part of a value in a query: a character, or the two digits of an escaped byte. -/
inductive Token where
  | plain (c : Char)
  | escape (h l : Char)
  deriving DecidableEq

namespace Token

def text : Token → Text
  | plain c => [c]
  | escape h l => ['%', h, l]

/-- The characters of the syntax are not to stand for themselves, and the digits are digits. -/
def Sound : Token → Prop
  | plain c => c ∉ ['%', '&', '[', '\\', ' ', '\t', '\n', '\x00']
  | escape h l => (hexDigit h).isSome = true ∧ (hexDigit l).isSome = true

/-- The character that a byte is. The newline and NUL do not get through. -/
def ofByte (n : Nat) : Text := if n = 10 ∨ n = 0 then [] else [Char.ofNat n]

def value : Token → Text
  | plain c => [plusToSpace c]
  | escape h l => ofByte (16 * (hexDigit h).getD 0 + (hexDigit l).getD 0)

instance : DecidablePred Sound := fun t =>
  match t with
  | plain _ => inferInstanceAs (Decidable (_ ∉ _))
  | escape _ _ => inferInstanceAs (Decidable (_ ∧ _))

end Token

def written (ts : List Token) : Text := ts.flatMap Token.text

def valueOf (ts : List Token) : Text := ts.flatMap Token.value

structure Field where
  key : Text
  value : List Token

def Field.text (f : Field) : Text := f.key ++ '=' :: written f.value

section Value

variable {glob : Text → List Text} {ts : List Token} {c h l : Char} {v : Text} {n : Nat}

theorem hexDigit_lt {d : Nat} (hd : hexDigit c = some d) : d < 16 := by
  unfold hexDigit at hd
  simp only [Char.isDigit, Char.le_def, UInt32.le_iff_toNat_le, ge_iff_le, Bool.and_eq_true,
    decide_eq_true_eq] at hd
  have hzero : '0'.toNat = 48 := rfl
  have hlower : 'a'.toNat = 97 := rfl
  have hupper : 'A'.toNat = 65 := rfl
  have hc : c.toNat = c.val.toNat := rfl
  split at hd
  · next hdigit =>
    have hle : c.val.toNat ≤ 57 := hdigit.2
    simp at hd
    omega
  split at hd
  · next hletter =>
    have hle : c.val.toNat ≤ 102 := hletter.2
    simp at hd
    omega
  split at hd
  · next hletter =>
    have hle : c.val.toNat ≤ 70 := hletter.2
    simp at hd
    omega
  · cases hd

/-- A digit has no other meaning. -/
theorem hexDigit_special (h : (hexDigit c).isSome = true) : isBlank c = false ∧
    c ∉ ['*', '?', '[', '\\', '+', '%', '&'] := by
  refine ⟨?_, ?_⟩
  · rw [Bool.eq_false_iff]
    intro hc
    simp only [isBlank, Bool.or_eq_true, decide_eq_true_eq] at hc
    rcases hc with (hc | hc) | hc <;> rw [hc] at h <;> cases h
  · intro hc
    simp only [List.mem_cons, List.not_mem_nil, or_false] at hc
    rcases hc with hc | hc | hc | hc | hc | hc | hc <;> rw [hc] at h <;> cases h

theorem toNat_byte (h : n < 256) : (Char.ofNat n).toNat = n := by
  have hvalid : n.isValidChar := Or.inl (by omega)
  rw [Char.ofNat, dif_pos hvalid]
  rfl

/-- A byte that is printed and captured. -/
theorem substitution_byte (h : n < 256) :
    substitution [Char.ofNat n, '\n'] = Token.ofByte n := by
  have heq (m : Nat) (hm : m < 256) : Char.ofNat n = Char.ofNat m ↔ n = m := by
    constructor
    · intro hc
      rw [← toNat_byte h, hc, toNat_byte hm]
    · exact congrArg Char.ofNat
  have hnewline := heq 10 (by decide)
  have hnul := heq 0 (by decide)
  rw [show Char.ofNat 10 = '\n' from rfl] at hnewline
  rw [show Char.ofNat 0 = '\x00' from rfl] at hnul
  by_cases hn : n = 0
  · simp [substitution, Token.ofByte, hn]
    rfl
  · by_cases hn' : n = 10
    · simp [substitution, Token.ofByte, hn']
      rfl
    · have hline : Line [Char.ofNat n] := by simpa [Line, eq_comm, hnewline] using hn'
      have hcapture := capture_append_newline [Char.ofNat n]
      rw [capture_line hline] at hcapture
      simp only [substitution, Token.ofByte, hn, hn', or_false, if_false]
      rw [List.filter_eq_self.mpr (by simp [hnul, hn])]
      exact hcapture

theorem decoded_hex {a b : Nat} (ha : hexDigit h = some a) (hb : hexDigit l = some b) :
    decoded glob [h, l] = Token.ofByte (16 * a + b) := by
  obtain ⟨hblank, hspecial⟩ := hexDigit_special (Option.isSome_of_mem ha)
  obtain ⟨hblank', hspecial'⟩ := hexDigit_special (Option.isSome_of_mem hb)
  have hwords : words ['\\', 'x', h, l] = [['\\', 'x', h, l]] := by
    refine words_word (by simp) fun c hc => ?_
    simp only [List.mem_cons, List.not_mem_nil, or_false] at hc
    rcases hc with rfl | rfl | rfl | rfl
    · rfl
    · rfl
    · exact hblank
    · exact hblank'
  have hpattern : isPattern ['\\', 'x', h, l] = false := by
    simp only [List.mem_cons, not_or] at hspecial hspecial'
    simp [isPattern, hspecial, hspecial']
  have hexpand : expand glob (text "\\x" ++ [h, l]) = [['\\', 'x', h, l]] := by
    have htext : text "\\x" ++ [h, l] = ['\\', 'x', h, l] := rfl
    simp [expand, htext, hwords, hpattern]
  have hdigits : digits 16 2 [h, l] (0, 0) = (a * 16 + b, 2) := by
    simp [digits, ha, hb, hexDigit_lt ha, hexDigit_lt hb]
  have hescape : escape ['x', h, l] = .char (Char.ofNat (a * 16 + b)) 3 := by
    have hnumbered : escape ['x', h, l] = numbered 16 2 [h, l] .none := rfl
    rw [hnumbered, numbered, hdigits]
    rfl
  have hunescape : unescape 0 ['\\', 'x', h, l] = ([Char.ofNat (a * 16 + b)], false) := by
    rw [unescape, if_pos rfl, hescape]
    rfl
  have hoption : isOption ['\\', 'x', h, l] = false := isOption_of_head (by simp)
  have hecho : echo [text "-e", ['\\', 'x', h, l]] = [Char.ofNat (a * 16 + b), '\n'] := by
    have hfirst : echo [text "-e", ['\\', 'x', h, l]] =
        echoWith ⟨true, true⟩ [['\\', 'x', h, l]] := rfl
    rw [hfirst, echoWith, if_neg (by simp [hoption])]
    simp [echoRest, hunescape]
  have hlt : a * 16 + b < 256 := by
    have := hexDigit_lt ha
    have := hexDigit_lt hb
    omega
  rw [decoded, hexpand, hecho, substitution_byte hlt, Nat.mul_comm]

variable (glob) in
/-- What is left of the tokens after the loop has gone over some of them, with the two percent
signs that end it. -/
theorem decodeLoop_written (hs : ∀ t ∈ ts, t.Sound) (rounds : Nat) (v : Text) :
    decodeLoop glob (ts.length + rounds + 2)
        ((written ts).map plusToSpace ++ text "%%") v = some (v ++ valueOf ts) := by
  induction ts generalizing rounds v with
  | nil =>
    rw [List.length_nil, Nat.zero_add]
    simpa [written, valueOf] using decodeLoop_end glob rounds v
  | cons t ts ih =>
    obtain ⟨ht, hts⟩ := List.forall_mem_cons.mp hs
    have hrest : ∃ s, (written ts).map plusToSpace ++ text "%%" = s ++ ['%', '%'] := ⟨_, rfl⟩
    obtain ⟨s, hrest⟩ := hrest
    cases t with
    | plain c =>
      simp only [Token.Sound, List.mem_cons, not_or] at ht
      have hc : plusToSpace c ≠ '%' := by
        unfold plusToSpace
        split
        · decide
        · exact ht.1
      have hshape : (written (.plain c :: ts)).map plusToSpace ++ text "%%" =
          plusToSpace c :: ((written ts).map plusToSpace ++ text "%%") := by
        simp [written, Token.text]
      have hlast : (written ts).map plusToSpace ++ text "%%" ≠ ['%'] := by
        rw [hrest]
        intro h
        have := congrArg List.length h
        simp at this
      have hmem : '%' ∈ (written ts).map plusToSpace ++ text "%%" := by simp [hrest]
      have hih := ih hts (rounds + 1) (v ++ [plusToSpace c])
      rw [hshape, List.length_cons, decodeLoop_char hc hmem hlast]
      rw [show ts.length + 1 + rounds + 1 + 1 = ts.length + (rounds + 1) + 2 by omega, hih]
      simp [valueOf, Token.value]
    | escape h l =>
      obtain ⟨a, ha⟩ := Option.isSome_iff_exists.mp ht.1
      obtain ⟨b, hb⟩ := Option.isSome_iff_exists.mp ht.2
      have hplus : plusToSpace '%' = '%' ∧ plusToSpace h = h ∧ plusToSpace l = l := by
        have hh := (hexDigit_special ht.1).2
        have hl := (hexDigit_special ht.2).2
        simp only [List.mem_cons, not_or] at hh hl
        simp [plusToSpace, hh, hl]
      have hshape : (written (.escape h l :: ts)).map plusToSpace ++ text "%%" =
          [] ++ '%' :: h :: l :: ((written ts).map plusToSpace ++ text "%%") := by
        simp [written, Token.text, hplus]
      have hih := ih hts rounds (v ++ decoded glob [h, l])
      rw [hshape, List.length_cons,
        show ts.length + 1 + rounds + 2 = ts.length + rounds + 2 + 1 by omega,
        decodeLoop_percent List.not_mem_nil (by simp), if_neg (by simp)]
      simp only [List.append_nil, List.drop_succ_cons, List.drop_zero, List.take_succ_cons,
        List.take_zero]
      rw [hih, decoded_hex ha hb]
      simp [valueOf, Token.value, ha, hb]

theorem cgiDecodevar_written (hs : ∀ t ∈ ts, t.Sound) :
    cgiDecodevar glob (written ts) = some (echo [valueOf ts]) := by
  have hlength : ts.length ≤ (written ts).length := by
    induction ts with
    | nil => exact le_refl _
    | cons t ts ih =>
      have ht : 1 ≤ t.text.length := by cases t <;> simp [Token.text]
      have hrest := ih (List.forall_mem_cons.mp hs).2
      have hcons : (written (t :: ts)).length = t.text.length + (written ts).length := by
        simp [written]
      rw [List.length_cons, hcons]
      omega
  have hloop := decodeLoop_written glob hs ((written ts).length + 1 - ts.length) []
  have hrounds : ((written ts).map plusToSpace ++ text "%%").length + 1 =
      ts.length + ((written ts).length + 1 - ts.length) + 2 := by
    rw [List.length_append, List.length_map]
    show (written ts).length + 2 + 1 = _
    omega
  rw [cgiDecodevar, hrounds, hloop]
  rfl

theorem mem_value {t : Token} (ht : t.Sound) (hc : c ∈ t.value) : c ≠ '\n' ∧ c ≠ '\x00' := by
  cases t with
  | plain d =>
    simp only [Token.Sound, List.mem_cons, not_or] at ht
    rw [Token.value, List.mem_singleton] at hc
    rw [hc]
    unfold plusToSpace
    split
    · decide
    · exact ⟨ht.2.2.2.2.2.2.1, ht.2.2.2.2.2.2.2.1⟩
  | escape h l =>
    obtain ⟨a, ha⟩ := Option.isSome_iff_exists.mp ht.1
    obtain ⟨b, hb⟩ := Option.isSome_iff_exists.mp ht.2
    have halt := hexDigit_lt ha
    have hblt := hexDigit_lt hb
    simp only [Token.value, ha, hb, Option.getD_some, Token.ofByte] at hc
    split at hc
    · cases hc
    · next hbyte =>
      rw [not_or] at hbyte
      have hnat := toNat_byte (n := 16 * a + b) (by omega)
      rw [← List.mem_singleton.mp hc] at hnat
      refine ⟨?_, ?_⟩
      · intro hnewline
        rw [hnewline] at hnat
        exact hbyte.1 hnat.symm
      · intro hnul
        rw [hnul] at hnat
        exact hbyte.2 hnat.symm

theorem mem_valueOf (hs : ∀ t ∈ ts, t.Sound) (hc : c ∈ valueOf ts) : c ≠ '\n' ∧ c ≠ '\x00' := by
  obtain ⟨t, ht, hc⟩ := List.mem_flatMap.mp hc
  exact mem_value (hs t ht) hc

theorem mem_echo {t : Text} (hc : c ∈ echo [t]) : c ∈ t ∨ c = '\n' := by
  cases ht : isOption t with
  | false =>
    rw [echo_quoted ht] at hc
    simpa using hc
  | true =>
    have hecho : echo [t] = echoRest (t.tail.foldl EchoOptions.set ⟨true, false⟩) [] := by
      rw [echo, echoWith, if_pos ht]
      rfl
    rw [hecho] at hc
    revert hc
    cases t.tail.foldl EchoOptions.set ⟨true, false⟩ with
    | mk newline escapes =>
      intro hc
      refine Or.inr ?_
      cases newline with
      | true => cases escapes <;> simpa [echoRest, unescape] using hc
      | false => cases escapes <;> simp [echoRest, unescape] at hc

theorem substitution_echo (hs : ∀ t ∈ ts, t.Sound) :
    substitution (echo [valueOf ts]) = echoed (valueOf ts) := by
  have hline : Line (valueOf ts) := fun hmem => (mem_valueOf hs hmem).1 rfl
  have hnul : (echo [valueOf ts]).filter (· ≠ '\x00') = echo [valueOf ts] := by
    refine List.filter_eq_self.mpr fun c hc => ?_
    rcases mem_echo hc with hc | hc
    · simpa using (mem_valueOf hs hc).2
    · rw [hc]
      rfl
  rw [substitution, hnul, capture_echo hline]
  rfl

end Value

section Requested

variable {names : List Text} {k t : Text} {p : Pattern}

/-- A text with no special character in it, as a pattern. -/
def literal (t : Text) : Pattern := t.map .char

theorem fits_literal (t s : Text) : (literal t).fits s = true ↔ s = t := by
  induction t generalizing s with
  | nil => simp [literal, Pattern.fits]
  | cons c t ih =>
    have hcons : literal (c :: t) = .char c :: literal t := rfl
    rw [hcons, Pattern.fits_char]
    constructor
    · intro h
      obtain ⟨r, hr, hfits⟩ := h
      rw [hr, (ih r).mp hfits]
    · intro hs
      exact ⟨t, hs, (ih t).mpr rfl⟩

/-- Something is erased where the text occurs. -/
theorem eraseMatch_eq_iff {c : Char} (k t : Text) :
    eraseMatch (literal (c :: k)) t = t ↔ ¬c :: k <:+: t := by
  induction t with
  | nil => simp [eraseMatch]
  | cons d t ih =>
    cases hlongest : (literal (c :: k)).longest (d :: t) with
    | some n =>
      have hfits := List.find?_some hlongest
      have htake : (d :: t).take n = c :: k := (fits_literal _ _).mp hfits
      have hprefix : c :: k <+: d :: t := htake ▸ List.take_prefix n (d :: t)
      have hlength := congrArg List.length htake
      rw [List.length_take, List.length_cons, List.length_cons] at hlength
      have hne : (d :: t).drop n ≠ d :: t := by
        intro heq
        have := congrArg List.length heq
        rw [List.length_drop, List.length_cons] at this
        omega
      simp [eraseMatch, hlongest, hne, hprefix.isInfix]
    | none =>
      have hprefix : ¬c :: k <+: d :: t := by
        intro hprefix
        have hnone := List.find?_eq_none.mp hlongest (k.length + 1) (by
          have := hprefix.length_le
          simp only [List.length_cons] at this
          simp
          omega)
        have htake := List.prefix_iff_eq_take.mp hprefix
        exact hnone ((fits_literal _ _).mpr htake.symm)
      simp [eraseMatch, hlongest, List.infix_cons_iff, hprefix, ih]

theorem infix_append_of_not_mem {c : Char} {k a b : Text} (ha : c ∉ a) :
    c :: k <:+: a ++ b ↔ c :: k <:+: b := by
  induction a with
  | nil => rfl
  | cons d a ih =>
    obtain ⟨hd, ha⟩ : c ≠ d ∧ c ∉ a := by simpa using ha
    rw [List.cons_append, List.infix_cons_iff, ih ha]
    simp [hd]

theorem requested_cons (n : Text) (names : List Text) (hne : names ≠ []) :
    requested (n :: names) = ' ' :: (n ++ requested names) := by
  rw [requested, requested, List.intercalate_cons_of_ne_nil hne]
  simp

theorem prefix_iff {n s : Text} (hk : ' ' ∉ k) (hn : ' ' ∉ n) :
    k ++ [' '] <+: n ++ ' ' :: s ↔ k = n := by
  constructor
  · intro ⟨r, hr⟩
    rw [List.append_assoc, List.singleton_append] at hr
    exact (append_cons_inj hk hn hr).1
  · intro h
    subst h
    exact ⟨s, by simp⟩

/-- A name with a space at either end is among the names exactly when it is one of them. -/
theorem requested_infix (hk : ' ' ∉ k) (hnames : ∀ n ∈ names, ' ' ∉ n) (hne : names ≠ []) :
    ' ' :: (k ++ [' ']) <:+: requested names ↔ k ∈ names := by
  induction names with
  | nil => exact absurd rfl hne
  | cons n names ih =>
    obtain ⟨hn, hrest⟩ := List.forall_mem_cons.mp hnames
    cases names with
    | nil =>
      have hone : requested [n] = ' ' :: (n ++ [' ']) := by simp [requested]
      have hnil : ¬(' ' :: (k ++ [' ']) <:+: [' ']) := by
        intro h
        have := h.length_le
        simp at this
      rw [hone, List.infix_cons_iff, infix_append_of_not_mem hn, List.cons_prefix_cons,
        prefix_iff hk hn]
      simp [hnil]
    | cons n' names =>
      have hcons : requested (n :: n' :: names) = ' ' :: (n ++ ' ' ::
          (List.intercalate [' '] (n' :: names) ++ [' '])) := requested_cons n _ (by simp)
      have htail : requested (n' :: names) = ' ' ::
          (List.intercalate [' '] (n' :: names) ++ [' ']) := rfl
      rw [hcons, List.infix_cons_iff, infix_append_of_not_mem hn, List.cons_prefix_cons,
        prefix_iff hk hn, ← htail, ih hrest (by simp)]
      simp

end Requested

section Read

variable {glob : Text → List Text} {names : List Text} {k : Text} {f : Field} {fields : List Field}
  {c : Char}

theorem isNameChar_special (h : isNameChar c = true) : c ≠ '&' ∧ c ≠ '=' ∧ c ≠ ' ' ∧ c ≠ '[' ∧
    c ≠ '\\' ∧ glob? c = some (.char c) ∧ isBlank c = false := by
  have hne {d : Char} (hd : isNameChar d = false) : c ≠ d := by
    intro hcd
    rw [hcd, hd] at h
    cases h
  have hstar : c ≠ '*' := hne rfl
  have hany : c ≠ '?' := hne rfl
  have hopen : c ≠ '[' := hne rfl
  have hslash : c ≠ '\\' := hne rfl
  have htab : c ≠ '\t' := hne rfl
  have hnewline : c ≠ '\n' := hne rfl
  have hspace : c ≠ ' ' := hne rfl
  refine ⟨hne rfl, hne rfl, hspace, hopen, hslash, ?_, ?_⟩
  · simp [glob?, hstar, hany, hopen, hslash]
  · simp [isBlank, hspace, htab, hnewline]

theorem mem_isName (hk : isName k = true) (hc : c ∈ k) : isNameChar c = true := by
  rw [isName, Bool.and_eq_true, List.all_eq_true] at hk
  exact hk.1 c hc

theorem pattern?_name (hk : isName k = true) : pattern? k = some (literal k) := by
  have hall : ∀ c ∈ k, glob? c = some (.char c) := fun c hc =>
    (isNameChar_special (mem_isName hk hc)).2.2.2.2.2.1
  clear hk
  induction k with
  | nil => rfl
  | cons c k ih =>
    obtain ⟨hc, hk⟩ := List.forall_mem_cons.mp hall
    have hrest := ih hk
    rw [pattern?] at hrest
    simp [pattern?, hc, hrest, literal]

/-- Variables that a script may ask for. -/
structure Askable (names : List Text) : Prop where
  ne_nil : names ≠ []
  not_all : names.head? ≠ some (Bash.text "ALL")
  no_space : ∀ n ∈ names, ' ' ∉ n
  free : ∀ n ∈ names, n ∉ ownVariables

theorem askable_path : Askable [Bash.text "path"] where
  ne_nil := List.cons_ne_nil _ _
  not_all := by decide
  no_space := by decide
  free := by decide

theorem isRequested_iff (hnames : Askable names) (hk : isName k = true) :
    isRequested names (literal k) = true ↔ k ∈ names := by
  have hspace : ' ' ∉ k := fun hmem => (isNameChar_special (mem_isName hk hmem)).2.2.1 rfl
  have hpattern : Glob.char ' ' :: (literal k ++ [.char ' ']) = literal (' ' :: (k ++ [' '])) := by
    simp [literal]
  rw [isRequested, hpattern, Bool.or_eq_true, decide_eq_true_eq, bne_iff_ne, Ne,
    eraseMatch_eq_iff, not_not, requested_infix hspace hnames.no_space hnames.ne_nil]
  simp [hnames.not_all]

/-- What comes of a field: an assignment, when it is asked for. -/
def received (names : List Text) (f : Field) : Except Trouble (List Assignment) :=
  if f.key ∈ names then
    match quoted (echoed (valueOf f.value)) with
    | some value => .ok [(f.key, value)]
    | none => .error .command
  else .ok []

structure Field.Sound (f : Field) : Prop where
  key : isName f.key = true
  value : ∀ t ∈ f.value, t.Sound

theorem readPart_text (hnames : Askable names) (hf : f.Sound) :
    readPart glob names f.text = received names f := by
  have heq : '=' ∉ f.key := fun hmem => (isNameChar_special (mem_isName hf.key hmem)).2.1 rfl
  have hkey : removeSuffix [.char '=', .star] f.text = f.key := removeSuffix_char heq _
  have hvalue : removePrefix [.star, .char '='] f.text = written f.value :=
    removePrefix_char heq _
  have hrequested := isRequested_iff hnames hf.key
  simp only [readPart, hkey, hvalue, pattern?_name hf.key, received]
  by_cases hmem : f.key ∈ names
  · rw [if_pos (hrequested.mpr hmem), if_pos hmem]
    have hown : (isName f.key && f.key ∉ ownVariables) = true := by
      simp [hf.key, hnames.free _ hmem]
    simp only [evaluate, cgiDecodevar_written hf.value, substitution_echo hf.value, hown, if_true]
    cases quoted (echoed (valueOf f.value)) <;> rfl
  · rw [if_neg (mt hrequested.mp hmem), if_neg hmem]

/-- No character of the syntax that ends a value, and none that `read` takes for more than
itself. -/
theorem mem_written {ts : List Token} (hs : ∀ t ∈ ts, t.Sound) (hc : c ∈ written ts) : c ≠ '&' ∧
    c ≠ '[' ∧ c ≠ '\\' ∧ isBlank c = false := by
  obtain ⟨t, ht, hc⟩ := List.mem_flatMap.mp hc
  have hsound := hs t ht
  cases t with
  | plain d =>
    rw [Token.text, List.mem_singleton] at hc
    rw [hc]
    simp only [Token.Sound, List.mem_cons, not_or] at hsound
    simp [isBlank, hsound]
  | escape h l =>
    have hdigit {d : Char} (hd : (hexDigit d).isSome = true) : d ≠ '&' ∧ d ≠ '[' ∧ d ≠ '\\' ∧
        isBlank d = false := by
      obtain ⟨hblank, hspecial⟩ := hexDigit_special hd
      simp only [List.mem_cons, not_or] at hspecial
      simp [hspecial, hblank]
    simp only [Token.text, List.mem_cons, List.not_mem_nil, or_false] at hc
    rcases hc with rfl | rfl | rfl
    · decide
    · exact hdigit hsound.1
    · exact hdigit hsound.2

theorem mem_text (hf : f.Sound) (hc : c ∈ f.text) : c ≠ '&' ∧ c ≠ '[' ∧ c ≠ '\\' ∧
    isBlank c = false := by
  rcases List.mem_append.mp hc with hc | hc
  · obtain ⟨hamp, -, -, hopen, hslash, -, hblank⟩ := isNameChar_special (mem_isName hf.key hc)
    exact ⟨hamp, hopen, hslash, hblank⟩
  · rcases List.mem_cons.mp hc with rfl | hc
    · decide
    · exact mem_written hf.value hc

/-- The fields of a form with `&` between them. -/
def formText (fields : List Field) : Text := List.intercalate ['&'] (fields.map Field.text)

theorem partsOf_formText (hf : ∀ f ∈ fields, f.Sound) :
    partsOf (formText fields) = fields.map Field.text := by
  cases fields with
  | nil => rfl
  | cons f rest =>
    have hne : formText (f :: rest) ≠ [] := by
      intro h
      have hmem : '=' ∈ formText (f :: rest) := by
        cases rest <;> simp [formText, Field.text]
      rw [h] at hmem
      cases hmem
    rw [partsOf, if_neg hne]
    refine List.splitOn_intercalate '&' (fun p hp => ?_) (by simp)
    obtain ⟨g, hg, rfl⟩ := List.mem_map.mp hp
    intro hmem
    exact (mem_text (hf g hg) hmem).1 rfl

theorem mapM_readPart (hnames : Askable names) (hf : ∀ f ∈ fields, f.Sound) :
    (fields.map Field.text).mapM (readPart glob names) = fields.mapM (received names) := by
  induction fields with
  | nil => rfl
  | cons f fields ih =>
    obtain ⟨hfirst, hrest⟩ := List.forall_mem_cons.mp hf
    rw [List.map_cons, List.mapM_cons, List.mapM_cons, readPart_text hnames hfirst, ih hrest]

theorem cgiGetvars_of_parts {method : Method} {r : Request} (hnames : Askable names)
    (hf : ∀ f ∈ fields, f.Sound) (hparts : queryParts method r = fields.map Field.text) :
    cgiGetvars glob names method r = (fields.mapM (received names)).map List.flatten := by
  have hopen : Unbracketed (query method r) := by
    rw [← joinParts_queryParts, hparts]
    intro c hc
    obtain ⟨p, hp, hc⟩ := List.mem_flatMap.mp hc
    obtain ⟨f, hmem, rfl⟩ := List.mem_map.mp hp
    rcases List.mem_append.mp hc with hc | hc
    · obtain ⟨-, hopen, hslash, -⟩ := mem_text (hf f hmem) hc
      exact ⟨hopen, hslash⟩
    · rw [List.mem_singleton.mp hc]
      decide
  rw [cgiGetvars_eq hnames.ne_nil hopen, hparts, mapM_readPart hnames hf]

/-- `read` takes the whole of a text in which nothing is special. -/
theorem readLine_eq {t : Text} (h : ∀ c ∈ t, c ≠ '\\' ∧ isBlank c = false) : readLine t = t := by
  have hline : Line t := fun hmem => absurd (h _ hmem).2 (by decide)
  have hslash : '\\' ∉ t := fun hmem => (h _ hmem).1 rfl
  have hplain : Plain t := ⟨hslash, fun c hc => (h c (List.mem_of_mem_head? hc)).2,
    fun c hc => (h c (List.mem_of_getLast? hc)).2⟩
  have hends : text "\n\n" = '\n' :: ['\n'] := rfl
  rw [readLine, hends, readLines_cons hline hslash, trim_plain hplain]
  rfl

/-- The query of a request is made of fields, once the replacements are made. -/
def Queried (r : Request) (fields : List Field) : Prop :=
  preventExecution r.queryString = formText fields

/-- The fields are posted, in one line of which `read` takes nothing away. -/
structure Posted (r : Request) (fields : List Field) : Prop where
  method : r.requestMethod = Bash.text "POST"
  length : r.contentLength ≠ []
  line : ∀ c ∈ r.input, c ≠ '\\' ∧ isBlank c = false
  form : preventExecution r.input = formText fields

def Carries (r : Request) (fields : List Field) : Method → Prop
  | .get => Queried r fields
  | .post => Posted r fields
  | .both => ∃ queried posted, fields = queried ++ posted ∧ Queried r queried ∧ Posted r posted

theorem partsOf_queried {r : Request} (h : Queried r fields) (hf : ∀ f ∈ fields, f.Sound) :
    partsOf (preventExecution r.queryString) = fields.map Field.text := by
  rw [h, partsOf_formText hf]

theorem partsOf_posted {r : Request} (h : Posted r fields) (hf : ∀ f ∈ fields, f.Sound) :
    partsOf (queryStringPost r) = fields.map Field.text := by
  rw [queryStringPost, if_pos ⟨h.method, h.length⟩, readLine_eq h.line, h.form,
    partsOf_formText hf]

theorem cgiGetvars_carries {method : Method} {r : Request} (hnames : Askable names)
    (hf : ∀ f ∈ fields, f.Sound) (h : Carries r fields method) :
    cgiGetvars glob names method r = (fields.mapM (received names)).map List.flatten := by
  refine cgiGetvars_of_parts hnames hf ?_
  cases method with
  | get => exact partsOf_queried h hf
  | post => exact partsOf_posted h hf
  | both =>
    obtain ⟨queried, posted, rfl, hqueried, hposted⟩ := h
    obtain ⟨hq, hp⟩ := List.forall_mem_append.mp hf
    rw [List.map_append, ← partsOf_queried hqueried hq, ← partsOf_posted hposted hp]
    rfl

/-- Only a variable that is asked for is ever set. -/
theorem mem_readPart {p : Text} {as : List Assignment} (hnames : Askable names)
    (h : readPart glob names p = .ok as) : ∀ a ∈ as, a.1 ∈ names := by
  unfold readPart at h
  dsimp only at h
  split at h
  · cases h
  · next key hkey =>
    split at h
    · next hrequested =>
      unfold evaluate at h
      split at h
      · cases h
      · split at h
        · next hname =>
          rw [Bool.and_eq_true] at hname
          rw [pattern?_name hname.1] at hkey
          obtain rfl := Option.some.inj hkey
          have hmem := (isRequested_iff hnames hname.1).mp hrequested
          split at h
          · cases h
            intro a ha
            rw [List.mem_singleton.mp ha]
            exact hmem
          · cases h
        · cases h
    · cases h
      simp

theorem mem_getvarsLoop {rounds : Nat} {q : Text} {as : List Assignment} (hnames : Askable names)
    (h : getvarsLoop glob names rounds q = .ok as) : ∀ a ∈ as, a.1 ∈ names := by
  induction rounds generalizing q as with
  | zero => cases h
  | succ rounds ih =>
    rw [getvarsLoop] at h
    split at h
    · cases h
      simp
    · dsimp only at h
      split at h
      · cases h
      · next part _ =>
        cases hread : readPart glob names (removeSuffix [.char '&', .star] q) with
        | error e =>
          rw [hread] at h
          cases h
        | ok first =>
          rw [hread] at h
          cases hrest : getvarsLoop glob names rounds
              (removePrefix (part ++ [.char '&', .star]) q) with
          | error e =>
            simp only [bind, Except.bind, hrest] at h
            cases h
          | ok rest =>
            simp only [bind, Except.bind, hrest] at h
            cases h
            intro a ha
            rcases List.mem_append.mp ha with ha | ha
            · exact mem_readPart hnames hread a ha
            · exact ih hrest a ha

/-- The parts of a request are read in their order, each of them once, the loops end, and no
variable is set that is not asked for. -/
theorem cgiGetvars_ends (glob : Text → List Text) (names : List Text) (method : Method)
    (r : Request) (hnames : Askable names) (h : Unbracketed (query method r)) :
    cgiGetvars glob names method r =
        ((queryParts method r).mapM (readPart glob names)).map List.flatten ∧
      cgiGetvars glob names method r ≠ .error .endless ∧
      ∀ as, cgiGetvars glob names method r = .ok as → ∀ a ∈ as, a.1 ∈ names := by
  refine ⟨cgiGetvars_eq hnames.ne_nil h, ?_, ?_⟩
  · intro hend
    cases cgiGetvars_error hnames.ne_nil h hend
  · intro as has
    rw [cgiGetvars, if_neg hnames.ne_nil] at has
    exact mem_getvarsLoop hnames has

theorem cgiGetvars_ends_path :
    Unbracketed (query .get ⟨Bash.text "path=%2Fa&b=1", Bash.text "GET", [], []⟩) ∧
      cgiGetvars (fun _ => []) [Bash.text "path"] .get
        ⟨Bash.text "path=%2Fa&b=1", Bash.text "GET", [], []⟩ ≠ .error .endless := by
  have hopen : Unbracketed (query .get ⟨Bash.text "path=%2Fa&b=1", Bash.text "GET", [], []⟩) := by
    decide +kernel
  exact ⟨hopen, (cgiGetvars_ends _ _ .get _ askable_path hopen).2.1⟩

/-- A value that can stand between quotes as it is. -/
def Quotes (f : Field) : Prop := quoted (valueOf f.value) = some (valueOf f.value)

/-- The assignments that come of the fields, when what is assigned to each variable asked for is
known. -/
theorem mapM_received {kept : Field → Text} (hkept : ∀ f ∈ fields, f.key ∈ names →
      quoted (echoed (valueOf f.value)) = some (kept f)) :
    (fields.mapM (received names)).map List.flatten =
      .ok ((fields.filter (·.key ∈ names)).map fun f => (f.key, kept f)) := by
  induction fields with
  | nil => rfl
  | cons f fields ih =>
    obtain ⟨hfirst, hrest⟩ := List.forall_mem_cons.mp hkept
    have hmap := ih hrest
    cases hfields : fields.mapM (received names) with
    | error e =>
      rw [hfields] at hmap
      cases hmap
    | ok as =>
      rw [hfields] at hmap
      have hflatten := Except.ok.inj hmap
      rw [List.mapM_cons, hfields, received]
      by_cases hmem : f.key ∈ names
      · rw [if_pos hmem, hfirst hmem, List.filter_cons_of_pos (by simpa using hmem),
          List.map_cons, ← hflatten]
        rfl
      · rw [if_neg hmem, List.filter_cons_of_neg (by simpa using hmem), ← hflatten]
        rfl

/-- The form that a request carries sets the variables asked for that are in it, in its order and to
the values that are written there, when none of these ends its quotes or is an option. -/
theorem cgiGetvars_form (glob : Text → List Text) (names : List Text) (fields : List Field)
    (method : Method) (r : Request) (hnames : Askable names) (hf : ∀ f ∈ fields, f.Sound)
    (h : Carries r fields method) (hquotes : ∀ f ∈ fields, f.key ∈ names →
      Quotes f ∧ isOption (valueOf f.value) = false) :
    cgiGetvars glob names method r =
      .ok ((fields.filter (·.key ∈ names)).map fun f => (f.key, valueOf f.value)) := by
  rw [cgiGetvars_carries hnames hf h]
  refine mapM_received fun f hmem hkey => ?_
  obtain ⟨hquote, hoption⟩ := hquotes f hmem hkey
  rwa [echoed, hoption, if_neg Bool.false_ne_true]

theorem cgiGetvars_form_path :
    cgiGetvars (fun _ => []) [Bash.text "path"] .get
        ⟨Bash.text "path=%2fa+b&b=1", Bash.text "GET", [], []⟩ =
      .ok [(Bash.text "path", Bash.text "/a b")] := by
  have hsound : ∀ f ∈ [Field.mk (Bash.text "path")
      [.escape '2' 'f', .plain 'a', .plain '+', .plain 'b'], Field.mk (Bash.text "b") [.plain '1']],
      f.Sound := by
    intro f hf
    simp only [List.mem_cons, List.not_mem_nil, or_false] at hf
    rcases hf with rfl | rfl
    · exact ⟨by decide, by decide⟩
    · exact ⟨by decide, by decide⟩
  have hquotes : ∀ f ∈ [Field.mk (Bash.text "path")
      [.escape '2' 'f', .plain 'a', .plain '+', .plain 'b'], Field.mk (Bash.text "b") [.plain '1']],
      f.key ∈ [Bash.text "path"] → Quotes f ∧ isOption (valueOf f.value) = false := by
    intro f hf hkey
    simp only [List.mem_cons, List.not_mem_nil, or_false] at hf
    rcases hf with rfl | rfl
    · exact ⟨by rw [Quotes]; decide +kernel, by decide⟩
    · exact absurd hkey (by decide)
  have hcarries : Carries ⟨Bash.text "path=%2fa+b&b=1", Bash.text "GET", [], []⟩
      [Field.mk (Bash.text "path") [.escape '2' 'f', .plain 'a', .plain '+', .plain 'b'],
        Field.mk (Bash.text "b") [.plain '1']] .get := by
    show preventExecution _ = _
    decide +kernel
  exact cgiGetvars_form _ _ _ .get _ askable_path hsound hcarries hquotes

end Read

end HackerUnion.Cgi
