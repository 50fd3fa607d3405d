import HackerUnion.Sbin.Save

namespace HackerUnion.Sbin

open Bash

section Plain
variable {t s : Text} {c : Char}

/-- What follows a text that no token goes across. -/
def Breaks (s : Text) : Prop := s.head? = some ' '

theorem takeWhile_breaks {p : Char → Bool} (hs : Breaks s) (hp : p ' ' = false) (t : Text) :
    (t ++ s).takeWhile p = t.takeWhile p := by
  obtain ⟨r, rfl⟩ : ∃ r, s = ' ' :: r := by
    cases s with
    | nil => cases hs
    | cons c r => exact ⟨r, by rw [Option.some.inj hs]⟩
  induction t with
  | nil => simp [hp]
  | cons d t ih => simp [List.takeWhile_cons, ih]

theorem head_breaks (hs : Breaks s) {d : Char} (hd : d ≠ ' ') (t : Text) :
    (t ++ s).head? = some d ↔ t.head? = some d := by
  cases t with
  | nil =>
    have hhead : s.head? = some ' ' := hs
    simp [hhead, hd.symm]
  | cons c t => rfl

theorem digitsLength_le (t : Text) : digitsLength t ≤ t.length :=
  (List.takeWhile_sublist _).length_le

theorem fractionLength_le (t : Text) : fractionLength t ≤ t.length := by
  have hdigits := digitsLength_le t.tail
  unfold fractionLength
  split
  · rename_i hhead
    cases t with
    | nil => cases hhead
    | cons c t =>
      simp at hdigits ⊢
      omega
  · omega

theorem exponentLength_le (t : Text) : exponentLength t ≤ t.length := by
  unfold exponentLength
  split
  · rename_i hhead
    have hdigits (n : Nat) := digitsLength_le (t.tail.drop n)
    cases t with
    | nil => simp at hhead
    | cons c t =>
      split
      · rename_i hsign
        have h1 := hdigits 1
        cases t with
        | nil => simp at hsign
        | cons d t =>
          simp at h1 ⊢
          omega
      · have h0 := hdigits 0
        simp at h0 ⊢
        omega
  · omega

theorem digitsLength_breaks (hs : Breaks s) (t : Text) :
    digitsLength (t ++ s) = digitsLength t := by
  rw [digitsLength, takeWhile_breaks hs (by decide)]
  rfl

theorem tail_breaks (hne : t ≠ []) (s : Text) : (t ++ s).tail = t.tail ++ s := by
  cases t with
  | nil => exact absurd rfl hne
  | cons c t => rfl

theorem fractionLength_breaks (hs : Breaks s) (t : Text) :
    fractionLength (t ++ s) = fractionLength t := by
  unfold fractionLength
  by_cases hhead : t.head? = some '.'
  · have hne : t ≠ [] := by
      rintro rfl
      cases hhead
    rw [if_pos hhead, if_pos ((head_breaks hs (by decide) t).mpr hhead), tail_breaks hne,
      digitsLength_breaks hs]
  · rw [if_neg hhead, if_neg (fun h => hhead ((head_breaks hs (by decide) t).mp h))]

theorem exponentLength_breaks (hs : Breaks s) (t : Text) :
    exponentLength (t ++ s) = exponentLength t := by
  by_cases hhead : t.head? = some 'e' ∨ t.head? = some 'E'
  · have hne : t ≠ [] := by
      rintro rfl
      simp at hhead
    have hlong : (t ++ s).head? = some 'e' ∨ (t ++ s).head? = some 'E' := by
      rwa [head_breaks hs (by decide), head_breaks hs (by decide)]
    have hdigits {n : Nat} (hn : n ≤ t.tail.length) :
        digitsLength ((t.tail ++ s).drop n) = digitsLength (t.tail.drop n) := by
      rw [List.drop_append_of_le_length hn, digitsLength_breaks hs]
    simp only [exponentLength, if_pos hhead, if_pos hlong, tail_breaks hne,
      head_breaks hs (show '+' ≠ ' ' by decide), head_breaks hs (show '-' ≠ ' ' by decide)]
    split
    · rename_i hsign
      have htail : 1 ≤ t.tail.length := by
        cases htail : t.tail with
        | nil => simp [htail] at hsign
        | cons c u => simp
      rw [hdigits htail]
    · rw [hdigits (Nat.zero_le _)]
  · have hlong : ¬ ((t ++ s).head? = some 'e' ∨ (t ++ s).head? = some 'E') := by
      rwa [head_breaks hs (by decide), head_breaks hs (by decide)]
    simp only [exponentLength, if_neg hhead, if_neg hlong]

/-- The sign and the whole part of a number. -/
def signLength (t : Text) : Nat := if t.head? = some '-' then 1 else 0

def wholeLength (t : Text) : Nat := if t.head? = some '0' then 1 else digitsLength t

theorem numberLength_eq (t : Text) : numberLength t =
    if wholeLength (t.drop (signLength t)) = 0 then 0
    else
      let n := signLength t + wholeLength (t.drop (signLength t))
      let n := n + fractionLength (t.drop n)
      n + exponentLength (t.drop n) := rfl

theorem signLength_le (t : Text) : signLength t ≤ t.length := by
  unfold signLength
  split
  · rename_i hhead
    cases t with
    | nil => cases hhead
    | cons c t => simp
  · omega

theorem wholeLength_le (t : Text) : wholeLength t ≤ t.length := by
  unfold wholeLength
  split
  · rename_i hhead
    cases t with
    | nil => cases hhead
    | cons c t => simp
  · exact digitsLength_le t

theorem signLength_breaks (hs : Breaks s) (t : Text) : signLength (t ++ s) = signLength t := by
  simp only [signLength, head_breaks hs (show '-' ≠ ' ' by decide)]

theorem wholeLength_breaks (hs : Breaks s) (t : Text) : wholeLength (t ++ s) = wholeLength t := by
  simp only [wholeLength, head_breaks hs (show '0' ≠ ' ' by decide), digitsLength_breaks hs]

/-- A part goes on where the one before it ends, within the text. -/
theorem part_le {f : Text → Nat} (hf : ∀ t, f t ≤ t.length) {n : Nat} (hn : n ≤ t.length) :
    n + f (t.drop n) ≤ t.length := by
  have hpart := hf (t.drop n)
  rw [List.length_drop] at hpart
  omega

theorem part_breaks {f : Text → Nat} (hf : ∀ t, f (t ++ s) = f t) {n : Nat}
    (hn : n ≤ t.length) : f ((t ++ s).drop n) = f (t.drop n) := by
  rw [List.drop_append_of_le_length hn, hf]

theorem numberLength_le (t : Text) : numberLength t ≤ t.length := by
  have hsign := signLength_le t
  have hwhole := part_le wholeLength_le hsign
  have hfraction := part_le fractionLength_le hwhole
  have hexponent := part_le exponentLength_le hfraction
  rw [numberLength_eq]
  split
  · omega
  · exact hexponent

theorem numberLength_breaks (hs : Breaks s) (t : Text) :
    numberLength (t ++ s) = numberLength t := by
  have hsign := signLength_le t
  have hwhole := part_le wholeLength_le hsign
  have hfraction := part_le fractionLength_le hwhole
  rw [numberLength_eq, numberLength_eq]
  simp only [signLength_breaks hs, part_breaks (wholeLength_breaks hs) hsign,
    part_breaks (fractionLength_breaks hs) hwhole, part_breaks (exponentLength_breaks hs) hfraction]

theorem isPrefixOf_breaks (hs : Breaks s) {p : Text} (hp : ' ' ∉ p) (t : Text) :
    p.isPrefixOf (t ++ s) = p.isPrefixOf t := by
  induction p generalizing t with
  | nil => simp
  | cons d p ih =>
    have hd : d ≠ ' ' := fun heq => hp (heq ▸ List.mem_cons_self)
    cases t with
    | nil =>
      cases s with
      | nil => rfl
      | cons c s =>
        have hc : c = ' ' := Option.some.inj hs
        simp [List.isPrefixOf, hc, hd]
    | cons c t =>
      have hrest := ih (fun hmem => hp (List.mem_cons_of_mem _ hmem)) t
      simp [List.isPrefixOf, hrest]

theorem keywordLength_breaks (hs : Breaks s) (t : Text) :
    keywordLength (t ++ s) = keywordLength t := by
  have hnull := isPrefixOf_breaks hs (show ' ' ∉ text "null" by decide) t
  have hfalse := isPrefixOf_breaks hs (show ' ' ∉ text "false" by decide) t
  have htrue := isPrefixOf_breaks hs (show ' ' ∉ text "true" by decide) t
  simp only [keywordLength, hnull, hfalse, htrue]

theorem keywordLength_le (t : Text) : keywordLength t ≤ t.length := by
  have hprefix {p : Text} (h : p.isPrefixOf t = true) : p.length ≤ t.length :=
    (List.isPrefixOf_iff_prefix.mp h).length_le
  unfold keywordLength
  split
  · exact hprefix ‹_›
  · split
    · exact hprefix ‹_›
    · split
      · exact hprefix ‹_›
      · omega

theorem matchLength_breaks (hs : Breaks s) (ht : ∀ c ∈ t, c ≠ '"' ∧ isSpace c = false)
    (hne : t ≠ []) : matchLength (t ++ s) = matchLength t ∧ matchLength t ≤ t.length := by
  obtain ⟨c, u, rfl⟩ := List.exists_cons_of_ne_nil hne
  obtain ⟨hquote, hspace⟩ := ht c List.mem_cons_self
  have hstring (v : Text) : stringLength (c :: v) = 0 := by simp [stringLength, hquote]
  have hspaces (v : Text) : (c :: v).takeWhile isSpace = [] := by
    rw [List.takeWhile_cons_of_neg (by simp [hspace])]
  have hnumber := numberLength_breaks hs (c :: u)
  have hkeyword := keywordLength_breaks hs (c :: u)
  have hnumberLe := numberLength_le (c :: u)
  have hkeywordLe := keywordLength_le (c :: u)
  rw [List.cons_append] at hnumber hkeyword ⊢
  simp only [matchLength, hstring, hspaces, hnumber, hkeyword]
  simp at hnumberLe hkeywordLe ⊢
  omega

/-- The tokens of a text without quotes and spaces end where a space follows. -/
theorem splitTokens_breaks (hs : Breaks s) (ht : ∀ c ∈ t, c ≠ '"' ∧ isSpace c = false) :
    splitTokens 0 (t ++ s) = splitTokens 0 t ++ splitTokens 0 s := by
  induction h : t.length using Nat.strong_induction_on generalizing t with
  | _ n ih =>
    cases t with
    | nil => rfl
    | cons c u =>
      obtain ⟨heq, hle⟩ := matchLength_breaks hs ht (List.cons_ne_nil c u)
      have hpos : 1 ≤ matchLength (c :: u) := by
        unfold matchLength
        omega
      have hrest : matchLength (c :: u) - 1 ≤ u.length := by
        simp at hle
        omega
      have hsub : ∀ d ∈ u.drop (matchLength (c :: u) - 1), d ≠ '"' ∧ isSpace d = false :=
        fun d hd => ht d (List.mem_cons_of_mem _ (List.mem_of_mem_drop hd))
      have hlater := ih (u.drop (matchLength (c :: u) - 1)).length
        (by rw [← h, List.length_drop, List.length_cons]; omega) hsub rfl
      rw [List.cons_append] at heq
      have hfirst : (c :: (u ++ s)).take (matchLength (c :: u)) =
          (c :: u).take (matchLength (c :: u)) := by
        rw [← List.cons_append, List.take_append_of_le_length hle]
      rw [List.cons_append, splitTokens, heq, splitTokens_skip _ (u ++ s), splitTokens,
        splitTokens_skip _ u, List.drop_append_of_le_length hrest, hlater, hfirst,
        List.cons_append]

theorem tokens_breaks (hs : Breaks s) (ht : ∀ c ∈ t, c ≠ '"' ∧ isSpace c = false) :
    tokens (t ++ s) = tokens t ++ tokens s := by
  rw [tokens, splitTokens_breaks hs ht, List.filter_append]
  rfl

theorem mem_splitTokens {n : Nat} {token : Text} (h : token ∈ splitTokens n t) :
    ∀ c ∈ token, c ∈ t := by
  induction t generalizing n with
  | nil => cases n <;> cases h
  | cons d t ih =>
    intro c hc
    cases n with
    | zero =>
      rcases List.mem_cons.mp h with rfl | h
      · exact List.mem_of_mem_take hc
      · exact List.mem_cons_of_mem _ (ih h c hc)
    | succ n => exact List.mem_cons_of_mem _ (ih h c hc)

theorem mem_tokens {token : Text} (h : token ∈ tokens t) : ∀ c ∈ token, c ∈ t :=
  mem_splitTokens (List.mem_filter.mp h).1

/-- The first token of a text without spaces. -/
theorem tokens_first (ht : ∀ c ∈ t, c ≠ '"' ∧ isSpace c = false) (hne : t ≠ []) :
    ∃ ts, tokens t = t.take (matchLength t) :: ts := by
  obtain ⟨c, u, rfl⟩ := List.exists_cons_of_ne_nil hne
  have hpos : 1 ≤ matchLength (c :: u) := by
    unfold matchLength
    omega
  obtain ⟨n, hn⟩ : ∃ n, matchLength (c :: u) = n + 1 := ⟨matchLength (c :: u) - 1, by omega⟩
  have hspace : ((c :: u).take (matchLength (c :: u))).all isSpace = false := by
    rw [hn, List.take_succ_cons, List.all_cons, (ht c List.mem_cons_self).2, Bool.false_and]
  rw [tokens, splitTokens, List.filter_cons_of_pos (by simp [hspace])]
  exact ⟨_, rfl⟩

/-- The characters of numbers and keywords. -/
def isValueChar (c : Char) : Bool := c.isDigit || c.isLower || c ∈ ['-', '+', '.', 'E']

theorem take_part {f : Text → Nat} {n : Nat}
    (hf : ∀ t : Text, ∀ c ∈ t.take (f t), isValueChar c = true)
    (hn : ∀ c ∈ t.take n, isValueChar c = true) :
    ∀ c ∈ t.take (n + f (t.drop n)), isValueChar c = true := by
  intro c hc
  rw [List.take_add, List.mem_append] at hc
  rcases hc with hc | hc
  · exact hn c hc
  · exact hf _ c hc

theorem digits_chars (t : Text) : ∀ c ∈ t.take (digitsLength t), isValueChar c = true := by
  intro c hc
  have hprefix := List.prefix_iff_eq_take.mp (List.takeWhile_prefix Char.isDigit (l := t))
  rw [digitsLength, ← hprefix] at hc
  have hdigit := List.mem_takeWhile_imp hc
  simp [isValueChar, hdigit]

theorem head_chars {d : Char} (hhead : t.head? = some d) (hd : isValueChar d = true) :
    ∀ c ∈ t.take 1, isValueChar c = true := by
  cases t with
  | nil => cases hhead
  | cons e t =>
    cases hhead
    simpa using hd

theorem sign_chars (t : Text) : ∀ c ∈ t.take (signLength t), isValueChar c = true := by
  unfold signLength
  split
  · exact head_chars ‹_› (by decide)
  · simp

theorem whole_chars (t : Text) : ∀ c ∈ t.take (wholeLength t), isValueChar c = true := by
  unfold wholeLength
  split
  · exact head_chars ‹_› (by decide)
  · exact digits_chars t

theorem fraction_chars (t : Text) : ∀ c ∈ t.take (fractionLength t), isValueChar c = true := by
  unfold fractionLength
  split
  · rename_i hhead
    have hpart := take_part (t := t) (n := 1) digits_chars (head_chars hhead (by decide))
    rwa [List.drop_one] at hpart
  · simp

theorem exponent_chars (t : Text) : ∀ c ∈ t.take (exponentLength t), isValueChar c = true := by
  unfold exponentLength
  split
  · rename_i hhead
    have hmark : ∀ c ∈ t.take 1, isValueChar c = true := by
      rcases hhead with hhead | hhead
      · exact head_chars hhead (by decide)
      · exact head_chars hhead (by decide)
    split
    · rename_i hsign
      have hboth : ∀ c ∈ t.take (1 + 1), isValueChar c = true := by
        intro c hc
        rw [List.take_add, List.mem_append, List.drop_one] at hc
        rcases hc with hc | hc
        · exact hmark c hc
        · rcases hsign with hsign | hsign
          · exact head_chars hsign (by decide) c hc
          · exact head_chars hsign (by decide) c hc
      have hpart := take_part digits_chars hboth
      rwa [List.drop_add_one_eq_tail_drop, List.drop_one, ← List.drop_one] at hpart
    · have hpart := take_part digits_chars hmark
      rwa [List.drop_one] at hpart
  · simp

theorem number_chars (t : Text) : ∀ c ∈ t.take (numberLength t), isValueChar c = true := by
  rw [numberLength_eq]
  split
  · simp
  · exact take_part exponent_chars (take_part fraction_chars (take_part whole_chars (sign_chars t)))

theorem keyword_chars (t : Text) : ∀ c ∈ t.take (keywordLength t), isValueChar c = true := by
  have hprefix {p : Text} (h : p.isPrefixOf t = true) (hp : p.all isValueChar = true) :
      ∀ c ∈ t.take p.length, isValueChar c = true := by
    rw [← List.prefix_iff_eq_take.mp (List.isPrefixOf_iff_prefix.mp h)]
    exact List.all_eq_true.mp hp
  unfold keywordLength
  split
  · exact hprefix ‹_› (by decide)
  · split
    · exact hprefix ‹_› (by decide)
    · split
      · exact hprefix ‹_› (by decide)
      · simp

/-- A value that is not quoted is a number or a keyword. -/
theorem value_chars (ht : ∀ c ∈ t, c ≠ '"' ∧ isSpace c = false)
    (hvalue : isNoValue (t.take (matchLength t)) = false) :
    ∀ c ∈ t.take (matchLength t), isValueChar c = true := by
  cases t with
  | nil => simp
  | cons c u =>
    obtain ⟨hquote, hspace⟩ := ht c List.mem_cons_self
    have hmatch : matchLength (c :: u) =
        max (numberLength (c :: u)) (max (keywordLength (c :: u)) 1) := by
      have hstring : stringLength (c :: u) = 0 := by simp [stringLength, hquote]
      rw [matchLength, hstring, List.takeWhile_cons_of_neg (by simp [hspace]), List.length_nil]
      omega
    have hcases : matchLength (c :: u) = numberLength (c :: u) ∨
        matchLength (c :: u) = keywordLength (c :: u) ∨ matchLength (c :: u) = 1 := by omega
    rcases hcases with heq | heq | heq
    · rw [heq]
      exact number_chars _
    · rw [heq]
      exact keyword_chars _
    · rw [heq] at hvalue ⊢
      have hdigit : c.isDigit = true := by simpa [isNoValue] using hvalue
      simp [isValueChar, hdigit]

end Plain

section Stops

/-- The tokens are those of an object of which this is printed under a path before something is
thrown. -/
structure Stops (tokens : List Text) (out : Text → List Text) : Prop where
  opens : tokens.head? = some (text "\x7b")
  value : ∀ calls path rest, 3 * tokens.length ≤ calls →
    readToken (tokens ++ rest) (parseValue calls path) = (out path, none)

/-- The tokens of members of an object that go before others. -/
def front (members : List Member) : List Text := members.flatMap (fun m => m.all ++ [text ","])

variable {members : List Member} {ts rest : List Text} {key path : Text} {calls : Nat}
  {out : Text → List Text} {values : List (List Text × (Text → List Text))}

theorem front_cons (m : Member) (members : List Member) (rest : List Text) :
    front (m :: members) ++ rest =
      m.key :: text ":" :: (m.tokens ++ text "," :: (front members ++ rest)) := by
  simp [front, Member.all]

/-- The members at the front of an object are read one after the other. -/
theorem parseMembers_front (path : Text) (rest : List Text) (hmembers : ∀ m ∈ members, m.Sound)
    (hcalls : ∀ m ∈ members, 3 * m.tokens.length ≤ calls) :
    readToken (front members ++ rest) (parseMembers (calls + members.length) path) =
      (membersOut path members ++ (readToken rest (parseMembers calls path)).1,
        (readToken rest (parseMembers calls path)).2) := by
  induction members with
  | nil => rfl
  | cons m members ih =>
    obtain ⟨hkey, hvalue⟩ := hmembers m List.mem_cons_self
    have hfits : 3 * m.tokens.length ≤ calls + members.length := by
      have hm := hcalls m List.mem_cons_self
      omega
    have hrest := ih (fun m hm => hmembers m (List.mem_cons_of_mem _ hm))
      fun m hm => hcalls m (List.mem_cons_of_mem _ hm)
    rw [front_cons, readToken_cons, List.length_cons, ← Nat.add_assoc, parseMembers,
      if_neg (by simp [hkey]), readToken_cons, if_neg (by simp), hvalue.then hfits, readToken_cons,
      if_neg (by decide), if_pos rfl, hrest]
    simp [membersOut]

/-- What is printed of a value that is put in without quotes. -/
def frontOut : List Text → Text → List Text
  | [], _ => []
  | token :: _, path => if isNoValue token then [] else leafOut token path

/-- The tokens are one value. -/
def isOne : List Text → Bool
  | [token] => !isNoValue token
  | _ => false

/-- No token is quoted or a bracket. -/
def BareTokens (ts : List Text) : Prop :=
  ∀ token ∈ ts, isQuoted token = false ∧ token ∉ [text "\x7b", text "[", text "\x7d"]

/-- Where an object has something else than one value, it is not read further. -/
theorem parseMembers_stops (path : Text) (rest : List Text) (calls : Nat) (hts : BareTokens ts)
    (hone : isOne ts = false) (hkey : isQuoted key = true) :
    readToken (key :: text ":" :: (ts ++ text "\x7d" :: rest)) (parseMembers (calls + 2) path) =
      (frontOut ts (extend path key), none) := by
  rw [readToken_cons, parseMembers, if_neg (by simp [hkey]), readToken_cons, if_neg (by simp)]
  cases ts with
  | nil =>
    rw [List.nil_append, readToken_cons, parseValue, if_neg (by decide), if_neg (by decide),
      if_pos (by decide)]
    rfl
  | cons token ts =>
    have htoken := (hts token List.mem_cons_self).2
    simp only [List.mem_cons, List.not_mem_nil, or_false, not_or] at htoken
    rw [List.cons_append, readToken_cons, parseValue, if_neg htoken.1, if_neg htoken.2.1]
    cases hvalue : isNoValue token with
    | true =>
      rw [if_pos rfl, frontOut, hvalue, if_pos rfl]
      rfl
    | false =>
      have hprinted : (if token = text "\"\"" then ([], some (ts ++ text "\x7d" :: rest))
          else (['[' :: extend path key ++ text "]\t" ++ token],
            some (ts ++ text "\x7d" :: rest)) : Parsed) =
          (leafOut token (extend path key), some (ts ++ text "\x7d" :: rest)) := by
        rw [leafOut]
        split <;> rfl
      rw [if_neg (by simp), hprinted, Parsed.then_some, frontOut, hvalue,
        if_neg Bool.false_ne_true]
      cases ts with
      | nil => simp [isOne, hvalue] at hone
      | cons token' ts =>
        have htoken' := (hts token' (by simp)).2
        simp only [List.mem_cons, List.not_mem_nil, or_false, not_or] at htoken'
        rw [List.cons_append, readToken_cons, if_neg htoken'.2.2]
        by_cases hcomma : token' = text ","
        · have hnext : ∀ token'' more, ts ++ text "\x7d" :: rest = token'' :: more →
              isQuoted token'' = false := by
            intro token'' more heq
            cases ts with
            | nil =>
              cases heq
              decide
            | cons t ts =>
              cases heq
              exact (hts token'' (by simp)).1
          obtain ⟨token'', more, heq⟩ := List.exists_cons_of_ne_nil
            (show ts ++ text "\x7d" :: rest ≠ [] by simp)
          rw [if_pos hcomma, heq, readToken_cons, parseMembers,
            if_pos (by simp [hnext token'' more heq])]
          simp
        · rw [if_neg hcomma]
          simp

theorem length_front (members : List Member) :
    members.length ≤ (front members).length ∧
      ∀ m ∈ members, m.tokens.length + members.length ≤ (front members).length := by
  induction members with
  | nil => simp
  | cons m members ih =>
    have hcons : (front (m :: members)).length = m.tokens.length + 3 + (front members).length := by
      simp [front, Member.all]
      omega
    rw [hcons, List.length_cons]
    refine ⟨by omega, fun m' hm' => ?_⟩
    rcases List.mem_cons.mp hm' with rfl | hm'
    · omega
    · have hrest := ih.2 m' hm'
      omega

theorem Stops.object (members : List Member) (hmembers : ∀ m ∈ members, m.Sound)
    (hne : members ≠ []) (hts : BareTokens ts) (hone : isOne ts = false)
    (hkey : isQuoted key = true) :
    Stops (text "\x7b" :: (front members ++ key :: text ":" :: (ts ++ [text "\x7d"])))
      (fun path => membersOut path members ++ frontOut ts (extend path key)) where
  opens := rfl
  value calls path rest hcalls := by
    obtain ⟨hlength, hlengths⟩ := length_front members
    simp only [List.length_cons, List.length_append, List.length_nil] at hcalls
    obtain ⟨n, rfl⟩ : ∃ n, calls = n + 2 + members.length + 2 :=
      ⟨calls - members.length - 4, by omega⟩
    obtain ⟨m, members, rfl⟩ := List.exists_cons_of_ne_nil hne
    have hclose : m.key ≠ text "\x7d" := by
      intro heq
      have hquoted := (hmembers m List.mem_cons_self).key
      rw [heq] at hquoted
      cases hquoted
    have hfits : ∀ m' ∈ m :: members, 3 * m'.tokens.length ≤ n + 2 := by
      intro m' hm'
      have hm := hlengths m' hm'
      omega
    have hread := parseMembers_front path (key :: text ":" :: (ts ++ text "\x7d" :: rest)) hmembers
      hfits
    rw [parseMembers_stops path rest n hts hone hkey, front_cons, readToken_cons] at hread
    have happend : text "\x7b" :: (front (m :: members) ++ key :: text ":" ::
        (ts ++ [text "\x7d"])) ++ rest =
          text "\x7b" :: (front (m :: members) ++
            key :: text ":" :: (ts ++ text "\x7d" :: rest)) := by
      simp
    rw [happend, readToken_cons, parseValue, if_pos rfl, parseObject, front_cons, readToken_cons,
      if_neg hclose]
    exact hread

/-- The tokens of values that go before others. -/
def frontValues (values : List (List Text × (Text → List Text))) : List Text :=
  values.flatMap (fun v => v.1 ++ [text ","])

theorem parseElements_stops (path : Text) (rest : List Text) (hvalues : ∀ v ∈ values, Reads v.1 v.2)
    (hstop : Stops ts out) (index : Nat)
    (hcalls : 3 * ((frontValues values).length + ts.length) + 1 ≤ calls) :
    readToken (frontValues values ++ (ts ++ rest)) (parseElements calls path index) =
      (elementsOut path index (values.map Prod.snd ++ [out]), none) := by
  induction values generalizing calls index with
  | nil =>
    have hlength : 3 * ts.length + 1 ≤ calls := by
      simp only [frontValues, List.flatMap_nil, List.length_nil] at hcalls
      omega
    obtain ⟨n, rfl⟩ : ∃ n, calls = n + 1 := ⟨calls - 1, by omega⟩
    have hfits : 3 * ts.length ≤ n := by omega
    have hvalue := hstop.value n (extend path (decimal index)) rest hfits
    obtain ⟨token, tokens, rfl⟩ : ∃ token tokens, ts = token :: tokens := by
      cases ts with
      | nil => cases hstop.opens
      | cons token tokens => exact ⟨token, tokens, rfl⟩
    rw [List.cons_append, readToken_cons] at hvalue
    have hnil : frontValues [] ++ (token :: tokens ++ rest) = token :: (tokens ++ rest) := rfl
    rw [hnil, readToken_cons, parseElements, hvalue]
    simp [Parsed.then, elementsOut]
  | cons v values ih =>
    have hcons : (frontValues (v :: values)).length =
        v.1.length + 1 + (frontValues values).length := by
      simp [frontValues]
      omega
    rw [hcons] at hcalls
    obtain ⟨n, rfl⟩ : ∃ n, calls = n + 1 := ⟨calls - 1, by omega⟩
    have hfits : 3 * v.1.length ≤ n := by omega
    have hrest := ih (fun v hv => hvalues v (List.mem_cons_of_mem _ hv)) (index + 1)
      (show _ ≤ n by omega)
    have happend : frontValues (v :: values) ++ (ts ++ rest) =
        v.1 ++ text "," :: (frontValues values ++ (ts ++ rest)) := by
      simp [frontValues]
    simp only [happend, parseElements]
    rw [(hvalues v List.mem_cons_self).then hfits, readToken_cons, if_neg (by decide), if_pos rfl,
      hrest]
    simp [elementsOut]

/-- An array is printed up to the entry at which something is thrown. -/
theorem json_stops {t : Text} (hvalues : ∀ v ∈ values, Reads v.1 v.2) (hstop : Stops ts out)
    (h : tokenize t = text "[" :: (frontValues values ++ (ts ++ rest))) :
    json t = unlines (elementsOut [] 0 (values.map Prod.snd ++ [out])) := by
  have hlength : (tokenize t).length =
      (frontValues values).length + ts.length + rest.length + 1 := by
    simp [h]
    omega
  obtain ⟨n, hn⟩ : ∃ n, 3 * (tokenize t).length + 3 = n + 2 :=
    ⟨3 * (tokenize t).length + 1, by omega⟩
  have hread := parseElements_stops [] rest hvalues hstop 0 (show _ ≤ n by omega)
  have hopen : ∀ token ∈ (frontValues values ++ (ts ++ rest)).head?, token ≠ text "]" := by
    intro token htoken
    cases values with
    | nil =>
      have hne : ts ≠ [] := by
        rintro rfl
        cases hstop.opens
      rw [frontValues, List.flatMap_nil, List.nil_append, List.head?_append_of_ne_nil _ hne,
        hstop.opens] at htoken
      rw [← Option.some.inj htoken]
      decide
    | cons v values =>
      have hv := hvalues v List.mem_cons_self
      rw [frontValues, List.flatMap_cons, List.append_assoc, List.append_assoc,
        List.head?_append_of_ne_nil _ hv.ne_nil] at htoken
      exact hv.head_ne htoken
  cases htokens : frontValues values ++ (ts ++ rest) with
  | nil =>
    have hlen := congrArg List.length htokens
    cases ts with
    | nil => cases hstop.opens
    | cons token ts => simp at hlen
  | cons token tokens =>
    rw [htokens] at hread hopen h
    have hvalue : parseValue (n + 2) [] (text "[") (token :: tokens) =
        (elementsOut [] 0 (values.map Prod.snd ++ [out]), none) := by
      rw [parseValue, if_neg (by decide), if_pos rfl, parseArray, readToken_cons,
        if_neg (hopen token rfl)]
      exact hread
    rw [json, parse, hn, h, readToken_cons, hvalue]
    rfl

end Stops

section Object

variable {members : List (Text × Val)} {name t : Text}

def memberText (m : Text × Val) : Text := '"' :: m.1 ++ '"' :: ':' :: ' ' :: m.2.text

theorem objectText_concat (members : List (Text × Val)) (m : Text × Val) :
    objectText (members ++ [m]) =
      '\x7b' :: ' ' :: (members.flatMap (fun m => memberText m ++ [',', ' ']) ++
        (memberText m ++ [' ', '\x7d'])) := by
  have hflat : (members.map memberText).flatMap (· ++ [',', ' ']) =
      members.flatMap (fun m => memberText m ++ [',', ' ']) := List.flatMap_map ..
  have hobject : objectText (members ++ [m]) = '\x7b' :: ' ' :: List.intercalate [',', ' ']
      ((members ++ [m]).map memberText) ++ [' ', '\x7d'] := rfl
  rw [hobject, List.map_append, List.map_singleton, Lists.intercalate_concat, hflat]
  simp

theorem tokens_front (h : ∀ m ∈ members, SoundMember m) (rest : Text) :
    tokens (members.flatMap (fun m => memberText m ++ [',', ' ']) ++ rest) =
      front (members.map memberOf) ++ tokens rest := by
  induction members with
  | nil => rfl
  | cons m members ih =>
    have hm := (h m List.mem_cons_self).spelt.tokens
    have hrest := ih fun m hm => h m (List.mem_cons_of_mem _ hm)
    have happend : (m :: members).flatMap (fun m => memberText m ++ [',', ' ']) ++ rest =
        ('"' :: m.1 ++ '"' :: ':' :: ' ' :: m.2.text) ++
          ',' :: ' ' :: (members.flatMap (fun m => memberText m ++ [',', ' ']) ++ rest) := by
      simp [memberText]
    rw [happend, hm, tokens_mark (by decide), tokens_space, hrest, List.map_cons, front_cons]
    simp [Member.all]
    rfl

/-- The tokens of an object whose last value is put in without quotes. -/
def unquotedTokens (members : List (Text × Val)) (name t : Text) : List Text :=
  text "\x7b" :: (front (members.map memberOf) ++
    ('"' :: name ++ ['"']) :: text ":" :: (tokens t ++ [text "\x7d"]))

theorem tokens_unquoted (h : ∀ m ∈ members, SoundMember m) (hname : isStringBody false name = true)
    (ht : ∀ c ∈ t, c ≠ '"' ∧ isSpace c = false) (rest : Text) :
    tokens (objectText (members ++ [(name, .one t)]) ++ rest) =
      unquotedTokens members name t ++ tokens rest := by
  have hkey : tokens (memberText (name, .one t) ++ [' ', '\x7d'] ++ rest) =
      ('"' :: name ++ ['"']) :: text ":" :: (tokens t ++ text "\x7d" :: tokens rest) := by
    have hquoted := tokens_quoted ⟨name, hname⟩
    have hbreaks : Breaks (' ' :: '\x7d' :: rest) := rfl
    have happend : memberText (name, .one t) ++ [' ', '\x7d'] ++ rest =
        (⟨name, hname⟩ : Literal).quoted ++ ':' :: ' ' :: (t ++ ' ' :: '\x7d' :: rest) := by
      simp [memberText, Val.text, Literal.quoted]
    rw [happend, hquoted, tokens_mark (by decide), tokens_space, tokens_breaks hbreaks ht,
      tokens_space, tokens_mark (by decide)]
    rfl
  rw [objectText_concat, List.cons_append, List.cons_append, tokens_mark (by decide), tokens_space,
    List.append_assoc, tokens_front h, hkey]
  simp [unquotedTokens]
  rfl

theorem isEntry_unquoted (h : ∀ m ∈ members, SoundMember m) (hslash : ∀ m ∈ members, '\\' ∉ m.1)
    (hname : isStringBody false name = true) (hbare : '\\' ∉ name)
    (ht : ∀ c ∈ t, c ≠ '"' ∧ isSpace c = false) (htbare : '\\' ∉ t) :
    IsEntry (objectText (members ++ [(name, .one t)])) (unquotedTokens members name t) where
  opens := rfl
  closes := by simp [objectText, List.getLast?_cons]
  line := by
    have hline : Line t := fun hmem => absurd (ht _ hmem).2 (by decide)
    apply not_mem_objectText _ (by decide)
    intro m hm
    rcases List.mem_append.mp hm with hm | hm
    · exact ⟨(⟨m.1, (h m hm).key⟩ : Literal).line,
        fun t ht => ((h m hm).value.scalars t ht).line⟩
    · rw [List.mem_singleton.mp hm]
      exact ⟨(⟨name, hname⟩ : Literal).line, fun t' ht' => List.mem_singleton.mp ht' ▸ hline⟩
  bare := by
    apply not_mem_objectText _ (by decide)
    intro m hm
    rcases List.mem_append.mp hm with hm | hm
    · exact ⟨hslash m hm, fun t ht => ((h m hm).value.scalars t ht).bare⟩
    · rw [List.mem_singleton.mp hm]
      exact ⟨hbare, fun t' ht' => List.mem_singleton.mp ht' ▸ htbare⟩
  tokens := tokens_unquoted h hname ht

/-- Values that go before another have a comma after each. -/
theorem commas_front (values : List (List Text)) (ts : List Text) (others : List (List Text)) :
    ∃ rest, commas (values ++ ts :: others) = values.flatMap (· ++ [text ","]) ++ (ts ++ rest) := by
  induction values with
  | nil =>
    cases others with
    | nil => exact ⟨[], by simp [commas_singleton]⟩
    | cons ts' others =>
      exact ⟨text "," :: commas (ts' :: others), by rw [List.nil_append, commas_cons_cons]; rfl⟩
  | cons ts' values ih =>
    obtain ⟨rest, hrest⟩ := ih
    obtain ⟨ts'', values', hcons⟩ := List.exists_cons_of_ne_nil
      (show values ++ ts :: others ≠ [] by simp)
    refine ⟨rest, ?_⟩
    rw [hcons] at hrest
    rw [List.cons_append, hcons, commas_cons_cons, hrest, List.flatMap_cons]
    simp

theorem commas_concat (values : List (List Text)) (ts : List Text) :
    commas (values ++ [ts]) = values.flatMap (· ++ [text ","]) ++ ts := by
  induction values with
  | nil => exact commas_singleton ts
  | cons ts' values ih =>
    obtain ⟨ts'', values', hcons⟩ := List.exists_cons_of_ne_nil (show values ++ [ts] ≠ [] by simp)
    rw [hcons] at ih
    rw [List.cons_append, hcons, commas_cons_cons, ih, List.flatMap_cons]
    simp

/-- What is printed of an object whose last value is put in without quotes. -/
def unquotedOut (members : List (Text × Val)) (name t path : Text) : List Text :=
  objectOut members path ++ frontOut (tokens t) (extend path ('"' :: name ++ ['"']))

/-- Where the last value is one, the object is read as any other. -/
theorem reads_unquoted (h : ∀ m ∈ members, SoundMember m) (hts : BareTokens (tokens t))
    (hone : isOne (tokens t) = true) :
    Reads (unquotedTokens members name t) (unquotedOut members name t) := by
  obtain ⟨token, htokens, hvalue⟩ : ∃ token, tokens t = [token] ∧ isNoValue token = false := by
    unfold isOne at hone
    split at hone
    · rename_i token heq
      exact ⟨token, heq, by simpa using hone⟩
    · cases hone
  have htoken := (hts token (by simp [htokens])).2
  simp only [List.mem_cons, List.not_mem_nil, or_false, not_or] at htoken
  let last : Member := ⟨'"' :: name ++ ['"'], [token], leafOut token⟩
  have hlast : last.Sound :=
    ⟨by simp [last, isQuoted, List.getLast?_cons], .leaf ⟨htoken.1, htoken.2.1, hvalue⟩⟩
  have hobject := Reads.object (members.map memberOf ++ [last]) (by
      intro p hp
      rcases List.mem_append.mp hp with hp | hp
      · obtain ⟨m, hm, rfl⟩ := List.mem_map.mp hp
        exact (h m hm).sound
      · rw [List.mem_singleton.mp hp]
        exact hlast)
  have htext : text "\x7b" :: commas ((members.map memberOf ++ [last]).map Member.all) ++
      [text "\x7d"] = unquotedTokens members name t := by
    rw [List.map_append, List.map_singleton, commas_concat, List.flatMap_map, unquotedTokens,
      htokens]
    simp [front, Member.all, last]
  have hout : (fun path => membersOut path (members.map memberOf ++ [last])) =
      unquotedOut members name t := by
    funext path
    simp [membersOut, unquotedOut, objectOut, htokens, frontOut, hvalue, last]
  rw [htext, hout] at hobject
  exact hobject

/-- Where it is not, nothing is read after it. -/
theorem stops_unquoted (h : ∀ m ∈ members, SoundMember m) (hne : members ≠ [])
    (hts : BareTokens (tokens t)) (hone : isOne (tokens t) = false) :
    Stops (unquotedTokens members name t) (unquotedOut members name t) := by
  apply Stops.object (members.map memberOf) _ _ hts hone
  · simp [isQuoted, List.getLast?_cons]
  · intro p hp
    obtain ⟨m, hm, rfl⟩ := List.mem_map.mp hp
    exact (h m hm).sound
  · simpa using hne

end Object

end HackerUnion.Sbin
