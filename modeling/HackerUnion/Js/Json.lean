import HackerUnion.Js.Value

namespace Js.Json

/-- What a text denotes. Strings are the code units they have. -/
inductive Value where
  | null
  | bool (b : Bool)
  | number (token : List Char)
  | string (units : List Nat)
  | array (values : List Value)
  | object (members : List (List Nat × Value))

def utf16Char (c : Char) : List Nat :=
  if c.toNat < 0x10000 then [c.toNat]
  else [0xd800 + (c.toNat - 0x10000) / 0x400, 0xdc00 + (c.toNat - 0x10000) % 0x400]

def utf16 (t : List Char) : List Nat := t.flatMap utf16Char

/-- An array or an object that is not closed yet. -/
inductive Frame where
  | array (values : List Value)
  | object (members : List (List Nat × Value)) (key : List Nat)

/-- Where in an escape sequence of a string a text is. -/
inductive Escape where
  | plain
  | slash
  | hex (count value : Nat)

/-- What may come next: a value, the first value of an array or its end, the key of a member, a
colon, the rest of a string or of a bare token, or what follows a value. -/
inductive Mode where
  | value
  | first
  | key (members : List (List Nat × Value)) (first : Bool)
  | colon (members : List (List Nat × Value)) (key : List Nat)
  | string (members : Option (List (List Nat × Value))) (units : List Nat) (escape : Escape)
  | bare (token : List Char)
  | after (v : Value)

structure State where
  mode : Mode
  stack : List Frame

def isSpace (c : Char) : Bool := c = ' ' || c = '\t' || c = '\n' || c = '\r'

def simpleEscape (c : Char) : Option Nat :=
  [('"', 0x22), ('\\', 0x5c), ('/', 0x2f), ('b', 8), ('f', 12), ('n', 10), ('r', 13),
    ('t', 9)].lookup c

def skipDigits (t : List Char) : Option (List Char) :=
  if t.takeWhile Char.isDigit = [] then none else some (t.dropWhile Char.isDigit)

def skipSign (t : List Char) : List Char :=
  if t.head? = some '-' ∨ t.head? = some '+' then t.tail else t

def skipWhole (t : List Char) : Option (List Char) :=
  if t.head? = some '0' then some t.tail else skipDigits t

def skipFraction (t : List Char) : Option (List Char) :=
  if t.head? = some '.' then skipDigits t.tail else some t

def skipExponent (t : List Char) : Option (List Char) :=
  if t.head? = some 'e' ∨ t.head? = some 'E' then skipDigits (skipSign t.tail) else some t

def isNumber (t : List Char) : Bool :=
  (((skipWhole (if t.head? = some '-' then t.tail else t)).bind skipFraction).bind skipExponent).any
    (· = [])

/-- The value of a bare token. -/
def token (t : List Char) : Option Value :=
  if t = "null".toList then some .null
  else if t = "true".toList then some (.bool true)
  else if t = "false".toList then some (.bool false)
  else if isNumber t then some (.number t)
  else none

/-- A character of a number or of a word. -/
def isBare (c : Char) : Bool := c.isAlphanum || c = '-' || c = '+' || c = '.'

def begin (stack : List Frame) (c : Char) : Option State :=
  if c = '"' then some ⟨.string none [] .plain, stack⟩
  else if c = '[' then some ⟨.first, .array [] :: stack⟩
  else if c = '\x7b' then some ⟨.key [] true, stack⟩
  else if isBare c then some ⟨.bare [c], stack⟩
  else none

def next (v : Value) (stack : List Frame) (c : Char) : Option State :=
  if isSpace c then some ⟨.after v, stack⟩
  else
    match stack with
    | [] => none
    | .array vs :: rest =>
      if c = ',' then some ⟨.value, .array (vs ++ [v]) :: rest⟩
      else if c = ']' then some ⟨.after (.array (vs ++ [v])), rest⟩
      else none
    | .object ms k :: rest =>
      if c = ',' then some ⟨.key (ms ++ [(k, v)]) false, rest⟩
      else if c = '\x7d' then some ⟨.after (.object (ms ++ [(k, v)])), rest⟩
      else none

def closeString (stack : List Frame) (units : List Nat) :
    Option (List (List Nat × Value)) → State
  | none => ⟨.after (.string units), stack⟩
  | some ms => ⟨.colon ms units, stack⟩

def stringStep (stack : List Frame) (ms : Option (List (List Nat × Value))) (units : List Nat)
    (c : Char) : Escape → Option State
  | .plain =>
    if c = '"' then some (closeString stack units ms)
    else if c = '\\' then some ⟨.string ms units .slash, stack⟩
    else if c.toNat < 0x20 then none
    else some ⟨.string ms (units ++ utf16Char c) .plain, stack⟩
  | .slash =>
    if c = 'u' then some ⟨.string ms units (.hex 0 0), stack⟩
    else (simpleEscape c).map fun u => ⟨.string ms (units ++ [u]) .plain, stack⟩
  | .hex n v =>
    ((digit c).filter (· < 16)).map fun d =>
      if n = 3 then ⟨.string ms (units ++ [v * 16 + d]) .plain, stack⟩
      else ⟨.string ms units (.hex (n + 1) (v * 16 + d)), stack⟩

def step (s : State) (c : Char) : Option State :=
  match s.mode with
  | .value => if isSpace c then some s else begin s.stack c
  | .first =>
    if isSpace c then some s
    else if c = ']' then s.stack.tail?.map fun rest => ⟨.after (.array []), rest⟩
    else begin s.stack c
  | .key ms first =>
    if isSpace c then some s
    else if c = '"' then some ⟨.string (some ms) [] .plain, s.stack⟩
    else if c = '\x7d' ∧ first then some ⟨.after (.object []), s.stack⟩
    else none
  | .colon ms k =>
    if isSpace c then some s
    else if c = ':' then some ⟨.value, .object ms k :: s.stack⟩
    else none
  | .string ms units escape => stringStep s.stack ms units c escape
  | .bare t =>
    if isBare c then some ⟨.bare (t ++ [c]), s.stack⟩
    else (token t).bind fun v => next v s.stack c
  | .after v => next v s.stack c

def finish (s : State) : Option Value :=
  match s.stack, s.mode with
  | [], .after v => some v
  | [], .bare t => token t
  | _, _ => none

def run (s : State) (t : List Char) : Option State := t.foldlM step s

/-- `JSON.parse` -/
def parse (t : List Char) : Option Value := (run ⟨.value, []⟩ t).bind finish

/-- A member of an object: the last one of its name. -/
def Value.get (key : List Char) : Value → Option Value
  | .object ms => (ms.reverse.find? (·.1 = utf16 key)).map Prod.snd
  | _ => none

def Value.units : Value → Option (List Nat)
  | .string u => some u
  | _ => none

section Run

variable {s s' : State} {stack : List Frame}

@[simp] theorem run_nil (s : State) : run s [] = some s := rfl

@[simp] theorem run_cons (s : State) (c : Char) (t : List Char) :
    run s (c :: t) = (step s c).bind fun s' => run s' t := rfl

theorem run_append (s : State) (a b : List Char) :
    run s (a ++ b) = (run s a).bind fun s' => run s' b := by
  simp [run, List.foldlM_append]

theorem run_text (h : run s a = some s') (b : List Char) : run s (a ++ b) = run s' b := by
  rw [run_append, h]
  rfl

example : (parse "\x7b \"a\": [1, \"b\\u0063\"], \"d\": null \x7d\n".toList).isSome = true := by
  decide +kernel

theorem run_value_space (stack : List Frame) (t : List Char) :
    run ⟨.value, stack⟩ (' ' :: t) = run ⟨.value, stack⟩ t := rfl

/-- A quote opens a string, or is in one, or ends one. -/
theorem step_quote (h : step s '"' = some s') :
    (∃ ms u, s'.mode = .string ms u .plain) ∨ (∃ v, s'.mode = .after v) ∨
      ∃ ms k, s'.mode = .colon ms k := by
  have hnext (v : Value) (stack : List Frame) : next v stack '"' = none := by
    cases stack with
    | nil => rfl
    | cons frame rest => cases frame <;> rfl
  obtain ⟨mode, stack⟩ := s
  cases mode with
  | value =>
    obtain rfl := Option.some.inj h
    exact .inl ⟨none, [], rfl⟩
  | first =>
    obtain rfl := Option.some.inj h
    exact .inl ⟨none, [], rfl⟩
  | key ms first =>
    obtain rfl := Option.some.inj h
    exact .inl ⟨some ms, [], rfl⟩
  | colon ms k => cases h
  | string ms u escape =>
    cases escape with
    | plain =>
      obtain rfl := Option.some.inj h
      cases ms with
      | none => exact .inr (.inl ⟨.string u, rfl⟩)
      | some ms => exact .inr (.inr ⟨ms, u, rfl⟩)
    | slash =>
      obtain rfl := Option.some.inj h
      exact .inl ⟨ms, u ++ [0x22], rfl⟩
    | hex n v => cases h
  | bare t =>
    have hbare : isBare '"' = false := by decide
    simp [step, hbare, hnext] at h
  | after v => simp [step, hnext] at h

end Run

/-- A digit as it is printed. -/
def hexChar (d : Nat) : Char := Char.ofNat (if d < 10 then 48 + d else 87 + d)

def hex4 (n : Nat) : List Char :=
  [hexChar (n / 0x1000 % 16), hexChar (n / 0x100 % 16), hexChar (n / 0x10 % 16), hexChar (n % 16)]

/-- A character in a string of ASCII characters. -/
def quoteChar (c : Char) : List Char :=
  if c = '"' then ['\\', '"']
  else if c = '\\' then ['\\', '\\']
  else if c = '\n' then ['\\', 'n']
  else if c = '\r' then ['\\', 'r']
  else if c = '\t' then ['\\', 't']
  else if c = '\x0c' then ['\\', 'f']
  else if c = '\x08' then ['\\', 'b']
  else if 0x20 ≤ c.toNat ∧ c.toNat ≤ 0x7e then [c]
  else (utf16Char c).flatMap fun u => '\\' :: 'u' :: hex4 u

def quote (t : List Char) : List Char := '"' :: (t.flatMap quoteChar ++ ['"'])

section Quote

variable {stack : List Frame} {ms : Option (List (List Nat × Value))} {units : List Nat} {c : Char}

theorem digit_hexChar {d : Nat} (h : d < 16) :
    (digit (hexChar d)).filter (· < 16) = some d := by
  have hall : ∀ d : Fin 16, (digit (hexChar d)).filter (· < 16) = some (d : Nat) := by decide
  exact hall ⟨d, h⟩

theorem run_hex4 {n : Nat} (h : n < 0x10000) :
    run ⟨.string ms units (.hex 0 0), stack⟩ (hex4 n) =
      some ⟨.string ms (units ++ [n]) .plain, stack⟩ := by
  have hdigit (m : Nat) : (digit (hexChar (m % 16))).filter (· < 16) = some (m % 16) :=
    digit_hexChar (Nat.mod_lt m (by decide))
  have hvalue : (((n / 0x1000 % 16) * 16 + n / 0x100 % 16) * 16 + n / 0x10 % 16) * 16 + n % 16 =
      n := by omega
  simp [hex4, step, stringStep, hdigit, hvalue]

/-- Escapes of code units that follow each other. -/
theorem run_escapes {us : List Nat} (h : ∀ u ∈ us, u < 0x10000) :
    run ⟨.string ms units .plain, stack⟩ (us.flatMap fun u => '\\' :: 'u' :: hex4 u) =
      some ⟨.string ms (units ++ us) .plain, stack⟩ := by
  induction us generalizing units with
  | nil => simp
  | cons u us ih =>
    obtain ⟨hu, hus⟩ := List.forall_mem_cons.mp h
    have hfirst : run ⟨.string ms units .plain, stack⟩ ('\\' :: 'u' :: hex4 u) =
        some ⟨.string ms (units ++ [u]) .plain, stack⟩ := run_hex4 hu
    rw [List.flatMap_cons, run_text hfirst, ih hus, List.append_assoc, List.singleton_append]

@[simp] theorem utf16_nil : utf16 [] = [] := rfl

@[simp] theorem utf16_cons (c : Char) (t : List Char) :
    utf16 (c :: t) = utf16Char c ++ utf16 t := by
  simp [utf16]

theorem lt_of_mem_utf16Char {u : Nat} (h : u ∈ utf16Char c) : u < 0x10000 := by
  have hc : c.toNat < 0x110000 := by
    have hvalid : c.toNat < 0xd800 ∨ 0xdfff < c.toNat ∧ c.toNat < 0x110000 := c.valid
    omega
  unfold utf16Char at h
  split at h
  · simp at h
    omega
  · simp at h
    omega

theorem utf16Char_append_inj {d : Char} {a b : List Nat} (h : utf16Char c ++ a = utf16Char d ++ b) :
    c = d ∧ a = b := by
  have hc : c.toNat < 0xd800 ∨ 0xdfff < c.toNat ∧ c.toNat < 0x110000 := c.valid
  have hd : d.toNat < 0xd800 ∨ 0xdfff < d.toNat ∧ d.toNat < 0x110000 := d.valid
  have hchar (heq : c.toNat = d.toNat) : c = d := Char.toNat_inj.mp heq
  unfold utf16Char at h
  split at h <;> split at h
  · simp only [List.singleton_append, List.cons.injEq] at h
    exact ⟨hchar h.1, h.2⟩
  · simp only [List.cons_append, List.nil_append, List.cons.injEq] at h
    omega
  · simp only [List.cons_append, List.nil_append, List.cons.injEq] at h
    omega
  · simp only [List.cons_append, List.nil_append, List.cons.injEq] at h
    exact ⟨hchar (by omega), h.2.2⟩

/-- A text can be told from its code units. -/
theorem utf16_injective : Function.Injective utf16 := by
  intro s t h
  induction s generalizing t with
  | nil =>
    cases t with
    | nil => rfl
    | cons d t =>
      rw [utf16_nil, utf16_cons, utf16Char] at h
      split at h <;> simp at h
  | cons c s ih =>
    cases t with
    | nil =>
      rw [utf16_nil, utf16_cons, utf16Char] at h
      split at h <;> simp at h
    | cons d t =>
      rw [utf16_cons, utf16_cons] at h
      obtain ⟨rfl, hrest⟩ := utf16Char_append_inj h
      rw [ih hrest]

theorem run_quoteChar (c : Char) :
    run ⟨.string ms units .plain, stack⟩ (quoteChar c) =
      some ⟨.string ms (units ++ utf16Char c) .plain, stack⟩ := by
  unfold quoteChar
  split
  · rename_i h
    subst h
    rfl
  split
  · rename_i h
    subst h
    rfl
  split
  · rename_i h
    subst h
    rfl
  split
  · rename_i h
    subst h
    rfl
  split
  · rename_i h
    subst h
    rfl
  split
  · rename_i h
    subst h
    rfl
  split
  · rename_i h
    subst h
    rfl
  split
  · rename_i hquote hslash _ _ _ _ _ h
    have hlow : ¬c.toNat < 0x20 := by omega
    simp [step, stringStep, hquote, hslash, hlow]
  · exact run_escapes fun u hu => lt_of_mem_utf16Char hu

/-- A quoted text is read back. -/
theorem run_quote (t : List Char) :
    run ⟨.string ms units .plain, stack⟩ (t.flatMap quoteChar) =
      some ⟨.string ms (units ++ utf16 t) .plain, stack⟩ := by
  induction t generalizing units with
  | nil => simp
  | cons c t ih =>
    rw [List.flatMap_cons, run_text (run_quoteChar c), ih, utf16_cons, List.append_assoc]

theorem run_value_quote (t : List Char) :
    run ⟨.value, stack⟩ (quote t) = some ⟨.after (.string (utf16 t)), stack⟩ := by
  have hopen : run ⟨.value, stack⟩ ['"'] = some ⟨.string none [] .plain, stack⟩ := rfl
  rw [quote, ← List.singleton_append, run_text hopen, run_text (run_quote t), List.nil_append]
  rfl

end Quote

end Js.Json
