import HackerUnion.Js.Json

namespace Js.Json

def isHigh (u : Nat) : Bool := 0xd800 ≤ u && u < 0xdc00

def isLow (u : Nat) : Bool := 0xdc00 ≤ u && u < 0xe000

/-- A code unit in a string. One that is half a character is written in digits. -/
def escapeUnit (u : Nat) : List Char :=
  if u = 0x22 then ['\\', '"']
  else if u = 0x5c then ['\\', '\\']
  else if u = 8 then ['\\', 'b']
  else if u = 9 then ['\\', 't']
  else if u = 10 then ['\\', 'n']
  else if u = 12 then ['\\', 'f']
  else if u = 13 then ['\\', 'r']
  else if u < 0x20 ∨ isHigh u ∨ isLow u then '\\' :: 'u' :: hex4 u
  else [Char.ofNat u]

/-- The character of two code units. -/
def pairChar (u v : Nat) : Char := Char.ofNat (0x10000 + (u - 0xd800) * 0x400 + (v - 0xdc00))

def quoteUnits : List Nat → List Char
  | [] => []
  | [u] => escapeUnit u
  | u :: v :: us =>
    if isHigh u && isLow v then pairChar u v :: quoteUnits us
    else escapeUnit u ++ quoteUnits (v :: us)

def quoteString (us : List Nat) : List Char := '"' :: (quoteUnits us ++ ['"'])

mutual

/-- `JSON.stringify` -/
def stringify : Value → List Char
  | .null => "null".toList
  | .bool b => (if b then "true" else "false").toList
  | .number t => t
  | .string us => quoteString us
  | .array vs => '[' :: (elements vs ++ [']'])
  | .object ms => '\x7b' :: (members ms ++ ['\x7d'])

def elements : List Value → List Char
  | [] => []
  | [v] => stringify v
  | v :: v' :: vs => stringify v ++ ',' :: elements (v' :: vs)

def members : List (List Nat × Value) → List Char
  | [] => []
  | [(k, v)] => quoteString k ++ ':' :: stringify v
  | (k, v) :: m :: ms => quoteString k ++ ':' :: (stringify v ++ ',' :: members (m :: ms))

end

mutual

/-- A value that a text can denote. -/
def Value.Sound : Value → Prop
  | .null => True
  | .bool _ => True
  | .number t => isNumber t = true ∧ ∀ c ∈ t, isBare c = true
  | .string us => ∀ u ∈ us, u < 0x10000
  | .array vs => SoundElements vs
  | .object ms => SoundMembers ms

def SoundElements : List Value → Prop
  | [] => True
  | v :: vs => v.Sound ∧ SoundElements vs

def SoundMembers : List (List Nat × Value) → Prop
  | [] => True
  | (k, v) :: ms => (∀ u ∈ k, u < 0x10000) ∧ v.Sound ∧ SoundMembers ms

end

theorem soundElements_iff {vs : List Value} : SoundElements vs ↔ ∀ v ∈ vs, v.Sound := by
  induction vs with
  | nil => simp [SoundElements]
  | cons v vs ih => simp [SoundElements, ih]

theorem soundMembers_iff {ms : List (List Nat × Value)} :
    SoundMembers ms ↔ ∀ m ∈ ms, (∀ u ∈ m.1, u < 0x10000) ∧ m.2.Sound := by
  induction ms with
  | nil => simp [SoundMembers]
  | cons m ms ih => simp [SoundMembers, ih, and_assoc]

section Units

variable {stack : List Frame} {ms : Option (List (List Nat × Value))} {units : List Nat} {u v : Nat}

theorem toNat_ofNat (h : u < 0xd800 ∨ 0xdfff < u ∧ u < 0x110000) : (Char.ofNat u).toNat = u := by
  rw [Char.ofNat, dif_pos (show u.isValidChar from h)]
  rfl

/-- A character that stands for itself. -/
theorem run_ofNat (h : u < 0xd800 ∨ 0xdfff < u ∧ u < 0x110000) (hlow : 0x20 ≤ u)
    (hquote : u ≠ 0x22) (hslash : u ≠ 0x5c) :
    run ⟨.string ms units .plain, stack⟩ [Char.ofNat u] =
      some ⟨.string ms (units ++ utf16Char (Char.ofNat u)) .plain, stack⟩ := by
  have hnat := toNat_ofNat h
  have hne {c : Char} (hc : u ≠ c.toNat) : Char.ofNat u ≠ c := fun heq => hc (heq ▸ hnat.symm)
  have hq : Char.ofNat u ≠ '"' := hne hquote
  have hs : Char.ofNat u ≠ '\\' := hne hslash
  have hl : ¬(Char.ofNat u).toNat < 0x20 := by omega
  simp [step, stringStep, hq, hs, hl]

theorem run_escapeUnit (h : u < 0x10000) :
    run ⟨.string ms units .plain, stack⟩ (escapeUnit u) =
      some ⟨.string ms (units ++ [u]) .plain, stack⟩ := by
  unfold escapeUnit
  split
  · next hu => subst hu; rfl
  split
  · next hu => subst hu; rfl
  split
  · next hu => subst hu; rfl
  split
  · next hu => subst hu; rfl
  split
  · next hu => subst hu; rfl
  split
  · next hu => subst hu; rfl
  split
  · next hu => subst hu; rfl
  split
  · have hone : run ⟨.string ms units .plain, stack⟩ ([u].flatMap fun u => '\\' :: 'u' :: hex4 u) =
        some ⟨.string ms (units ++ [u]) .plain, stack⟩ := run_escapes (by simpa using h)
    simpa using hone
  · next hquote hslash _ _ _ _ _ hplain =>
    simp only [isHigh, isLow, not_or, Bool.and_eq_true, decide_eq_true_eq] at hplain
    have hvalid : u < 0xd800 ∨ 0xdfff < u ∧ u < 0x110000 := by omega
    have hunits : utf16Char (Char.ofNat u) = [u] := by
      rw [utf16Char, toNat_ofNat hvalid, if_pos h]
    rw [run_ofNat hvalid (by omega) hquote hslash, hunits]

theorem run_pairChar (hu : isHigh u = true) (hv : isLow v = true) :
    run ⟨.string ms units .plain, stack⟩ [pairChar u v] =
      some ⟨.string ms (units ++ [u, v]) .plain, stack⟩ := by
  simp only [isHigh, isLow, Bool.and_eq_true, decide_eq_true_eq] at hu hv
  have hnat : (pairChar u v).toNat = 0x10000 + (u - 0xd800) * 0x400 + (v - 0xdc00) :=
    toNat_ofNat (by omega)
  have hfirst : 0xd800 + ((pairChar u v).toNat - 0x10000) / 0x400 = u := by omega
  have hlast : 0xdc00 + ((pairChar u v).toNat - 0x10000) % 0x400 = v := by omega
  have hunits : utf16Char (pairChar u v) = [u, v] := by
    rw [utf16Char, if_neg (by omega), hfirst, hlast]
  rw [pairChar, run_ofNat (by omega) (by omega) (by omega) (by omega), ← pairChar, hunits]

/-- Code units that are written are read back, also those that are half a character. -/
theorem run_quoteUnits (us : List Nat) (h : ∀ u ∈ us, u < 0x10000) :
    run ⟨.string ms units .plain, stack⟩ (quoteUnits us) =
      some ⟨.string ms (units ++ us) .plain, stack⟩ := by
  induction us using quoteUnits.induct generalizing units with
  | case1 => simp [quoteUnits]
  | case2 u => exact run_escapeUnit (h u List.mem_cons_self)
  | case3 u v us hpair ih =>
    rw [Bool.and_eq_true] at hpair
    have hus : ∀ w ∈ us, w < 0x10000 := fun w hw =>
      h w (List.mem_cons_of_mem _ (List.mem_cons_of_mem _ hw))
    rw [quoteUnits, if_pos (by simpa using hpair), ← List.singleton_append,
      run_text (run_pairChar hpair.1 hpair.2), ih hus]
    simp
  | case4 u v us hpair ih =>
    have hus : ∀ w ∈ v :: us, w < 0x10000 := fun w hw => h w (List.mem_cons_of_mem _ hw)
    rw [quoteUnits, if_neg hpair, run_text (run_escapeUnit (h u List.mem_cons_self)), ih hus]
    simp

end Units

section Values

variable {stack : List Frame} {m : Mode} {v : Value} {c : Char} {t : List Char}

/-- Behind a value that may not be ended yet. -/
def Closes (m : Mode) (v : Value) : Prop := m = .after v ∨ ∃ t, m = .bare t ∧ token t = some v

theorem Closes.step (h : Closes m v) (hc : isBare c = false) :
    step ⟨m, stack⟩ c = next v stack c := by
  rcases h with rfl | ⟨t, rfl, ht⟩
  · rfl
  · simp [Json.step, hc, ht]

theorem Closes.finish (h : Closes m v) : finish ⟨m, []⟩ = some v := by
  rcases h with rfl | ⟨t, rfl, ht⟩
  · rfl
  · exact ht

/-- A character that begins a value, which is not the end of an array. -/
def Begins (c : Char) : Prop := isSpace c = false ∧ c ≠ ']'

theorem Begins.first (h : Begins c) : step ⟨.first, stack⟩ c = step ⟨.value, stack⟩ c := by
  simp [step, h.1, h.2]

theorem begins_of_isBare (h : isBare c = true) : Begins c := by
  refine ⟨?_, ?_⟩
  · rw [Bool.eq_false_iff]
    intro hspace
    simp only [isSpace, Bool.or_eq_true, decide_eq_true_eq] at hspace
    rcases hspace with ((rfl | rfl) | rfl) | rfl <;> exact absurd h (by decide)
  · intro hc
    rw [hc] at h
    exact absurd h (by decide)

theorem ne_nil_of_isNumber (h : isNumber t = true) : t ≠ [] := by
  intro ht
  rw [ht] at h
  exact absurd h (by decide)

theorem run_bare (hne : t ≠ []) (hall : t.all isBare = true) :
    run ⟨.value, stack⟩ t = some ⟨.bare t, stack⟩ := by
  have h := List.all_eq_true.mp hall
  have hrest (t u : List Char) (h : ∀ c ∈ u, isBare c = true) :
      run ⟨.bare t, stack⟩ u = some ⟨.bare (t ++ u), stack⟩ := by
    induction u generalizing t with
    | nil => simp
    | cons c u ih =>
      obtain ⟨hc, hu⟩ := List.forall_mem_cons.mp h
      simp [step, hc, ih _ hu]
  cases t with
  | nil => exact absurd rfl hne
  | cons c t =>
    obtain ⟨hc, ht⟩ := List.forall_mem_cons.mp h
    have hne (d : Char) (hd : isBare d = false) : c ≠ d := by
      intro heq
      rw [heq, hd] at hc
      cases hc
    have hfirst : step ⟨.value, stack⟩ c = some ⟨.bare [c], stack⟩ := by
      simp [step, (begins_of_isBare hc).1, begin, hc, hne '"' (by decide), hne '[' (by decide),
        hne '\x7b' (by decide)]
    rw [run_cons, hfirst, Option.bind_some, hrest _ _ ht]
    rfl

/-- A text begins like a value. -/
theorem stringify_begins (h : v.Sound) : ∃ c t, stringify v = c :: t ∧ Begins c := by
  cases v with
  | null => exact ⟨'n', _, rfl, rfl, by decide⟩
  | bool b => cases b <;> exact ⟨_, _, rfl, rfl, by decide⟩
  | number t =>
    rw [Value.Sound] at h
    cases t with
    | nil => exact absurd rfl (ne_nil_of_isNumber h.1)
    | cons c t => exact ⟨c, t, by rw [stringify], begins_of_isBare (h.2 c List.mem_cons_self)⟩
  | string us => exact ⟨'"', _, by rw [stringify, quoteString], rfl, by decide⟩
  | array vs => exact ⟨'[', _, by rw [stringify], rfl, by decide⟩
  | object ms => exact ⟨'\x7b', _, by rw [stringify], rfl, by decide⟩

theorem run_first (h : v.Sound) (r : List Char) :
    run ⟨.first, stack⟩ (stringify v ++ r) = run ⟨.value, stack⟩ (stringify v ++ r) := by
  obtain ⟨c, t, hv, hc⟩ := stringify_begins h
  rw [hv, List.cons_append, run_cons, run_cons, hc.first]

theorem run_quoteString {ms : Option (List (List Nat × Value))} {us : List Nat}
    (h : ∀ u ∈ us, u < 0x10000) (hopen : step ⟨m, stack⟩ '"' = some ⟨.string ms [] .plain, stack⟩) :
    run ⟨m, stack⟩ (quoteString us) = some (closeString stack us ms) := by
  rw [quoteString, run_cons, hopen, Option.bind_some, run_text (run_quoteUnits us h)]
  rfl

theorem token_number (h : isNumber t = true) : token t = some (.number t) := by
  have hne (w : List Char) (hw : isNumber w = false) : t ≠ w := by
    intro heq
    rw [heq, hw] at h
    cases h
  rw [token, if_neg (hne _ (by decide)), if_neg (hne _ (by decide)), if_neg (hne _ (by decide)),
    if_pos h]

/-- The elements begin with the first of them. -/
theorem exists_elements (v : Value) (vs : List Value) :
    ∃ r, elements (v :: vs) = stringify v ++ r := by
  cases vs with
  | nil => exact ⟨[], by simp [elements]⟩
  | cons v' vs => exact ⟨_, by rw [elements]⟩

end Values

mutual

/-- A value that is written is read back, whatever it stands in. -/
theorem run_stringify : ∀ (v : Value) (stack : List Frame), v.Sound →
    ∃ m, run ⟨.value, stack⟩ (stringify v) = some ⟨m, stack⟩ ∧ Closes m v
  | .null, stack, _ => ⟨_, run_bare (List.cons_ne_nil _ _) rfl, Or.inr ⟨_, rfl, rfl⟩⟩
  | .bool true, stack, _ => ⟨_, run_bare (List.cons_ne_nil _ _) rfl, Or.inr ⟨_, rfl, rfl⟩⟩
  | .bool false, stack, _ => ⟨_, run_bare (List.cons_ne_nil _ _) rfl, Or.inr ⟨_, rfl, rfl⟩⟩
  | .number t, stack, h => by
    rw [Value.Sound] at h
    have hall : t.all isBare = true := List.all_eq_true.mpr h.2
    exact ⟨_, run_bare (ne_nil_of_isNumber h.1) hall, Or.inr ⟨t, rfl, token_number h.1⟩⟩
  | .string us, stack, h => by
    rw [Value.Sound] at h
    have hread : run ⟨.value, stack⟩ (quoteString us) = some (closeString stack us none) :=
      run_quoteString h rfl
    rw [stringify, hread]
    exact ⟨_, rfl, Or.inl rfl⟩
  | .array [], stack, _ => ⟨_, by rw [stringify, elements]; rfl, Or.inl rfl⟩
  | .array (v :: vs), stack, h => by
    rw [Value.Sound] at h
    have hread := run_elements (v :: vs) [] stack h (List.cons_ne_nil _ _)
    obtain ⟨r, hr⟩ := exists_elements v vs
    have hopen (t : List Char) :
        run ⟨.value, stack⟩ ('[' :: t) = run ⟨.first, .array [] :: stack⟩ t := rfl
    rw [SoundElements] at h
    rw [hr, List.append_assoc] at hread
    rw [stringify, hopen, hr, List.append_assoc, run_first h.1, hread]
    exact ⟨_, rfl, Or.inl rfl⟩
  | .object [], stack, _ => ⟨_, by rw [stringify, members]; rfl, Or.inl rfl⟩
  | .object (m :: ms), stack, h => by
    rw [Value.Sound] at h
    have hread := run_members (m :: ms) [] true stack h (List.cons_ne_nil _ _)
    have hopen (t : List Char) :
        run ⟨.value, stack⟩ ('\x7b' :: t) = run ⟨.key [] true, stack⟩ t := rfl
    rw [stringify, hopen, hread]
    exact ⟨_, rfl, Or.inl rfl⟩

theorem run_elements : ∀ (vs vs₀ : List Value) (stack : List Frame), SoundElements vs → vs ≠ [] →
    run ⟨.value, .array vs₀ :: stack⟩ (elements vs ++ [']']) =
      some ⟨.after (.array (vs₀ ++ vs)), stack⟩
  | [], _, _, _, h => absurd rfl h
  | [v], vs₀, stack, h, _ => by
    rw [SoundElements] at h
    obtain ⟨m, hrun, hm⟩ := run_stringify v (.array vs₀ :: stack) h.1
    rw [elements, run_text hrun, run_cons, hm.step rfl]
    rfl
  | v :: v' :: vs, vs₀, stack, h, _ => by
    rw [SoundElements] at h
    obtain ⟨m, hrun, hm⟩ := run_stringify v (.array vs₀ :: stack) h.1
    have hnext : next v (.array vs₀ :: stack) ',' =
        some ⟨.value, .array (vs₀ ++ [v]) :: stack⟩ := rfl
    rw [elements, List.append_assoc, run_text hrun, List.cons_append, run_cons, hm.step rfl, hnext,
      Option.bind_some, run_elements (v' :: vs) (vs₀ ++ [v]) stack h.2 (List.cons_ne_nil _ _)]
    simp

theorem run_members : ∀ (ms ms₀ : List (List Nat × Value)) (first : Bool) (stack : List Frame),
    SoundMembers ms → ms ≠ [] → run ⟨.key ms₀ first, stack⟩ (members ms ++ ['\x7d']) =
      some ⟨.after (.object (ms₀ ++ ms)), stack⟩
  | [], _, _, _, _, h => absurd rfl h
  | [(k, v)], ms₀, first, stack, h, _ => by
    rw [SoundMembers] at h
    obtain ⟨m, hrun, hm⟩ := run_stringify v (.object ms₀ k :: stack) h.2.1
    have hkey : run ⟨.key ms₀ first, stack⟩ (quoteString k) =
        some (closeString stack k (some ms₀)) := run_quoteString h.1 rfl
    have hcolon (t : List Char) : run (closeString stack k (some ms₀)) (':' :: t) =
        run ⟨.value, .object ms₀ k :: stack⟩ t := rfl
    rw [members, List.append_assoc, run_text hkey, List.cons_append, hcolon, run_text hrun,
      run_cons, hm.step rfl]
    rfl
  | (k, v) :: m' :: ms, ms₀, first, stack, h, _ => by
    rw [SoundMembers] at h
    obtain ⟨m, hrun, hm⟩ := run_stringify v (.object ms₀ k :: stack) h.2.1
    have hkey : run ⟨.key ms₀ first, stack⟩ (quoteString k) =
        some (closeString stack k (some ms₀)) := run_quoteString h.1 rfl
    have hcolon (t : List Char) : run (closeString stack k (some ms₀)) (':' :: t) =
        run ⟨.value, .object ms₀ k :: stack⟩ t := rfl
    have hnext : next v (.object ms₀ k :: stack) ',' =
        some ⟨.key (ms₀ ++ [(k, v)]) false, stack⟩ := rfl
    rw [members, List.append_assoc, run_text hkey, List.cons_append, hcolon, List.append_assoc,
      run_text hrun, List.cons_append, run_cons, hm.step rfl, hnext, Option.bind_some,
      run_members (m' :: ms) (ms₀ ++ [(k, v)]) false stack h.2.2 (List.cons_ne_nil _ _)]
    simp

end

section Characters

/-- The characters of code units, unless there is half of one among them. -/
def ofUtf16 : List Nat → Option (List Char)
  | [] => some []
  | [u] => if isHigh u || isLow u then none else some [Char.ofNat u]
  | u :: v :: us =>
    if isHigh u && isLow v then (ofUtf16 us).map (pairChar u v :: ·)
    else if isHigh u || isLow u then none
    else (ofUtf16 (v :: us)).map (Char.ofNat u :: ·)

variable {u : Nat} {us : List Nat}

theorem ofUtf16_cons (hhigh : isHigh u = false) (hlow : isLow u = false) :
    ofUtf16 (u :: us) = (ofUtf16 us).map (Char.ofNat u :: ·) := by
  cases us <;> simp [ofUtf16, hhigh, hlow]

theorem ofUtf16_utf16 (t : List Char) : ofUtf16 (utf16 t) = some t := by
  induction t with
  | nil => rfl
  | cons c t ih =>
    have hvalid : c.toNat < 0xd800 ∨ 0xdfff < c.toNat ∧ c.toNat < 0x110000 := c.valid
    rw [utf16_cons, utf16Char]
    split
    · have hhigh : isHigh c.toNat = false := by
        simp only [isHigh, Bool.and_eq_false_iff, decide_eq_false_iff_not]
        omega
      have hlow : isLow c.toNat = false := by
        simp only [isLow, Bool.and_eq_false_iff, decide_eq_false_iff_not]
        omega
      rw [List.singleton_append, ofUtf16_cons hhigh hlow, ih, Char.ofNat_toNat]
      rfl
    · have hhigh : isHigh (0xd800 + (c.toNat - 0x10000) / 0x400) = true := by
        simp only [isHigh, Bool.and_eq_true, decide_eq_true_eq]
        omega
      have hlow : isLow (0xdc00 + (c.toNat - 0x10000) % 0x400) = true := by
        simp only [isLow, Bool.and_eq_true, decide_eq_true_eq]
        omega
      have hpair : pairChar (0xd800 + (c.toNat - 0x10000) / 0x400)
          (0xdc00 + (c.toNat - 0x10000) % 0x400) = c := by
        have hnat : 0x10000 + (0xd800 + (c.toNat - 0x10000) / 0x400 - 0xd800) * 0x400 +
            (0xdc00 + (c.toNat - 0x10000) % 0x400 - 0xdc00) = c.toNat := by omega
        rw [pairChar, hnat, Char.ofNat_toNat]
      rw [List.cons_append, List.singleton_append, ofUtf16, hhigh, hlow, Bool.and_self, if_pos rfl,
        ih, hpair]
      rfl

end Characters

/-- What is written is read back. -/
theorem parse_stringify {v : Value} (h : v.Sound) : parse (stringify v) = some v := by
  obtain ⟨m, hrun, hm⟩ := run_stringify v [] h
  rw [parse, hrun]
  exact hm.finish

end Js.Json
