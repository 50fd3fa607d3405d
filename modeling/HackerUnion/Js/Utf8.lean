import HackerUnion.Lists.SplitOn

namespace Js

open String (utf8EncodeChar)

def replacement : UInt16 := 0xFFFD

/-- The code units of a character. -/
def units (c : Char) : List UInt16 :=
  if c.toNat < 0x10000 then [UInt16.ofNat c.toNat]
  else
    [UInt16.ofNat (0xD800 + (c.toNat - 0x10000) / 0x400),
      UInt16.ofNat (0xDC00 + (c.toNat - 0x10000) % 0x400)]

/-- The character that begins here. -/
def charAt? (bytes : List UInt8) : Option Char := bytes.toByteArray.utf8DecodeChar? 0

namespace Utf8

/-- A byte that begins a character of more than one. -/
def isFirst (b : UInt8) : Bool := 0xC2 ≤ b.toNat && b.toNat ≤ 0xF4

/-- A byte of a character that is not its first. -/
def isTail (b : UInt8) : Bool := 0x80 ≤ b.toNat && b.toNat < 0xC0

/-- Two bytes that a character begins with: some first ones set closer bounds to the second. -/
def begins (a b : UInt8) : Bool :=
  isFirst a && isTail b && (a.toNat ≠ 0xE0 || 0xA0 ≤ b.toNat) &&
    (a.toNat ≠ 0xED || b.toNat < 0xA0) && (a.toNat ≠ 0xF0 || 0x90 ≤ b.toNat) &&
    (a.toNat ≠ 0xF4 || b.toNat < 0x90)

/-- Whether a byte goes on with what is pending of a character. -/
def goesOn : List UInt8 → UInt8 → Bool
  | [], _ => false
  | [a], b => begins a b
  | _, b => isTail b

/-- What is read of a byte that goes on with nothing, and what is pending after it. -/
def start (b : UInt8) : List UInt16 × List UInt8 :=
  if b.toNat < 0x80 then ([UInt16.ofNat b.toNat], [])
  else if isFirst b then ([], [b])
  else ([replacement], [])

/-- What is pending and not completed is replaced, all of it by one character. -/
def flush (pending : List UInt8) : List UInt16 := if pending = [] then [] else [replacement]

def step (pending : List UInt8) (b : UInt8) : List UInt16 × List UInt8 :=
  if goesOn pending b then
    match charAt? (pending ++ [b]) with
    | some c => (units c, [])
    | none => ([], pending ++ [b])
  else (flush pending ++ (start b).1, (start b).2)

def decodeFrom : List UInt8 → List UInt8 → List UInt16
  | pending, [] => flush pending
  | pending, b :: bytes => (step pending b).1 ++ decodeFrom (step pending b).2 bytes

end Utf8

def utf8Decode (bytes : List UInt8) : List UInt16 := Utf8.decodeFrom [] bytes

/-- Two bytes of three that stand together are replaced by one character. -/
example : utf8Decode [0x61, 0x3D, 0xE2, 0x82] = [0x61, 0x3D, replacement] := by decide +kernel

section Char

variable (c : Char)

/-- The bytes after the first one lie between 0x80 and 0xC0. -/
theorem isTail_tailByte (n : Nat) : Utf8.isTail (UInt8.ofNat (n % 0x40 + 0x80)) = true := by
  simp only [Utf8.isTail, UInt8.toNat_ofNat', Bool.and_eq_true, decide_eq_true_eq]
  omega

theorem begins_of {a b : Nat} (hfirst : 0xC2 ≤ a % 256 ∧ a % 256 ≤ 0xF4)
    (hlower : (a % 256 = 0xE0 → 0x20 ≤ b % 0x40) ∧ (a % 256 = 0xF0 → 0x10 ≤ b % 0x40))
    (hupper : (a % 256 = 0xED → b % 0x40 < 0x20) ∧ (a % 256 = 0xF4 → b % 0x40 < 0x10)) :
    Utf8.begins (UInt8.ofNat a) (UInt8.ofNat (b % 0x40 + 0x80)) = true := by
  have hbyte : (b % 0x40 + 0x80) % 256 = b % 0x40 + 0x80 := by omega
  simp only [Utf8.begins, Utf8.isFirst, isTail_tailByte, UInt8.toNat_ofNat', Nat.reducePow, hbyte,
    Bool.and_eq_true, Bool.or_eq_true, decide_eq_true_eq, ← imp_iff_not_or, ne_eq]
  refine ⟨⟨⟨⟨⟨hfirst, trivial⟩, ?_⟩, ?_⟩, ?_⟩, ?_⟩
  · exact fun h => Nat.add_le_add_right (hlower.1 h) 0x80
  · exact fun h => Nat.add_lt_add_right (hupper.1 h) 0x80
  · exact fun h => Nat.add_le_add_right (hlower.2 h) 0x80
  · exact fun h => Nat.add_lt_add_right (hupper.2 h) 0x80

theorem length_units_le : (units c).length ≤ 2 := by
  unfold units
  split
  · exact Nat.le_succ 1
  · exact Nat.le_refl 2

theorem length_units_of_small (h : c.val.toNat < 0x10000) : (units c).length = 1 := by
  have hsmall : c.toNat < 0x10000 := h
  unfold units
  rw [if_pos hsmall]
  rfl

theorem le_of_mem_units {c : Char} (h : 0x80 ≤ c.val.toNat) {u : UInt16} (hu : u ∈ units c) :
    0x80 ≤ u.toNat := by
  have hvalid := c.valid
  unfold UInt32.isValidChar Nat.isValidChar at hvalid
  unfold units at hu
  split at hu
  · next hsmall =>
    rw [List.mem_singleton.mp hu, UInt16.toNat_ofNat', Nat.mod_eq_of_lt hsmall]
    exact h
  · next hlarge =>
    change ¬c.val.toNat < 0x10000 at hlarge
    rcases List.mem_pair.mp hu with hu | hu
    · rw [hu, UInt16.toNat_ofNat']
      change _ ≤ (0xD800 + (c.val.toNat - 0x10000) / 0x400) % 2 ^ 16
      omega
    · rw [hu, UInt16.toNat_ofNat']
      omega

/-- A character is one byte below 0x80, or a pair of bytes that begins one, and tails. -/
theorem utf8EncodeChar_cases :
    (∃ b, utf8EncodeChar c = [b] ∧ b.toNat < 0x80 ∧ units c = [UInt16.ofNat b.toNat]) ∨
      ∃ a b bs, utf8EncodeChar c = a :: b :: bs ∧ Utf8.begins a b = true ∧
        (∀ t ∈ bs, Utf8.isTail t = true) ∧ (units c).length ≤ bs.length + 1 ∧
        ∀ u ∈ units c, 0x80 ≤ u.toNat := by
  have hvalid := c.valid
  unfold UInt32.isValidChar Nat.isValidChar at hvalid
  have hlength := length_units_le c
  unfold utf8EncodeChar
  dsimp only
  split
  · refine Or.inl ⟨_, rfl, ?_, ?_⟩
    · rw [UInt8.toNat_ofNat']
      omega
    · have hsmall : c.toNat < 0x10000 := by
        change c.val.toNat < 0x10000
        omega
      unfold units
      rw [if_pos hsmall, UInt8.toNat_ofNat', Nat.mod_eq_of_lt (by omega)]
      rfl
  · refine Or.inr ?_
    -- of two, of three and of four bytes
    split
    · refine ⟨_, _, _, rfl, ?_, List.forall_mem_nil _, ?_, fun u => le_of_mem_units (by omega)⟩
      · exact begins_of (by omega) (by omega) (by omega)
      · exact Nat.le_of_eq (length_units_of_small c (by omega))
    · split
      · refine ⟨_, _, _, rfl, ?_, ?_, hlength, fun u => le_of_mem_units (by omega)⟩
        · exact begins_of (by omega) (by omega) (by omega)
        · exact List.forall_mem_singleton.mpr (isTail_tailByte _)
      · refine ⟨_, _, _, rfl, ?_, ?_, Nat.le_succ_of_le hlength,
          fun u => le_of_mem_units (by omega)⟩
        · exact begins_of (by omega) (by omega) (by omega)
        · simp only [List.forall_mem_cons]
          exact ⟨isTail_tailByte _, isTail_tailByte _, List.forall_mem_nil _⟩

theorem units_ne_nil : units c ≠ [] := by
  unfold units
  split
  · exact List.cons_ne_nil _ _
  · exact List.cons_ne_nil _ _

theorem charAt?_append (bytes : List UInt8) : charAt? (utf8EncodeChar c ++ bytes) = some c := by
  unfold charAt?
  rw [List.toByteArray_append]
  exact ByteArray.utf8DecodeChar?_utf8EncodeChar_append

theorem exists_of_charAt? {c : Char} {bytes : List UInt8} (h : charAt? bytes = some c) :
    ∃ rest, bytes = utf8EncodeChar c ++ rest := by
  obtain ⟨rest, hrest⟩ := ByteArray.exists_of_utf8DecodeChar?_eq_some h
  have hlist := congrArg (fun bytes => bytes.data.toList) hrest
  rw [ByteArray.data_append, Array.toList_append, List.toList_data_toByteArray,
    List.toList_data_toByteArray] at hlist
  exact ⟨rest.data.toList, hlist⟩

/-- Part of a character is none. -/
theorem charAt?_of_append {p q : List UInt8} (h : p ++ q = utf8EncodeChar c) (hq : q ≠ []) :
    charAt? p = none := by
  cases hchar : charAt? p with
  | none => rfl
  | some d =>
    obtain ⟨rest, rfl⟩ := exists_of_charAt? hchar
    have hc := charAt?_append c []
    rw [← h, List.append_nil, List.append_assoc, charAt?_append] at hc
    obtain rfl := Option.some.inj hc
    rw [List.append_assoc] at h
    exact absurd (List.append_eq_nil_iff.mp (List.append_right_eq_self.mp h)).2 hq

end Char

namespace Utf8

section Step

variable {pending : List UInt8} {a b : UInt8}

theorem le_of_isFirst (h : isFirst b = true) : 0xC2 ≤ b.toNat := by
  simp only [isFirst, Bool.and_eq_true, decide_eq_true_eq] at h
  exact h.1

theorem isTail_iff : isTail b = true ↔ 0x80 ≤ b.toNat ∧ b.toNat < 0xC0 := by
  rw [isTail, Bool.and_eq_true, decide_eq_true_eq, decide_eq_true_eq]

theorem isFirst_of_begins (h : begins a b = true) : isFirst a = true := by
  simp only [begins, Bool.and_eq_true] at h
  exact h.1.1.1.1.1

theorem isTail_of_begins (h : begins a b = true) : isTail b = true := by
  simp only [begins, Bool.and_eq_true] at h
  exact h.1.1.1.1.2

theorem isTail_of_goesOn (h : goesOn pending b = true) : isTail b = true := by
  match pending with
  | [] => cases h
  | [a] => exact isTail_of_begins h
  | _ :: _ :: _ => exact h

theorem start_of_lt (hb : b.toNat < 0x80) : start b = ([UInt16.ofNat b.toNat], []) := if_pos hb

theorem start_of_isFirst (hb : isFirst b = true) : start b = ([], [b]) := by
  have hle := le_of_isFirst hb
  rw [start, if_neg (by omega), if_pos hb]

theorem start_of_isTail (hb : isTail b = true) : start b = ([replacement], []) := by
  rw [isTail_iff] at hb
  have hfirst : ¬isFirst b = true := by
    intro h
    have hle := le_of_isFirst h
    omega
  rw [start, if_neg (by omega), if_neg hfirst]

theorem start_of_ge (hb : 0xF8 ≤ b.toNat) : start b = ([replacement], []) := by
  have hfirst : ¬isFirst b = true := by
    simp only [isFirst, Bool.and_eq_true, decide_eq_true_eq]
    omega
  rw [start, if_neg (by omega), if_neg hfirst]

theorem step_of_not (h : goesOn pending b = false) :
    step pending b = (flush pending ++ (start b).1, (start b).2) := by
  rw [step, if_neg (Bool.eq_false_iff.mp h)]

theorem step_nil (b : UInt8) : step [] b = start b := step_of_not rfl

/-- A byte that is no tail goes on with nothing. -/
theorem step_of_not_isTail (h : isTail b = false) :
    step pending b = (flush pending ++ (start b).1, (start b).2) := by
  refine step_of_not (Bool.eq_false_iff.mpr fun hgoes => ?_)
  rw [isTail_of_goesOn hgoes] at h
  cases h

/-- A byte that goes on completes a character or is pending with the others. -/
theorem step_of_goesOn (h : goesOn pending b = true) :
    (∃ c, charAt? (pending ++ [b]) = some c ∧ step pending b = (units c, [])) ∨
      charAt? (pending ++ [b]) = none ∧ step pending b = ([], pending ++ [b]) := by
  rw [step, if_pos h]
  cases charAt? (pending ++ [b]) with
  | some c => exact Or.inl ⟨c, rfl, rfl⟩
  | none => exact Or.inr ⟨rfl, rfl⟩

theorem flush_of_ne_nil (h : pending ≠ []) : flush pending = [replacement] := if_neg h

end Step

section Decode

/-- The rest of a character that is pending. -/
theorem decodeFrom_char (c : Char) {pending rest : List UInt8} (bytes : List UInt8)
    (h : pending ++ rest = utf8EncodeChar c) (hpending : pending ≠ []) (hrest : rest ≠ []) :
    decodeFrom pending (rest ++ bytes) = units c ++ utf8Decode bytes := by
  induction rest generalizing pending with
  | nil => exact absurd rfl hrest
  | cons b rest ih =>
    have hgoes : goesOn pending b = true := by
      rcases utf8EncodeChar_cases c with ⟨a, hc, -⟩ | ⟨a, t, ts, hc, hbegins, htails, -⟩
      · rw [hc] at h
        have hlength := congrArg List.length h
        have hpos := List.length_pos_of_ne_nil hpending
        simp only [List.length_append, List.length_cons, List.length_nil] at hlength
        omega
      · rw [hc] at h
        match pending with
        | [] => exact absurd rfl hpending
        | [x] =>
          simp only [List.singleton_append, List.cons.injEq] at h
          obtain ⟨rfl, rfl, -⟩ := h
          exact hbegins
        | x :: y :: pending =>
          simp only [List.cons_append, List.cons.injEq] at h
          exact htails b (h.2.2 ▸ List.mem_append_right _ List.mem_cons_self)
    have hcut : (pending ++ [b]) ++ rest = utf8EncodeChar c := by
      rw [← h, List.append_assoc, List.singleton_append]
    rw [List.cons_append, decodeFrom]
    cases rest with
    | nil =>
      rw [List.append_nil] at hcut
      have hchar : charAt? (pending ++ [b]) = some c := by
        rw [hcut]
        have hself := charAt?_append c []
        rwa [List.append_nil] at hself
      rcases step_of_goesOn hgoes with ⟨d, hd, hstep⟩ | ⟨hnone, -⟩
      · obtain rfl := Option.some.inj (hchar.symm.trans hd)
        rw [hstep]
        rfl
      · rw [hchar] at hnone
        cases hnone
    | cons b' rest =>
      have hnone := charAt?_of_append c hcut (List.cons_ne_nil _ _)
      rcases step_of_goesOn hgoes with ⟨d, hd, -⟩ | ⟨-, hstep⟩
      · rw [hnone] at hd
        cases hd
      · rw [hstep, List.nil_append]
        exact ih hcut (List.append_ne_nil_of_right_ne_nil _ (List.cons_ne_nil _ _))
          (List.cons_ne_nil _ _)

theorem length_flush_le (pending : List UInt8) : (flush pending).length ≤ 1 := by
  unfold flush
  split
  · exact Nat.zero_le 1
  · exact Nat.le_refl 1

/-- What is pending when the bytes come makes the text longer by no more than when it is
replaced. -/
theorem length_decodeFrom_le (pending bytes : List UInt8) :
    (decodeFrom pending bytes).length ≤ (flush pending).length + (utf8Decode bytes).length := by
  induction bytes generalizing pending with
  | nil => exact Nat.le_add_right _ _
  | cons b bytes ih =>
    have hwhole : utf8Decode (b :: bytes) = (start b).1 ++ decodeFrom (start b).2 bytes := by
      rw [utf8Decode, decodeFrom, step_nil]
    cases hgoes : goesOn pending b with
    | false =>
      have hstep := step_of_not hgoes
      refine Nat.le_of_eq ?_
      rw [decodeFrom, hstep, hwhole, List.append_assoc, List.length_append]
    | true =>
      have hne : pending ≠ [] := by
        rintro rfl
        cases hgoes
      have hown : (utf8Decode (b :: bytes)).length = 1 + (utf8Decode bytes).length := by
        rw [hwhole, start_of_isTail (isTail_of_goesOn hgoes), List.length_append,
          List.length_singleton]
        rfl
      rw [decodeFrom, flush_of_ne_nil hne, hown, List.length_singleton]
      rcases step_of_goesOn hgoes with ⟨c, -, hstep⟩ | ⟨-, hstep⟩
      · have hunits := length_units_le c
        rw [hstep, List.length_append]
        change (units c).length + (utf8Decode bytes).length ≤ _
        omega
      · have hrest := ih (pending ++ [b])
        have hflush := length_flush_le (pending ++ [b])
        rw [hstep, List.nil_append]
        change (decodeFrom (pending ++ [b]) bytes).length ≤ _
        omega

/-- Bytes are read on from what the first of them leave pending. -/
theorem exists_decodeFrom_append (pending xs : List UInt8) :
    ∃ text pending', decodeFrom pending xs = text ++ flush pending' ∧
      ∀ ys, decodeFrom pending (xs ++ ys) = text ++ decodeFrom pending' ys := by
  induction xs generalizing pending with
  | nil => exact ⟨[], pending, rfl, fun ys => rfl⟩
  | cons b xs ih =>
    obtain ⟨text, pending', hxs, happend⟩ := ih (step pending b).2
    refine ⟨(step pending b).1 ++ text, pending', ?_, fun ys => ?_⟩
    · rw [decodeFrom, hxs, List.append_assoc]
    · rw [List.cons_append, decodeFrom, happend, List.append_assoc]

/-- To read all at once makes the shorter text. -/
theorem length_decode_append_le (xs ys : List UInt8) :
    (utf8Decode (xs ++ ys)).length ≤ (utf8Decode xs).length + (utf8Decode ys).length := by
  obtain ⟨text, pending, hxs, happend⟩ := exists_decodeFrom_append [] xs
  have hle := length_decodeFrom_le pending ys
  rw [utf8Decode, utf8Decode, happend, hxs, List.length_append, List.length_append]
  omega

theorem length_decode_le (bytes : List UInt8) : (utf8Decode bytes).length ≤ bytes.length := by
  induction bytes with
  | nil => exact Nat.le_refl 0
  | cons b bytes ih =>
    have hle := length_decode_append_le [b] bytes
    have hone : (utf8Decode [b]).length ≤ 1 := by
      rw [utf8Decode, decodeFrom, step_nil, start]
      split
      · exact Nat.le_refl 1
      · split <;> exact Nat.le_refl 1
    rw [List.singleton_append] at hle
    rw [List.length_cons]
    omega

/-- A byte from 0xF8 on is in no character: it is replaced, and what stands before and after it is
read on its own. -/
theorem decode_split {b : UInt8} (hb : 0xF8 ≤ b.toNat) (xs ys : List UInt8) :
    utf8Decode (xs ++ b :: ys) = utf8Decode xs ++ replacement :: utf8Decode ys := by
  have htail : isTail b = false := by
    rw [Bool.eq_false_iff, ne_eq, isTail_iff]
    omega
  obtain ⟨text, pending, hxs, happend⟩ := exists_decodeFrom_append [] xs
  rw [utf8Decode, utf8Decode, happend, hxs, decodeFrom, step_of_not_isTail htail, start_of_ge hb,
    List.append_assoc, List.append_assoc]
  rfl

theorem decode_replicate {b : UInt8} (hb : 0xF8 ≤ b.toNat) (n : Nat) (xs ys : List UInt8)
    (hn : 0 < n) : utf8Decode (xs ++ List.replicate n b ++ ys) =
      utf8Decode xs ++ List.replicate n replacement ++ utf8Decode ys := by
  have hrest (k : Nat) : utf8Decode (List.replicate k b ++ ys) =
      List.replicate k replacement ++ utf8Decode ys := by
    induction k with
    | zero => rfl
    | succ k ih => exact (decode_split hb [] _).trans (congrArg (replacement :: ·) ih)
  obtain ⟨k, rfl⟩ := Nat.exists_eq_succ_of_ne_zero (Nat.ne_of_gt hn)
  rw [List.append_assoc, List.replicate_succ, List.cons_append, decode_split hb, hrest,
    List.append_assoc]
  rfl

end Decode

end Utf8

theorem utf8Decode_char (c : Char) (bytes : List UInt8) :
    utf8Decode (utf8EncodeChar c ++ bytes) = units c ++ utf8Decode bytes := by
  rcases utf8EncodeChar_cases c with ⟨b, hc, hb, hu⟩ | ⟨a, b, bs, hc, hbegins, -⟩
  · rw [hc, hu, List.singleton_append, utf8Decode, Utf8.decodeFrom, Utf8.step_nil,
      Utf8.start_of_lt hb]
    rfl
  · have hsplit : [a] ++ b :: bs = utf8EncodeChar c := by rw [hc, List.singleton_append]
    have hrest := Utf8.decodeFrom_char c bytes hsplit (List.cons_ne_nil _ _) (List.cons_ne_nil _ _)
    rw [hc, List.cons_append, utf8Decode, Utf8.decodeFrom, Utf8.step_nil,
      Utf8.start_of_isFirst (Utf8.isFirst_of_begins hbegins), List.nil_append]
    exact hrest

/-- A text that is encoded is read back. -/
theorem utf8Decode_flatMap (text : List Char) :
    utf8Decode (text.flatMap utf8EncodeChar) = text.flatMap units := by
  induction text with
  | nil => rfl
  | cons c text ih => rw [List.flatMap_cons, utf8Decode_char, ih, List.flatMap_cons]

/-- A text that bytes may be read as when they come in pieces: what is pending where a piece ends is
replaced. -/
inductive Reading : List UInt8 → List UInt8 → List UInt16 → Prop
  | nil : Reading [] [] []
  | cut {pending bytes : List UInt8} {text : List UInt16} (h : Reading [] bytes text) :
      Reading pending bytes (Utf8.flush pending ++ text)
  | byte {pending : List UInt8} {b : UInt8} {bytes : List UInt8} {text : List UInt16}
      (h : Reading (Utf8.step pending b).2 bytes text) :
      Reading pending (b :: bytes) ((Utf8.step pending b).1 ++ text)

namespace Reading

open Utf8

variable {pending bytes bytes' : List UInt8} {text text' : List UInt16}

theorem ended (pending : List UInt8) : Reading pending [] (flush pending) := by
  have h : Reading pending [] (flush pending ++ []) := .cut .nil
  rwa [List.append_nil] at h

theorem append (h : Reading pending bytes text) (h' : Reading [] bytes' text') :
    Reading pending (bytes ++ bytes') (text ++ text') := by
  induction h with
  | nil => exact h'
  | cut _ ih =>
    rw [List.append_assoc]
    exact ih.cut
  | byte _ ih =>
    rw [List.append_assoc]
    exact ih.byte

theorem decode (pending bytes : List UInt8) :
    Reading pending bytes (decodeFrom pending bytes) := by
  induction bytes generalizing pending with
  | nil => exact ended pending
  | cons b bytes ih => exact (ih _).byte

/-- However the bytes are cut into pieces. -/
theorem flatten (chunks : List (List UInt8)) :
    Reading [] chunks.flatten (chunks.flatMap utf8Decode) := by
  induction chunks with
  | nil => exact nil
  | cons chunk chunks ih =>
    rw [List.flatten_cons, List.flatMap_cons]
    exact (decode [] chunk).append ih

/-- What is pending begins with a byte that begins a character. -/
def Opens (pending : List UInt8) : Prop := ∀ a ∈ pending.head?, isFirst a = true

theorem opens_step (h : Opens pending) (b : UInt8) : Opens (step pending b).2 := by
  have hnil : Opens [] := fun a ha => by cases ha
  cases hgoes : goesOn pending b with
  | true =>
    rcases step_of_goesOn hgoes with ⟨c, -, hstep⟩ | ⟨-, hstep⟩
    · rw [hstep]
      exact hnil
    · rw [hstep]
      intro a ha
      cases pending with
      | nil => cases hgoes
      | cons x pending => exact h a ha
  | false =>
    rw [step_of_not hgoes]
    unfold start
    split
    · exact hnil
    · split
      · next hb =>
        intro a ha
        obtain rfl := Option.some.inj ha
        exact hb
      · exact hnil

/-- What is read of another byte than one below 0x80 is no such character. -/
theorem not_mem_step {sep b : UInt8} (hsep : sep.toNat < 0x80) (hpending : Opens pending)
    (hb : b ≠ sep) : UInt16.ofNat sep.toNat ∉ (step pending b).1 := by
  have htoNat {n : Nat} (hn : n < 0x100) : (UInt16.ofNat n).toNat = n := by
    rw [UInt16.toNat_ofNat']
    omega
  have hreplace : UInt16.ofNat sep.toNat ≠ replacement := by
    intro heq
    have hnat := congrArg UInt16.toNat heq
    rw [htoNat sep.toNat_lt] at hnat
    change sep.toNat = 0xFFFD at hnat
    omega
  cases hgoes : goesOn pending b with
  | true =>
    rcases step_of_goesOn hgoes with ⟨c, hchar, hstep⟩ | ⟨-, hstep⟩
    · rw [hstep]
      intro hmem
      obtain ⟨rest, hrest⟩ := exists_of_charAt? hchar
      rcases utf8EncodeChar_cases c with ⟨a, hc, ha, -⟩ | ⟨-, -, -, -, -, -, -, hlarge⟩
      · cases pending with
        | nil => cases hgoes
        | cons x pending =>
          rw [hc, List.cons_append, List.singleton_append] at hrest
          have hx := le_of_isFirst (hpending x rfl)
          rw [(List.cons.inj hrest).1] at hx
          omega
      · have hle := hlarge _ hmem
        rw [htoNat sep.toNat_lt] at hle
        omega
    · rw [hstep]
      exact List.not_mem_nil
  | false =>
    have hflush : UInt16.ofNat sep.toNat ∉ flush pending := by
      unfold flush
      split
      · exact List.not_mem_nil
      · exact fun hmem => hreplace (List.mem_singleton.mp hmem)
    rw [step_of_not hgoes, List.mem_append, not_or]
    refine ⟨hflush, ?_⟩
    unfold start
    split
    · intro hmem
      have hnat := congrArg UInt16.toNat (List.mem_singleton.mp hmem)
      rw [htoNat sep.toNat_lt, htoNat b.toNat_lt] at hnat
      exact hb (UInt8.toNat_inj.mp hnat.symm)
    · split
      · exact List.not_mem_nil
      · exact fun hmem => hreplace (List.mem_singleton.mp hmem)

theorem step_sep {sep : UInt8} (hsep : sep.toNat < 0x80) (pending : List UInt8) :
    step pending sep = (flush pending ++ [UInt16.ofNat sep.toNat], []) := by
  have htail : isTail sep = false := by
    rw [Bool.eq_false_iff, ne_eq, isTail_iff]
    omega
  rw [step_of_not_isTail htail, start_of_lt hsep]

/-- A separator below 0x80 cuts the bytes and what they are read as into the same pieces. -/
theorem splitOn (sep : UInt8) (hsep : sep.toNat < 0x80) (h : Reading pending bytes text)
    (hpending : Opens pending) :
    ∃ p ps t ts, bytes.splitOn sep = p :: ps ∧
      text.splitOn (UInt16.ofNat sep.toNat) = t :: ts ∧ Reading pending p t ∧
        List.Forall₂ (Reading []) ps ts := by
  have hopens : Opens [] := fun a ha => by cases ha
  have hflush (pending : List UInt8) : UInt16.ofNat sep.toNat ∉ flush pending := by
    have hreplace : UInt16.ofNat sep.toNat ≠ replacement := by
      intro heq
      have hnat := congrArg UInt16.toNat heq
      rw [UInt16.toNat_ofNat'] at hnat
      change _ = 0xFFFD at hnat
      omega
    unfold flush
    split
    · exact List.not_mem_nil
    · exact fun hmem => hreplace (List.mem_singleton.mp hmem)
  induction h with
  | nil => exact ⟨[], [], [], [], rfl, rfl, nil, List.Forall₂.nil⟩
  | @cut pending bytes text _ ih =>
    obtain ⟨p, ps, t, ts, hbytes, htext, hp, hps⟩ := ih hopens
    refine ⟨p, ps, flush pending ++ t, ts, hbytes, ?_, hp.cut, hps⟩
    rw [HackerUnion.Lists.splitOn_append _ (hflush pending), htext]
    rfl
  | @byte pending b bytes text _ ih =>
    obtain ⟨p, ps, t, ts, hbytes, htext, hp, hps⟩ := ih (opens_step hpending b)
    by_cases hb : b = sep
    · subst hb
      rw [step_sep hsep] at hp ⊢
      refine ⟨[], p :: ps, flush pending, t :: ts, ?_, ?_, ended pending, List.Forall₂.cons hp hps⟩
      · rw [List.splitOn_cons_eq_if_modifyHead, if_pos (beq_self_eq_true b), hbytes]
      · rw [List.append_assoc, HackerUnion.Lists.splitOn_append _ (hflush pending),
          List.singleton_append, List.splitOn_cons_eq_if_modifyHead, if_pos (beq_self_eq_true _),
          htext, List.modifyHead_cons, List.append_nil]
    · refine ⟨b :: p, ps, (step pending b).1 ++ t, ts, ?_, ?_, hp.byte, hps⟩
      · rw [List.splitOn_cons_eq_if_modifyHead, if_neg (by simpa using hb), hbytes]
        rfl
      · rw [HackerUnion.Lists.splitOn_append _ (not_mem_step hsep hpending hb), htext]
        rfl

theorem forall₂_splitOn (sep : UInt8) (hsep : sep.toNat < 0x80) (h : Reading [] bytes text) :
    List.Forall₂ (Reading []) (bytes.splitOn sep) (text.splitOn (UInt16.ofNat sep.toNat)) := by
  obtain ⟨p, ps, t, ts, hbytes, htext, hp, hps⟩ := h.splitOn sep hsep fun a ha => by cases ha
  rw [hbytes, htext]
  exact List.Forall₂.cons hp hps

/-- There is only one way to read bytes of which no two begin a character. -/
theorem eq_map (h : Reading pending bytes text)
    (hpending : pending = [] ∨ ∃ a, pending = [a] ∧ 0x80 ≤ a.toNat)
    (hsingle : (pending ++ bytes).IsChain fun a b => begins a b = false) :
    text = (pending ++ bytes).map fun b =>
      if b.toNat < 0x80 then UInt16.ofNat b.toNat else replacement := by
  induction h with
  | nil => rfl
  | cut _ ih =>
    rcases hpending with rfl | ⟨a, rfl, ha⟩
    · exact ih (Or.inl rfl) hsingle
    · rw [ih (Or.inl rfl) hsingle.of_cons, List.singleton_append, List.map_cons,
        if_neg (Nat.not_lt_of_le ha)]
      rfl
  | @byte pending b bytes text _ ih =>
    have hrest : (b :: bytes).IsChain fun a b => begins a b = false := by
      rcases hpending with rfl | ⟨a, rfl, -⟩
      · exact hsingle
      · exact hsingle.of_cons
    have hgoes : goesOn pending b = false := by
      rcases hpending with rfl | ⟨a, rfl, -⟩
      · rfl
      · exact (List.isChain_cons_cons.mp hsingle).1
    have hflush : flush pending = pending.map fun b =>
        if b.toNat < 0x80 then UInt16.ofNat b.toNat else replacement := by
      rcases hpending with rfl | ⟨a, rfl, ha⟩
      · rfl
      · rw [List.map_singleton, if_neg (Nat.not_lt_of_le ha)]
        rfl
    rw [step_of_not hgoes] at ih ⊢
    rw [List.map_append, ← hflush, List.append_assoc]
    refine congrArg (flush pending ++ ·) ?_
    unfold start at ih ⊢
    split
    · next hb =>
      rw [if_pos hb] at ih
      rw [ih (Or.inl rfl) hrest.of_cons, List.map_cons, if_pos hb]
      rfl
    · next hb =>
      rw [if_neg hb] at ih
      split
      · next hfirst =>
        rw [if_pos hfirst] at ih
        rw [ih (Or.inr ⟨b, rfl, Nat.le_of_not_lt hb⟩) hrest]
        rfl
      · next hfirst =>
        rw [if_neg hfirst] at ih
        rw [ih (Or.inl rfl) hrest.of_cons, List.map_cons, if_neg hb]
        rfl

end Reading

end Js
