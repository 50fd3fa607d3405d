import HackerUnion.Js.Utf8
import Mathlib.Algebra.GroupWithZero.Nat
import Mathlib.Data.List.TakeWhile

namespace Js.Querystring

def percent : UInt16 := 37

def ampersand : UInt8 := 38

def plus : UInt16 := 43

def equals : UInt16 := 61

def space : UInt16 := 32

def maxKeys : Nat := 1000

def hexDigit (u : UInt16) : Option UInt8 :=
  if 48 ≤ u.toNat ∧ u.toNat ≤ 57 then some (UInt8.ofNat (u.toNat - 48))
  else if 65 ≤ u.toNat ∧ u.toNat ≤ 70 then some (UInt8.ofNat (u.toNat - 55))
  else if 97 ≤ u.toNat ∧ u.toNat ≤ 102 then some (UInt8.ofNat (u.toNat - 87))
  else none

/-- `pending` are escaped bytes of a character that is not complete. `none` when it throws. -/
def decodeURIComponentFrom (pending : List UInt8) : List UInt16 → Option (List UInt16)
  | [] => if pending = [] then some [] else none
  | u :: s =>
    if u = percent then
      match s with
      | h :: l :: s =>
        match hexDigit h, hexDigit l with
        | some a, some b =>
          let pending := pending ++ [16 * a + b]
          match charAt? pending with
          | some c => (decodeURIComponentFrom [] s).map (units c ++ ·)
          | none => decodeURIComponentFrom pending s
        | _, _ => none
      | _ => none
    else if pending = [] then (decodeURIComponentFrom [] s).map (u :: ·)
    else none

def low (u : UInt16) : UInt8 := UInt8.ofNat u.toNat

/-- What is no escape is left as it is, but for what a byte does not hold of it. -/
def unescapeBuffer : List UInt16 → List UInt8
  | [] => []
  | u :: s =>
    if u = percent then
      match s with
      | [] => [low u]
      | [h] => [low u, low h]
      | h :: l :: s =>
        match hexDigit h, hexDigit l with
        | some a, some b => (16 * a + b) :: unescapeBuffer s
        | some _, none => low u :: low h :: low l :: unescapeBuffer s
        | none, _ => low u :: low h :: unescapeBuffer (l :: s)
    else low u :: unescapeBuffer s

def unescape (s : List UInt16) : List UInt16 :=
  (decodeURIComponentFrom [] s).getD (utf8Decode (unescapeBuffer s))

/-- The values of each key, in the order in which the keys come up. -/
abbrev Fields := List (List UInt16 × List (List UInt16))

def addKeyVal (key value : List UInt16) : Fields → Fields
  | [] => [(key, [value])]
  | (k, values) :: fields =>
    if k = key then (k, values ++ [value]) :: fields
    else (k, values) :: addKeyVal key value fields

def keyOf (piece : List UInt16) : List UInt16 :=
  unescape ((piece.map fun u => if u = plus then space else u).takeWhile (· ≠ equals))

def valueOf (piece : List UInt16) : List UInt16 :=
  unescape (((piece.map fun u => if u = plus then space else u).dropWhile (· ≠ equals)).drop 1)

def addPiece (fields : Fields) (piece : List UInt16) : Fields :=
  if piece = [] then fields else addKeyVal (keyOf piece) (valueOf piece) fields

def parse (s : List UInt16) : Fields :=
  ((s.splitOn (UInt16.ofNat ampersand.toNat)).take maxKeys).foldl addPiece []

/-- Characters that are no part of the syntax. -/
structure Wide (u : List UInt16) : Prop where
  ne_nil : u ≠ []
  large : ∀ w ∈ u, 0x80 ≤ w.toNat

namespace Wide

variable {u : List UInt16}

theorem replicate {n : Nat} (hn : 0 < n) : Wide (List.replicate n replacement) := by
  refine ⟨?_, ?_⟩
  · intro h
    have hlength := congrArg List.length h
    rw [List.length_replicate, List.length_nil] at hlength
    omega
  · intro w hw
    rw [List.eq_of_mem_replicate hw]
    decide

theorem not_mem (h : Wide u) {w : UInt16} (hw : w.toNat < 0x80) : w ∉ u := by
  intro hmem
  have hle := h.large w hmem
  omega

theorem hexDigit_eq_none {w : UInt16} (hw : 0x80 ≤ w.toNat) : hexDigit w = none := by
  unfold hexDigit
  rw [if_neg (by omega), if_neg (by omega), if_neg (by omega)]

end Wide

section Unescape

variable {s : List UInt16} {w h l : UInt16}

theorem unescapeBuffer_cons (hw : w ≠ percent) :
    unescapeBuffer (w :: s) = low w :: unescapeBuffer s := by
  rw [unescapeBuffer.eq_def]
  exact if_neg hw

theorem unescapeBuffer_none (hh : hexDigit h = none) :
    unescapeBuffer (percent :: h :: s) = low percent :: low h :: unescapeBuffer s := by
  cases s with
  | nil => rfl
  | cons l s =>
    rw [unescapeBuffer.eq_def]
    dsimp only
    rw [if_pos rfl, hh]

theorem unescapeBuffer_some_none {a : UInt8} (hh : hexDigit h = some a) (hl : hexDigit l = none) :
    unescapeBuffer (percent :: h :: l :: s) =
      low percent :: low h :: low l :: unescapeBuffer s := by
  rw [unescapeBuffer.eq_def]
  dsimp only
  rw [if_pos rfl, hh, hl]

theorem unescapeBuffer_some_some {a b : UInt8} (hh : hexDigit h = some a)
    (hl : hexDigit l = some b) :
    unescapeBuffer (percent :: h :: l :: s) = (16 * a + b) :: unescapeBuffer s := by
  rw [unescapeBuffer.eq_def]
  dsimp only
  rw [if_pos rfl, hh, hl]

theorem unescapeBuffer_large {u : List UInt16} (hu : ∀ w ∈ u, 0x80 ≤ w.toNat) (y : List UInt16) :
    unescapeBuffer (u ++ y) = u.map low ++ unescapeBuffer y := by
  induction u with
  | nil => rfl
  | cons w u ih =>
    have hw : w ≠ percent := by
      intro heq
      have hle := hu w List.mem_cons_self
      rw [heq] at hle
      exact absurd hle (by decide)
    rw [List.cons_append, unescapeBuffer_cons hw, ih fun v hv => hu v (List.mem_cons_of_mem _ hv)]
    rfl

/-- An escape does not go across such characters. -/
theorem unescapeBuffer_append {u : List UInt16} (hu : Wide u) (x y : List UInt16) :
    unescapeBuffer (x ++ u ++ y) = unescapeBuffer x ++ u.map low ++ unescapeBuffer y := by
  obtain ⟨v, vs, huv⟩ := List.exists_cons_of_ne_nil hu.ne_nil
  have hv : hexDigit v = none :=
    Wide.hexDigit_eq_none (hu.large v (huv ▸ List.mem_cons_self))
  have hvs : ∀ w ∈ vs, 0x80 ≤ w.toNat :=
    fun w hw => hu.large w (huv ▸ List.mem_cons_of_mem _ hw)
  match x with
  | [] => exact unescapeBuffer_large hu.large y
  | w :: x =>
    by_cases hw : w = percent
    · subst hw
      match x with
      | [] =>
        rw [huv, List.append_assoc, List.singleton_append, List.cons_append,
          unescapeBuffer_none hv, unescapeBuffer_large hvs]
        rfl
      | [h] =>
        cases hh : hexDigit h with
        | none =>
          rw [List.append_assoc, List.cons_append, List.singleton_append, unescapeBuffer_none hh,
            unescapeBuffer_large hu.large]
          rfl
        | some a =>
          rw [huv, List.append_assoc, List.cons_append, List.singleton_append, List.cons_append,
            unescapeBuffer_some_none hh hv, unescapeBuffer_large hvs]
          rfl
      | h :: l :: x =>
        cases hh : hexDigit h with
        | none =>
          have ih := unescapeBuffer_append hu (l :: x) y
          rw [List.cons_append, List.cons_append, List.cons_append, List.cons_append,
            unescapeBuffer_none hh, unescapeBuffer_none hh, ih]
          rfl
        | some a =>
          have ih := unescapeBuffer_append hu x y
          simp only [List.cons_append]
          cases hl : hexDigit l with
          | none => rw [unescapeBuffer_some_none hh hl, unescapeBuffer_some_none hh hl, ih]; rfl
          | some b => rw [unescapeBuffer_some_some hh hl, unescapeBuffer_some_some hh hl, ih]; rfl
    · rw [List.cons_append, List.cons_append, unescapeBuffer_cons hw, unescapeBuffer_cons hw,
        unescapeBuffer_append hu x y]
      rfl

section Component

variable {pending : List UInt8}

theorem decodeURIComponentFrom_cons (hw : w ≠ percent) :
    decodeURIComponentFrom pending (w :: s) =
      if pending = [] then (decodeURIComponentFrom [] s).map (w :: ·) else none := by
  rw [decodeURIComponentFrom.eq_def]
  exact if_neg hw

theorem decodeURIComponentFrom_first (hh : hexDigit h = none) :
    decodeURIComponentFrom pending (percent :: h :: s) = none := by
  rw [decodeURIComponentFrom.eq_def]
  dsimp only
  rw [if_pos rfl]
  cases s with
  | nil => rfl
  | cons l s =>
    dsimp only
    rw [hh]

theorem decodeURIComponentFrom_second (hl : hexDigit l = none) :
    decodeURIComponentFrom pending (percent :: h :: l :: s) = none := by
  rw [decodeURIComponentFrom.eq_def]
  dsimp only
  rw [if_pos rfl, hl]
  cases hexDigit h with
  | none => rfl
  | some a => rfl

theorem decodeURIComponentFrom_escape {a b : UInt8} (hh : hexDigit h = some a)
    (hl : hexDigit l = some b) :
    decodeURIComponentFrom pending (percent :: h :: l :: s) =
      match charAt? (pending ++ [16 * a + b]) with
      | some c => (decodeURIComponentFrom [] s).map (units c ++ ·)
      | none => decodeURIComponentFrom (pending ++ [16 * a + b]) s := by
  conv_lhs => rw [decodeURIComponentFrom.eq_def]
  dsimp only
  rw [if_pos rfl, hh, hl]

end Component

theorem decodeURIComponentFrom_large {u : List UInt16} (hu : ∀ w ∈ u, 0x80 ≤ w.toNat)
    (y : List UInt16) :
    decodeURIComponentFrom [] (u ++ y) = (decodeURIComponentFrom [] y).map (u ++ ·) := by
  induction u with
  | nil => exact Option.map_id_fun.symm ▸ rfl
  | cons w u ih =>
    have hw : w ≠ percent := by
      intro heq
      have hle := hu w List.mem_cons_self
      rw [heq] at hle
      exact absurd hle (by decide)
    rw [List.cons_append, decodeURIComponentFrom_cons hw, if_pos rfl,
      ih fun v hv => hu v (List.mem_cons_of_mem _ hv), Option.map_map]
    rfl

/-- Whether it throws is decided on either side of such characters. -/
theorem decodeURIComponentFrom_append {u : List UInt16} (hu : Wide u) (pending : List UInt8)
    (x y : List UInt16) :
    decodeURIComponentFrom pending (x ++ u ++ y) =
      (decodeURIComponentFrom pending x).bind fun a =>
        (decodeURIComponentFrom [] y).map fun b => a ++ u ++ b := by
  obtain ⟨v, vs, huv⟩ := List.exists_cons_of_ne_nil hu.ne_nil
  have hvmem : v ∈ u := huv ▸ List.mem_cons_self
  have hv : hexDigit v = none := Wide.hexDigit_eq_none (hu.large v hvmem)
  have hvp : v ≠ percent := by
    intro heq
    have hle := hu.large v hvmem
    rw [heq] at hle
    exact absurd hle (by decide)
  match x with
  | [] =>
    by_cases hp : pending = []
    · subst hp
      rw [List.nil_append, decodeURIComponentFrom_large hu.large]
      rfl
    · have hnone : decodeURIComponentFrom pending [] = none := if_neg hp
      rw [hnone, huv, List.nil_append, List.cons_append, decodeURIComponentFrom_cons hvp,
        if_neg hp]
      rfl
  | w :: x =>
    by_cases hw : w = percent
    · subst hw
      match x with
      | [] =>
        rw [huv, List.append_assoc, List.singleton_append, List.cons_append,
          decodeURIComponentFrom_first hv]
        rfl
      | [h] =>
        rw [huv, List.append_assoc, List.cons_append, List.singleton_append, List.cons_append,
          decodeURIComponentFrom_second hv]
        rfl
      | h :: l :: x =>
        simp only [List.cons_append]
        cases hh : hexDigit h with
        | none =>
          rw [decodeURIComponentFrom_first hh, decodeURIComponentFrom_first hh]
          rfl
        | some a =>
          cases hl : hexDigit l with
          | none =>
            rw [decodeURIComponentFrom_second hl, decodeURIComponentFrom_second hl]
            rfl
          | some b =>
            rw [decodeURIComponentFrom_escape hh hl, decodeURIComponentFrom_escape hh hl]
            cases charAt? (pending ++ [16 * a + b]) with
            | none => exact decodeURIComponentFrom_append hu _ x y
            | some c =>
              dsimp only
              rw [decodeURIComponentFrom_append hu [] x y]
              cases decodeURIComponentFrom [] x with
              | none => rfl
              | some d =>
                cases decodeURIComponentFrom [] y with
                | none => rfl
                | some e => simp [List.append_assoc]
    · rw [List.cons_append, List.cons_append, decodeURIComponentFrom_cons hw,
        decodeURIComponentFrom_cons hw, decodeURIComponentFrom_append hu [] x y]
      split
      · cases decodeURIComponentFrom [] x with
        | none => rfl
        | some d =>
          cases decodeURIComponentFrom [] y with
          | none => rfl
          | some e => rfl
      · rfl

/-- The more characters there are, the longer is what is read of them. -/
theorem length_unescape_lt {u : List UInt16} (hu : Wide u) {n : Nat} (hn : u.length < n)
    (x y : List UInt16) :
    (unescape (x ++ u ++ y)).length <
      (unescape (x ++ List.replicate n replacement ++ y)).length := by
  have hwide := Wide.replicate (Nat.zero_lt_of_lt hn)
  have hlow : (List.replicate n replacement).map low = List.replicate n 0xFD := List.map_replicate
  have hle := Utf8.length_decode_append_le (unescapeBuffer x ++ u.map low) (unescapeBuffer y)
  have hle' := Utf8.length_decode_append_le (unescapeBuffer x) (u.map low)
  have hbytes := Utf8.length_decode_le (u.map low)
  have heq := congrArg List.length (Utf8.decode_replicate (b := 0xFD) (by decide) n
    (unescapeBuffer x) (unescapeBuffer y) (Nat.zero_lt_of_lt hn))
  rw [List.length_map] at hbytes
  rw [List.length_append, List.length_append, List.length_replicate] at heq
  unfold unescape
  rw [decodeURIComponentFrom_append hu, decodeURIComponentFrom_append hwide,
    unescapeBuffer_append hu, unescapeBuffer_append hwide, hlow]
  cases decodeURIComponentFrom [] x with
  | none =>
    change (utf8Decode _).length < (utf8Decode _).length
    omega
  | some a =>
    cases decodeURIComponentFrom [] y with
    | none =>
      change (utf8Decode _).length < (utf8Decode _).length
      omega
    | some b =>
      change (a ++ u ++ b).length < (a ++ List.replicate n replacement ++ b).length
      simp only [List.length_append, List.length_replicate]
      omega

end Unescape

section Piece

theorem takeWhile_equals {a : List UInt16} (ha : equals ∉ a) (b : List UInt16) :
    (a ++ equals :: b).takeWhile (· ≠ equals) = a ∧
      ((a ++ equals :: b).dropWhile (· ≠ equals)).drop 1 = b := by
  induction a with
  | nil => exact ⟨rfl, rfl⟩
  | cons w a ih =>
    rw [List.mem_cons, not_or] at ha
    have hw : decide (w ≠ equals) = true := decide_eq_true fun heq => ha.1 heq.symm
    rw [List.cons_append, List.takeWhile_cons_of_pos (p := fun x => decide (x ≠ equals)) hw,
      List.dropWhile_cons_of_pos (p := fun x => decide (x ≠ equals)) hw]
    exact ⟨congrArg _ (ih ha.2).1, (ih ha.2).2⟩

theorem takeWhile_no_equals {a : List UInt16} (ha : equals ∉ a) :
    a.takeWhile (· ≠ equals) = a ∧ (a.dropWhile (· ≠ equals)).drop 1 = [] := by
  have hall : ∀ w ∈ a, decide (w ≠ equals) = true := by
    intro w hw
    exact decide_eq_true fun heq => ha (heq ▸ hw)
  refine ⟨List.takeWhile_eq_self_iff.mpr hall, ?_⟩
  rw [List.dropWhile_eq_nil_iff.mpr hall]
  rfl

/-- How much a piece has to say. -/
def pieceWeight (piece : List UInt16) : Nat := (keyOf piece).length + (valueOf piece).length

theorem pieceWeight_lt {u : List UInt16} (hu : Wide u) {n : Nat} (hn : u.length < n)
    (p q : List UInt16) :
    pieceWeight (p ++ u ++ q) < pieceWeight (p ++ List.replicate n replacement ++ q) := by
  have hwide := Wide.replicate (Nat.zero_lt_of_lt hn)
  have hmap {v : List UInt16} (hv : Wide v) :
      v.map (fun u => if u = plus then space else u) = v := by
    refine (List.map_congr_left ?_).trans (List.map_id v)
    intro w hw
    exact if_neg fun heq => hv.not_mem (by decide) (heq ▸ hw)
  unfold pieceWeight keyOf valueOf
  simp only [List.map_append, hmap hu, hmap hwide]
  generalize p.map (fun u => if u = plus then space else u) = x
  generalize q.map (fun u => if u = plus then space else u) = y
  by_cases hx : equals ∈ x
  · obtain ⟨a, b, rfl, ha⟩ := List.eq_append_cons_of_mem hx
    have hcut (v : List UInt16) : a ++ equals :: b ++ v ++ y = a ++ equals :: (b ++ v ++ y) := by
      simp only [List.append_assoc, List.cons_append]
    rw [hcut, hcut, (takeWhile_equals ha _).1, (takeWhile_equals ha _).1,
      (takeWhile_equals ha _).2, (takeWhile_equals ha _).2]
    exact Nat.add_lt_add_left (length_unescape_lt hu hn b y) _
  · by_cases hy : equals ∈ y
    · obtain ⟨a, b, rfl, ha⟩ := List.eq_append_cons_of_mem hy
      have hnot {v : List UInt16} (hv : Wide v) : equals ∉ x ++ v ++ a := by
        simp only [List.mem_append, not_or]
        exact ⟨⟨hx, hv.not_mem (by decide)⟩, ha⟩
      have hcut (v : List UInt16) : x ++ v ++ (a ++ equals :: b) = x ++ v ++ a ++ equals :: b :=
        (List.append_assoc _ _ _).symm
      rw [hcut, hcut, (takeWhile_equals (hnot hu) b).1, (takeWhile_equals (hnot hwide) b).1,
        (takeWhile_equals (hnot hu) b).2, (takeWhile_equals (hnot hwide) b).2]
      exact Nat.add_lt_add_right (length_unescape_lt hu hn x a) _
    · have hnot {v : List UInt16} (hv : Wide v) : equals ∉ x ++ v ++ y := by
        simp only [List.mem_append, not_or]
        exact ⟨⟨hx, hv.not_mem (by decide)⟩, hy⟩
      rw [(takeWhile_no_equals (hnot hu)).1, (takeWhile_no_equals (hnot hwide)).1,
        (takeWhile_no_equals (hnot hu)).2, (takeWhile_no_equals (hnot hwide)).2]
      exact Nat.add_lt_add_right (length_unescape_lt hu hn x y) _

end Piece

section Weight

/-- How much is said altogether. -/
def weight (fields : Fields) : Nat :=
  (fields.map fun field => (field.2.map fun value => field.1.length + value.length).sum).sum

theorem weight_addKeyVal (key value : List UInt16) (fields : Fields) :
    weight (addKeyVal key value fields) = weight fields + (key.length + value.length) := by
  induction fields with
  | nil => simp [addKeyVal, weight]
  | cons field fields ih =>
    obtain ⟨k, values⟩ := field
    unfold addKeyVal
    split
    · next hk =>
      subst hk
      simp only [weight, List.map_cons, List.sum_cons, List.map_append, List.sum_append,
        List.map_nil, List.sum_nil]
      omega
    · unfold weight at ih ⊢
      rw [List.map_cons, List.sum_cons, ih, List.map_cons, List.sum_cons, Nat.add_assoc]

theorem weight_addPiece (fields : Fields) (piece : List UInt16) :
    weight (addPiece fields piece) = weight fields + pieceWeight piece := by
  unfold addPiece
  split
  · next h =>
    rw [h]
    rfl
  · exact weight_addKeyVal _ _ _

theorem weight_foldl (pieces : List (List UInt16)) (fields : Fields) :
    weight (pieces.foldl addPiece fields) = weight fields + (pieces.map pieceWeight).sum := by
  induction pieces generalizing fields with
  | nil => rfl
  | cons piece pieces ih =>
    rw [List.foldl_cons, ih, weight_addPiece, List.map_cons, List.sum_cons, Nat.add_assoc]

/-- The fields tell how many characters stand in a piece that is looked at. -/
theorem parse_ne {u : List UInt16} (hu : Wide u) {n : Nat} (hn : u.length < n) (x y : List UInt16)
    (hx : (x.splitOn (UInt16.ofNat ampersand.toNat)).length ≤ maxKeys) :
    parse (x ++ u ++ y) ≠ parse (x ++ List.replicate n replacement ++ y) := by
  have hwide := Wide.replicate (Nat.zero_lt_of_lt hn)
  obtain ⟨ps, p, q, qs, hps, -, hsplit⟩ :=
    HackerUnion.Lists.exists_splitOn_append (UInt16.ofNat ampersand.toNat) x y
  have hpieces {v : List UInt16} (hv : Wide v) : parse (x ++ v ++ y) =
      (ps ++ (p ++ v ++ q) :: qs.take (maxKeys - ps.length - 1)).foldl addPiece [] := by
    have hlength : ps.length + 1 ≤ maxKeys := by
      rw [hps, List.length_append] at hx
      exact hx
    have hcount : maxKeys - ps.length = (maxKeys - ps.length - 1) + 1 := by omega
    unfold parse
    rw [hsplit v (hv.not_mem (by decide)), List.take_append,
      List.take_of_length_le (Nat.le_of_succ_le hlength), hcount, List.take_succ_cons]
    rfl
  intro heq
  have hweight := congrArg weight heq
  rw [hpieces hu, hpieces hwide, weight_foldl, weight_foldl] at hweight
  simp only [List.map_append, List.map_cons, List.sum_append, List.sum_cons] at hweight
  have hlt := pieceWeight_lt hu hn p q
  omega

end Weight

end Js.Querystring
