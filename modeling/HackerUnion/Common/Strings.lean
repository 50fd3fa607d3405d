import HackerUnion.Lists.Numeral
import HackerUnion.Lists.Slice
import HackerUnion.Petri.Models

namespace HackerUnion.Common

open Bash (Text text)
open HackerUnion.Lists (place slice slice_natCast slice_zero place_natCast)
open HackerUnion.Lists.Numeral
open Petri (isWord)

/-- What these functions raise. -/
inductive Raised where
  | valueError (message : Text)
  | zeroDivisionError
  deriving DecidableEq

/-! A key writes a number in symbols, the least significant one last. -/

section Keys

variable {α : Type}

theorem next_lt {n : Int} {numsym : Nat} (h : ¬n / numsym - 1 < 0) :
    (n / numsym - 1).toNat < n.toNat := by
  have hpos : 0 < n := by
    by_contra! hn
    have hquotient : n / numsym ≤ 0 := by
      rcases Nat.eq_zero_or_pos numsym with hzero | hpos
      · simp [hzero]
      · exact Int.ediv_nonpos_of_nonpos_of_neg hn (by omega)
    omega
  have hle : n / numsym ≤ n := Int.ediv_le_self numsym hpos.le
  omega

/-- The loop of `key_encode`, after `s` is written. -/
def encodeLoop (encodingSymbols : List α) (n : Int) (s : List α) : Except Raised (List α) :=
  match encodingSymbols[(n % encodingSymbols.length).toNat]? with
  | none => .error .zeroDivisionError
  | some symbol =>
    if n / encodingSymbols.length - 1 < 0 then .ok (symbol :: s)
    else encodeLoop encodingSymbols (n / encodingSymbols.length - 1) (symbol :: s)
termination_by n.toNat
decreasing_by exact next_lt ‹_›

def keyEncode (n : Int) (encodingSymbols : List α) : Except Raised (List α) :=
  if n < 0 then .error (.valueError (text "Unencoded keys must be positive integers"))
  else encodeLoop encodingSymbols n []

/-- The loop of `key_max` holds the result and the argument, which nothing reads any more. -/
def maxStep (numsym : Nat) (state : Int × Int) (i : Nat) : Int × Int :=
  (if i = 0 then state.1 + (numsym - 1) else state.1 + numsym ^ (i + 1), state.2 - 1)

def keyMax (digits : Nat) (encodingSymbols : List α) : Int :=
  ((List.range digits).foldl (maxStep encodingSymbols.length) (0, digits)).1

theorem foldl_maxStep (numsym d : Nat) (digits : Int) :
    ((List.range (d + 1)).foldl (maxStep numsym) (0, digits)).1 + 2 = least numsym (d + 2) := by
  induction d with
  | zero =>
    simp [maxStep, least_succ]
    omega
  | succ d ih =>
    rw [least_succ, Nat.cast_add, ← ih, List.range_succ, List.foldl_concat, maxStep,
      if_neg (by omega), show d + 1 + 1 = d + 2 by rfl]
    push_cast
    omega

variable {encodingSymbols : List α}

/-- The string that writes these digits. -/
def written (ds : List (Fin encodingSymbols.length)) : List α := ds.map encodingSymbols.get

@[simp] theorem length_written (ds : List (Fin encodingSymbols.length)) :
    (written ds).length = ds.length := by
  simp [written]

@[simp] theorem written_eq_nil {ds : List (Fin encodingSymbols.length)} :
    written ds = [] ↔ ds = [] := by
  simp [written]

@[simp] theorem written_append (ds es : List (Fin encodingSymbols.length)) :
    written (ds ++ es) = written ds ++ written es := by
  simp [written]

theorem written_subset (ds : List (Fin encodingSymbols.length)) :
    written ds ⊆ encodingSymbols := by
  intro c hc
  obtain ⟨d, _, rfl⟩ := List.mem_map.mp hc
  exact List.get_mem encodingSymbols d

theorem exists_written {s : List α} (hs : s ⊆ encodingSymbols) :
    ∃ ds : List (Fin encodingSymbols.length), written ds = s := by
  induction s with
  | nil => exact ⟨[], by simp⟩
  | cons c s ih =>
    obtain ⟨ds, hds⟩ := ih (List.subset_of_cons_subset hs)
    obtain ⟨d, hd⟩ := List.get_of_mem (hs List.mem_cons_self)
    refine ⟨d :: ds, ?_⟩
    rw [written, List.map_cons, hd]
    exact congrArg (c :: ·) hds

section NonEmpty

variable [NeZero encodingSymbols.length]

theorem encodeLoop_eq (n : Nat) (s : List α) :
    encodeLoop encodingSymbols n s =
      .ok (written (digits encodingSymbols.length (n + 1)) ++ s) := by
  induction n using Nat.strongRecOn generalizing s with
  | ind n ih =>
    have hpos : 0 < encodingSymbols.length := Nat.pos_of_neZero _
    have hindex : ((n : Int) % encodingSymbols.length).toNat = n % encodingSymbols.length := by
      omega
    have hsymbol : encodingSymbols[n % encodingSymbols.length]? =
        some (encodingSymbols.get (Fin.ofNat _ n)) := by
      simp [Nat.mod_lt n hpos]
    rw [encodeLoop, hindex, hsymbol, digits, written_append]
    -- The numeral of `n + 1` goes on with that of `n / numsym`, and so it ends when this is zero.
    cases hquotient : n / encodingSymbols.length with
    | zero =>
      have hlast : (n : Int) / encodingSymbols.length - 1 < 0 := by
        rw [← Int.natCast_ediv, hquotient]
        simp
      simp [hlast, digits, written]
    | succ q =>
      have hnext : (n : Int) / encodingSymbols.length - 1 = q := by
        rw [← Int.natCast_ediv, hquotient]
        simp
      have hlt : q < n := by
        have hle := Nat.div_le_self n encodingSymbols.length
        omega
      simp only [hnext, ih q hlt]
      simp [written]

theorem keyEncode_eq (n : Nat) :
    keyEncode n encodingSymbols = .ok (written (digits encodingSymbols.length (n + 1))) := by
  rw [keyEncode, if_neg (by omega), encodeLoop_eq, List.append_nil]

/-- Every string but the empty one is the key of a number. -/
theorem exists_digits {s : List α} (hne : s ≠ []) (hs : s ⊆ encodingSymbols) :
    ∃ n, s = written (digits encodingSymbols.length (n + 1)) := by
  obtain ⟨ds, rfl⟩ := exists_written hs
  have hpos : 0 < value ds := by
    rw [Nat.pos_iff_ne_zero]
    intro hzero
    have hds : ds = [] := value_injective hzero
    exact hne (written_eq_nil.mpr hds)
  refine ⟨value ds - 1, ?_⟩
  rw [Nat.sub_add_cancel hpos, digits_value]

end NonEmpty

/-- `key_max` is the greatest number whose key is as short. -/
theorem length_keyEncode_le_iff (encodingSymbols : List α) (hsymbols : encodingSymbols ≠ [])
    (d : Nat) (hd : 1 ≤ d) (n : Nat) :
    ∃ s, keyEncode n encodingSymbols = .ok s ∧
      (s.length ≤ d ↔ (n : Int) ≤ keyMax d encodingSymbols) := by
  have : NeZero encodingSymbols.length := ⟨by simpa using hsymbols⟩
  refine ⟨_, keyEncode_eq n, ?_⟩
  obtain ⟨d, rfl⟩ := Nat.exists_eq_add_of_le' hd
  have hmax := foldl_maxStep encodingSymbols.length d (d + 1 : Nat)
  rw [← keyMax] at hmax
  rw [length_written, length_digits_le_iff, show d + 1 + 1 = d + 2 by rfl]
  omega

theorem length_keyEncode_le_iff_binary :
    ∃ s, keyEncode 5 (text "01") = .ok s ∧ (s.length ≤ 2 ↔ (5 : Int) ≤ keyMax 2 (text "01")) :=
  length_keyEncode_le_iff (text "01") (by decide) 2 (by decide) 5

variable [DecidableEq α]

/-- The symbol `c` at `i`, where `ls` is the last place. -/
def decodeStep (encodingSymbols : List α) (ls n : Int) (c : α) (i : Nat) : Except Raised Int :=
  match encodingSymbols.idxOf? c with
  | none => .error (.valueError (text "Invalid symbol found in encoded key"))
  | some index => .ok (encodingSymbols.length * n + index + if i < ls then 1 else 0)

def keyDecode (s encodingSymbols : List α) : Except Raised Int :=
  s.zipIdx.foldlM (fun n ci => decodeStep encodingSymbols (s.length - 1) n ci.1 ci.2) 0

/-- Strings in the order of their lengths, and those of one length by the places of the symbols. -/
def Before (encodingSymbols : List α) : List α → List α → Prop :=
  List.Shortlex fun a b => encodingSymbols.idxOf a < encodingSymbols.idxOf b

section Distinct

variable (hdistinct : encodingSymbols.Nodup)

include hdistinct

theorem decodeStep_get (d : Fin encodingSymbols.length) (ls n : Int) (i : Nat) :
    decodeStep encodingSymbols ls n (encodingSymbols.get d) i =
      .ok (encodingSymbols.length * n + d.val + if i < ls then 1 else 0) := by
  have hindex : encodingSymbols.idxOf? (encodingSymbols.get d) = some d.val := by
    rw [List.idxOf?_eq_some_iff]
    refine ⟨d.isLt, rfl, ?_⟩
    intro j hj hsame
    have heq : j = d.val := hdistinct.getElem_inj_iff.mp hsame
    omega
  rw [decodeStep, hindex]

/-- All places but the last count their digit as the numeral does. -/
theorem foldlM_decodeStep (ds : List (Fin encodingSymbols.length)) (ls : Int) (n k : Nat)
    (hk : (k + ds.length : Int) ≤ ls) :
    ((written ds).zipIdx k).foldlM
        (fun n ci => decodeStep encodingSymbols ls n ci.1 ci.2) (n : Int) =
      .ok (ds.foldl (fun n d => encodingSymbols.length * n + (d.val + 1)) n : Nat) := by
  induction ds generalizing n k with
  | nil => rfl
  | cons d ds ih =>
    rw [List.length_cons] at hk
    have hstep : decodeStep encodingSymbols ls n (encodingSymbols.get d) k =
        .ok (encodingSymbols.length * n + (d.val + 1) : Nat) := by
      rw [decodeStep_get hdistinct, if_pos (by omega)]
      push_cast
      rw [Int.add_assoc]
    rw [written, List.map_cons, ← written, List.zipIdx_cons, List.foldlM_cons, hstep,
      List.foldl_cons]
    exact ih _ (k + 1) (by omega)

theorem keyDecode_written {ds : List (Fin encodingSymbols.length)} (hne : ds ≠ []) :
    keyDecode (written ds) encodingSymbols = .ok (value ds - 1) := by
  obtain ⟨front, last, rfl⟩ := ds.eq_nil_or_concat'.resolve_left hne
  have hlength : ((written (front ++ [last])).length : Int) - 1 = front.length := by simp
  have hsplit : (written (front ++ [last])).zipIdx =
      (written front).zipIdx ++ [(encodingSymbols.get last, front.length)] := by
    rw [written_append, List.zipIdx_append, length_written]
    simp [written]
  have hfront := foldlM_decodeStep hdistinct front front.length 0 0 (by omega)
  rw [Nat.cast_zero] at hfront
  have hlast := decodeStep_get hdistinct last front.length (value front : Nat) front.length
  rw [if_neg (by omega)] at hlast
  rw [keyDecode, hlength, hsplit, List.foldlM_append, hfront]
  simp only [List.foldlM_cons, List.foldlM_nil, bind_pure, value_concat]
  refine hlast.trans ?_
  push_cast
  congr 1
  omega

theorem keyDecode_digits [NeZero encodingSymbols.length] (n : Nat) :
    keyDecode (written (digits encodingSymbols.length (n + 1))) encodingSymbols = .ok n := by
  rw [keyDecode_written hdistinct (digits_ne_nil (by omega)), value_digits]
  simp

theorem lex_written {ds es : List (Fin encodingSymbols.length)} (h : List.Lex (· < ·) ds es) :
    List.Lex (fun a b => encodingSymbols.idxOf a < encodingSymbols.idxOf b)
      (written ds) (written es) := by
  induction h with
  | nil => exact .nil
  | cons _ ih => exact .cons ih
  | rel hlt =>
    refine .rel ?_
    rw [List.get_idxOf hdistinct, List.get_idxOf hdistinct]
    exact hlt

theorem before_written {ds es : List (Fin encodingSymbols.length)}
    (h : List.Shortlex (· < ·) ds es) : Before encodingSymbols (written ds) (written es) := by
  rcases List.shortlex_def.mp h with hlength | ⟨hlength, hlt⟩
  · exact .of_length_lt (by simpa using hlength)
  · exact .of_lex (by simpa using hlength) (lex_written hdistinct hlt)

end Distinct

/-- Numbers and the strings that are not empty correspond to each other, in their orders. All
strings shorter than the key of a number are the keys of smaller ones: shorter keys would not do. -/
theorem keyEncode_keyDecode (encodingSymbols : List α) (hsymbols : encodingSymbols ≠ [])
    (hdistinct : encodingSymbols.Nodup) :
    (∀ n : Nat, ∃ s, keyEncode n encodingSymbols = .ok s ∧ s ≠ [] ∧ s ⊆ encodingSymbols ∧
      keyDecode s encodingSymbols = .ok n) ∧
    (∀ s, s ≠ [] → s ⊆ encodingSymbols → ∃ n : Nat,
      keyDecode s encodingSymbols = .ok n ∧ keyEncode n encodingSymbols = .ok s) ∧
    (∀ m n : Nat, m < n → ∃ s t, keyEncode m encodingSymbols = .ok s ∧
      keyEncode n encodingSymbols = .ok t ∧ Before encodingSymbols s t) ∧
    (∀ (n : Nat) t, keyEncode n encodingSymbols = .ok t → ∀ s, s ≠ [] → s ⊆ encodingSymbols →
      s.length < t.length → ∃ m : Nat, m < n ∧ keyEncode m encodingSymbols = .ok s) := by
  have : NeZero encodingSymbols.length := ⟨by simpa using hsymbols⟩
  refine ⟨?_, ?_, ?_, ?_⟩
  · intro n
    refine ⟨_, keyEncode_eq n, ?_, written_subset _, keyDecode_digits hdistinct n⟩
    rw [Ne, written_eq_nil]
    exact digits_ne_nil (by omega)
  · intro s hne hs
    obtain ⟨n, rfl⟩ := exists_digits hne hs
    exact ⟨n, keyDecode_digits hdistinct n, keyEncode_eq n⟩
  · intro m n hlt
    refine ⟨_, _, keyEncode_eq m, keyEncode_eq n, before_written hdistinct ?_⟩
    rw [digits_shortlex_iff]
    omega
  · intro n t ht s hne hs hshort
    obtain ⟨m, rfl⟩ := exists_digits hne hs
    rw [keyEncode_eq] at ht
    cases ht
    refine ⟨m, ?_, keyEncode_eq m⟩
    have hlt : m + 1 < n + 1 := by
      rw [← digits_shortlex_iff (N := encodingSymbols.length)]
      exact .of_length_lt (by simpa using hshort)
    omega

theorem keyEncode_keyDecode_base26 :
    ∃ s, keyEncode (26 : Nat) (text "abcdefghijklmnopqrstuvwxyz") = .ok s ∧ s ≠ [] ∧
      s ⊆ text "abcdefghijklmnopqrstuvwxyz" ∧
      keyDecode s (text "abcdefghijklmnopqrstuvwxyz") = .ok (26 : Nat) :=
  (keyEncode_keyDecode (text "abcdefghijklmnopqrstuvwxyz") (by decide) (by decide)).1 26

end Keys

section Shrink

/-- `[aeiou]`, without regard to case -/
def isVowel (c : Char) : Bool := c.toLower ∈ text "aeiou"

/-- `SHRINK_RE.sub('', s)`: a vowel goes where it stands between two word characters. -/
def thinned (before : Option Char) : Text → Text
  | [] => []
  | c :: t =>
    if before.any isWord && isVowel c && t.head?.any isWord then thinned (some c) t
    else c :: thinned (some c) t

def dots : Text := text "..."

/-- `inFront` is `prefix`. -/
def shrink (s : Text) (maxLength : Int) (inFront : Bool := false) (stupidify : Bool := false) :
    Text :=
  if s.length ≤ maxLength then s
  else
    let s := if stupidify then thinned none s else s
    if s.length ≤ maxLength then s
    else if inFront then dots ++ slice s 3 maxLength
    else slice s 0 (maxLength - 3) ++ dots

/-- What a shortened text is to be. -/
structure Shortened (s : Text) (maxLength : Nat) (inFront stupidify : Bool) (result : Text) :
    Prop where
  bounded : result.length ≤ maxLength
  exact : stupidify = false → maxLength < s.length → 3 ≤ maxLength → result.length = maxLength
  beginning : stupidify = false → maxLength < s.length → 3 ≤ maxLength → inFront = false →
    ∃ kept, kept <+: s ∧ result = kept ++ dots
  ending : stupidify = false → maxLength < s.length → 3 ≤ maxLength → inFront = true →
    ∃ kept, kept <:+ s ∧ result = dots ++ kept

variable {s : Text} {maxLength : Nat} {inFront stupidify : Bool}

/-- The text that is cut, where it is cut. -/
def whole (s : Text) (stupidify : Bool) : Text := if stupidify then thinned none s else s

theorem thinned_length_le (before : Option Char) (s : Text) :
    (thinned before s).length ≤ s.length := by
  induction s generalizing before with
  | nil => simp [thinned]
  | cons c t ih =>
    have htail := ih (some c)
    rw [thinned]
    split_ifs <;> simp only [List.length_cons] <;> omega

theorem whole_length_le (s : Text) (stupidify : Bool) :
    (whole s stupidify).length ≤ s.length := by
  cases stupidify
  · exact le_refl _
  · exact thinned_length_le none s

theorem shrink_short (h : s.length ≤ maxLength) : shrink s maxLength inFront stupidify = s := by
  rw [shrink, if_pos (by omega)]

theorem shrink_thinned (hlong : maxLength < s.length)
    (h : (whole s stupidify).length ≤ maxLength) :
    shrink s maxLength inFront stupidify = whole s stupidify := by
  rw [shrink, if_neg (by omega), ← whole]
  exact if_pos (by omega)

theorem shrink_cut (inFront : Bool) (hlong : maxLength < (whole s stupidify).length) :
    shrink s maxLength inFront stupidify =
      if inFront then dots ++ slice (whole s stupidify) 3 maxLength
      else slice (whole s stupidify) 0 (maxLength - 3) ++ dots := by
  have hle := whole_length_le s stupidify
  rw [shrink, if_neg (by omega), ← whole]
  exact if_neg (by omega)

@[simp] theorem length_dots : dots.length = 3 := by decide

theorem slice_three (s : Text) (maxLength : Nat) :
    slice s 3 maxLength = (s.take maxLength).drop 3 := slice_natCast s 3 maxLength

theorem slice_front (s : Text) (hmax : 3 ≤ maxLength) :
    slice s 0 (maxLength - 3) = s.take (maxLength - 3) := by
  rw [show (maxLength : Int) - 3 = (maxLength - 3 : Nat) by omega, slice_zero, place_natCast]

theorem three_le_length_shrink (inFront : Bool) (hlong : maxLength < (whole s stupidify).length) :
    3 ≤ (shrink s maxLength inFront stupidify).length := by
  rw [shrink_cut _ hlong]
  cases inFront <;> simp

theorem length_shrink (inFront : Bool) (hlong : maxLength < (whole s stupidify).length)
    (hmax : 3 ≤ maxLength) :
    (shrink s maxLength inFront stupidify).length = maxLength := by
  rw [shrink_cut _ hlong, slice_three, slice_front _ hmax]
  cases inFront <;> simp <;> omega

/-- What fits is in order. So is what is cut, where there is room for the dots, unless they stand in
front: then the text is cut behind as well, although no dots tell. -/
theorem shrink_shortened_iff (s : Text) (maxLength : Nat) (inFront stupidify : Bool) :
    Shortened s maxLength inFront stupidify (shrink s maxLength inFront stupidify) ↔
      (if stupidify then thinned none s else s).length ≤ maxLength ∨
      3 ≤ maxLength ∧ (stupidify = true ∨ inFront = false ∨ (s.take maxLength).drop 3 <:+ s) := by
  rw [← whole]
  constructor
  · intro h
    by_contra! hcon
    obtain ⟨hlong, hcon⟩ := hcon
    have hthree := three_le_length_shrink inFront hlong
    have hmax := hthree.trans h.bounded
    obtain ⟨hstupidify, hinFront, hmiddle⟩ := hcon hmax
    rw [Bool.eq_false_of_not_eq_true hstupidify] at h hlong
    rw [Bool.eq_true_of_not_eq_false hinFront] at h
    obtain ⟨kept, hkept, heq⟩ := h.ending rfl hlong hmax rfl
    rw [shrink_cut _ hlong, if_pos rfl, slice_three] at heq
    have hsame : (s.take maxLength).drop 3 = kept := List.append_cancel_left heq
    rw [hsame] at hmiddle
    exact hmiddle hkept
  · intro h
    by_cases hfits : (whole s stupidify).length ≤ maxLength
    · have hshort : (shrink s maxLength inFront stupidify).length ≤ maxLength := by
        by_cases hlong : maxLength < s.length
        · rwa [shrink_thinned hlong hfits]
        · rw [shrink_short (by omega)]
          omega
      -- an unthinned text that fits is not truncated, and nothing else is asked of it
      have huncut : stupidify = false → ¬maxLength < s.length := by
        intro hstupidify
        rw [hstupidify] at hfits
        exact Nat.not_lt.mpr hfits
      exact ⟨hshort, fun h hlong => absurd hlong (huncut h), fun h hlong => absurd hlong (huncut h),
        fun h hlong => absurd hlong (huncut h)⟩
    · have hlong : maxLength < (whole s stupidify).length := by omega
      obtain ⟨hmax, hwhich⟩ := h.resolve_left hfits
      have hlength := length_shrink inFront hlong hmax
      have hcut := shrink_cut inFront hlong
      refine ⟨hlength.le, fun _ _ _ => hlength, ?_, ?_⟩
      · intro hstupidify _ _ hinFront
        rw [hcut, hstupidify, hinFront, slice_front _ hmax]
        exact ⟨_, List.take_prefix _ _, rfl⟩
      · intro hstupidify _ _ hinFront
        rw [hcut, hstupidify, hinFront, slice_three]
        rw [hstupidify, hinFront] at hwhich
        have hmiddle : (s.take maxLength).drop 3 <:+ s := by simpa using hwhich
        exact ⟨_, hmiddle, rfl⟩

theorem shrink_not_shortened :
    ¬∀ (s : Text) (maxLength : Nat) (inFront stupidify : Bool),
      Shortened s maxLength inFront stupidify (shrink s maxLength inFront stupidify) := by
  intro hall
  obtain ⟨kept, hkept, heq⟩ :=
    (hall (text "abcdefgh") 5 true false).ending rfl (by decide) (by decide) rfl
  have hsame : text "de" = kept := by
    rw [show shrink (text "abcdefgh") (5 : Nat) true false = dots ++ text "de" by decide] at heq
    exact List.append_cancel_left heq
  rw [← hsame] at hkept
  exact absurd hkept (by decide)

end Shrink

end HackerUnion.Common
