import HackerUnion.Bash.Text
import Mathlib.Data.List.GetD

namespace HackerUnion.Bash

def alphabet : Text :=
  text "ABCDEFGHIJKLMNOPQRSTUVWXYZabcdefghijklmnopqrstuvwxyz0123456789+/"

def symbol (n : Nat) : Char := alphabet.getD n '='

def symbolValue (c : Char) : Option Nat :=
  if alphabet.idxOf c < 64 then some (alphabet.idxOf c) else none

/-- Three bytes are four symbols. Fewer at the end are filled up. -/
def encodeBytes : List UInt8 → Text
  | [] => []
  | [a] => [symbol (a.toNat / 4), symbol (a.toNat % 4 * 16), '=', '=']
  | [a, b] =>
    [symbol (a.toNat / 4), symbol (a.toNat % 4 * 16 + b.toNat / 16), symbol (b.toNat % 16 * 4), '=']
  | a :: b :: c :: rest =>
    symbol (a.toNat / 4) :: symbol (a.toNat % 4 * 16 + b.toNat / 16) ::
      symbol (b.toNat % 16 * 4 + c.toNat / 64) :: symbol (c.toNat % 64) :: encodeBytes rest

/-- What is not written as `encodeBytes` writes it ends the bytes. -/
def decodeBytes : Text → List UInt8
  | x :: y :: z :: w :: rest =>
    match symbolValue x, symbolValue y, symbolValue z, symbolValue w with
    | some i, some j, some k, some l =>
      UInt8.ofNat (i * 4 + j / 16) :: UInt8.ofNat (j % 16 * 16 + k / 4) ::
        UInt8.ofNat (k % 4 * 64 + l) :: decodeBytes rest
    | some i, some j, some k, none =>
      if w = '=' ∧ rest = [] then
        [UInt8.ofNat (i * 4 + j / 16), UInt8.ofNat (j % 16 * 16 + k / 4)]
      else []
    | some i, some j, none, none =>
      if z = '=' ∧ w = '=' ∧ rest = [] then [UInt8.ofNat (i * 4 + j / 16)] else []
    | _, _, _, _ => []
  | _ => []

/-- `base64 -w 0` -/
def base64 (t : Text) : Text := encodeBytes (t.flatMap String.utf8EncodeChar)

/-- `base64 -d`, of which only characters are kept. -/
def unbase64 (t : Text) : Text :=
  ((decodeBytes (t.filter (· ≠ '\n'))).toByteArray.utf8Decode?.map Array.toList).getD []

theorem symbolValue_symbol {n : Nat} (h : n < 64) : symbolValue (symbol n) = some n := by
  have hall : ∀ n < 64, symbolValue (symbol n) = some n := by decide +kernel
  exact hall n h

theorem symbol_mem {n : Nat} (h : n < 64) : symbol n ∈ alphabet := by
  have hlen : n < alphabet.length := h
  rw [symbol, List.getD_eq_getElem _ _ hlen]
  exact List.getElem_mem hlen

theorem ofNat_eq {b : UInt8} {n : Nat} (h : n = b.toNat) : UInt8.ofNat n = b := by
  rw [h, UInt8.ofNat_toNat]

theorem decode_encodeBytes (bytes : List UInt8) : decodeBytes (encodeBytes bytes) = bytes := by
  have hfill : symbolValue '=' = none := by decide
  induction bytes using encodeBytes.induct with
  | case1 => rfl
  | case2 a =>
    have ha := a.toNat_lt
    have hx : a.toNat / 4 < 64 := by omega
    have hy : a.toNat % 4 * 16 < 64 := by omega
    rw [encodeBytes, decodeBytes, symbolValue_symbol hx, symbolValue_symbol hy, hfill]
    simp only [and_self, if_true, List.cons.injEq, and_true]
    apply ofNat_eq
    omega
  | case3 a b =>
    have ha := a.toNat_lt
    have hb := b.toNat_lt
    have hx : a.toNat / 4 < 64 := by omega
    have hy : a.toNat % 4 * 16 + b.toNat / 16 < 64 := by omega
    have hz : b.toNat % 16 * 4 < 64 := by omega
    rw [encodeBytes, decodeBytes, symbolValue_symbol hx, symbolValue_symbol hy,
      symbolValue_symbol hz, hfill]
    simp only [and_self, if_true, List.cons.injEq, and_true]
    refine ⟨ofNat_eq ?_, ofNat_eq ?_⟩
    · omega
    · omega
  | case4 a b c rest ih =>
    have ha := a.toNat_lt
    have hb := b.toNat_lt
    have hc := c.toNat_lt
    have hx : a.toNat / 4 < 64 := by omega
    have hy : a.toNat % 4 * 16 + b.toNat / 16 < 64 := by omega
    have hz : b.toNat % 16 * 4 + c.toNat / 64 < 64 := by omega
    have hw : c.toNat % 64 < 64 := by omega
    rw [encodeBytes, decodeBytes, symbolValue_symbol hx, symbolValue_symbol hy,
      symbolValue_symbol hz, symbolValue_symbol hw]
    simp only [ih, List.cons.injEq, and_true]
    refine ⟨ofNat_eq ?_, ofNat_eq ?_, ofNat_eq ?_⟩
    · omega
    · omega
    · omega

theorem mem_encodeBytes {bytes : List UInt8} {c : Char} (h : c ∈ encodeBytes bytes) :
    c ∈ '=' :: alphabet := by
  have hsymbol {n : Nat} (hn : n < 64) (hc : c = symbol n) : c ∈ '=' :: alphabet := by
    rw [hc]
    exact List.mem_cons_of_mem _ (symbol_mem hn)
  induction bytes using encodeBytes.induct with
  | case1 => cases h
  | case2 a =>
    have ha := a.toNat_lt
    simp only [encodeBytes, List.mem_cons, List.not_mem_nil, or_false] at h
    rcases h with h | h | rfl | rfl
    · exact hsymbol (by omega) h
    · exact hsymbol (by omega) h
    all_goals exact List.mem_cons_self
  | case3 a b =>
    have ha := a.toNat_lt
    have hb := b.toNat_lt
    simp only [encodeBytes, List.mem_cons, List.not_mem_nil, or_false] at h
    rcases h with h | h | h | rfl
    · exact hsymbol (by omega) h
    · exact hsymbol (by omega) h
    · exact hsymbol (by omega) h
    · exact List.mem_cons_self
  | case4 a b c rest ih =>
    have ha := a.toNat_lt
    have hb := b.toNat_lt
    have hc := c.toNat_lt
    simp only [encodeBytes, List.mem_cons] at h
    rcases h with h | h | h | h | h
    · exact hsymbol (by omega) h
    · exact hsymbol (by omega) h
    · exact hsymbol (by omega) h
    · exact hsymbol (by omega) h
    · exact ih h

theorem mem_base64 {t : Text} {c : Char} (h : c ∈ base64 t) : c ∈ '=' :: alphabet :=
  mem_encodeBytes h

theorem not_mem_base64 {c : Char} (h : c ∉ '=' :: alphabet) (t : Text) : c ∉ base64 t :=
  fun hmem => h (mem_base64 hmem)

/-- What was encoded is decoded, with the newline that `echo` puts after it. -/
theorem unbase64_base64 (t : Text) : unbase64 (base64 t ++ ['\n']) = t := by
  have hfilter : (base64 t ++ ['\n']).filter (· ≠ '\n') = base64 t := by
    have hkeep : (base64 t).filter (· ≠ '\n') = base64 t := by
      rw [List.filter_eq_self]
      intro c hc
      have hne : c ≠ '\n' := by
        rintro rfl
        exact not_mem_base64 (by decide) t hc
      simpa using hne
    rw [List.filter_append, hkeep]
    exact List.append_nil _
  have hbytes : (t.flatMap String.utf8EncodeChar).toByteArray = t.utf8Encode := rfl
  rw [unbase64, hfilter, base64, decode_encodeBytes, hbytes, List.utf8Decode?_utf8Encode]
  rfl

theorem base64_injective : Function.Injective base64 := by
  intro s t h
  rw [← unbase64_base64 s, h, unbase64_base64]

end HackerUnion.Bash
