import HackerUnion.Js.Utf8

namespace Js.Uri

open String (utf8EncodeChar)

/-- A digit of a byte that is escaped. -/
def upperHex (d : Nat) : Char := Char.ofNat (if d < 10 then 48 + d else 55 + d)

/-- The characters that stand for themselves. -/
def isUnreserved (c : Char) : Bool := c.isAlphanum || c ∈ "-_.!~*'()".toList

def escapeByte (b : UInt8) : List Char :=
  ['%', upperHex (b.toNat / 16), upperHex (b.toNat % 16)]

def encodeChar (c : Char) : List Char :=
  if isUnreserved c then [c] else (utf8EncodeChar c).flatMap escapeByte

def encodeURIComponent (t : List Char) : List Char := t.flatMap encodeChar

section Bytes

variable {c : Char}

theorem utf8EncodeChar_ascii (h : c.toNat < 0x80) :
    utf8EncodeChar c = [UInt8.ofNat c.toNat] := by
  have hle : c.toNat ≤ 127 := Nat.le_of_lt_succ h
  simp [utf8EncodeChar, hle]

theorem le_of_mem_utf8EncodeChar (h : 0x80 ≤ c.toNat) {b : UInt8} (hb : b ∈ utf8EncodeChar c) :
    0x80 ≤ b.toNat := by
  rcases Js.utf8EncodeChar_cases c with ⟨a, hc, ha, hunits⟩ | ⟨a, d, ds, hc, hbegins, hds, -⟩
  · have hle := Js.le_of_mem_units h (hunits ▸ List.mem_cons_self)
    rw [UInt16.toNat_ofNat'] at hle
    omega
  · rw [hc] at hb
    rcases List.mem_cons.mp hb with rfl | hb
    · exact Nat.le_trans (by decide) (Js.Utf8.le_of_isFirst (Js.Utf8.isFirst_of_begins hbegins))
    · rcases List.mem_cons.mp hb with rfl | hb
      · exact (Js.Utf8.isTail_iff.mp (Js.Utf8.isTail_of_begins hbegins)).1
      · exact (Js.Utf8.isTail_iff.mp (hds b hb)).1

theorem toNat_lt_of_isUnreserved (h : isUnreserved c = true) : c.toNat < 0x80 := by
  rw [isUnreserved, Bool.or_eq_true, decide_eq_true_eq] at h
  rcases h with h | h
  · delta Char.isAlphanum Char.isAlpha Char.isUpper Char.isLower Char.isDigit at h
    simp only [UInt32.le_iff_toNat_le, ge_iff_le, Bool.or_eq_true, Bool.and_eq_true,
      decide_eq_true_eq] at h
    rcases h with (h | h) | h
    · exact Nat.lt_of_le_of_lt h.2 (by decide)
    · exact Nat.lt_of_le_of_lt h.2 (by decide)
    · exact Nat.lt_of_le_of_lt h.2 (by decide)
  · have hall : ∀ d ∈ "-_.!~*'()".toList, d.toNat < 0x80 := by decide
    exact hall c h

theorem isUnreserved_ne (h : isUnreserved c = true) {d : Char} (hd : isUnreserved d = false) :
    c ≠ d := by
  intro heq
  rw [heq, hd] at h
  cases h

theorem isUnreserved_alphanum (h : c.isAlphanum = true) : isUnreserved c = true := by
  simp [isUnreserved, h]

end Bytes

end Js.Uri
