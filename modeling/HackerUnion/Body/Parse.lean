import HackerUnion.Js.Querystring
import Mathlib.Data.List.Chain

namespace HackerUnion.Body

open Js
open Js.Querystring (Fields ampersand maxKeys)
open Js.Utf8 (begins)
open String (utf8EncodeChar)

inductive Event where
  | data (chunk : List UInt8)
  | ended
  | error (err : String)
  deriving DecidableEq

/-- What the callback is called with. -/
inductive Call where
  | failed (err : String)
  | parsed (post : Fields)
  deriving DecidableEq

/-- 1mb, when none is given. -/
def limit (max : Option Nat) : Nat :=
  match max with
  | none | some 0 => 1000000
  | some max => max

/-- A chunk is added to a string, which decodes it. Once there is too much the stream is paused, and
no event comes any more. -/
def receive (max : Nat) (body : List UInt16) : List Event → List Call
  | [] => []
  | .data chunk :: events =>
    let body := body ++ utf8Decode chunk
    if body.length ≥ max then [.failed "Too much data"] else receive max body events
  | .ended :: events => .parsed (Querystring.parse body) :: receive max body events
  | .error err :: events => .failed ("Error: " ++ err) :: receive max body events

def parse (events : List Event) (max : Option Nat) : List Call := receive (limit max) [] events

/-- The events of a body that comes in these pieces. -/
def sent (chunks : List (List UInt8)) : List Event := chunks.map Event.data ++ [.ended]

/-- No two bytes next to each other begin a character, whether it is completed or not. -/
def OneByte (bytes : List UInt8) : Prop := bytes.IsChain fun a b => begins a b = false

theorem receive_sent (max : Nat) (body : List UInt16) (chunks : List (List UInt8))
    (h : body.length + chunks.flatten.length < max) :
    receive max body (sent chunks) =
      [.parsed (Querystring.parse (body ++ chunks.flatMap utf8Decode))] := by
  induction chunks generalizing body with
  | nil =>
    rw [List.flatMap_nil, List.append_nil]
    rfl
  | cons chunk chunks ih =>
    have hle := Utf8.length_decode_le chunk
    rw [List.flatten_cons, List.length_append] at h
    have hmax : ¬(body ++ utf8Decode chunk).length ≥ max := by
      rw [List.length_append]
      omega
    change receive max body (.data chunk :: sent chunks) = _
    rw [receive, if_neg hmax, ih (body ++ utf8Decode chunk) (by rw [List.length_append]; omega),
      List.flatMap_cons, List.append_assoc]

/-- Up to the limit the callback is called once, with the fields. -/
theorem parse_sent (max : Option Nat) {chunks : List (List UInt8)} {bytes : List UInt8}
    (hchunks : chunks.flatten = bytes) (hmax : bytes.length < limit max) :
    parse (sent chunks) max = [.parsed (Querystring.parse (chunks.flatMap utf8Decode))] := by
  unfold parse
  rw [receive_sent (limit max) [] chunks (by rw [hchunks, List.length_nil]; omega),
    List.nil_append]

theorem reading_pieces {pieces : List (List UInt8)} {texts : List (List UInt16)}
    (h : List.Forall₂ (Reading []) pieces texts) (hone : ∀ piece ∈ pieces, OneByte piece) :
    texts = pieces.map fun piece =>
      piece.map fun b => if b.toNat < 0x80 then UInt16.ofNat b.toNat else replacement := by
  induction h with
  | nil => rfl
  | cons hhead _ ih =>
    have hmap := hhead.eq_map (Or.inl rfl) (hone _ List.mem_cons_self)
    rw [List.nil_append] at hmap
    rw [List.map_cons, ← hmap, ← ih fun piece hpiece => hone piece (List.mem_cons_of_mem _ hpiece)]

/-- The pieces that are looked at are read in one way only when no two bytes begin a character. -/
theorem parse_reading {bytes : List UInt8} {text text' : List UInt16} (h : Reading [] bytes text)
    (h' : Reading [] bytes text')
    (hone : ∀ piece ∈ (bytes.splitOn ampersand).take maxKeys, OneByte piece) :
    Querystring.parse text = Querystring.parse text' := by
  have hpieces {text : List UInt16} (h : Reading [] bytes text) :
      (text.splitOn (UInt16.ofNat ampersand.toNat)).take maxKeys =
        ((bytes.splitOn ampersand).take maxKeys).map fun piece =>
          piece.map fun b => if b.toNat < 0x80 then UInt16.ofNat b.toNat else replacement :=
    reading_pieces (List.forall₂_take maxKeys (h.forall₂_splitOn ampersand (by decide))) hone
  unfold Querystring.parse
  rw [hpieces h, hpieces h']

/-- Each byte of a pair that begins a character is replaced when it comes alone, and both together
are read as one character. -/
theorem utf8Decode_pair {a b : UInt8} (h : begins a b = true) :
    utf8Decode [a] = [replacement] ∧ utf8Decode [b] = [replacement] ∧
      ∃ u, utf8Decode [a, b] = u ∧ Querystring.Wide u ∧ u.length = 1 := by
  have hfirst := Utf8.isFirst_of_begins h
  have htail := Utf8.isTail_of_begins h
  have ha : utf8Decode [a] = [replacement] := by
    rw [utf8Decode, Utf8.decodeFrom, Utf8.step_nil, Utf8.start_of_isFirst hfirst]
    rfl
  have hb : utf8Decode [b] = [replacement] := by
    rw [utf8Decode, Utf8.decodeFrom, Utf8.step_nil, Utf8.start_of_isTail htail]
    rfl
  have hboth : utf8Decode [a, b] = (Utf8.step [a] b).1 ++ Utf8.flush (Utf8.step [a] b).2 := by
    rw [utf8Decode, Utf8.decodeFrom, Utf8.step_nil, Utf8.start_of_isFirst hfirst]
    rfl
  refine ⟨ha, hb, _, rfl, ?_⟩
  rw [hboth]
  have hgoes : Utf8.goesOn [a] b = true := h
  rcases Utf8.step_of_goesOn hgoes with ⟨c, hchar, hstep⟩ | ⟨-, hstep⟩
  · -- a character of two bytes is one code unit
    obtain ⟨rest, hrest⟩ := exists_of_charAt? hchar
    have hle := Utf8.le_of_isFirst hfirst
    rw [hstep]
    change Querystring.Wide (units c ++ []) ∧ (units c ++ []).length = 1
    rw [List.append_nil]
    have hpos := List.length_pos_of_ne_nil (units_ne_nil c)
    rcases utf8EncodeChar_cases c with ⟨x, hc, hx, -⟩ | ⟨x, y, bs, hc, -, -, hlength, hlarge⟩
    · rw [hc] at hrest
      obtain rfl := (List.cons.inj hrest).1
      omega
    · rw [hc] at hrest
      have hnil : [] = bs ++ rest := (List.cons.inj (List.cons.inj hrest).2).2
      rw [(List.append_eq_nil_iff.mp hnil.symm).1, List.length_nil] at hlength
      exact ⟨⟨units_ne_nil c, hlarge⟩, by omega⟩
  · rw [hstep]
    exact ⟨Querystring.Wide.replicate Nat.one_pos, rfl⟩

/-- A pair that begins a character in a piece that is looked at is cut in two by some chunks. -/
theorem exists_chunks {bytes piece : List UInt8}
    (hpiece : piece ∈ (bytes.splitOn ampersand).take maxKeys) (hone : ¬OneByte piece) :
    ∃ chunks chunks' : List (List UInt8), chunks.flatten = bytes ∧ chunks'.flatten = bytes ∧
      Querystring.parse (chunks.flatMap utf8Decode) ≠
        Querystring.parse (chunks'.flatMap utf8Decode) := by
  obtain ⟨a, b, ⟨pre, post, hpair⟩, hbegins⟩ :
      ∃ a b, (∃ pre post, piece = pre ++ a :: b :: post) ∧ begins a b = true := by
    simpa [OneByte, List.isChain_iff_forall_rel_of_append_cons_cons] using hone
  obtain ⟨x, y, hbytes, hcount⟩ := Lists.exists_of_mem_take_splitOn ampersand hpiece
  have hpre : ampersand ∉ pre := by
    intro hmem
    refine Lists.not_mem_of_mem_splitOn ampersand (List.mem_of_mem_take hpiece) ?_
    rw [hpair]
    exact List.mem_append_left _ hmem
  obtain ⟨ha, hb, u, hu, hwide, hlength⟩ := utf8Decode_pair hbegins
  have hsplit :=
    ((Reading.decode [] (x ++ pre)).forall₂_splitOn ampersand (by decide)).length_eq
  refine ⟨[x ++ pre, [a, b], post ++ y], [x ++ pre, [a], [b], post ++ y], ?_, ?_, ?_⟩
  · rw [hbytes, hpair]
    simp
  · rw [hbytes, hpair]
    simp
  · have hne := Querystring.parse_ne hwide (n := 2) (by omega) (utf8Decode (x ++ pre))
      (utf8Decode (post ++ y)) (hsplit ▸ hcount pre hpre)
    simpa [ha, hb, hu] using hne

/-- So it holds no character of more than one byte. -/
theorem OneByte.utf8Size {pre post : List UInt8} {c : Char}
    (h : OneByte (pre ++ (utf8EncodeChar c ++ post))) : c.utf8Size = 1 := by
  rcases utf8EncodeChar_cases c with ⟨b, hc, -⟩ | ⟨a, b, bs, hc, hbegins, -⟩
  · rw [← String.length_utf8EncodeChar, hc]
    rfl
  · rw [hc] at h
    have hno := List.isChain_iff_forall_rel_of_append_cons_cons.mp h rfl
    rw [hbegins] at hno
    cases hno

/-- Every way of cutting a body gives the same fields exactly when in the pieces that are looked at
no two bytes begin a character. -/
theorem parse_chunks_iff (max : Option Nat) (bytes : List UInt8)
    (hmax : bytes.length < limit max) :
    (∀ chunks chunks' : List (List UInt8), chunks.flatten = bytes → chunks'.flatten = bytes →
        parse (sent chunks) max = parse (sent chunks') max) ↔
      ∀ piece ∈ (bytes.splitOn ampersand).take maxKeys, OneByte piece := by
  constructor
  · intro h piece hpiece
    by_contra hone
    obtain ⟨chunks, chunks', hchunks, hchunks', hne⟩ := exists_chunks hpiece hone
    have heq := h chunks chunks' hchunks hchunks'
    rw [parse_sent max hchunks hmax, parse_sent max hchunks' hmax] at heq
    exact hne (Call.parsed.inj (List.singleton_inj.mp heq))
  · intro hone chunks chunks' hchunks hchunks'
    rw [parse_sent max hchunks hmax, parse_sent max hchunks' hmax]
    have hread := Reading.flatten chunks
    have hread' := Reading.flatten chunks'
    rw [hchunks] at hread
    rw [hchunks'] at hread'
    rw [parse_reading hread hread' hone]

/-- `a=é`, cut within the last character. -/
theorem parse_not_chunks :
    ¬∀ chunks chunks' : List (List UInt8), chunks.flatten = chunks'.flatten →
      chunks.flatten.length < limit none →
      parse (sent chunks) none = parse (sent chunks') none := by
  intro h
  have heq := h [[97, 61, 0xC3, 0xA9]] [[97, 61, 0xC3], [0xA9]] rfl (by decide)
  exact absurd heq (by decide +kernel)

/-- `a=b` and a byte that is the last of no character. -/
theorem parse_chunks_iff_ascii :
    (∀ chunks chunks' : List (List UInt8), chunks.flatten = [97, 61, 98, 0xA9] →
        chunks'.flatten = [97, 61, 98, 0xA9] →
          parse (sent chunks) none = parse (sent chunks') none) ↔
      ∀ piece ∈ ([97, 61, 98, 0xA9].splitOn ampersand).take maxKeys, OneByte piece :=
  parse_chunks_iff none [97, 61, 98, 0xA9] (by decide)

end HackerUnion.Body
