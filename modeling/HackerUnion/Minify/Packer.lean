import HackerUnion.Js.Value
import HackerUnion.Lists.Runs
import HackerUnion.Minify.Jsmin
import Mathlib.Data.Nat.Digits.Lemmas
import Mathlib.Data.List.Sort

namespace HackerUnion.Minify

open Js HackerUnion.Lists

/-! The stage of the packer that puts codes for the words of a script, with the encoding `62`. -/

abbrev Word := List Char

def mapping (i : Nat) : Char :=
  if i < 10 then Char.ofNat (i + '0'.toNat)
  else if i < 36 then Char.ofNat (i - 10 + 'a'.toNat)
  else Char.ofNat (i - 36 + 'A'.toNat)

/-- The loop of `encode62`, with what it has appended so far. -/
def encodeLoop (l : List Char) (remainder : Nat) : List Char :=
  if remainder / 62 = 0 then l ++ [mapping (remainder % 62)]
  else encodeLoop (l ++ [mapping (remainder % 62)]) (remainder / 62)
termination_by remainder
decreasing_by omega

def encode62 (charCode : Nat) : Word := (encodeLoop [] charCode).reverse

/-- The words as they are found, each once, and how often each is there. -/
structure Tally where
  unsorted : List Word
  count : Word → Nat

def Tally.add (t : Tally) (word : Word) : Tally where
  unsorted := if t.unsorted.contains word then t.unsorted else t.unsorted ++ [word]
  count := Function.update t.count word (t.count word + 1)

def tally (all : List Word) : Tally := all.reverse.foldl Tally.add ⟨[], fun _ => 0⟩

/-- `_protected`: of so many codes, the one that a word might be mistaken for. -/
def protectedAt (codes : Nat) (word : Word) : Option Nat :=
  (List.range codes).find? fun j => encode62 j = word

/-- A word that is a code has the place of the code. -/
def protect (codes : Nat) (sorted : List (Option Word)) (word : Word) : List (Option Word) :=
  match protectedAt codes word with
  | some j => sorted.set j (some word)
  | none => sorted

/-- The count of a word when the words are sorted. -/
def sortCount (t : Tally) (word : Word) : Nat :=
  if (protectedAt t.unsorted.length word).isSome then 0 else t.count word

def order (t : Tally) : List Word := t.unsorted.mergeSort fun a b => sortCount t b ≤ sortCount t a

/-- The words in the places that are left. Without enough of them the index is out of range. -/
def fill : List (Option Word) → List Word → Option (List Word)
  | [], _ => some []
  | some word :: sorted, unsorted => (fill sorted unsorted).map (word :: ·)
  | none :: sorted, word :: unsorted => (fill sorted unsorted).map (word :: ·)
  | none :: _, [] => none

structure Keywords where
  sorted : List Word
  protectedWords : List Nat

/-- `encoded`. The code of a word is that of its place. -/
def Keywords.encoded (keywords : Keywords) (word : Word) : Word :=
  match keywords.sorted.idxOf? word with
  | some i => encode62 i
  | none => []

def analyze (script : Script) : Option Keywords :=
  let t := tally (runs isWord script)
  let codes := t.unsorted.length
  (fill (t.unsorted.foldl (protect codes) (List.replicate codes none)) (order t)).map fun sorted =>
    ⟨sorted, t.unsorted.filterMap (protectedAt codes)⟩

/-- `DELETED.sub`, with what has been read behind a mark. -/
def removeDeleted : Option Script → Script → Script
  | none, [] => []
  | some seen, [] => '\x01' :: seen
  | none, c :: script =>
    if c = '\x01' then removeDeleted (some []) script else c :: removeDeleted none script
  | some seen, c :: script =>
    if c = '\x01' then removeDeleted none script else removeDeleted (some (seen ++ [c])) script

/-- `replace` of one character. -/
def replaceChar (c : Char) (new script : Script) : Script :=
  script.flatMap fun d => if d = c then new else [d]

def escape (script : Script) : Script :=
  let script := replaceChar '\\' ['\\', '\\'] script
  let script := replaceChar '\'' ['\\', '\''] script
  replaceChar '\n' ['\\', 'n'] script

def quoted (script : Script) : Script := '\'' :: script ++ ['\'']

/-- What the boot function is called with. The two texts are string literals, and the second is
split at each `|`. -/
structure Params where
  packed : Script
  ascii : Nat
  count : Nat
  keywords : Script

/-- `sorted` without the words that are their own codes. -/
def Keywords.blanked (keywords : Keywords) : List Word :=
  keywords.protectedWords.foldl (fun sorted i => sorted.set i []) keywords.sorted

/-- With `fastDecode`, which needs a word: without one it raises. -/
def bootStrap (packed : Script) (keywords : Keywords) : Option Params :=
  let count := keywords.sorted.length
  if count = 0 then none
  else some
    { packed := quoted (escape packed)
      ascii := min count 62
      count := count
      keywords := quoted (List.intercalate ['|'] keywords.blanked) }

def encodeKeywords (script : Script) : Option Params := do
  let keywords ← analyze script
  bootStrap (removeDeleted none (mapRuns isWord keywords.encoded script)) keywords

/-! ## Codes -/

/-- A number in figures and letters, as `toString` writes it. -/
def toRadix (radix n : Nat) : Word :=
  if n = 0 then [mapping 0] else ((Nat.digits radix n).map mapping).reverse

theorem encodeLoop_eq (n : Nat) (l : List Char) (hn : 0 < n) :
    encodeLoop l n = l ++ (Nat.digits 62 n).map mapping := by
  induction n using Nat.strongRecOn generalizing l with
  | ind n ih =>
    rw [encodeLoop, Nat.digits_def' (by decide) hn]
    split
    · next hlast => simp [hlast]
    · next hmore =>
      rw [ih (n / 62) (by omega) _ (by omega)]
      simp

theorem encode62_eq (n : Nat) : encode62 n = toRadix 62 n := by
  rw [encode62, toRadix]
  split
  · next hzero => simp [hzero, encodeLoop]
  · next hn => rw [encodeLoop_eq n [] (by omega), List.nil_append]

theorem mapping_injOn : ∀ i < 62, ∀ j < 62, mapping i = mapping j → i = j := by decide

theorem isWord_mapping : ∀ i < 62, isWord (mapping i) = true := by decide

theorem map_mapping_injective {l l' : List Nat} (hl : ∀ i ∈ l, i < 62) (hl' : ∀ i ∈ l', i < 62)
    (h : l.map mapping = l'.map mapping) : l = l' := by
  induction l generalizing l' with
  | nil => exact (List.map_eq_nil_iff.mp h.symm).symm
  | cons i l ih =>
    cases l' with
    | nil => cases h
    | cons j l' =>
      rw [List.map_cons, List.map_cons, List.cons.injEq] at h
      rw [mapping_injOn i (hl i List.mem_cons_self) j (hl' j List.mem_cons_self) h.1,
        ih (fun i hi => hl i (List.mem_cons_of_mem _ hi))
          (fun i hi => hl' i (List.mem_cons_of_mem _ hi)) h.2]

/-- The digits of a number, of which zero has one. -/
def figures (n : Nat) : List Nat := if n = 0 then [0] else Nat.digits 62 n

theorem toRadix_figures (n : Nat) : toRadix 62 n = ((figures n).map mapping).reverse := by
  rw [toRadix, figures]
  split
  · rfl
  · rfl

theorem figures_lt (n : Nat) : ∀ i ∈ figures n, i < 62 := by
  intro i hi
  rw [figures] at hi
  split at hi
  · rw [List.mem_singleton] at hi
    omega
  · exact Nat.digits_lt_base (by decide) hi

theorem ofDigits_figures (n : Nat) : Nat.ofDigits 62 (figures n) = n := by
  rw [figures]
  split
  · next hzero => simp [hzero]
  · exact Nat.ofDigits_digits 62 n

theorem encode62_injective : Function.Injective encode62 := by
  intro m n h
  rw [encode62_eq, encode62_eq, toRadix_figures, toRadix_figures, List.reverse_inj] at h
  rw [← ofDigits_figures m, map_mapping_injective (figures_lt m) (figures_lt n) h,
    ofDigits_figures]

theorem isRun_encode62 (n : Nat) : IsRun isWord (encode62 n) := by
  rw [encode62_eq, toRadix_figures]
  constructor
  · rw [Ne, List.reverse_eq_nil_iff, List.map_eq_nil_iff, figures]
    split
    · exact List.cons_ne_nil _ _
    · next hn => exact Nat.digits_ne_nil_iff_ne_zero.mpr hn
  · rw [List.all_reverse, List.all_map, List.all_eq_true]
    exact fun i hi => isWord_mapping i (figures_lt n i hi)

/-- A code is no longer than one that comes behind it. -/
theorem length_encode62_mono {m n : Nat} (h : m ≤ n) :
    (encode62 m).length ≤ (encode62 n).length := by
  rw [encode62_eq, encode62_eq, toRadix_figures, toRadix_figures, List.length_reverse,
    List.length_reverse, List.length_map, List.length_map, figures, figures]
  split
  · split
    · exact le_refl _
    · next hn => exact List.length_pos_iff.mpr (Nat.digits_ne_nil_iff_ne_zero.mpr hn)
  · next hm =>
    rw [if_neg (by omega)]
    exact Nat.le_length_digits_le 62 m n h

end HackerUnion.Minify
