import HackerUnion.Diff.Myers
import Mathlib.Data.List.Flatten

namespace HackerUnion.Diff.JsDiff

open HackerUnion.Lists

/-- The class `\s`. -/
def isSpace (u : UInt16) : Bool :=
  [0x09, 0x0a, 0x0b, 0x0c, 0x0d, 0x20, 0xa0, 0x1680, 0x2028, 0x2029, 0x202f, 0x205f, 0x3000,
    0xfeff].contains u || (0x2000 ≤ u && u ≤ 0x200a)

/-- The class `\w`. -/
def isWord (u : UInt16) : Bool :=
  (0x30 ≤ u && u ≤ 0x39) || (0x41 ≤ u && u ≤ 0x5a) || (0x61 ≤ u && u ≤ 0x7a) || u = 0x5f

def isLineTerminator (u : UInt16) : Bool := [0x0a, 0x0d, 0x2028, 0x2029].contains u

/-- `value.split(/(\s+|\b)/)`: what is cut off, each with what it was cut off at. `piece` is what
stands since the last cut, `run` the white space that is being matched. -/
def splitWords (piece run : Str) : Str → List Str
  | [] => if run = [] then [piece] else [run, []]
  | c :: s =>
    if isSpace c then
      if run = [] then piece :: splitWords [] [c] s else splitWords [] (run ++ [c]) s
    else if run ≠ [] then run :: splitWords [c] [] s
    else if piece.getLast?.any (fun last => isWord last ≠ isWord c) then
      piece :: [] :: splitWords [c] [] s
    else splitWords (piece ++ [c]) [] s

def removeEmpty (array : List Str) : List Str := array.filter (· ≠ [])

/-- `value.split(/^/m)` -/
def splitLines (line : Str) : Str → List Str
  | [] => [line]
  | c :: s =>
    if line.getLast?.any isLineTerminator then line :: splitLines [c] s
    else splitLines (line ++ [c]) s

/-- A line feed goes to the carriage return before it. -/
def mergeLines (retLines : List Str) (lastLine : Str) : List Str → List Str
  | [] => retLines
  | line :: lines =>
    if line = [0x0a] ∧ lastLine.getLast? = some 0x0d then
      mergeLines (retLines.dropLast ++ [(retLines.getLast?.getD []).dropLast ++ [0x0d, 0x0a]])
        line lines
    else mergeLines (retLines ++ [line]) line lines

def charDiff : Differ where
  tokenize value := value.map ([·])
  equals left right := left = right
  useLongestToken := false

/-- White space is the same as any other. -/
def wordDiff : Differ where
  tokenize value := removeEmpty (splitWords [] [] value)
  equals left right := left = right || (left.all isSpace && right.all isSpace)
  useLongestToken := false

def lineDiff : Differ where
  tokenize value := mergeLines [] [] (splitLines [] value)
  equals left right := left = right
  useLongestToken := false

inductive DiffType where
  | diffChars
  | diffWords
  | diffLines
  deriving DecidableEq

def DiffType.differ : DiffType → Differ
  | .diffChars => charDiff
  | .diffWords => wordDiff
  | .diffLines => lineDiff

inductive Node where
  | text (s : Str)
  | del (s : Str)
  | ins (s : Str)
  deriving DecidableEq, Repr

def Part.node (part : Part) : Node :=
  match part.edit with
  | .remove => .del part.value
  | .add => .ins part.value
  | .keep => .text part.value

/-- The loop over the parts, at one of them: what is added goes behind what is removed next. -/
def fragmentFrom (part : Part) : List Part → List Node
  | [] => [part.node]
  | next :: rest =>
    if part.edit = .add ∧ next.edit = .remove then next.node :: fragmentFrom part rest
    else part.node :: fragmentFrom next rest

def fragment : List Part → List Node
  | [] => []
  | part :: rest => fragmentFrom part rest

inductive Result where
  | message (s : String)
  | fragment (nodes : List Node)
  deriving DecidableEq

/-- What the page shows of the two texts, nothing when it throws. -/
def changed (diffType : DiffType) (original modified : Str) : Option Result :=
  if (original ++ modified).length > 10000 then some (.message "Too much data to compare.")
  else (diffType.differ.diff original modified).map fun diff => .fragment (fragment diff)

section Tokens

theorem flatten_removeEmpty (array : List Str) : (removeEmpty array).flatten = array.flatten :=
  List.flatten_filter_ne_nil

theorem flatten_splitWords (s piece run : Str) (h : run = [] ∨ piece = []) :
    (splitWords piece run s).flatten = piece ++ run ++ s := by
  induction s generalizing piece run with
  | nil =>
    unfold splitWords
    split
    · next hrun => simp [hrun]
    · next hrun =>
      have hpiece := h.resolve_left hrun
      simp [hpiece]
  | cons c s ih =>
    unfold splitWords
    split
    · split
      · next hrun => simp [ih, hrun]
      · next hrun =>
        have hpiece := h.resolve_left hrun
        simp [ih, hpiece]
    · split
      · next hrun =>
        have hpiece := h.resolve_left hrun
        simp [ih, hpiece]
      · next hrun =>
        have hrun : run = [] := by simpa using hrun
        split <;> simp [ih, hrun]

theorem flatten_splitLines (s line : Str) : (splitLines line s).flatten = line ++ s := by
  induction s generalizing line with
  | nil => simp [splitLines]
  | cons c s ih =>
    unfold splitLines
    split <;> simp [ih]

theorem flatten_mergeLines (lines retLines : List Str) (lastLine : Str)
    (h : lastLine.getLast? = some 0x0d → retLines.getLast? = some lastLine) :
    (mergeLines retLines lastLine lines).flatten = retLines.flatten ++ lines.flatten := by
  induction lines generalizing retLines lastLine with
  | nil => simp [mergeLines]
  | cons line lines ih =>
    unfold mergeLines
    split
    · next hline =>
      obtain ⟨rfl, hlast⟩ := hline
      have hret := h hlast
      have hline : lastLine.dropLast ++ [0x0d] = lastLine :=
        List.dropLast_append_getLast? _ hlast
      have hlines : retLines.dropLast ++ [lastLine] = retLines :=
        List.dropLast_append_getLast? _ hret
      rw [ih _ _ (by simp), hret]
      calc _ = (retLines.dropLast ++ [lastLine.dropLast ++ [0x0d]]).flatten ++
              ([0x0a] ++ lines.flatten) := by simp
        _ = _ := by rw [hline, hlines]; simp
    · rw [ih _ _ (by simp)]
      simp

theorem DiffType.flatten_tokenize (diffType : DiffType) (s : Str) :
    (diffType.differ.tokenize s).flatten = s := by
  cases diffType with
  | diffChars =>
    change (s.map ([·])).flatten = s
    induction s with
    | nil => rfl
    | cons c s ih => simpa using ih
  | diffWords =>
    change (removeEmpty (splitWords [] [] s)).flatten = s
    rw [flatten_removeEmpty, flatten_splitWords _ _ _ (Or.inl rfl)]
    simp
  | diffLines =>
    change (mergeLines [] [] (splitLines [] s)).flatten = s
    rw [flatten_mergeLines _ _ _ (by simp), flatten_splitLines]
    simp

end Tokens

section Texts

/-- The text that parts leave when some are dropped. -/
def textWithout (e : Edit) (parts : List Part) : Str :=
  (parts.filter (·.edit ≠ e)).flatMap Part.value

/-- How many tokens are added or removed, as far as they are counted. -/
def changes : List Part → Nat
  | [] => 0
  | part :: parts => (if part.edit = .keep then 0 else part.count.getD 0) + changes parts

theorem textWithout_append (e : Edit) (ps qs : List Part) :
    textWithout e (ps ++ qs) = textWithout e ps ++ textWithout e qs := by
  simp [textWithout]

theorem changes_append (ps qs : List Part) : changes (ps ++ qs) = changes ps + changes qs := by
  induction ps with
  | nil => simp [changes]
  | cons part ps ih =>
    simp only [List.cons_append, changes, ih]
    omega

/-- What was removed stands before something that was added, or at the end. -/
theorem putRemoved_cases (part : Part) (done : List Part) :
    (putRemoved part done).reverse = done.reverse ++ [part] ∨
      ∃ last rest, done = last :: rest ∧ last.edit = .add ∧
        (putRemoved part done).reverse = rest.reverse ++ [part, last] := by
  cases done with
  | nil => exact Or.inl rfl
  | cons last rest =>
    simp only [putRemoved]
    split
    · next hadd => exact Or.inr ⟨last, rest, rfl, hadd, by simp⟩
    · exact Or.inl (by simp)

theorem textWithout_putRemoved {e : Edit} {part : Part} (hpart : part.edit = .remove)
    (done : List Part) (he : e = .add ∨ e = .remove) :
    textWithout e (putRemoved part done).reverse =
      textWithout e done.reverse ++ textWithout e [part] := by
  rcases putRemoved_cases part done with h | ⟨last, rest, rfl, hlast, h⟩
  · rw [h, textWithout_append]
  · rw [h, List.reverse_cons, textWithout_append, textWithout_append, List.append_assoc]
    rcases he with rfl | rfl <;> simp [textWithout, hlast, hpart]

theorem changes_putRemoved (part : Part) (done : List Part) :
    changes (putRemoved part done).reverse = changes done.reverse + changes [part] := by
  rcases putRemoved_cases part done with h | ⟨last, rest, rfl, -, h⟩
  · rw [h, changes_append]
  · rw [h, List.reverse_cons, show [part, last] = [part] ++ [last] by rfl, changes_append,
      changes_append, changes_append]
    omega

variable {equals : Str → Str → Bool} {news olds : List Str}

/-- What is kept is the same in both texts, as far as the comparison tells. -/
theorem filter_kept (q : UInt16 → Bool)
    (hq : ∀ a b, equals a b = true → a.filter q = b.filter q) (c : Nat) :
    ∀ n o n' o', Script equals news olds (List.replicate c .keep) n o n' o' →
      ((news.drop n).take c).flatten.filter q = ((olds.drop o).take c).flatten.filter q := by
  induction c with
  | zero => simp
  | succ c ih =>
    intro n o n' o' hwalk
    cases hwalk with
    | keep _ _ hsame hrest =>
      obtain ⟨a, b, ha, hb, heq⟩ := hsame
      rw [List.drop_eq_getElem?_toList_append, List.drop_eq_getElem?_toList_append (i := o), ha, hb]
      simp [hq a b heq, ih _ _ _ _ hrest]

/-- The values of the parts are the tokens along the script. -/
theorem texts_buildValuesFrom (q : UInt16 → Bool)
    (hq : ∀ a b, equals a b = true → a.filter q = b.filter q) (rest : List Component) :
    ∀ (done : List Part) (n o : Nat),
      Script equals news olds (script rest) n o news.length olds.length →
      textWithout .remove (buildValuesFrom news olds false done n o rest) =
          textWithout .remove done.reverse ++ (news.drop n).flatten ∧
        (textWithout .add (buildValuesFrom news olds false done n o rest)).filter q =
          (textWithout .add done.reverse).filter q ++ (olds.drop o).flatten.filter q ∧
        changes (buildValuesFrom news olds false done n o rest) =
          changes done.reverse + cost (script rest) := by
  induction rest with
  | nil =>
    intro done n o hwalk
    cases hwalk
    simp [buildValuesFrom, script]
  | cons component rest ih =>
    intro done n o hwalk
    obtain ⟨count, edit⟩ := component
    have hscript : script (⟨count, edit⟩ :: rest) = List.replicate count edit ++ script rest := rfl
    rw [hscript] at hwalk ⊢
    obtain ⟨n', o', hfirst, hrest⟩ := hwalk.exists_of_append
    have hnew := hfirst.new_eq
    have hold := hfirst.old_eq
    have hnews : (news.drop n).flatten =
        ((news.drop n).take count).flatten ++ (news.drop (n + count)).flatten := by
      rw [← List.flatten_append, ← List.drop_drop, List.take_append_drop]
    have holds : (olds.drop o).flatten =
        ((olds.drop o).take count).flatten ++ (olds.drop (o + count)).flatten := by
      rw [← List.flatten_append, ← List.drop_drop, List.take_append_drop]
    unfold buildValuesFrom
    cases edit with
    | add =>
      obtain rfl : n' = n + count := by simpa [List.count_replicate] using hnew
      obtain rfl : o' = o := by simpa [List.count_replicate] using hold
      obtain ⟨h₁, h₂, h₃⟩ := ih (⟨((news.drop n).take count).flatten, some count, .add⟩ :: done)
        _ _ hrest
      refine ⟨?_, ?_, ?_⟩
      · rw [h₁, hnews, List.reverse_cons, textWithout_append]
        simp [textWithout]
      · rw [h₂, List.reverse_cons, textWithout_append]
        simp [textWithout]
      · rw [h₃, List.reverse_cons, changes_append, cost_append, cost_adds]
        simp [changes]
        omega
    | remove =>
      obtain rfl : n' = n := by simpa [List.count_replicate] using hnew
      obtain rfl : o' = o + count := by simpa [List.count_replicate] using hold
      obtain ⟨h₁, h₂, h₃⟩ := ih
        (putRemoved ⟨((olds.drop o).take count).flatten, some count, .remove⟩ done) _ _ hrest
      refine ⟨?_, ?_, ?_⟩
      · rw [h₁, textWithout_putRemoved rfl done (Or.inr rfl)]
        simp [textWithout]
      · rw [h₂, textWithout_putRemoved rfl done (Or.inl rfl), holds]
        simp [textWithout]
      · rw [h₃, changes_putRemoved, cost_append, cost_removes]
        simp [changes]
        omega
    | keep =>
      obtain ⟨rfl, rfl⟩ := hfirst.keeps_eq
      have hkept : ((news.drop n).take count).flatten.filter q =
          ((olds.drop o).take count).flatten.filter q :=
        filter_kept q hq count _ _ _ _ hfirst
      obtain ⟨h₁, h₂, h₃⟩ := ih (⟨((news.drop n).take count).flatten, some count, .keep⟩ :: done)
        _ _ hrest
      refine ⟨?_, ?_, ?_⟩
      · simp only [Bool.false_eq_true, if_false]
        rw [h₁, hnews, List.reverse_cons, textWithout_append]
        simp [textWithout]
      · simp only [Bool.false_eq_true, if_false]
        rw [h₂, holds, List.reverse_cons, textWithout_append, List.filter_append,
          List.filter_append, ← hkept]
        simp [textWithout]
      · simp only [Bool.false_eq_true, if_false]
        rw [h₃, List.reverse_cons, changes_append, cost_append, cost_keeps]
        simp [changes]

/-- The parts are the tokens along a shortest script. -/
theorem Differ.compare_spec (differ : Differ) (hlongest : differ.useLongestToken = false)
    (q : UInt16 → Bool) (hq : ∀ a b, differ.equals a b = true → a.filter q = b.filter q)
    (news olds : List Str) :
    ∃ parts, differ.compare news olds = some parts ∧
      textWithout .remove parts = news.flatten ∧
      (textWithout .add parts).filter q = olds.flatten.filter q ∧
      (∃ es, Script differ.equals news olds es 0 0 news.length olds.length ∧
        cost es = changes parts) ∧
      AtLeast (Same differ.equals news olds) news.length olds.length (changes parts) := by
  obtain ⟨path, hseed, hsound, -⟩ := seed_sound differ.equals news olds
  unfold Differ.compare
  rw [hseed]
  dsimp only
  cases hend : atEnd news olds path (path.newPos - 0) with
  | true =>
    obtain ⟨c, hkeeps⟩ := hsound.kept hend
    have hfilter := filter_kept q hq c _ _ _ _ hkeeps
    obtain ⟨hn, ho⟩ := hkeeps.keeps_eq
    rw [List.drop_zero, List.drop_zero, List.take_of_length_le (by omega),
      List.take_of_length_le (by omega)] at hfilter
    refine ⟨_, rfl, ?_, ?_, ⟨_, hkeeps, ?_⟩, ?_⟩
    · simp [textWithout]
    · simpa [textWithout] using hfilter
    · simp [changes]
    · intro es _
      simp [changes]
  | false =>
    obtain ⟨components, hsearch, hwalk, hleast⟩ := search_least hseed hend
    obtain ⟨hnew, hold, hchanges⟩ := texts_buildValuesFrom q hq components [] 0 0 hwalk
    have hcost : changes (buildValuesFrom news olds false [] 0 0 components) =
        cost (script components) := by
      rw [hchanges]
      simp [changes]
    simp only [Bool.false_eq_true, if_false]
    rw [hsearch, hlongest]
    refine ⟨_, rfl, ?_, ?_, ⟨script components, hwalk, hcost.symm⟩, ?_⟩
    · unfold buildValues
      rw [hnew]
      simp [textWithout]
    · unfold buildValues
      rw [hold]
      simp [textWithout]
    · unfold buildValues
      rw [hcost]
      exact hleast

/-- A comparison comes to an end. The parts that are not removed are the new text, and those that
are not added the old one. -/
theorem Differ.diff_texts (differ : Differ) (htokenize : ∀ s, (differ.tokenize s).flatten = s)
    (hlongest : differ.useLongestToken = false) (q : UInt16 → Bool)
    (hq : ∀ a b, differ.equals a b = true → a.filter q = b.filter q) (oldString newString : Str) :
    ∃ parts, differ.diff oldString newString = some parts ∧
      textWithout .remove parts = newString ∧
      (textWithout .add parts).filter q = oldString.filter q := by
  unfold Differ.diff
  split
  · next hsame =>
    subst hsame
    exact ⟨_, rfl, by simp [textWithout], by simp [textWithout]⟩
  · split
    · next hempty =>
      subst hempty
      exact ⟨_, rfl, by simp [textWithout], by simp [textWithout]⟩
    · split
      · next hempty =>
        subst hempty
        exact ⟨_, rfl, by simp [textWithout], by simp [textWithout]⟩
      · obtain ⟨parts, hparts, hnew, hold, -⟩ := differ.compare_spec hlongest q hq
          (differ.tokenize newString) (differ.tokenize oldString)
        rw [htokenize] at hnew hold
        exact ⟨parts, hparts, hnew, hold⟩

end Texts

section Page

theorem DiffType.useLongestToken_eq (diffType : DiffType) :
    diffType.differ.useLongestToken = false := by
  cases diffType <;> rfl

/-- Tokens that count as equal differ in white space at most, and only when words are compared. -/
theorem DiffType.filter_of_equals {diffType : DiffType} {a b : Str}
    (h : diffType.differ.equals a b = true) :
    a.filter (!isSpace ·) = b.filter (!isSpace ·) ∧ (diffType ≠ .diffWords → a = b) := by
  cases diffType with
  | diffChars =>
    obtain rfl : a = b := of_decide_eq_true h
    exact ⟨rfl, fun _ => rfl⟩
  | diffLines =>
    obtain rfl : a = b := of_decide_eq_true h
    exact ⟨rfl, fun _ => rfl⟩
  | diffWords =>
    refine ⟨?_, fun hne => absurd rfl hne⟩
    rcases (Bool.or_eq_true _ _).mp h with heq | hspace
    · rw [of_decide_eq_true heq]
    · obtain ⟨ha, hb⟩ := (Bool.and_eq_true _ _).mp hspace
      rw [List.all_eq_true] at ha hb
      rw [List.filter_eq_nil_iff.mpr fun u hu => by simp [ha u hu],
        List.filter_eq_nil_iff.mpr fun u hu => by simp [hb u hu]]

def Node.isFor (e : Edit) : Node → Bool
  | .text _ => true
  | .ins _ => e ≠ .add
  | .del _ => e ≠ .remove

def Node.value : Node → Str
  | .text s => s
  | .ins s => s
  | .del s => s

/-- What a reader sees who leaves out what is added, or what is removed. -/
def shownWithout (e : Edit) (nodes : List Node) : Str :=
  (nodes.filter (Node.isFor e)).flatMap Node.value

theorem isFor_node (e : Edit) (he : e ≠ .keep) (part : Part) :
    part.node.isFor e = decide (part.edit ≠ e) := by
  unfold Part.node
  cases hpart : part.edit <;> cases e <;> simp_all [Node.isFor]

theorem value_node (part : Part) : part.node.value = part.value := by
  unfold Part.node
  cases part.edit <;> rfl

theorem shownWithout_cons (e : Edit) (he : e ≠ .keep) (part : Part) (nodes : List Node) :
    shownWithout e (part.node :: nodes) = textWithout e [part] ++ shownWithout e nodes := by
  unfold shownWithout textWithout
  rw [List.filter_cons, isFor_node e he]
  by_cases h : part.edit = e <;> simp [h, value_node]

/-- The parts that change places are of different texts. -/
theorem shownWithout_fragmentFrom (e : Edit) (he : e ≠ .keep) (rest : List Part) :
    ∀ part, shownWithout e (fragmentFrom part rest) = textWithout e (part :: rest) := by
  induction rest with
  | nil =>
    intro part
    unfold fragmentFrom
    rw [shownWithout_cons e he]
    simp [shownWithout]
  | cons next rest ih =>
    intro part
    have htexts (p : Part) (ps : List Part) :
        textWithout e (p :: ps) = textWithout e [p] ++ textWithout e ps :=
      textWithout_append e [p] ps
    unfold fragmentFrom
    split
    · next hswap =>
      obtain ⟨hadd, hremove⟩ := hswap
      rw [shownWithout_cons e he, ih, htexts part rest, htexts part (next :: rest),
        htexts next rest]
      cases e with
      | keep => exact absurd rfl he
      | add => simp [textWithout, hadd]
      | remove => simp [textWithout, hremove]
    · rw [shownWithout_cons e he, ih, htexts part (next :: rest)]

theorem shownWithout_fragment (e : Edit) (he : e ≠ .keep) (parts : List Part) :
    shownWithout e (fragment parts) = textWithout e parts := by
  cases parts with
  | nil => rfl
  | cons part rest => exact shownWithout_fragmentFrom e he rest part

/-- The page shows the new text to who leaves out what is struck out, and the old one to who leaves
out what is underlined. When words are compared, the white space is that of the new text. -/
theorem changed_texts (diffType : DiffType) (original modified : Str) :
    ∃ result, changed diffType original modified = some result ∧
      ((10000 < original.length + modified.length ∧
          result = .message "Too much data to compare.") ∨
        ∃ nodes, result = .fragment nodes ∧ shownWithout .remove nodes = modified ∧
          (shownWithout .add nodes).filter (!isSpace ·) = original.filter (!isSpace ·) ∧
          (diffType ≠ .diffWords → shownWithout .add nodes = original)) := by
  unfold changed
  rw [List.length_append]
  split
  · next hlong => exact ⟨_, rfl, Or.inl ⟨hlong, rfl⟩⟩
  · obtain ⟨parts, hparts, hnew, hold⟩ := diffType.differ.diff_texts diffType.flatten_tokenize
      diffType.useLongestToken_eq (!isSpace ·) (fun _ _ h => (DiffType.filter_of_equals h).1)
      original modified
    rw [hparts]
    refine ⟨_, rfl, Or.inr ⟨_, rfl, ?_, ?_, ?_⟩⟩
    · rw [shownWithout_fragment _ (by decide), hnew]
    · rw [shownWithout_fragment _ (by decide), hold]
    · intro hne
      have hexact (a b : Str) (h : diffType.differ.equals a b = true) :
          a.filter (fun _ => true) = b.filter (fun _ => true) := by
        rw [(DiffType.filter_of_equals h).2 hne]
      obtain ⟨parts', hparts', -, hold⟩ := diffType.differ.diff_texts diffType.flatten_tokenize
        diffType.useLongestToken_eq (fun _ => true) hexact original modified
      obtain rfl : parts = parts' := Option.some.inj (hparts.symm.trans hparts')
      rw [shownWithout_fragment _ (by decide)]
      simpa using hold

/-- Two different texts are compared along a script that adds and removes the fewest tokens. -/
theorem diff_least (diffType : DiffType) {original modified : Str} (hne : modified ≠ original)
    (hmodified : modified ≠ []) (horiginal : original ≠ []) :
    ∃ parts, diffType.differ.diff original modified = some parts ∧
      (∃ es, Script diffType.differ.equals (diffType.differ.tokenize modified)
        (diffType.differ.tokenize original) es 0 0 (diffType.differ.tokenize modified).length
        (diffType.differ.tokenize original).length ∧ cost es = changes parts) ∧
      AtLeast (Same diffType.differ.equals (diffType.differ.tokenize modified)
        (diffType.differ.tokenize original)) (diffType.differ.tokenize modified).length
        (diffType.differ.tokenize original).length (changes parts) := by
  unfold Differ.diff
  rw [if_neg hne, if_neg hmodified, if_neg horiginal]
  obtain ⟨parts, hparts, -, -, hscript, hleast⟩ := diffType.differ.compare_spec
    diffType.useLongestToken_eq (!isSpace ·) (fun _ _ h => (DiffType.filter_of_equals h).1)
    (diffType.differ.tokenize modified) (diffType.differ.tokenize original)
  exact ⟨parts, hparts, hscript, hleast⟩

/-- From `ab` to `bc`, character by character. -/
theorem diff_least_ab :
    ∃ parts, charDiff.diff [0x61, 0x62] [0x62, 0x63] = some parts ∧
      (∃ es, Script charDiff.equals [[0x62], [0x63]] [[0x61], [0x62]] es 0 0 2 2 ∧
        cost es = changes parts) ∧
      AtLeast (Same charDiff.equals [[0x62], [0x63]] [[0x61], [0x62]]) 2 2 (changes parts) :=
  diff_least .diffChars (by decide) (by decide) (by decide)

end Page

end HackerUnion.Diff.JsDiff
