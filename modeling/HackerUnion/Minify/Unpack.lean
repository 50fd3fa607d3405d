import HackerUnion.Lists.SplitOn
import HackerUnion.Minify.Dictionary

namespace HackerUnion.Minify

open Js HackerUnion.Lists

/-! The boot function: the script is decoded with one replacement for all words, or with one
replacement for each keyword where `replace` does not take a function. -/

/-- A line end that cannot be in a string literal. -/
def lineTerminator (c : Char) : Bool := c ∈ ['\n', '\r', '\u2028', '\u2029']

/-- What a string literal stands for, behind its first quote. Of the escapes, those that are
written are read. -/
def readQuoted : Script → Option Script
  | [] => none
  | [c] => if c = '\'' then some [] else none
  | c :: d :: script =>
    if c = '\\' then
      if d = '\\' ∨ d = '\'' then (readQuoted script).map (d :: ·)
      else if d = 'n' then (readQuoted script).map ('\n' :: ·)
      else none
    else if c = '\'' ∨ lineTerminator c then none
    else (readQuoted (d :: script)).map (c :: ·)

def literalValue : Script → Option Script
  | [] => none
  | c :: script => if c = '\'' then readQuoted script else none

/-- `$encode`, which calls itself so many times at most. -/
def encodeFrom (ascii : Nat) : Nat → Nat → Option Word
  | 0, _ => none
  | rounds + 1, charCode =>
    let last := if 35 < charCode % ascii then [Char.ofNat (charCode % ascii + 29)]
      else toRadix 36 (charCode % ascii)
    if charCode < ascii then some last
    else (encodeFrom ascii rounds (charCode / ascii)).map (· ++ last)

def encode (ascii charCode : Nat) : Option Word := encodeFrom ascii (charCode + 1) charCode

/-- `$encode($count)` as it is written into the decoder. -/
def inline (ascii count : Nat) : Option Word :=
  if ascii < 36 then some (if 10 < ascii then toRadix ascii count else toRadix 10 count)
  else encode ascii count

/-- `while ($count--) $decode[$encode($count)] = $keywords[$count] || $encode($count);` -/
def decodeTable (ascii : Nat) (keywords : List Word) :
    Nat → List (Word × Word) → Option (List (Word × Word))
  | 0, decode => some decode
  | count + 1, decode => do
    let code ← inline ascii count
    let keyword := keywords.getD count []
    decodeTable ascii keywords count ((code, if keyword = [] then code else keyword) :: decode)

/-- What `$decode` has for a word. -/
def lookup (decode : List (Word × Word)) (word : Word) : Word :=
  (decode.lookup word).getD ['u', 'n', 'd', 'e', 'f', 'i', 'n', 'e', 'd']

/-- The replacement of a word wherever it is between two word boundaries. -/
def replaceWord (code keyword : Word) (script : Script) : Script :=
  mapRuns isWord (fun w => if w = code then keyword else w) script

/-- The loop of the boot function. -/
def replaceAll (ascii : Nat) (keywords : List Word) : Nat → Script → Option Script
  | 0, packed => some packed
  | count + 1, packed =>
    let keyword := keywords.getD count []
    if keyword = [] then replaceAll ascii keywords count packed
    else do
      let code ← encode ascii count
      replaceAll ascii keywords count (replaceWord code keyword packed)

/-- `functions`: whether `replace` takes a function. What comes out is evaluated. -/
def unpack (functions : Bool) (params : Params) : Option Script := do
  let packed ← literalValue params.packed
  let keywords ← literalValue params.keywords
  if functions then
    let decode ← decodeTable params.ascii (keywords.splitOn '|') params.count []
    some (mapRuns isWord (lookup decode) packed)
  else replaceAll params.ascii (keywords.splitOn '|') params.count packed

/-! ## String literals -/

/-- A script as it can be packed: without the marks of what is deleted, and without a line end that
is not escaped. -/
def Plain (script : Script) : Prop :=
  ∀ c ∈ script, c ≠ '\x01' ∧ (c = '\n' ∨ lineTerminator c = false)

theorem removeDeleted_plain {script : Script} (h : ∀ c ∈ script, c ≠ '\x01') :
    removeDeleted none script = script := by
  induction script with
  | nil => rfl
  | cons c script ih =>
    rw [removeDeleted, if_neg (h c List.mem_cons_self),
      ih fun d hd => h d (List.mem_cons_of_mem _ hd)]

/-- How a character is written in a literal. -/
def escaped (c : Char) : Script :=
  if c = '\\' then ['\\', '\\'] else if c = '\'' then ['\\', '\''] else
    if c = '\n' then ['\\', 'n'] else [c]

theorem escape_eq (script : Script) : escape script = script.flatMap escaped := by
  rw [escape, replaceChar, replaceChar, replaceChar, List.flatMap_assoc, List.flatMap_assoc]
  refine List.flatMap_congr fun c _ => ?_
  by_cases hslash : c = '\\'
  · subst hslash
    rfl
  · by_cases hquote : c = '\''
    · subst hquote
      rfl
    · simp [escaped, hslash, hquote]

theorem readQuoted_escaped {c : Char} (hc : c = '\n' ∨ lineTerminator c = false)
    (script : Script) (hscript : script ≠ []) :
    readQuoted (escaped c ++ script) = (readQuoted script).map (c :: ·) := by
  obtain ⟨d, script, rfl⟩ := List.exists_cons_of_ne_nil hscript
  by_cases hslash : c = '\\'
  · subst hslash
    simp [escaped, readQuoted]
  · by_cases hquote : c = '\''
    · subst hquote
      simp [escaped, readQuoted]
    · by_cases hline : c = '\n'
      · subst hline
        simp [escaped, readQuoted]
      · have hno := hc.resolve_left hline
        simp [escaped, readQuoted, hslash, hquote, hline, hno]

theorem readQuoted_escape {script : Script}
    (h : ∀ c ∈ script, c = '\n' ∨ lineTerminator c = false) :
    readQuoted (script.flatMap escaped ++ ['\'']) = some script := by
  induction script with
  | nil => rfl
  | cons c script ih =>
    rw [List.flatMap_cons, List.append_assoc, readQuoted_escaped (h c List.mem_cons_self) _
      (List.append_ne_nil_of_right_ne_nil _ (List.cons_ne_nil _ _)),
      ih fun d hd => h d (List.mem_cons_of_mem _ hd)]
    rfl

theorem literalValue_escape {script : Script}
    (h : ∀ c ∈ script, c = '\n' ∨ lineTerminator c = false) :
    literalValue (quoted (escape script)) = some script := by
  rw [quoted, escape_eq, List.cons_append, literalValue, if_pos rfl, readQuoted_escape h]

/-- A text in which nothing is escaped. -/
theorem literalValue_quoted {script : Script}
    (h : ∀ c ∈ script, c ≠ '\\' ∧ c ≠ '\'' ∧ lineTerminator c = false) :
    literalValue (quoted script) = some script := by
  have hsame : escape script = script := by
    rw [escape_eq]
    have hc : ∀ c ∈ script, escaped c = [c] := by
      intro c hc
      obtain ⟨hslash, hquote, hline⟩ := h c hc
      have hn : c ≠ '\n' := by
        intro hn
        subst hn
        cases hline
      simp [escaped, hslash, hquote, hn]
    rw [List.flatMap_congr hc]
    exact List.flatMap_singleton' script
  conv_lhs => rw [← hsame]
  exact literalValue_escape fun c hc => Or.inr (h c hc).2.2

theorem isWord_plain {c : Char} (h : isWord c = true) :
    c ≠ '\x01' ∧ c ≠ '\\' ∧ c ≠ '\'' ∧ c ≠ '|' ∧ lineTerminator c = false := by
  have hno : ∀ d ∈ ['\x01', '\\', '\'', '|', '\n', '\r', '\u2028', '\u2029'],
      isWord d = false := by decide
  have hne : ∀ d ∈ ['\x01', '\\', '\'', '|', '\n', '\r', '\u2028', '\u2029'], c ≠ d := by
    intro d hd heq
    rw [heq, hno d hd] at h
    cases h
  refine ⟨hne _ (by decide), hne _ (by decide), hne _ (by decide), hne _ (by decide), ?_⟩
  have hline : ∀ d ∈ ['\n', '\r', '\u2028', '\u2029'], c ≠ d :=
    fun d hd => hne d (List.mem_append_right ['\x01', '\\', '\'', '|'] hd)
  rw [lineTerminator, decide_eq_false_iff_not]
  exact fun hmem => hline c hmem rfl

/-! ## The codes of the decoder -/

theorem toRadix_lt {radix n : Nat} (hn : n < radix) : toRadix radix n = [mapping n] := by
  rw [toRadix]
  split
  · next hzero => rw [hzero]
  · next hpos => simp [Nat.digits_of_lt radix n hpos hn]

theorem last_eq : ∀ i < 62, (if 35 < i then [Char.ofNat (i + 29)] else toRadix 36 i) =
    [mapping i] := by
  intro i hi
  split
  · next hlarge =>
    rw [mapping, if_neg (by omega), if_neg (by omega)]
    have hsame : i + 29 = i - 36 + 'A'.toNat := by
      have hA : 'A'.toNat = 65 := rfl
      omega
    rw [hsame]
  · next hsmall => exact toRadix_lt (by omega)

theorem toRadix_div {radix n : Nat} (hradix : 1 < radix) (hn : radix ≤ n) :
    toRadix radix n = toRadix radix (n / radix) ++ [mapping (n % radix)] := by
  have hdiv : n / radix ≠ 0 := Nat.ne_of_gt (Nat.div_pos hn (by omega))
  rw [toRadix, toRadix, if_neg (by omega), if_neg hdiv, Nat.digits_def' hradix (by omega),
    List.map_cons, List.reverse_cons]

theorem encodeFrom_eq {ascii : Nat} (hascii : 1 < ascii) (h62 : ascii ≤ 62) (rounds n : Nat)
    (hn : n < rounds) : encodeFrom ascii rounds n = some (toRadix ascii n) := by
  induction rounds generalizing n with
  | zero => omega
  | succ rounds ih =>
    have hlast := last_eq (n % ascii) ((Nat.mod_lt n (by omega)).trans_le h62)
    rw [encodeFrom, hlast]
    split
    · next hlt => rw [toRadix_lt hlt, Nat.mod_eq_of_lt hlt]
    · next hge =>
      have hdiv : n / ascii < n := Nat.div_lt_self (by omega) hascii
      rw [ih (n / ascii) (by omega), Option.map_some, toRadix_div hascii (Nat.not_lt.mp hge)]

/-- The base is the number of the keywords, or 62. -/
theorem toRadix_min {count n : Nat} (hn : n < count) : toRadix (min count 62) n = encode62 n := by
  rw [encode62_eq]
  by_cases hcount : count ≤ 62
  · rw [min_eq_left hcount, toRadix_lt hn, toRadix_lt (by omega)]
  · rw [min_eq_right (by omega)]

theorem encode_eq {count n : Nat} (hn : n < count) :
    encode (min count 62) n = some (encode62 n) := by
  by_cases hone : count = 1
  · subst hone
    have hzero : n = 0 := by omega
    subst hzero
    rw [← toRadix_min hn]
    rfl
  · rw [encode, encodeFrom_eq (by omega) (by omega) _ _ (Nat.lt_succ_self n), toRadix_min hn]

theorem inline_eq {count n : Nat} (hn : n < count) :
    inline (min count 62) n = some (encode62 n) := by
  rw [inline]
  split
  · split
    · rw [toRadix_min hn]
    · next hten =>
      have hfigure : n < 10 := by omega
      have hbase : n < min count 62 := by omega
      rw [← toRadix_min hn, toRadix_lt hfigure, toRadix_lt hbase]
  · exact encode_eq hn

/-! ## The words of a packed script -/

variable {script : Script} {keywords : Keywords} {word : Word} {j : Nat}

theorem encoded_eq (hd : Dictionary script keywords) (hj : keywords.sorted[j]? = some word) :
    keywords.encoded word = encode62 j := by
  obtain ⟨hlt, hget⟩ := List.getElem?_eq_some_iff.mp hj
  have hidx : keywords.sorted.idxOf? word = some j := by
    refine List.idxOf?_eq_some_iff.mpr ⟨hlt, hget, fun i hij heq => ?_⟩
    rw [← hget, hd.nodup.getElem_inj_iff] at heq
    omega
  rw [Keywords.encoded, hidx]

theorem exists_place (hd : Dictionary script keywords) (hw : word ∈ runs isWord script) :
    ∃ j, j < keywords.sorted.length ∧ keywords.sorted[j]? = some word ∧
      keywords.encoded word = encode62 j := by
  obtain ⟨j, hlt, hget⟩ := List.getElem_of_mem ((hd.mem word).mpr hw)
  have hj := List.getElem?_eq_some_iff.mpr ⟨hlt, hget⟩
  exact ⟨j, hlt, hj, encoded_eq hd hj⟩

theorem isRun_encoded (hd : Dictionary script keywords) (hw : word ∈ runs isWord script) :
    IsRun isWord (keywords.encoded word) := by
  obtain ⟨j, _, _, hencoded⟩ := exists_place hd hw
  rw [hencoded]
  exact isRun_encode62 j

theorem getElem?_foldl_set (is : List Nat) (sorted : List Word) :
    (is.foldl (fun sorted i => sorted.set i []) sorted)[j]? =
      if j < sorted.length ∧ j ∈ is then some [] else sorted[j]? := by
  induction is generalizing sorted with
  | nil => simp
  | cons i is ih =>
    rw [List.foldl_cons, ih, List.length_set, List.getElem?_set]
    by_cases hij : i = j
    · subst hij
      by_cases hlt : i < sorted.length
      · simp [hlt]
      · simp [hlt]
    · simp [hij, Ne.symm hij]

/-- A keyword is blank where the word is its own code, and the word elsewhere. -/
theorem getElem?_blanked (hd : Dictionary script keywords) (j : Nat) :
    keywords.blanked[j]? =
      keywords.sorted[j]?.map fun word => if encode62 j = word then [] else word := by
  rw [Keywords.blanked, getElem?_foldl_set]
  cases hj : keywords.sorted[j]? with
  | none =>
    rw [if_neg fun h => absurd h.1 (Nat.not_lt.mpr (List.getElem?_eq_none_iff.mp hj))]
    rfl
  | some word =>
    have hlt := (List.getElem?_eq_some_iff.mp hj).1
    by_cases hcode : encode62 j ∈ keywords.sorted
    · have hsame := Option.some.inj ((hd.own j hlt hcode).symm.trans hj)
      rw [if_pos ⟨hlt, (hd.protectedWords j).mpr ⟨hlt, hcode⟩⟩, Option.map_some, if_pos hsame]
    · have hne : encode62 j ≠ word := fun heq => hcode (heq ▸ List.mem_of_getElem? hj)
      rw [if_neg fun h => hcode ((hd.protectedWords j).mp h.2).2, Option.map_some, if_neg hne]

theorem getD_blanked (hd : Dictionary script keywords) (hj : keywords.sorted[j]? = some word) :
    keywords.blanked.getD j [] = if encode62 j = word then [] else word := by
  rw [List.getD_eq_getElem?_getD, getElem?_blanked hd, hj]
  rfl

theorem isWord_of_mem_blanked (hd : Dictionary script keywords)
    (hw : word ∈ keywords.blanked) : ∀ c ∈ word, isWord c = true := by
  obtain ⟨j, hj⟩ := List.mem_iff_getElem?.mp hw
  rw [getElem?_blanked hd, Option.map_eq_some_iff] at hj
  obtain ⟨v, hv, rfl⟩ := hj
  have hrun := isRun_of_mem ((hd.mem v).mp (List.mem_of_getElem? hv))
  split
  · simp
  · exact List.all_eq_true.mp hrun.2

theorem blanked_ne_nil (hd : Dictionary script keywords) (hne : keywords.sorted ≠ []) :
    keywords.blanked ≠ [] := by
  intro hnil
  have hzero := getElem?_blanked hd 0
  obtain ⟨w, ws, hcons⟩ := List.exists_cons_of_ne_nil hne
  rw [hnil, hcons] at hzero
  simp at hzero

/-- The literal with the keywords is read as it was meant. -/
theorem literalValue_keywords (hd : Dictionary script keywords) :
    literalValue (quoted (List.intercalate ['|'] keywords.blanked)) =
      some (List.intercalate ['|'] keywords.blanked) := by
  refine literalValue_quoted fun c hc => ?_
  by_contra hno
  refine not_mem_intercalate ?_ ?_ hc
  · rw [List.mem_singleton]
    intro hbar
    subst hbar
    exact hno (by decide)
  · intro w hw hcw
    have hplain := isWord_plain (isWord_of_mem_blanked hd hw c hcw)
    exact hno ⟨hplain.2.1, hplain.2.2.1, hplain.2.2.2.2⟩

theorem splitOn_keywords (hd : Dictionary script keywords) (hne : keywords.sorted ≠ []) :
    (List.intercalate ['|'] keywords.blanked).splitOn '|' = keywords.blanked := by
  refine List.splitOn_intercalate '|' (fun w hw hbar => ?_) (blanked_ne_nil hd hne)
  exact (isWord_plain (isWord_of_mem_blanked hd hw '|' hbar)).2.2.2.1 rfl

/-! ## Both decoders -/

theorem decodeTable_eq (ascii : Nat) (words : List Word) (count : Nat)
    (decode : List (Word × Word)) (h : ∀ n < count, inline ascii n = some (encode62 n)) :
    decodeTable ascii words count decode = some ((List.range count).map (fun n => (encode62 n,
      if words.getD n [] = [] then encode62 n else words.getD n [])) ++ decode) := by
  induction count generalizing decode with
  | zero => rfl
  | succ count ih =>
    rw [decodeTable, h count (Nat.lt_succ_self count), List.range_succ, List.map_append,
      List.append_assoc]
    exact ih _ fun n hn => h n (Nat.lt_succ_of_lt hn)

theorem lookup_map (entry : Nat → Word) {ns : List Nat} (hj : j ∈ ns) :
    (ns.map fun n => (encode62 n, entry n)).lookup (encode62 j) = some (entry j) := by
  induction ns with
  | nil => exact absurd hj List.not_mem_nil
  | cons n ns ih =>
    rw [List.map_cons, List.lookup_cons]
    by_cases hjn : j = n
    · subst hjn
      simp
    · have hcode : (encode62 j == encode62 n) = false :=
        beq_eq_false_iff_ne.mpr fun heq => hjn (encode62_injective heq)
      rw [hcode]
      exact ih ((List.mem_cons.mp hj).resolve_left hjn)

/-- The table has each word under its code. -/
theorem lookup_encoded (hd : Dictionary script keywords) (hw : word ∈ runs isWord script)
    {decode : List (Word × Word)} (hdecode : decodeTable (min keywords.sorted.length 62)
      keywords.blanked keywords.sorted.length [] = some decode) :
    lookup decode (keywords.encoded word) = word := by
  obtain ⟨j, hlt, hj, hencoded⟩ := exists_place hd hw
  rw [decodeTable_eq _ _ _ _ fun n hn => inline_eq hn, List.append_nil] at hdecode
  cases hdecode
  rw [lookup, hencoded, lookup_map _ (List.mem_range.mpr hlt), Option.getD_some,
    getD_blanked hd hj]
  have hne := (isRun_of_mem hw).1
  by_cases hown : encode62 j = word
  · rw [if_pos hown, if_pos rfl, hown]
  · rw [if_neg hown, if_neg hne]

/-- What a replacement in the loop does to a word. -/
def replaced (words : List Word) (n : Nat) (word : Word) : Word :=
  if words.getD n [] = [] then word
  else if word = encode62 n then words.getD n [] else word

theorem replaceAll_eq (ascii : Nat) (words : List Word) (count : Nat)
    (h : ∀ n < count, encode ascii n = some (encode62 n)) (packed : Script) :
    replaceAll ascii words count packed = some ((List.range count).reverse.foldl
      (fun packed n => mapRuns isWord (replaced words n) packed) packed) := by
  induction count generalizing packed with
  | zero => rfl
  | succ count ih =>
    have hrest := ih fun n hn => h n (Nat.lt_succ_of_lt hn)
    rw [replaceAll, List.range_succ, List.reverse_append, List.reverse_singleton,
      List.singleton_append, List.foldl_cons]
    split
    · next hblank =>
      have hid : mapRuns isWord (replaced words count) packed = packed := by
        exact (mapRuns_congr fun w _ => if_pos hblank).trans (mapRuns_id packed)
      rw [hid, hrest]
    · next hword =>
      have hstep : mapRuns isWord (replaced words count) packed =
          replaceWord (encode62 count) (words.getD count []) packed :=
        mapRuns_congr fun w _ => if_neg hword
      rw [hstep, h count (Nat.lt_succ_self count), ← hrest]
      rfl

theorem isRun_replaced (hd : Dictionary script keywords) (hj : j < keywords.sorted.length)
    (hw : IsRun isWord word) : IsRun isWord (replaced keywords.blanked j word) := by
  rw [replaced]
  split
  · exact hw
  · next hne =>
    split
    · rw [getD_blanked hd (List.getElem?_eq_getElem hj)] at hne ⊢
      split at hne
      · exact absurd rfl hne
      · next hown =>
        rw [if_neg hown]
        exact isRun_of_mem ((hd.mem _).mp (List.getElem_mem hj))
    · exact hw

/-- A word that is none of the codes stays. -/
theorem foldl_replaced_free (words : List Word) {ns : List Nat}
    (hfree : ∀ n ∈ ns, encode62 n ≠ word) :
    ns.foldl (fun w n => replaced words n w) word = word := by
  induction ns with
  | nil => rfl
  | cons n ns ih =>
    have hstep : replaced words n word = word := by
      rw [replaced, if_neg (Ne.symm (hfree n List.mem_cons_self)), ite_self]
    rw [List.foldl_cons, hstep, ih fun n hn => hfree n (List.mem_cons_of_mem _ hn)]

/-- The code of a word is replaced once, and what it is replaced by is no code that is left. -/
theorem foldl_replaced (hd : Dictionary script keywords) (hw : word ∈ runs isWord script) :
    (List.range keywords.sorted.length).reverse.foldl
      (fun w n => replaced keywords.blanked n w) (keywords.encoded word) = word := by
  obtain ⟨j, hlt, hj, hencoded⟩ := exists_place hd hw
  have hmem : j ∈ (List.range keywords.sorted.length).reverse :=
    List.mem_reverse.mpr (List.mem_range.mpr hlt)
  have hnodup := List.nodup_reverse.mpr (List.nodup_range (n := keywords.sorted.length))
  have hbound : ∀ n ∈ (List.range keywords.sorted.length).reverse, n < keywords.sorted.length :=
    fun n hn => List.mem_range.mp (List.mem_reverse.mp hn)
  obtain ⟨before, behind, hsplit⟩ := List.append_of_mem hmem
  rw [hsplit] at hnodup hbound
  have hcodes : ∀ n < keywords.sorted.length, n ≠ j → encode62 n ≠ word := by
    intro n hn hne hcode
    have hplace := hd.own n hn (hcode ▸ (hd.mem word).mpr hw)
    rw [hcode, ← hj, List.getElem?_eq_getElem hn, List.getElem?_eq_getElem hlt,
      Option.some.injEq, hd.nodup.getElem_inj_iff] at hplace
    exact hne hplace
  have hbefore : ∀ n ∈ before, encode62 n ≠ encode62 j := by
    intro n hn hcode
    rw [encode62_injective hcode] at hn
    exact (List.nodup_append.mp hnodup).2.2 j hn j List.mem_cons_self rfl
  have hbehind : ∀ n ∈ behind, encode62 n ≠ word := by
    intro n hn
    refine hcodes n (hbound n (List.mem_append_right _ (List.mem_cons_of_mem _ hn))) ?_
    exact fun hnj => (List.nodup_cons.mp (List.nodup_append.mp hnodup).2.1).1 (hnj ▸ hn)
  have hstep : replaced keywords.blanked j (encode62 j) = word := by
    rw [replaced, getD_blanked hd hj]
    by_cases hown : encode62 j = word
    · rw [if_pos hown, if_pos rfl, hown]
    · rw [if_neg hown, if_neg (isRun_of_mem hw).1, if_pos rfl]
  rw [hsplit, hencoded, List.foldl_append, foldl_replaced_free _ hbefore, List.foldl_cons, hstep,
    foldl_replaced_free _ hbehind]

/-- What is written for a script that has words. -/
def Keywords.params (keywords : Keywords) (script : Script) : Params where
  packed := quoted (escape (mapRuns isWord keywords.encoded script))
  ascii := min keywords.sorted.length 62
  count := keywords.sorted.length
  keywords := quoted (List.intercalate ['|'] keywords.blanked)

theorem plain_mapRuns (hd : Dictionary script keywords) (hplain : Plain script) :
    Plain (mapRuns isWord keywords.encoded script) := by
  intro c hc
  rcases mem_mapRuns hc with hc | ⟨w, hw, hc⟩
  · exact hplain c hc
  · have hword := isWord_plain (List.all_eq_true.mp (isRun_encoded hd hw).2 c hc)
    exact ⟨hword.1, Or.inr hword.2.2.2.2⟩

theorem sorted_ne_nil (hd : Dictionary script keywords) (hwords : runs isWord script ≠ []) :
    keywords.sorted ≠ [] := by
  intro hnil
  refine hwords (List.eq_nil_iff_forall_not_mem.mpr fun w hw => ?_)
  rw [← hd.mem, hnil] at hw
  exact List.not_mem_nil hw

theorem encodeKeywords_eq (hanalyze : analyze script = some keywords)
    (hd : Dictionary script keywords) (hne : keywords.sorted ≠ []) (hplain : Plain script) :
    encodeKeywords script = some (keywords.params script) := by
  have hcount : keywords.sorted.length ≠ 0 := fun h => hne (List.length_eq_zero_iff.mp h)
  rw [encodeKeywords, hanalyze, Option.bind_eq_bind, Option.bind_some,
    removeDeleted_plain fun c hc => (plain_mapRuns hd hplain c hc).1, bootStrap, if_neg hcount]
  rfl

/-- One replacement of all codes by the table gives the script back. -/
theorem mapRuns_lookup (hd : Dictionary script keywords) {decode : List (Word × Word)}
    (hdecode : decodeTable (min keywords.sorted.length 62) keywords.blanked
      keywords.sorted.length [] = some decode) :
    mapRuns isWord (lookup decode) (mapRuns isWord keywords.encoded script) = script := by
  rw [mapRuns_mapRuns fun w hw => isRun_encoded hd hw,
    mapRuns_congr fun w hw => lookup_encoded hd hw hdecode, mapRuns_id]

/-- And so do the replacements of the codes one after the other. -/
theorem replaceAll_encoded (hd : Dictionary script keywords) :
    replaceAll (min keywords.sorted.length 62) keywords.blanked keywords.sorted.length
      (mapRuns isWord keywords.encoded script) = some script := by
  have hstep : ∀ n ∈ (List.range keywords.sorted.length).reverse, ∀ w, IsRun isWord w →
      IsRun isWord (replaced keywords.blanked n w) :=
    fun n hn w hw => isRun_replaced hd (List.mem_range.mp (List.mem_reverse.mp hn)) hw
  rw [replaceAll_eq _ _ _ fun n hn => encode_eq hn, foldl_mapRuns _ hstep,
    mapRuns_mapRuns fun w hw => isRun_encoded hd hw,
    mapRuns_congr fun w hw => foldl_replaced hd hw, mapRuns_id]

/-- A packed script decodes to the script it was made from, whichever way it is decoded. -/
theorem unpack_encodeKeywords (functions : Bool) (hwords : runs isWord script ≠ [])
    (hplain : Plain script) :
    ∃ params, encodeKeywords script = some params ∧ unpack functions params = some script := by
  obtain ⟨keywords, hanalyze, hd⟩ := analyze_dictionary script
  have hne := sorted_ne_nil hd hwords
  refine ⟨_, encodeKeywords_eq hanalyze hd hne hplain, ?_⟩
  rw [unpack, Keywords.params, literalValue_escape fun c hc => (plain_mapRuns hd hplain c hc).2,
    literalValue_keywords hd]
  simp only [Option.bind_eq_bind, Option.bind_some, splitOn_keywords hd hne]
  cases functions with
  | true =>
    have hdecode := decodeTable_eq _ keywords.blanked keywords.sorted.length []
      fun n hn => inline_eq hn
    rw [if_pos rfl, hdecode, Option.bind_some, mapRuns_lookup hd hdecode]
  | false =>
    rw [if_neg (by decide), replaceAll_encoded hd]

theorem unpack_encodeKeywords_sum :
    ∃ params, encodeKeywords "b=a+b;\n".toList = some params ∧
      unpack false params = some "b=a+b;\n".toList :=
  unpack_encodeKeywords false (by decide) (by unfold Plain; decide)

end HackerUnion.Minify
