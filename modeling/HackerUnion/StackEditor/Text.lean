import HackerUnion.Lists.Intercalate
import HackerUnion.StackEditor.Handlers
import HackerUnion.StackEditor.Repeated

namespace HackerUnion.StackEditor

def carriageReturn : UInt16 := 13

/-- `val || ' '`. -/
def shown (val : Text) : Text := if val = [] then [space] else val

/-- One cell read, with what has been read and where. -/
def readCell (data : List (List Text)) (st : Text × Option Loc) (loc : Loc) : Text × Option Loc :=
  let result := if st.2.any fun last => last.row < loc.row then st.1 ++ [newline] else st.1
  (result ++ shown ((getloc data loc).getD []), some loc)

/-- The check for a line break at the end asks for an index that is no number: nothing is cut
off. -/
def getActiveString (sheet : Sheet) : Text :=
  ((getActive sheet).foldl (readCell sheet.data) ([], none)).1

def getString (data : List (List Text)) : Text :=
  (data.flatMap fun row => row.flatMap shown ++ [newline]).dropLast

/-- What the handler of `#gettext` puts into the text box. -/
def gettext (sheet : Sheet) : Text :=
  let active := getActiveString sheet
  if active = [] then getString sheet.data else active

/-- What a text box that has been given a text holds: a carriage return, and a line break after it,
is one line break. -/
def boxed (returned : Bool) : Text → Text
  | [] => []
  | c :: text =>
    if c = carriageReturn then newline :: boxed true text
    else if returned = true ∧ c = newline then boxed false text
    else c :: boxed false text

theorem boxed_eq {text : Text} (h : carriageReturn ∉ text) : boxed false text = text := by
  induction text with
  | nil => rfl
  | cons c text ih =>
    rw [List.mem_cons, not_or] at h
    rw [boxed, if_neg fun hc => h.1 hc.symm, if_neg fun hc => Bool.false_ne_true hc.1, ih h.2]

/-- The grid of which these are the lines, a character in each cell. -/
def spread (lines : List Text) : List (List Text) :=
  lines.map fun letters => letters.map fun c => [c]

theorem exists_spread {P : UInt16 → Prop} {data : List (List Text)}
    (h : ∀ row ∈ data, ∀ val ∈ row, ∃ c, val = [c] ∧ P c) :
    ∃ lines, data = spread lines ∧ ∀ letters ∈ lines, ∀ c ∈ letters, P c := by
  have hrow (row : List Text) (h : ∀ val ∈ row, ∃ c, val = [c] ∧ P c) :
      ∃ letters : Text, row = letters.map (fun c => [c]) ∧ ∀ c ∈ letters, P c := by
    induction row with
    | nil => exact ⟨[], rfl, fun c hc => absurd hc List.not_mem_nil⟩
    | cons val row ih =>
      obtain ⟨c, hval, hc⟩ := h val List.mem_cons_self
      obtain ⟨letters, hline, hall⟩ := ih fun val hval => h val (List.mem_cons_of_mem _ hval)
      refine ⟨c :: letters, by rw [hval, hline, List.map_cons], ?_⟩
      intro d hd
      rcases List.mem_cons.mp hd with hd | hd
      · exact hd ▸ hc
      · exact hall d hd
  induction data with
  | nil => exact ⟨[], rfl, fun letters hline => absurd hline List.not_mem_nil⟩
  | cons row data ih =>
    obtain ⟨letters, hline, hc⟩ := hrow row (h row List.mem_cons_self)
    obtain ⟨lines, hlines, hall⟩ := ih fun row hrow => h row (List.mem_cons_of_mem _ hrow)
    refine ⟨letters :: lines, by rw [hline, hlines, spread, spread, List.map_cons], ?_⟩
    intro l hl
    rcases List.mem_cons.mp hl with hl | hl
    · exact hl ▸ hc
    · exact hall l hl

section Spread

variable (lines : List Text)

theorem getloc_spread (q : Loc) :
    getloc (spread lines) q = lines[q.row]?.bind fun letters => drawn 0 letters q.col := by
  unfold getloc spread
  rw [List.getElem?_map]
  cases lines[q.row]? with
  | none => rfl
  | some letters =>
    have hdrawn := drawn_add 0 letters q.col
    rw [Nat.zero_add] at hdrawn
    rw [Option.map_some, Option.bind_some, Option.bind_some, hdrawn, List.getElem?_map]

theorem getString_spread : getString (spread lines) = [newline].intercalate lines := by
  have hrow (letters : Text) : (letters.map fun c => [c]).flatMap shown = letters := by
    induction letters with
    | nil => rfl
    | cons c letters ih =>
      rw [List.map_cons, List.flatMap_cons, ih]
      rfl
  unfold getString spread
  rw [List.flatMap_map]
  simp only [hrow]
  exact Lists.dropLast_flatMap_concat newline lines

variable {lines} {cols : Nat} (hcols : ∀ letters ∈ lines, letters.length = cols) (hpos : 0 < cols)
include hcols hpos

/-- A row is read from its first cell on. -/
theorem foldl_readCell_row {r : Nat} {letters : Text} (hline : lines[r]? = some letters)
    (result : Text) (last : Option Loc) (hlast : ∀ loc, last = some loc → loc.row < r) :
    ((List.range cols).map fun c => (⟨c, r⟩ : Loc)).foldl (readCell (spread lines)) (result, last) =
      ((if last.isSome then result ++ [newline] else result) ++ letters, some ⟨cols - 1, r⟩) := by
  have hlength : letters.length = cols := hcols letters (List.mem_of_getElem? hline)
  have hread (n : Nat) (hn : n < cols) :
      ((List.range (n + 1)).map fun c => (⟨c, r⟩ : Loc)).foldl (readCell (spread lines))
          (result, last) =
        ((if last.isSome then result ++ [newline] else result) ++ letters.take (n + 1),
          some ⟨n, r⟩) := by
    have hval (c : Nat) (hc : c < cols) :
        shown ((getloc (spread lines) ⟨c, r⟩).getD []) = (letters[c]?).toList := by
      have hlt : c < letters.length := hlength.symm ▸ hc
      have hdrawn := drawn_add 0 letters c
      rw [Nat.zero_add] at hdrawn
      rw [getloc_spread, hline, Option.bind_some, hdrawn, List.getElem?_eq_getElem hlt]
      rfl
    induction n with
    | zero =>
      have hfirst : readCell (spread lines) (result, last) ⟨0, r⟩ =
          ((if last.isSome then result ++ [newline] else result) ++ (letters[0]?).toList,
            some ⟨0, r⟩) := by
        unfold readCell
        dsimp only
        rw [hval 0 hpos]
        cases last with
        | none => rfl
        | some loc =>
          have hlt := hlast loc rfl
          rw [Option.any_some, if_pos (decide_eq_true hlt)]
          rfl
      have htake : letters.take (0 + 1) = (letters[0]?).toList := by
        rw [List.take_add_one, List.take_zero, List.nil_append]
      rw [htake, ← hfirst]
      rfl
    | succ n ih =>
      rw [List.range_succ, List.map_append, List.foldl_append, ih (Nat.lt_of_succ_lt hn),
        List.map_singleton, List.foldl_cons, List.foldl_nil, readCell, hval _ hn,
        List.take_add_one (i := n + 1), ← List.append_assoc]
      simp
  have hall := hread (cols - 1) (Nat.sub_one_lt (Nat.ne_of_gt hpos))
  rwa [Nat.sub_add_cancel hpos, List.take_of_length_le (Nat.le_of_eq hlength)] at hall

theorem foldl_readCell (n : Nat) (hn : n ≤ lines.length) :
    (cells cols n).foldl (readCell (spread lines)) ([], none) =
      ([newline].intercalate (lines.take n), if n = 0 then none else some ⟨cols - 1, n - 1⟩) := by
  induction n with
  | zero => rfl
  | succ n ih =>
    have hrow : lines[n]? = some lines[n] := List.getElem?_eq_getElem hn
    have hcells : cells cols (n + 1) =
        cells cols n ++ (List.range cols).map fun c => (⟨c, n⟩ : Loc) := by
      unfold cells
      rw [List.range_succ, List.flatMap_append, List.flatMap_singleton]
    have hlast (loc : Loc)
        (h : (if n = 0 then none else some (⟨cols - 1, n - 1⟩ : Loc)) = some loc) :
        loc.row < n := by
      split at h
      · cases h
      · cases h
        dsimp only
        omega
    rw [hcells, List.foldl_append, ih (Nat.le_of_succ_le hn),
      foldl_readCell_row hcols hpos hrow _ _ hlast, if_neg (Nat.succ_ne_zero n),
      Nat.add_sub_cancel, List.take_add_one, hrow, Option.toList_some]
    refine Prod.ext ?_ rfl
    by_cases hzero : n = 0
    · subst hzero
      rw [List.take_zero, List.nil_append, List.intercalate_singleton]
      rfl
    · have hne : lines.take n ≠ [] := by
        intro h
        have hlength := congrArg List.length h
        rw [List.length_take, List.length_nil] at hlength
        omega
      rw [Lists.intercalate_append [newline] hne (List.cons_ne_nil _ _),
        List.intercalate_singleton, if_neg hzero]
      rfl

theorem gettext_spread {sheet : Sheet} (hdata : sheet.data = spread lines)
    (hactive : getActive sheet = places sheet.data ∨ getActive sheet = []) :
    gettext sheet = [newline].intercalate lines := by
  have hrows (row : List Text) (hrow : row ∈ spread lines) : row.length = cols := by
    obtain ⟨letters, hline, rfl⟩ := List.mem_map.mp hrow
    rw [List.length_map]
    exact hcols letters hline
  have hread : getActiveString sheet = [newline].intercalate lines ∨
      getActiveString sheet = [] := by
    unfold getActiveString
    rcases hactive with h | h
    · have hfold := foldl_readCell hcols hpos lines.length (Nat.le_refl _)
      have hlength : (spread lines).length = lines.length := List.length_map _
      rw [List.take_length] at hfold
      rw [h, hdata, places_eq hrows, hlength, hfold]
      exact Or.inl rfl
    · rw [h]
      exact Or.inr rfl
  unfold gettext
  dsimp only
  rcases hread with h | h
  · split
    · rw [hdata, getString_spread]
    · exact h
  · rw [if_pos h, hdata, getString_spread]

end Spread

/-- Each cell holds the letter that it gets in the end when the text of the card is typed. -/
def Steady (sets cols : Nat) (data : List (List Text)) : Prop :=
  ∀ q : Loc, q.col < cols → q.row < data.length →
    getloc data (source sets cols data.length q) = getloc data q

theorem steady_of_le_one {sets : Nat} (hsets : sets ≤ 1) (cols : Nat) (data : List (List Text)) :
    Steady sets cols data := by
  intro q _ _
  rw [source_of_le_one hsets]

/-- What is typed of the text of a card from its first cell on. -/
theorem settext_source (sets : Nat) {sheet : Sheet} {lines : List Text} {cols : Nat}
    (hpos : 0 < cols) (hne : lines ≠ []) (hlines : ∀ letters ∈ lines, newline ∉ letters)
    (hfull : ∀ letters ∈ lines, letters.length = cols) (hdata : sheet.data = spread lines)
    (hstart : (getActive sheet).head? = some ⟨0, 0⟩) :
    (settext sets sheet ([newline].intercalate lines)).data.map List.length =
        sheet.data.map List.length ∧
      ∀ q : Loc, q.col < cols → q.row < lines.length →
        getloc (settext sets sheet ([newline].intercalate lines)).data q =
          getloc sheet.data (source sets cols lines.length q) := by
  have hlength : sheet.data.length = lines.length := by
    rw [hdata, spread, List.length_map]
  have hcols : ∀ row ∈ sheet.data, row.length = cols := by
    intro row hrow
    rw [hdata] at hrow
    obtain ⟨letters, hline, rfl⟩ := List.mem_map.mp hrow
    rw [List.length_map]
    exact hfull letters hline
  have hsettext : settext sets sheet ([newline].intercalate lines) =
      putString sets (cursorAt sheet.data ⟨0, 0⟩) ([newline].intercalate lines) 0 := by
    unfold settext
    cases hactive : getActive sheet with
    | nil =>
      rw [hactive] at hstart
      cases hstart
    | cons loc active =>
      rw [hactive] at hstart
      cases hstart
      rfl
  have hown (q : Loc) : getloc sheet.data q =
      lines[q.row]?.bind fun letters => letters[q.col]?.map fun u => [u] := by
    have hdrawn (letters : Text) := drawn_add 0 letters q.col
    simp only [Nat.zero_add] at hdrawn
    rw [hdata, getloc_spread]
    simp only [hdrawn]
  rw [hsettext]
  by_cases hsets : sets = 0
  · rw [hsets, putString_zero]
    refine ⟨rfl, fun q _ _ => ?_⟩
    rw [source_of_le_one (Nat.zero_le 1)]
    rfl
  · have hsets := Nat.pos_of_ne_zero hsets
    have hrow : 0 < sheet.data.length := by
      rw [hlength]
      exact List.length_pos_of_ne_nil hne
    obtain ⟨data', p', hrun, hshape, hget⟩ :=
      putString_landed hsets hcols hpos hrow lines hne hlines hfull
    rw [hrun]
    refine ⟨hshape, fun q hcol hrow => ?_⟩
    change getloc data' q = _
    rw [hget q, hown, hown, hlength, landed_source hsets hfull hcol hrow]

/-- The text of the whole card, set from the first cell on, leaves every value as it is, so that the
same text is read again, exactly when what is typed last into each cell is what it holds: always
when the handlers are bound once. -/
theorem settext_gettext_iff (sets : Nat) (sheet sheet' : Sheet) (cols : Nat) (hpos : 0 < cols)
    (hrows : sheet.data ≠ []) (hcols : ∀ row ∈ sheet.data, row.length = cols)
    (hsingle : ∀ row ∈ sheet.data, ∀ val ∈ row,
      ∃ c, val = [c] ∧ c ≠ newline ∧ c ≠ carriageReturn)
    (hactive : getActive sheet = places sheet.data ∨ getActive sheet = [])
    (hdata : sheet'.data = sheet.data) (hstart : (getActive sheet').head? = some ⟨0, 0⟩) :
    ((settext sets sheet' (boxed false (gettext sheet))).data = sheet.data ∧
      ∀ sheet'' : Sheet, sheet''.data = (settext sets sheet' (boxed false (gettext sheet))).data →
        getActive sheet'' = places sheet''.data ∨ getActive sheet'' = [] →
        gettext sheet'' = gettext sheet) ↔
      Steady sets cols sheet.data := by
  obtain ⟨lines, hlines, hchars⟩ := exists_spread hsingle
  have hfull (letters : Text) (hline : letters ∈ lines) : letters.length = cols := by
    have hrow := hcols (letters.map fun c => [c]) (hlines ▸ List.mem_map_of_mem hline)
    rwa [List.length_map] at hrow
  have hnewline (letters : Text) (hline : letters ∈ lines) : newline ∉ letters :=
    fun hmem => (hchars letters hline newline hmem).1 rfl
  have hreturn (letters : Text) (hline : letters ∈ lines) : carriageReturn ∉ letters :=
    fun hmem => (hchars letters hline carriageReturn hmem).2 rfl
  have hne : lines ≠ [] := by
    intro h
    rw [hlines, h] at hrows
    exact hrows rfl
  have hlength : sheet.data.length = lines.length := by
    rw [hlines, spread, List.length_map]
  have htext := gettext_spread hfull hpos hlines hactive
  have hboxed : boxed false (gettext sheet) = [newline].intercalate lines := by
    rw [htext]
    exact boxed_eq (Lists.not_mem_intercalate (by decide) hreturn)
  obtain ⟨hshape, hget⟩ :=
    settext_source sets hpos hne hnewline hfull (hdata.trans hlines) hstart
  rw [hboxed]
  rw [hdata] at hshape hget
  constructor
  · intro h q hcol hrow
    rw [hlength] at hrow ⊢
    rw [← hget q hcol hrow, h.1]
  · intro hsteady
    have hsame :
        (settext sets sheet' ([newline].intercalate lines)).data = sheet.data := by
      refine ext_getloc hshape fun q => ?_
      by_cases hq : q.col < cols ∧ q.row < lines.length
      · have hown := hsteady q hq.1 (hlength.symm ▸ hq.2)
        rw [hget q hq.1 hq.2, ← hlength, hown]
      · -- outside the grid there is nothing before and nothing after
        obtain ⟨hcols', hlength'⟩ := rows_of_map_length hcols hshape
        have hnone {data : List (List Text)} (hcols : ∀ row ∈ data, row.length = cols)
            (hcount : data.length = lines.length) : getloc data q = none := by
          rw [← Option.not_isSome_iff_eq_none, getloc_isSome hcols, hcount]
          exact hq
        rw [hnone hcols hlength, hnone hcols' (hlength'.trans hlength)]
    refine ⟨hsame, ?_⟩
    intro sheet'' hdata'' hactive''
    rw [htext]
    exact gettext_spread hfull hpos ((hdata''.trans hsame).trans hlines) hactive''

/-- A row of three letters with the cursor in its first cell. -/
def threeLetters : Sheet := cursorAt [[[97], [98], [99]]] ⟨0, 0⟩

/-- After a refresh in the mode `edit` the handlers are bound twice, and `abc` becomes `aac`. -/
theorem settext_not_gettext :
    ∃ p ∈ Run.states (Page.step (fun _ => true) (fun _ => true))
        (Page.opened (fun _ => true) blank.stack) [.switch .edit, .refresh],
      p.handlers.count "keydown" = p.handlers.count "keypress" ∧
        (settext (p.handlers.count "keypress") threeLetters (boxed false (gettext
          ⟨threeLetters.data, false, false, fun _ => false, fun _ => false⟩))).data =
            [[[97], [97], [99]]] := by
  exact ⟨Page.refreshed, by decide, by decide, by decide⟩

/-- With two sets of handlers two letters in a row still come back. -/
theorem settext_gettext_iff_two :
    let sheet : Sheet := ⟨[[[97], [98]]], false, false, fun _ => false, fun _ => false⟩
    let sheet' := cursorAt [[[97], [98]]] ⟨0, 0⟩
    (settext 1 sheet' (boxed false (gettext sheet))).data = sheet.data ∧
      (settext 2 sheet' (boxed false (gettext sheet))).data = sheet.data := by
  intro sheet sheet'
  have hsingle (row : List Text) (hrow : row ∈ sheet.data) (val : Text) (hval : val ∈ row) :
      ∃ c, val = [c] ∧ c ≠ newline ∧ c ≠ carriageReturn := by
    rw [List.mem_singleton.mp hrow] at hval
    rcases List.mem_pair.mp hval with rfl | rfl
    · exact ⟨97, rfl, by decide, by decide⟩
    · exact ⟨98, rfl, by decide, by decide⟩
  have hsteady : Steady 2 2 sheet.data := by
    rintro ⟨c, r⟩ hcol hrow
    have hr : r = 0 := Nat.lt_one_iff.mp hrow
    have hc : c = 0 ∨ c = 1 := by
      dsimp only at hcol
      omega
    rcases hc with rfl | rfl <;> rw [hr] <;> rfl
  exact ⟨((settext_gettext_iff 1 sheet sheet' 2 (by decide) (by decide) (by decide) hsingle
      (Or.inr rfl) rfl (by decide)).mpr (steady_of_le_one (Nat.le_refl 1) 2 _)).1,
    ((settext_gettext_iff 2 sheet sheet' 2 (by decide) (by decide) (by decide) hsingle
      (Or.inr rfl) rfl (by decide)).mpr hsteady).1⟩

end HackerUnion.StackEditor
