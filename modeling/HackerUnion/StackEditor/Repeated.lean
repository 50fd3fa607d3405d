import HackerUnion.StackEditor.Paste

namespace HackerUnion.StackEditor

section Trigger

variable {data : List (List Text)} {cols : Nat} {p : Loc}

theorem trigger_keypress (sets : Nat) (c : UInt16) (sheet : Sheet) :
    trigger sets (fun sheet => keypress sheet c) sheet =
      (List.replicate sets c).foldl keypress sheet := by
  unfold trigger
  induction sets generalizing sheet with
  | zero => rfl
  | succ sets ih => exact ih (keypress sheet c)

/-- With several sets of handlers a letter is typed as often. -/
theorem foldl_trigger (sets : Nat) (letters : Text) (sheet : Sheet) :
    letters.foldl (fun sheet c => trigger sets (fun sheet => keypress sheet c) sheet) sheet =
      (letters.flatMap (List.replicate sets)).foldl keypress sheet := by
  induction letters generalizing sheet with
  | nil => rfl
  | cons c letters ih =>
    rw [List.foldl_cons, ih, trigger_keypress, List.flatMap_cons, List.foldl_append]

theorem trigger_backspace (hcols : ∀ row ∈ data, row.length = cols) (hcol : p.col < cols)
    (hrow : p.row < data.length) (sets m : Nat) :
    (trigger sets fun sheet => keydown sheet 8)^[m] (cursorAt data p) =
      cursorAt data ⟨p.col - sets * m, p.row⟩ := by
  rw [← iterate_backspace hcols hcol hrow, Function.iterate_mul]
  rfl

theorem keydown_enter_last (hlast : p.row + 1 = data.length)
    (hcols : ∀ row ∈ data, row.length = cols) (hcol : p.col < cols) :
    keydown (cursorAt data p) 13 = cursorAt data p := by
  have hcell : getCell data p 0 1 = none := by
    have hdown : (p.row + 1 : Int).toNat = data.length := by omega
    unfold getCell
    dsimp only
    rw [hdown]
    refine if_neg fun h => ?_
    exact absurd ((getloc_isSome hcols).mp h.2.2).2 (Nat.lt_irrefl _)
  unfold keydown
  rw [getActive_cursorAt hcols hcol (by omega)]
  change dblclick (cursorAt data p) (getCell data p 0 1) = _
  rw [hcell]
  rfl

/-- The cursor goes down a row for each handler, but not below the last row. -/
theorem trigger_enter (hcols : ∀ row ∈ data, row.length = cols) (hcol : p.col < cols)
    (hrow : p.row < data.length) (sets : Nat) :
    trigger sets (fun sheet => keydown sheet 13) (cursorAt data p) =
      cursorAt data ⟨p.col, min (p.row + sets) (data.length - 1)⟩ := by
  unfold trigger
  induction sets with
  | zero =>
    have hstay : min (p.row + 0) (data.length - 1) = p.row := by omega
    rw [hstay]
    rfl
  | succ sets ih =>
    rw [Function.iterate_succ_apply', ih]
    by_cases hnext : min (p.row + sets) (data.length - 1) + 1 < data.length
    · have hdown : min (p.row + sets) (data.length - 1) + 1 =
          min (p.row + (sets + 1)) (data.length - 1) := by omega
      rw [← hdown]
      exact keydown_enter (p := ⟨p.col, min (p.row + sets) (data.length - 1)⟩) hcols hcol
        (Nat.lt_of_succ_lt hnext) hnext
    · have hstay : min (p.row + sets) (data.length - 1) =
          min (p.row + (sets + 1)) (data.length - 1) := by omega
      have hlast : min (p.row + sets) (data.length - 1) + 1 = data.length := by omega
      rw [← hstay]
      exact keydown_enter_last (p := ⟨p.col, min (p.row + sets) (data.length - 1)⟩) hlast hcols
        hcol

/-- Where no handler is bound nothing happens. -/
theorem putString_zero (sheet : Sheet) (io : Text) (m : Nat) : putString 0 sheet io m = sheet := by
  have hnone (m : Nat) : (trigger 0 fun sheet => keydown sheet 8)^[m] sheet = sheet :=
    Function.iterate_fixed rfl m
  induction io generalizing m with
  | nil => rfl
  | cons c io ih =>
    rw [putString]
    split
    · dsimp only
      rw [hnone]
      exact ih 0
    · exact ih (m + 1)

end Trigger

section Landed

/-- What lines typed from the first column of row `r` on put into a cell. -/
def landed (sets cols rows : Nat) : Nat → List Text → Loc → Option Text
  | _, [], _ => none
  | r, letters :: lines, q =>
    (landed sets cols rows (min (r + sets) (rows - 1)) lines q).or
      (if q.row = r then typed cols 0 (letters.flatMap (List.replicate sets)) q.col else none)

theorem length_flatMap_replicate (sets : Nat) (letters : Text) :
    (letters.flatMap (List.replicate sets)).length = sets * letters.length := by
  induction letters with
  | nil => rfl
  | cons c letters ih =>
    rw [List.flatMap_cons, List.length_append, ih, List.length_replicate, List.length_cons,
      Nat.mul_succ, Nat.add_comm]

theorem getElem?_flatMap_replicate {sets : Nat} (hsets : 0 < sets) (letters : Text) (i : Nat) :
    (letters.flatMap (List.replicate sets))[i]? = letters[i / sets]? := by
  induction letters generalizing i with
  | nil => rfl
  | cons c letters ih =>
    rw [List.flatMap_cons]
    by_cases hi : i < sets
    · rw [List.getElem?_append_left (by rwa [List.length_replicate]), Nat.div_eq_of_lt hi,
        List.getElem?_replicate, if_pos hi]
      rfl
    · have hle : sets ≤ i := Nat.le_of_not_lt hi
      have hdiv : i / sets = (i - sets) / sets + 1 := Nat.div_eq_sub_div hsets hle
      rw [List.getElem?_append_right (by rwa [List.length_replicate]), List.length_replicate, ih,
        hdiv, List.getElem?_cons_succ]

variable {sets cols : Nat} (hsets : 0 < sets)
include hsets

/-- A line of the full width, with every letter repeated. -/
theorem typed_repeated {letters : Text} (hfull : letters.length = cols) {c : Nat} (hc : c < cols) :
    typed cols 0 (letters.flatMap (List.replicate sets)) c =
      letters[if c + 1 = cols then c else c / sets]?.map fun u => [u] := by
  have hlength := length_flatMap_replicate sets letters
  have hle : cols ≤ sets * letters.length := by
    rw [hfull]
    exact Nat.le_mul_of_pos_left cols hsets
  unfold typed
  by_cases hlast : c + 1 = cols
  · have hmul : sets * letters.length = c * sets + sets := by
      rw [hfull, ← hlast, Nat.mul_succ, Nat.mul_comm]
    have hend : (sets * letters.length - 1) / sets = c := by
      rw [hmul]
      exact Nat.div_eq_of_lt_le (by omega) (by rw [Nat.add_one_mul]; omega)
    rw [if_pos hlast, if_pos hlast, Nat.zero_add, hlength, if_pos hle, List.getLast?_eq_getElem?,
      getElem?_flatMap_replicate hsets, hlength, hend]
  · have hdrawn := drawn_add 0 (letters.flatMap (List.replicate sets)) c
    rw [Nat.zero_add] at hdrawn
    rw [if_neg hlast, if_neg hlast, if_pos hc, hdrawn, getElem?_flatMap_replicate hsets]

/-- Lines of the full width, typed from the first cell of a row. -/
theorem putString_landed {data : List (List Text)} (hcols : ∀ row ∈ data, row.length = cols)
    (hpos : 0 < cols) {r : Nat} (hrow : r < data.length) (lines : List Text) (hne : lines ≠ [])
    (hlines : ∀ letters ∈ lines, newline ∉ letters)
    (hfull : ∀ letters ∈ lines, letters.length = cols) :
    ∃ data' p', putString sets (cursorAt data ⟨0, r⟩) ([newline].intercalate lines) 0 =
        cursorAt data' p' ∧
      data'.map List.length = data.map List.length ∧
      ∀ q, getloc data' q = (landed sets cols data.length r lines q).or (getloc data q) := by
  induction lines generalizing data r with
  | nil => exact absurd rfl hne
  | cons letters lines ih =>
    have hline := hlines letters List.mem_cons_self
    have hlength := length_flatMap_replicate sets letters
    rw [hfull letters List.mem_cons_self] at hlength
    have hle : cols ≤ sets * cols := Nat.le_mul_of_pos_left cols hsets
    obtain ⟨data₁, hrun, hshape, hget⟩ := foldl_keypress_typed (p := ⟨0, r⟩) hcols hpos hrow
      (letters.flatMap (List.replicate sets))
    have hend : min (0 + (letters.flatMap (List.replicate sets)).length) (cols - 1) =
        cols - 1 := by
      rw [hlength]
      omega
    have hput (rest : Text) : putString sets (cursorAt data ⟨0, r⟩) (letters ++ rest) 0 =
        putString sets (cursorAt data₁ ⟨cols - 1, r⟩) rest cols := by
      rw [putString_append _ _ _ _ hline, foldl_trigger, hrun, hend, Nat.zero_add,
        hfull letters List.mem_cons_self]
    cases lines with
    | nil =>
      refine ⟨data₁, ⟨cols - 1, r⟩, ?_, hshape, hget⟩
      have hlast := hput []
      rw [List.append_nil] at hlast
      rw [List.intercalate_singleton]
      exact hlast
    | cons letters' lines =>
      obtain ⟨hcols₁, hcount⟩ := rows_of_map_length hcols hshape
      have hrow₁ : r < data₁.length := hcount.symm ▸ hrow
      obtain ⟨data', p', hrun', hshape', hget'⟩ :=
        ih (r := min (r + sets) (data₁.length - 1)) hcols₁ (by omega) (List.cons_ne_nil _ _)
          (fun l hl => hlines l (List.mem_cons_of_mem _ hl))
          (fun l hl => hfull l (List.mem_cons_of_mem _ hl))
      refine ⟨data', p', ?_, hshape'.trans hshape, ?_⟩
      · -- the backspaces go back to the first column, and perhaps on beyond it
        have hback := trigger_backspace (p := ⟨cols - 1, r⟩) hcols₁ (by dsimp only; omega) hrow₁
          sets cols
        have hzero : cols - 1 - sets * cols = 0 := by omega
        have henter := trigger_enter (p := ⟨0, r⟩) hcols₁ hpos hrow₁ sets
        rw [List.intercalate_cons_cons, List.append_assoc, hput, List.singleton_append, putString,
          if_pos rfl]
        dsimp only at hback ⊢
        rw [hback, hzero, henter]
        exact hrun'
      · intro q
        rw [hget' q, hget q, hcount, ← Option.or_assoc]
        rfl

end Landed

/-- The cell whose letter a cell gets in the end when the lines of a card are typed into it: with
several sets of handlers a letter goes into as many cells, as far as the last column, and a line
break goes down as many rows, as far as the last one. In a row that is passed over every cell keeps
its own. -/
def source (sets cols rows : Nat) (q : Loc) : Loc :=
  if sets = 0 ∨ q.row + 1 ≠ rows ∧ ¬sets ∣ q.row then q
  else
    ⟨if q.col + 1 = cols then q.col else q.col / sets,
      if q.row + 1 = rows then q.row else q.row / sets⟩

/-- With one set of handlers, or none, every letter goes into its own cell. -/
theorem source_of_le_one {sets : Nat} (hsets : sets ≤ 1) (cols rows : Nat) (q : Loc) :
    source sets cols rows q = q := by
  unfold source
  rcases Nat.le_one_iff_eq_zero_or_eq_one.mp hsets with rfl | rfl
  · exact if_pos (Or.inl rfl)
  · rw [if_neg (by simp), Nat.div_one, Nat.div_one, ite_self, ite_self]

theorem source_mem (sets : Nat) {cols rows : Nat} {q : Loc} (hcol : q.col < cols)
    (hrow : q.row < rows) :
    (source sets cols rows q).col < cols ∧ (source sets cols rows q).row < rows := by
  have hcol' : q.col / sets ≤ q.col := Nat.div_le_self _ _
  have hrow' : q.row / sets ≤ q.row := Nat.div_le_self _ _
  unfold source
  split
  · exact ⟨hcol, hrow⟩
  · dsimp only
    constructor <;> split <;> omega

theorem exists_letter {cols : Nat} {lines : List Text}
    (hfull : ∀ letters ∈ lines, letters.length = cols) {c r : Nat} (hcol : c < cols)
    (hrow : r < lines.length) :
    ∃ v, (lines[r]?.bind fun letters => letters[c]?.map fun u => [u]) = some v := by
  rw [← hfull _ (List.getElem_mem hrow)] at hcol
  rw [List.getElem?_eq_getElem hrow, Option.bind_some, List.getElem?_eq_getElem hcol]
  exact ⟨_, rfl⟩

section Source

variable {sets cols : Nat} {lines : List Text} (hsets : 0 < sets)
  (hfull : ∀ letters ∈ lines, letters.length = cols)
include hsets hfull

/-- Which line the last letter of a cell is from, of those from line `k` on. -/
theorem landed_drop {q : Loc} (hcol : q.col < cols) (hrow : q.row < lines.length) {k : Nat}
    (hk : k ≤ lines.length) :
    landed sets cols lines.length (min (sets * k) (lines.length - 1)) (lines.drop k) q =
      if q.row + 1 = lines.length ∧ k < lines.length ∨
          q.row + 1 ≠ lines.length ∧ sets ∣ q.row ∧ k ≤ q.row / sets then
        lines[if q.row + 1 = lines.length then q.row else q.row / sets]?.bind fun letters =>
          letters[if q.col + 1 = cols then q.col else q.col / sets]?.map fun u => [u]
      else none := by
  have hdiv : q.row / sets ≤ q.row := Nat.div_le_self _ _
  have hlastcol : (if q.col + 1 = cols then q.col else q.col / sets) < cols := by
    have hle : q.col / sets ≤ q.col := Nat.div_le_self _ _
    split <;> omega
  have hline (j : Nat) (hj : j < lines.length) :
      ∃ v, typed cols 0 (lines[j].flatMap (List.replicate sets)) q.col = some v ∧
        (lines[j]?.bind fun letters =>
          letters[if q.col + 1 = cols then q.col else q.col / sets]?.map fun u => [u]) =
          some v := by
    have hlength := hfull lines[j] (List.getElem_mem hj)
    obtain ⟨v, hv⟩ := exists_letter hfull hlastcol hj
    refine ⟨v, ?_, hv⟩
    rw [← hv, typed_repeated hsets hlength hcol, List.getElem?_eq_getElem hj, Option.bind_some]
  have hrows (k : Nat) : sets * k = q.row ↔ sets ∣ q.row ∧ q.row / sets = k := by
    constructor
    · intro h
      rw [← h]
      exact ⟨Nat.dvd_mul_right sets k, Nat.mul_div_cancel_left k hsets⟩
    · rintro ⟨hdvd, rfl⟩
      exact Nat.mul_div_cancel' hdvd
  generalize hfrom : (if q.row + 1 = lines.length then q.row else q.row / sets) = row
  have hrowlt : row < lines.length := by
    rw [← hfrom]
    split <;> omega
  induction hn : lines.length - k generalizing k with
  | zero =>
    have hend : k = lines.length := by omega
    rw [List.drop_eq_nil_of_le (Nat.le_of_eq hend.symm), if_neg (by omega)]
    rfl
  | succ n ih =>
    have hlt : k < lines.length := by omega
    have hnext : min (min (sets * k) (lines.length - 1) + sets) (lines.length - 1) =
        min (sets * (k + 1)) (lines.length - 1) := by
      rw [Nat.mul_succ]
      omega
    rw [List.drop_eq_getElem_cons hlt, landed, hnext, ih (by omega) (by omega)]
    by_cases hlater : q.row + 1 = lines.length ∧ k + 1 < lines.length ∨
        q.row + 1 ≠ lines.length ∧ sets ∣ q.row ∧ k + 1 ≤ q.row / sets
    · -- a later line goes over this one
      have hfromk : q.row + 1 = lines.length ∧ k < lines.length ∨
          q.row + 1 ≠ lines.length ∧ sets ∣ q.row ∧ k ≤ q.row / sets := by omega
      obtain ⟨v, -, hv⟩ := hline row hrowlt
      rw [if_pos hlater, if_pos hfromk, hv]
      rfl
    · obtain ⟨v, htyped, hv⟩ := hline k hlt
      rw [if_neg hlater, Option.none_or]
      by_cases hhere : q.row = min (sets * k) (lines.length - 1)
      · have hk : row = k ∧ (q.row + 1 = lines.length ∧ k < lines.length ∨
            q.row + 1 ≠ lines.length ∧ sets ∣ q.row ∧ k ≤ q.row / sets) := by
          by_cases hlast : q.row + 1 = lines.length
          · rw [if_pos hlast] at hfrom
            omega
          · have hboth := (hrows k).mp (by omega)
            rw [if_neg hlast] at hfrom
            omega
        rw [if_pos hhere, if_pos hk.2, hk.1, htyped, hv]
      · rw [if_neg hhere, if_neg ?_]
        have hmul : k * sets ≥ k := Nat.le_mul_of_pos_right k hsets
        by_cases hlast : q.row + 1 = lines.length
        · rw [Nat.mul_comm] at hmul
          omega
        · intro h
          have hrow := (hrows k).mpr (by omega)
          omega

/-- What the lines put over a card that consists of them. -/
theorem landed_source {q : Loc} (hcol : q.col < cols) (hrow : q.row < lines.length) :
    (landed sets cols lines.length 0 lines q).or
        (lines[q.row]?.bind fun letters => letters[q.col]?.map fun u => [u]) =
      lines[(source sets cols lines.length q).row]?.bind fun letters =>
        letters[(source sets cols lines.length q).col]?.map fun u => [u] := by
  have hall := landed_drop hsets hfull hcol hrow (Nat.zero_le lines.length)
  rw [Nat.mul_zero, Nat.zero_min, List.drop_zero] at hall
  obtain ⟨hcol', hrow'⟩ := source_mem sets hcol hrow
  rw [hall]
  by_cases hover : sets = 0 ∨ q.row + 1 ≠ lines.length ∧ ¬sets ∣ q.row
  · have hown : source sets cols lines.length q = q := if_pos hover
    rw [hown, if_neg (by omega), Option.none_or]
  · have hfrom : source sets cols lines.length q =
        ⟨if q.col + 1 = cols then q.col else q.col / sets,
          if q.row + 1 = lines.length then q.row else q.row / sets⟩ := if_neg hover
    have hlast : q.row + 1 = lines.length ∧ 0 < lines.length ∨
        q.row + 1 ≠ lines.length ∧ sets ∣ q.row ∧ 0 ≤ q.row / sets := by
      by_cases hend : q.row + 1 = lines.length
      · exact Or.inl ⟨hend, by omega⟩
      · refine Or.inr ⟨hend, ?_, Nat.zero_le _⟩
        by_contra hno
        exact hover (Or.inr ⟨hend, hno⟩)
    obtain ⟨v, hv⟩ := exists_letter hfull hcol' hrow'
    rw [if_pos hlast, hv]
    rw [hfrom] at hv
    rw [hv]
    rfl

end Source

end HackerUnion.StackEditor
