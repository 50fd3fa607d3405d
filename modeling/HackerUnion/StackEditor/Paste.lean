import HackerUnion.Lists.SplitOn
import HackerUnion.StackEditor.Sheet

namespace HackerUnion.StackEditor

/-- What a line that begins in column `b` puts into column `c`. -/
def drawn (b : Nat) (letters : Text) (c : Nat) : Option Text :=
  if b ≤ c then letters[c - b]?.map fun u => [u] else none

/-- The column where the line after those of `lines` begins: a backspace is typed for every
character, also for one after which the cursor stayed. -/
def base (cols b : Nat) (lines : List Text) : Nat :=
  lines.foldl (fun b letters => min (b + letters.length) (cols - 1) - letters.length) b

def written (cols : Nat) (start : Loc) (lines : List Text) (q : Loc) : Option Text :=
  if start.row ≤ q.row then
    lines[q.row - start.row]?.bind fun letters =>
      drawn (base cols start.col (lines.take (q.row - start.row))) letters q.col
  else none

theorem drawn_nil (b c : Nat) : drawn b [] c = none := by
  unfold drawn
  exact ite_self none

theorem drawn_add (b : Nat) (letters : Text) (j : Nat) :
    drawn b letters (b + j) = letters[j]?.map fun u => [u] := by
  unfold drawn
  rw [if_pos (Nat.le_add_right b j), Nat.add_sub_cancel_left]

theorem drawn_self (b : Nat) (letters : Text) : drawn b letters b = letters[0]?.map fun u => [u] :=
  drawn_add b letters 0

theorem drawn_of_lt {b c : Nat} (letters : Text) (h : c < b) : drawn b letters c = none :=
  if_neg (Nat.not_le_of_lt h)

theorem drawn_cons (b : Nat) (u : UInt16) (letters : Text) (c : Nat) :
    drawn b (u :: letters) c = if c = b then some [u] else drawn (b + 1) letters c := by
  unfold drawn
  rcases Nat.lt_trichotomy c b with h | h | h
  · rw [if_neg (by omega), if_neg (by omega), if_neg (by omega)]
  · subst h
    rw [if_pos (Nat.le_refl c), if_pos rfl, Nat.sub_self]
    rfl
  · have hsub : c - b = (c - (b + 1)) + 1 := by omega
    rw [if_pos (by omega), if_neg (by omega), if_pos (Nat.succ_le_of_lt h), hsub,
      List.getElem?_cons_succ]

/-- What a line that begins in column `b` puts into column `c` when it may be too long: from the
last column on each letter goes over the one before. -/
def typed (cols b : Nat) (letters : Text) (c : Nat) : Option Text :=
  if c + 1 = cols then
    if cols ≤ b + letters.length then letters.getLast?.map fun u => [u] else none
  else if c < cols then drawn b letters c
  else none

theorem typed_nil (cols b c : Nat) : typed cols b [] c = none := by
  unfold typed
  rw [drawn_nil]
  split
  · split <;> rfl
  · exact ite_self none

/-- One letter is typed, and the others where the cursor is after it. -/
theorem typed_cons_or {cols b : Nat} (hb : b < cols) (u : UInt16) (letters : Text) (c : Nat)
    (old : Option Text) :
    (typed cols b (u :: letters) c).or old =
      (typed cols (min (b + 1) (cols - 1)) letters c).or (if c = b then some [u] else old) := by
  unfold typed
  rw [List.length_cons, drawn_cons]
  by_cases hlast : b + 1 < cols
  · have hnext : min (b + 1) (cols - 1) = b + 1 := by omega
    rw [hnext]
    by_cases hc : c + 1 = cols
    · have hcb : c ≠ b := by omega
      have hsum : b + (letters.length + 1) = b + 1 + letters.length := by omega
      rw [if_pos hc, if_pos hc, if_neg hcb, hsum]
      split
      · rename_i hle
        have hne : letters ≠ [] := by
          rintro rfl
          rw [List.length_nil] at hle
          omega
        obtain ⟨v, letters, rfl⟩ := List.exists_cons_of_ne_nil hne
        rw [List.getLast?_cons_cons]
      · rfl
    · rw [if_neg hc, if_neg hc]
      by_cases hcb : c = b
      · rw [if_pos hcb, if_pos hcb, if_pos (hcb ▸ hb), if_pos (hcb ▸ hb),
          drawn_of_lt _ (by omega)]
        rfl
      · rw [if_neg hcb, if_neg hcb]
  · have hstay : min (b + 1) (cols - 1) = b := by omega
    rw [hstay]
    by_cases hc : c + 1 = cols
    · have hcb : c = b := by omega
      rw [if_pos hc, if_pos hc, if_pos hcb, if_pos (by omega)]
      cases letters with
      | nil =>
        rw [List.length_nil, if_neg (by omega)]
        rfl
      | cons v letters =>
        rw [List.length_cons, if_pos (by omega), List.getLast?_cons_cons]
        cases hlast : (v :: letters).getLast? with
        | none => simp at hlast
        | some w => rfl
    · rw [if_neg hc, if_neg hc]
      by_cases hlt : c < cols
      · rw [if_pos hlt, if_pos hlt, if_neg (by omega), if_neg (by omega),
          drawn_of_lt _ (by omega), drawn_of_lt _ (by omega)]
      · rw [if_neg hlt, if_neg hlt, if_neg (by omega)]

/-- A line that fits in does not go over itself. -/
theorem typed_of_fit {cols b : Nat} {letters : Text} (hb : b < cols)
    (hfit : b + letters.length ≤ cols) (c : Nat) : typed cols b letters c = drawn b letters c := by
  unfold typed drawn
  by_cases hc : c + 1 = cols
  · have hbc : b ≤ c := by omega
    rw [if_pos hc, if_pos hbc]
    split
    · have hsub : c - b = letters.length - 1 := by omega
      rw [hsub, List.getLast?_eq_getElem?]
    · rw [List.getElem?_eq_none (by omega)]
      rfl
  · rw [if_neg hc]
    by_cases hlt : c < cols
    · rw [if_pos hlt]
    · rw [if_neg hlt, List.getElem?_eq_none (by omega)]
      exact (ite_self none).symm

theorem written_nil (cols : Nat) (start q : Loc) : written cols start [] q = none := by
  unfold written
  exact ite_self none

/-- A line comes first and those below it after. -/
theorem written_cons_or (cols : Nat) (start : Loc) (letters : Text) (lines : List Text) (q : Loc)
    (old : Option Text) :
    (written cols start (letters :: lines) q).or old =
      (written cols ⟨base cols start.col [letters], start.row + 1⟩ lines q).or
        ((if q.row = start.row then drawn start.col letters q.col else none).or old) := by
  unfold written
  dsimp only
  rcases Nat.lt_trichotomy q.row start.row with h | h | h
  · rw [if_neg (by omega), if_neg (by omega), if_neg (by omega)]
    rfl
  · rw [h, if_pos (Nat.le_refl _), if_neg (Nat.not_succ_le_self _), if_pos rfl, Nat.sub_self]
    rfl
  · have hsub : q.row - start.row = (q.row - (start.row + 1)) + 1 := by omega
    rw [if_pos (by omega), if_pos (Nat.succ_le_of_lt h), if_neg (by omega), hsub,
      List.getElem?_cons_succ]
    rfl

section Put

variable {data : List (List Text)} {cols : Nat} {p : Loc}

theorem iterate_backspace (hcols : ∀ row ∈ data, row.length = cols) (hcol : p.col < cols)
    (hrow : p.row < data.length) (m : Nat) :
    Nat.iterate (fun sheet => keydown sheet 8) m (cursorAt data p) =
      cursorAt data ⟨p.col - m, p.row⟩ := by
  induction m generalizing p with
  | zero => rfl
  | succ m ih =>
    have hleft : p.col - 1 - m = p.col - (m + 1) := by omega
    rw [Function.iterate_succ_apply, keydown_backspace hcols hcol hrow,
      ih (p := ⟨p.col - 1, p.row⟩) (Nat.lt_of_le_of_lt (Nat.sub_le _ _) hcol) hrow, hleft]

theorem putString_append (sets : Nat) (sheet : Sheet) (letters rest : Text)
    (hline : newline ∉ letters) (m : Nat) :
    putString sets sheet (letters ++ rest) m =
      putString sets (letters.foldl (fun sheet c => trigger sets (fun sheet => keypress sheet c)
        sheet) sheet) rest (m + letters.length) := by
  induction letters generalizing sheet m with
  | nil => rfl
  | cons c letters ih =>
    rw [List.mem_cons, not_or] at hline
    have hm : m + 1 + letters.length = m + (c :: letters).length := by
      rw [List.length_cons]
      omega
    rw [List.cons_append, putString, if_neg fun h => hline.1 h.symm, ih _ hline.2, hm]
    rfl

theorem foldl_keypress_typed (hcols : ∀ row ∈ data, row.length = cols) (hcol : p.col < cols)
    (hrow : p.row < data.length) (letters : Text) :
    ∃ data', letters.foldl keypress (cursorAt data p) =
        cursorAt data' ⟨min (p.col + letters.length) (cols - 1), p.row⟩ ∧
      data'.map List.length = data.map List.length ∧
      ∀ q, getloc data' q =
        (if q.row = p.row then typed cols p.col letters q.col else none).or (getloc data q) := by
  induction letters generalizing data p with
  | nil =>
    refine ⟨data, ?_, rfl, ?_⟩
    · have hstay : min (p.col + 0) (cols - 1) = p.col := by omega
      rw [List.foldl_nil, List.length_nil, hstay]
    · intro q
      rw [typed_nil, ite_self]
      rfl
  | cons c letters ih =>
    have hsome : (getloc data p).isSome = true := (getloc_isSome hcols).mpr ⟨hcol, hrow⟩
    have hshape : (setloc data p [c]).map List.length = data.map List.length :=
      map_length_setloc p [c]
    obtain ⟨hcols', hlength⟩ := rows_of_map_length hcols hshape
    obtain ⟨data', hrun, hshape', hget⟩ :=
      ih (p := ⟨min (p.col + 1) (cols - 1), p.row⟩) hcols' (by dsimp only; omega)
        (hlength.symm ▸ hrow)
    refine ⟨data', ?_, hshape'.trans hshape, ?_⟩
    · have hend : min (min (p.col + 1) (cols - 1) + letters.length) (cols - 1) =
          min (p.col + (c :: letters).length) (cols - 1) := by
        rw [List.length_cons]
        omega
      rw [List.foldl_cons, keypress_cursorAt hcols hcol hrow, hrun, hend]
    · intro q
      rw [hget q, getloc_setloc [c] q hsome]
      by_cases hq : q.row = p.row
      · have hqp : q = p ↔ q.col = p.col := by
          obtain ⟨col, row⟩ := q
          obtain ⟨col', row'⟩ := p
          simpa using fun _ => hq
        rw [if_pos hq, if_pos hq, typed_cons_or hcol]
        simp only [hqp]
      · have hqp : q ≠ p := fun heq => hq (congrArg Loc.row heq)
        rw [if_neg hq, if_neg hq, if_neg hqp]

theorem foldl_keypress (hcols : ∀ row ∈ data, row.length = cols) (hcol : p.col < cols)
    (hrow : p.row < data.length) (letters : Text) (hfit : p.col + letters.length ≤ cols) :
    ∃ data', letters.foldl keypress (cursorAt data p) =
        cursorAt data' ⟨min (p.col + letters.length) (cols - 1), p.row⟩ ∧
      data'.map List.length = data.map List.length ∧
      ∀ q, getloc data' q =
        (if q.row = p.row then drawn p.col letters q.col else none).or (getloc data q) := by
  obtain ⟨data', hrun, hshape, hget⟩ := foldl_keypress_typed hcols hcol hrow letters
  refine ⟨data', hrun, hshape, ?_⟩
  intro q
  rw [hget q, typed_of_fit hcol hfit]

/-- Every line that fits in is written where the base has got to by then. -/
theorem putString_lines (hcols : ∀ row ∈ data, row.length = cols) (hcol : p.col < cols)
    (lines : List Text) (hne : lines ≠ []) (hlines : ∀ letters ∈ lines, newline ∉ letters)
    (hfit : ∀ letters ∈ lines, p.col + letters.length ≤ cols)
    (hrows : p.row + lines.length ≤ data.length) :
    ∃ data' p', putString 1 (cursorAt data p) ([newline].intercalate lines) 0 = cursorAt data' p' ∧
      data'.map List.length = data.map List.length ∧
      ∀ q, getloc data' q = (written cols p lines q).or (getloc data q) := by
  induction lines generalizing data p with
  | nil => exact absurd rfl hne
  | cons letters lines ih =>
    have hline := hlines letters List.mem_cons_self
    have hfitline := hfit letters List.mem_cons_self
    rw [List.length_cons] at hrows
    obtain ⟨data₁, hrun, hshape, hget⟩ :=
      foldl_keypress hcols hcol (Nat.lt_of_lt_of_le (by omega) hrows) letters hfitline
    have hput (rest : Text) : putString 1 (cursorAt data p) (letters ++ rest) 0 =
        putString 1 (cursorAt data₁ ⟨min (p.col + letters.length) (cols - 1), p.row⟩) rest
          letters.length := by
      rw [putString_append _ _ _ _ hline, Nat.zero_add, ← hrun]
      rfl
    cases lines with
    | nil =>
      refine ⟨data₁, ⟨min (p.col + letters.length) (cols - 1), p.row⟩, ?_, hshape, ?_⟩
      · have hlast := hput []
        rw [List.append_nil] at hlast
        rw [List.intercalate_singleton]
        exact hlast
      · intro q
        rw [hget q, written_cons_or, written_nil]
        rfl
    | cons letters' lines =>
      obtain ⟨hcols₁, hlength⟩ := rows_of_map_length hcols hshape
      rw [List.length_cons] at hrows
      have hend : min (p.col + letters.length) (cols - 1) < cols := by omega
      have hrow₁ : p.row < data₁.length := by omega
      have hnext : p.row + 1 < data₁.length := by omega
      have hbase : base cols p.col [letters] ≤ p.col := by
        change min (p.col + letters.length) (cols - 1) - letters.length ≤ p.col
        omega
      have hbase' : base cols p.col [letters] < cols := Nat.lt_of_le_of_lt hbase hcol
      have hrest : p.row + 1 + (letters' :: lines).length ≤ data₁.length := by
        rw [List.length_cons]
        omega
      have hfit' (l : Text) (hl : l ∈ letters' :: lines) :
          base cols p.col [letters] + l.length ≤ cols :=
        Nat.le_trans (Nat.add_le_add_right hbase _) (hfit l (List.mem_cons_of_mem _ hl))
      obtain ⟨data', p', hrun', hshape', hget'⟩ :=
        ih (p := ⟨base cols p.col [letters], p.row + 1⟩) hcols₁ hbase' (List.cons_ne_nil _ _)
          (fun l hl => hlines l (List.mem_cons_of_mem _ hl)) hfit' hrest
      refine ⟨data', p', ?_, hshape'.trans hshape, ?_⟩
      · have hback : Nat.iterate (fun sheet => keydown sheet 8) letters.length
            (cursorAt data₁ ⟨min (p.col + letters.length) (cols - 1), p.row⟩) =
            cursorAt data₁ ⟨base cols p.col [letters], p.row⟩ :=
          iterate_backspace (p := ⟨min (p.col + letters.length) (cols - 1), p.row⟩) hcols₁ hend
            hrow₁ letters.length
        have henter :=
          keydown_enter (p := ⟨base cols p.col [letters], p.row⟩) hcols₁ hbase' hrow₁ hnext
        rw [List.intercalate_cons_cons, List.append_assoc, hput, List.singleton_append, putString,
          if_pos rfl, ← hrun', ← henter, ← hback]
        rfl
      · intro q
        rw [hget' q, hget q]
        exact (written_cons_or cols p letters (letters' :: lines) q _).symm

end Put

theorem mem_places {α : Type} {data : List (List α)} {cols : Nat} {p : Loc}
    (hcols : ∀ row ∈ data, row.length = cols) :
    p ∈ places data ↔ p.col < cols ∧ p.row < data.length := by
  rw [places_eq hcols, mem_cells]

section Settext

variable {sheet : Sheet} {cols : Nat} {start : Loc} (hcols : ∀ row ∈ sheet.data, row.length = cols)
  (hstart : (getActive sheet).head? = some start) (io : Text)
include hcols hstart

theorem start_mem : start.col < cols ∧ start.row < sheet.data.length := by
  have hmem : start ∈ getActive sheet := List.mem_of_mem_head? hstart
  refine (mem_places hcols).mp ?_
  unfold getActive at hmem
  split at hmem
  · exact List.mem_of_mem_filter hmem
  · split at hmem
    · exact List.mem_of_mem_filter hmem
    · exact absurd hmem List.not_mem_nil

theorem settext_written (hfit : ∀ letters ∈ io.splitOn newline, start.col + letters.length ≤ cols)
    (hrows : start.row + (io.splitOn newline).length ≤ sheet.data.length) :
    (settext 1 sheet io).data.map List.length = sheet.data.map List.length ∧
      ∀ q, getloc (settext 1 sheet io).data q =
        (written cols start (io.splitOn newline) q).or (getloc sheet.data q) := by
  obtain ⟨hcol, -⟩ := start_mem hcols hstart
  have hsettext : settext 1 sheet io = putString 1 (cursorAt sheet.data start) io 0 := by
    unfold settext
    cases hactive : getActive sheet with
    | nil =>
      rw [hactive] at hstart
      cases hstart
    | cons loc active =>
      rw [hactive] at hstart
      cases hstart
      rfl
  obtain ⟨data', p', hrun, hshape, hget⟩ := putString_lines hcols hcol (io.splitOn newline)
    (List.splitOn_ne_nil _ _) (fun letters hline => Lists.not_mem_of_mem_splitOn newline hline) hfit
    hrows
  rw [List.intercalate_splitOn] at hrun
  rw [hsettext, hrun]
  exact ⟨hshape, hget⟩

end Settext

/-- Character `j` of line `k` is the value of the cell `j` columns right of the first and `k` rows
below it, and no other value has changed. -/
structure Pasted (data : List (List Text)) (start : Loc) (lines : List Text)
    (data' : List (List Text)) : Prop where
  char : ∀ k letters j c, lines[k]? = some letters → letters[j]? = some c →
    getloc data' ⟨start.col + j, start.row + k⟩ = some [c]
  rest : ∀ q, (∀ k letters j c, lines[k]? = some letters → letters[j]? = some c →
    q ≠ ⟨start.col + j, start.row + k⟩) → getloc data' q = getloc data q

/-- Under a line that reaches the last column, when it does not begin in the first one, a line is
empty, or it is one letter over and over, which the cells beside it and at its end have already. -/
def Harmless (data : List (List Text)) (cols : Nat) (start : Loc) (lines : List Text) : Prop :=
  ∀ i k full letters, i < k → lines[i]? = some full → start.col + full.length = cols →
    lines[k]? = some letters → start.col = 0 ∨ letters = [] ∨
      ∃ u, letters = List.replicate letters.length u ∧
        getloc data ⟨start.col - 1, start.row + k⟩ = some [u] ∧
        getloc data ⟨start.col + letters.length - 1, start.row + k⟩ = some [u]

/-- Once a line has reached the last column the ones below begin one column further left. -/
theorem base_eq {cols s : Nat} {lines : List Text} (hs : s < cols)
    (hfit : ∀ letters ∈ lines, s + letters.length ≤ cols) :
    base cols s lines = if ∃ letters ∈ lines, s + letters.length = cols then s - 1 else s := by
  have hleft (lines : List Text) (hfit : ∀ letters ∈ lines, s + letters.length ≤ cols) :
      base cols (s - 1) lines = s - 1 := by
    induction lines with
    | nil => rfl
    | cons letters lines ih =>
      have hline := hfit letters List.mem_cons_self
      have hstep : min (s - 1 + letters.length) (cols - 1) - letters.length = s - 1 := by omega
      have hrest := ih fun l hl => hfit l (List.mem_cons_of_mem _ hl)
      unfold base at hrest ⊢
      rw [List.foldl_cons, hstep, hrest]
  induction lines with
  | nil => exact (if_neg fun h => absurd h.choose_spec.1 List.not_mem_nil).symm
  | cons letters lines ih =>
    have hline := hfit letters List.mem_cons_self
    have hlines (l : Text) (hl : l ∈ lines) : s + l.length ≤ cols :=
      hfit l (List.mem_cons_of_mem _ hl)
    by_cases hfull : s + letters.length = cols
    · have hstep : min (s + letters.length) (cols - 1) - letters.length = s - 1 := by omega
      have hrest := hleft lines hlines
      unfold base at hrest ⊢
      rw [if_pos ⟨letters, List.mem_cons_self, hfull⟩, List.foldl_cons, hstep, hrest]
    · have hstep : min (s + letters.length) (cols - 1) - letters.length = s := by omega
      have hrest := ih hlines
      have hiff : (∃ l ∈ letters :: lines, s + l.length = cols) ↔
          ∃ l ∈ lines, s + l.length = cols := by
        simp [hfull]
      unfold base at hrest ⊢
      rw [List.foldl_cons, hstep, hrest, if_congr hiff rfl rfl]

/-- When writing a line one column further left comes to the same. -/
theorem drawn_left_iff (b : Nat) (letters : Text) (old : Nat → Option Text) :
    (∀ c, (drawn b letters c).or (old c) = (drawn (b + 1) letters c).or (old c)) ↔
      letters = [] ∨ ∃ u, letters = List.replicate letters.length u ∧ old b = some [u] ∧
        old (b + letters.length) = some [u] := by
  have hnext (j : Nat) : b + 1 + j = b + (j + 1) := by omega
  constructor
  · intro h
    cases letters with
    | nil => exact Or.inl rfl
    | cons u letters =>
      have hbefore := h b
      rw [drawn_of_lt _ (Nat.lt_succ_self b), drawn_self] at hbefore
      have hsame (j : Nat) : (((u :: letters)[j + 1]?.map fun u => [u]).or (old (b + (j + 1)))) =
          ((u :: letters)[j]?.map fun u => [u]).or (old (b + (j + 1))) := by
        have hj := h (b + 1 + j)
        rwa [drawn_add, hnext, drawn_add] at hj
      have hall (j : Nat) (hj : j < (u :: letters).length) : (u :: letters)[j]? = some u := by
        induction j with
        | zero => rfl
        | succ j ih =>
          have hj' := hsame j
          rw [ih (Nat.lt_of_succ_lt hj), List.getElem?_eq_getElem hj] at hj'
          rw [List.getElem?_eq_getElem hj]
          exact congrArg some (List.singleton_inj.mp (Option.some.inj hj'))
      have hafter := hsame letters.length
      rw [hall letters.length (Nat.lt_succ_self _),
        List.getElem?_eq_none (l := u :: letters) (Nat.le_refl (letters.length + 1))] at hafter
      refine Or.inr ⟨u, List.eq_replicate_iff.mpr ⟨rfl, ?_⟩, hbefore.symm, hafter⟩
      intro v hv
      obtain ⟨j, hj⟩ := List.mem_iff_getElem?.mp hv
      rw [hall j (List.getElem?_eq_some_iff.mp hj).1] at hj
      exact (Option.some.inj hj).symm
  · intro h c
    rcases h with h | ⟨u, hline, hbefore, hafter⟩
    · rw [h, drawn_nil, drawn_nil]
    · rcases Nat.lt_trichotomy c b with hc | hc | hc
      · rw [drawn_of_lt _ hc, drawn_of_lt _ (Nat.lt_succ_of_lt hc)]
      · subst hc
        rw [drawn_of_lt _ (Nat.lt_succ_self c), drawn_self, hbefore, hline,
          List.getElem?_replicate]
        split
        · rfl
        · rfl
      · obtain ⟨j, rfl⟩ := Nat.exists_eq_add_of_lt hc
        have hj : b + j + 1 = b + 1 + j := by omega
        rw [hj, drawn_add, hnext, drawn_add, hline, List.getElem?_replicate,
          List.getElem?_replicate]
        rcases Nat.lt_trichotomy (j + 1) letters.length with hlt | heq | hgt
        · rw [if_pos hlt, if_pos (Nat.lt_of_succ_lt hlt)]
        · rw [if_neg (by omega), if_pos (by omega), heq, hafter]
          rfl
        · rw [if_neg (by omega), if_neg (by omega)]

theorem written_at (cols : Nat) (start : Loc) {lines : List Text} {k : Nat} {letters : Text}
    (hline : lines[k]? = some letters) (c : Nat) :
    written cols start lines ⟨c, start.row + k⟩ =
      drawn (base cols start.col (lines.take k)) letters c := by
  unfold written
  dsimp only
  rw [if_pos (Nat.le_add_right _ _), Nat.add_sub_cancel_left, hline]
  rfl

/-- Where a line puts a character. -/
theorem drawn_eq_some {b : Nat} {letters : Text} {c : Nat} {v : Text}
    (h : drawn b letters c = some v) :
    ∃ j u, letters[j]? = some u ∧ c = b + j ∧ v = [u] := by
  unfold drawn at h
  split at h
  · next hc =>
    obtain ⟨u, hu, hv⟩ := Option.map_eq_some_iff.mp h
    exact ⟨c - b, u, hu, (Nat.add_sub_cancel' hc).symm, hv.symm⟩
  · cases h

section Pasted

variable {data data' : List (List Text)} {cols : Nat} {start : Loc} {lines : List Text}
  (hget : ∀ q, getloc data' q = (written cols start lines q).or (getloc data q))
include hget

/-- What has been written is looked at line by line. -/
theorem pasted_iff_lines :
    Pasted data start lines data' ↔ ∀ k letters, lines[k]? = some letters → ∀ c,
      (drawn (base cols start.col (lines.take k)) letters c).or (getloc data ⟨c, start.row + k⟩) =
        (drawn start.col letters c).or (getloc data ⟨c, start.row + k⟩) := by
  constructor
  · intro h k letters hline c
    rw [← written_at cols start hline, ← hget]
    cases hdrawn : drawn start.col letters c with
    | some v =>
      obtain ⟨j, u, hu, rfl, rfl⟩ := drawn_eq_some hdrawn
      exact h.char k letters j u hline hu
    | none =>
      refine h.rest ⟨c, start.row + k⟩ ?_
      intro k' letters' j u hline' hu heq
      have hk : start.row + k = start.row + k' := congrArg Loc.row heq
      have hc : c = start.col + j := congrArg Loc.col heq
      obtain rfl := Nat.add_left_cancel hk
      obtain rfl := Option.some.inj (hline.symm.trans hline')
      rw [hc, drawn_add, hu] at hdrawn
      cases hdrawn
  · intro h
    refine ⟨?_, ?_⟩
    · intro k letters j c hline hc
      rw [hget, written_at cols start hline, h k letters hline, drawn_add, hc]
      rfl
    · intro q hq
      rw [hget]
      by_cases hrow : start.row ≤ q.row
      · obtain ⟨k, hk⟩ := Nat.exists_eq_add_of_le hrow
        obtain ⟨c, row⟩ := q
        dsimp only at hk
        subst hk
        cases hline : lines[k]? with
        | none =>
          have hnone : written cols start lines ⟨c, start.row + k⟩ = none := by
            unfold written
            dsimp only
            rw [if_pos hrow, Nat.add_sub_cancel_left, hline]
            rfl
          rw [hnone]
          rfl
        | some letters =>
          rw [written_at cols start hline, h k letters hline]
          cases hdrawn : drawn start.col letters c with
          | none => rfl
          | some v =>
            obtain ⟨j, u, hu, hc, -⟩ := drawn_eq_some hdrawn
            exact absurd (congrArg (Loc.mk · (start.row + k)) hc) (hq k letters j u hline hu)
      · rw [show written cols start lines q = none from if_neg hrow]
        rfl

theorem pasted_iff_harmless (hstart : start.col < cols)
    (hfit : ∀ letters ∈ lines, start.col + letters.length ≤ cols) :
    Pasted data start lines data' ↔ Harmless data cols start lines := by
  have hbase (k : Nat) : base cols start.col (lines.take k) =
      if ∃ letters ∈ lines.take k, start.col + letters.length = cols then start.col - 1
      else start.col :=
    base_eq hstart fun letters hline => hfit letters (List.mem_of_mem_take hline)
  rw [pasted_iff_lines hget]
  constructor
  · intro h i k full letters hik hi hfull hline
    rcases Nat.eq_zero_or_eq_succ_pred start.col with hzero | hsucc
    · exact Or.inl hzero
    · have hmem : full ∈ lines.take k := by
        refine List.mem_iff_getElem?.mpr ⟨i, ?_⟩
        rw [List.getElem?_take, if_pos hik, hi]
      have hrow := h k letters hline
      rw [hbase k, if_pos ⟨full, hmem, hfull⟩, hsucc, Nat.succ_sub_one] at hrow
      rw [hsucc, Nat.succ_sub_one, Nat.succ_add, Nat.succ_sub_one]
      exact Or.inr ((drawn_left_iff _ letters fun c => getloc data ⟨c, start.row + k⟩).mp hrow)
  · intro h k letters hline c
    rw [hbase k]
    split
    · next hex =>
      obtain ⟨full, hmem, hfull⟩ := hex
      obtain ⟨i, hi⟩ := List.mem_iff_getElem?.mp hmem
      have hik : i < k := Nat.lt_of_lt_of_le (List.getElem?_eq_some_iff.mp hi).1
        (List.length_take_le k lines)
      rw [List.getElem?_take, if_pos hik] at hi
      rcases h i k full letters hik hi hfull hline with hzero | hrow
      · rw [hzero]
      · rcases Nat.eq_zero_or_eq_succ_pred start.col with hzero | hsucc
        · rw [hzero]
        · rw [hsucc, Nat.succ_sub_one, Nat.succ_add, Nat.succ_sub_one] at hrow
          rw [hsucc, Nat.succ_sub_one]
          exact (drawn_left_iff _ letters fun c => getloc data ⟨c, start.row + k⟩).mpr hrow c
    · rfl

end Pasted

/-- With one set of handlers a block of text that fits in ends up where it belongs exactly when no
line that fills its row, away from the first column, has another under it that shows that the cursor
then is one column too far left. -/
theorem settext_pastes_iff (sheet : Sheet) (cols : Nat)
    (hcols : ∀ row ∈ sheet.data, row.length = cols) (start : Loc)
    (hstart : (getActive sheet).head? = some start) (io : Text)
    (hfit : ∀ letters ∈ io.splitOn newline, letters.length ≤ cols - start.col)
    (hrows : (io.splitOn newline).length ≤ sheet.data.length - start.row) :
    Pasted sheet.data start (io.splitOn newline) (settext 1 sheet io).data ↔
      Harmless sheet.data cols start (io.splitOn newline) := by
  obtain ⟨hcol, hrow⟩ := start_mem hcols hstart
  have hfit' (letters : Text) (hline : letters ∈ io.splitOn newline) :
      start.col + letters.length ≤ cols := by
    have hle := hfit letters hline
    omega
  obtain ⟨-, hget⟩ := settext_written hcols hstart io hfit' (by omega)
  exact pasted_iff_harmless hget hcol hfit'

/-- Two rows of dots with the cursor in the second column of the first. -/
def dots (cols : Nat) : Sheet := cursorAt (List.replicate 2 (List.replicate cols [46])) ⟨1, 0⟩

/-- Two lines of one letter each fit into the last column. -/
theorem settext_not_pastes :
    (∀ row ∈ (dots 2).data, row.length = 2) ∧ (getActive (dots 2)).head? = some ⟨1, 0⟩ ∧
      (∀ letters ∈ [97, newline, 98].splitOn newline, letters.length ≤ 2 - 1) ∧
      ([97, newline, 98].splitOn newline).length ≤ (dots 2).data.length - 0 ∧
      ¬Pasted (dots 2).data ⟨1, 0⟩ ([97, newline, 98].splitOn newline)
        (settext 1 (dots 2) [97, newline, 98]).data := by
  refine ⟨by decide, by decide, by decide, by decide, ?_⟩
  intro h
  exact absurd (h.char 1 [98] 0 98 (by decide) rfl) (by decide)

theorem settext_pastes_iff_middle :
    Pasted (dots 3).data ⟨1, 0⟩ ([97, newline, 98].splitOn newline)
        (settext 1 (dots 3) [97, newline, 98]).data ↔
      Harmless (dots 3).data 3 ⟨1, 0⟩ ([97, newline, 98].splitOn newline) :=
  settext_pastes_iff (dots 3) 3 (by decide) ⟨1, 0⟩ (by decide) [97, newline, 98] (by decide)
    (by decide)

end HackerUnion.StackEditor
