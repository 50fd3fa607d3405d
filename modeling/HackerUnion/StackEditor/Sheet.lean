import HackerUnion.StackEditor.Grid
import Mathlib.Data.List.Count
import Mathlib.Logic.Function.Iterate

namespace HackerUnion.StackEditor

/-- The code units of a string. -/
abbrev Text := List UInt16

def newline : UInt16 := 10

def space : UInt16 := 32

/-- The values of the card on display, and the two classes the editor goes by: whether `$s` has
them, and which of the cells do. -/
structure Sheet where
  data : List (List Text)
  selected : Bool
  cursor : Bool
  selectedCells : Loc → Bool
  cursorCells : Loc → Bool

variable {α : Type}

/-- The cells of a grid in the order of the page. -/
def places (data : List (List α)) : List Loc :=
  (List.range data.length).flatMap fun r =>
    (List.range (data[r]?.getD []).length).map fun c => ⟨c, r⟩

def getActive (sheet : Sheet) : List Loc :=
  if sheet.selected then (places sheet.data).filter sheet.selectedCells
  else if sheet.cursor then (places sheet.data).filter sheet.cursorCells
  else []

/-- None when there is no such row, or no such cell in it. -/
def getCell (data : List (List α)) (loc : Loc) (x y : Int) : Option Loc :=
  let col := loc.col + x
  let row := loc.row + y
  let cell : Loc := ⟨col.toNat, row.toNat⟩
  if 0 ≤ col ∧ 0 ≤ row ∧ (getloc data cell).isSome then some cell else none

def clear (sheet : Sheet) : Sheet :=
  { sheet with
    selected := false
    cursor := false
    selectedCells := fun _ => false
    cursorCells := fun _ => false }

/-- Without a cell there is no handler to call. -/
def dblclick (sheet : Sheet) (cell : Option Loc) : Sheet :=
  match cell with
  | some loc => { clear sheet with cursor := true, cursorCells := fun q => decide (q = loc) }
  | none => sheet

def keydown (sheet : Sheet) (which : Nat) : Sheet :=
  match getActive sheet with
  | [loc] =>
    match which with
    | 8 | 37 => dblclick sheet (getCell sheet.data loc (-1) 0)
    | 38 => dblclick sheet (getCell sheet.data loc 0 (-1))
    | 39 => dblclick sheet (getCell sheet.data loc 1 0)
    | 13 | 40 => dblclick sheet (getCell sheet.data loc 0 1)
    | _ => sheet
  | _ => sheet

def keypress (sheet : Sheet) (letter : UInt16) : Sheet :=
  let active := getActive sheet
  let sheet :=
    { sheet with data := active.foldl (fun data loc => setloc data loc [letter]) sheet.data }
  match active with
  | [loc] => dblclick sheet (getCell sheet.data loc 1 0)
  | _ => sheet

/-- An event goes to each of the handlers that are bound, one after the other. -/
def trigger (sets : Nat) (handler : Sheet → Sheet) (sheet : Sheet) : Sheet := handler^[sets] sheet

/-- `sets` is how often the handlers of the two events are bound, and `m` counts what has been typed
since the last line break. To set `data[i]` to a space changes nothing: it is a character of a
string. -/
def putString (sets : Nat) (sheet : Sheet) : Text → Nat → Sheet
  | [], _ => sheet
  | c :: data, m =>
    if c = newline then
      let sheet := (trigger sets fun sheet => keydown sheet 8)^[m] sheet
      putString sets (trigger sets (fun sheet => keydown sheet 13) sheet) data 0
    else putString sets (trigger sets (fun sheet => keypress sheet c) sheet) data (m + 1)

/-- The handler of `#settext`; `io` is what the text box holds. -/
def settext (sets : Nat) (sheet : Sheet) (io : Text) : Sheet :=
  match getActive sheet with
  | [] => sheet
  | loc :: _ => putString sets (dblclick sheet (some loc)) io 0

section CursorAt

/-- One cell is active, by the cursor. -/
def cursorAt (data : List (List Text)) (p : Loc) : Sheet where
  data := data
  selected := false
  cursor := true
  selectedCells _ := false
  cursorCells q := decide (q = p)

theorem places_eq {data : List (List α)} {cols : Nat} (hcols : ∀ row ∈ data, row.length = cols) :
    places data = cells cols data.length := by
  unfold places cells
  refine List.flatMap_congr ?_
  intro r hr
  have hr' : r < data.length := List.mem_range.mp hr
  rw [List.getElem?_eq_getElem hr', Option.getD_some, hcols _ (List.getElem_mem hr')]

variable {data : List (List Text)} {cols : Nat} {p : Loc}
  (hcols : ∀ row ∈ data, row.length = cols) (hcol : p.col < cols) (hrow : p.row < data.length)
include hcols hcol hrow

theorem getActive_cursorAt : getActive (cursorAt data p) = [p] := by
  have hone : List.count p (cells cols data.length) = 1 :=
    List.count_eq_one_of_mem (nodup_cells _ _) (mem_cells.mpr ⟨hcol, hrow⟩)
  change (places data).filter (fun q => decide (q = p)) = [p]
  rw [places_eq hcols, List.filter_eq, hone]
  rfl

theorem keydown_backspace :
    keydown (cursorAt data p) 8 = cursorAt data ⟨p.col - 1, p.row⟩ := by
  unfold keydown
  rw [getActive_cursorAt hcols hcol hrow]
  change dblclick (cursorAt data p) (getCell data p (-1) 0) = _
  by_cases hp : p.col = 0
  · have hcell : getCell data p (-1) 0 = none := by
      refine if_neg ?_
      intro h
      have hnonneg := h.1
      omega
    rw [hcell, hp]
    cases p
    cases hp
    rfl
  · have hcell : getCell data p (-1) 0 = some ⟨p.col - 1, p.row⟩ := by
      have hleft : (p.col + -1 : Int).toNat = p.col - 1 := by omega
      have hstay : (p.row + 0 : Int).toNat = p.row := by omega
      unfold getCell
      dsimp only
      have hlt : p.col - 1 < cols := by omega
      rw [hleft, hstay, if_pos ⟨by omega, by omega, (getloc_isSome hcols).mpr ⟨hlt, hrow⟩⟩]
    rw [hcell]
    rfl

theorem keydown_enter (hnext : p.row + 1 < data.length) :
    keydown (cursorAt data p) 13 = cursorAt data ⟨p.col, p.row + 1⟩ := by
  have hcell : getCell data p 0 1 = some ⟨p.col, p.row + 1⟩ := by
    have hstay : (p.col + 0 : Int).toNat = p.col := by omega
    have hdown : (p.row + 1 : Int).toNat = p.row + 1 := by omega
    unfold getCell
    dsimp only
    rw [hstay, hdown, if_pos ⟨by omega, by omega, (getloc_isSome hcols).mpr ⟨hcol, hnext⟩⟩]
  unfold keydown
  rw [getActive_cursorAt hcols hcol hrow]
  change dblclick (cursorAt data p) (getCell data p 0 1) = _
  rw [hcell]
  rfl

/-- After the last cell of a row the cursor stays. -/
theorem keypress_cursorAt (c : UInt16) :
    keypress (cursorAt data p) c =
      cursorAt (setloc data p [c]) ⟨min (p.col + 1) (cols - 1), p.row⟩ := by
  obtain ⟨hcols', hlength⟩ := rows_of_map_length hcols (map_length_setloc p [c])
  have hright : (p.col + 1 : Int).toNat = p.col + 1 := by omega
  have hstay : (p.row + 0 : Int).toNat = p.row := by omega
  unfold keypress
  rw [getActive_cursorAt hcols hcol hrow]
  change dblclick (cursorAt (setloc data p [c]) p) (getCell (setloc data p [c]) p 1 0) = _
  unfold getCell
  dsimp only
  rw [hright, hstay]
  by_cases hp : p.col + 1 < cols
  · rw [if_pos ⟨by omega, by omega, (getloc_isSome hcols').mpr ⟨hp, hlength.symm ▸ hrow⟩⟩,
      Nat.min_eq_left (by omega)]
    rfl
  · rw [if_neg fun h => hp ((getloc_isSome hcols').mp h.2.2).1, Nat.min_eq_right (by omega)]
    have hlast : p = ⟨cols - 1, p.row⟩ := by
      cases p
      congr 1
      dsimp only at hp hcol
      omega
    exact congrArg (cursorAt _) hlast

end CursorAt

end HackerUnion.StackEditor
