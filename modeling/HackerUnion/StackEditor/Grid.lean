import Mathlib.Data.List.Basic
import Mathlib.Data.List.Nodup
import Mathlib.Data.List.Perm.Subperm

namespace HackerUnion.StackEditor

/-- A column and a row, as `getLocation` gives them. -/
structure Loc where
  col : Nat
  row : Nat
  deriving DecidableEq

variable {α : Type}

def getloc (data : List (List α)) (loc : Loc) : Option α :=
  data[loc.row]?.bind fun row => row[loc.col]?

def setloc (data : List (List α)) (loc : Loc) (val : α) : List (List α) :=
  data.modify loc.row fun row => row.set loc.col val

/-- Row after row, `w` places of each. -/
def cells (w h : Nat) : List Loc :=
  (List.range h).flatMap fun y => (List.range w).map fun x => ⟨x, y⟩

variable {data data' : List (List α)} {cols : Nat}

theorem mem_cells {w h : Nat} {p : Loc} : p ∈ cells w h ↔ p.col < w ∧ p.row < h := by
  simp only [cells, List.mem_flatMap, List.mem_map, List.mem_range]
  constructor
  · intro hp
    obtain ⟨y, hy, x, hx, rfl⟩ := hp
    exact ⟨hx, hy⟩
  · intro hp
    exact ⟨p.row, hp.2, p.col, hp.1, rfl⟩

theorem nodup_cells (w h : Nat) : (cells w h).Nodup := by
  refine List.nodup_flatMap.mpr ⟨?_, ?_⟩
  · intro y _
    refine List.nodup_range.map ?_
    intro x x' hx
    exact congrArg Loc.col hx
  · refine List.nodup_range.imp ?_
    intro y y' hy
    refine List.disjoint_left.mpr ?_
    intro p hp hp'
    obtain ⟨x, -, rfl⟩ := List.mem_map.mp hp
    obtain ⟨x', -, hx'⟩ := List.mem_map.mp hp'
    exact hy (congrArg Loc.row hx').symm

theorem head?_cells {w h : Nat} (hw : 0 < w) (hh : 0 < h) : (cells w h).head? = some ⟨0, 0⟩ := by
  obtain ⟨w, rfl⟩ := Nat.exists_eq_add_of_lt hw
  obtain ⟨h, rfl⟩ := Nat.exists_eq_add_of_lt hh
  rw [cells, Nat.zero_add, Nat.zero_add, List.range_succ_eq_map, List.range_succ_eq_map]
  rfl

theorem getLast?_cells {w h : Nat} (hw : 0 < w) (hh : 0 < h) :
    (cells w h).getLast? = some ⟨w - 1, h - 1⟩ := by
  obtain ⟨w, rfl⟩ := Nat.exists_eq_add_of_lt hw
  obtain ⟨h, rfl⟩ := Nat.exists_eq_add_of_lt hh
  rw [cells, Nat.zero_add, Nat.zero_add, List.range_succ (n := h), List.flatMap_append,
    List.flatMap_singleton, List.range_succ, List.map_append, ← List.append_assoc,
    List.map_singleton, List.getLast?_concat]
  rfl

theorem getloc_isSome (hcols : ∀ row ∈ data, row.length = cols) {p : Loc} :
    (getloc data p).isSome = true ↔ p.col < cols ∧ p.row < data.length := by
  unfold getloc
  by_cases hrow : p.row < data.length
  · rw [List.getElem?_eq_getElem hrow, Option.bind_some, isSome_getElem?,
      hcols _ (List.getElem_mem hrow)]
    exact ⟨fun h => ⟨h, hrow⟩, fun h => h.1⟩
  · rw [List.getElem?_eq_none (Nat.le_of_not_lt hrow)]
    refine ⟨?_, fun h => absurd h.2 hrow⟩
    intro h
    cases h

theorem getElem?_setloc (p : Loc) (v : α) (i : Nat) :
    (setloc data p v)[i]? =
      if p.row = i then data[i]?.map fun row => row.set p.col v else data[i]? := by
  unfold setloc
  rw [List.getElem?_modify]
  split
  · rfl
  · exact congrFun Option.map_id_fun' _

theorem getloc_setloc {p : Loc} (v : α) (q : Loc) (hp : (getloc data p).isSome = true) :
    getloc (setloc data p v) q = if q = p then some v else getloc data q := by
  obtain ⟨u, hu⟩ := Option.isSome_iff_exists.mp hp
  obtain ⟨row, hrow, hcol⟩ := Option.bind_eq_some_iff.mp hu
  have hlt : p.col < row.length := (List.getElem?_eq_some_iff.mp hcol).1
  unfold getloc
  rw [getElem?_setloc]
  by_cases hr : p.row = q.row
  · rw [if_pos hr, ← hr, hrow, Option.map_some, Option.bind_some, Option.bind_some]
    by_cases hc : p.col = q.col
    · have hqp : q = p := by
        cases q
        cases p
        exact congrArg₂ Loc.mk hc.symm hr.symm
      rw [if_pos hqp, ← hc]
      exact List.getElem?_set_self hlt
    · have hqp : q ≠ p := by
        intro h
        exact hc (congrArg Loc.col h).symm
      rw [if_neg hqp]
      exact List.getElem?_set_ne hc
  · have hqp : q ≠ p := by
      intro h
      exact hr (congrArg Loc.row h).symm
    rw [if_neg hr, if_neg hqp]

theorem map_length_setloc (p : Loc) (v : α) :
    (setloc data p v).map List.length = data.map List.length := by
  refine List.ext_getElem? ?_
  intro i
  rw [List.getElem?_map, List.getElem?_map, getElem?_setloc]
  split
  · rw [Option.map_map]
    congr 1
    funext row
    exact List.length_set
  · rfl

theorem rows_of_map_length (hcols : ∀ row ∈ data, row.length = cols)
    (hshape : data'.map List.length = data.map List.length) :
    (∀ row ∈ data', row.length = cols) ∧ data'.length = data.length := by
  refine ⟨?_, ?_⟩
  · intro row hrow
    have hlength : row.length ∈ data'.map List.length := List.mem_map_of_mem hrow
    rw [hshape] at hlength
    obtain ⟨row', hrow', heq⟩ := List.mem_map.mp hlength
    exact heq.symm.trans (hcols row' hrow')
  · have hlength := congrArg List.length hshape
    rwa [List.length_map, List.length_map] at hlength

/-- Two grids of one shape are the same when they are so at every place. -/
theorem ext_getloc (hshape : data'.map List.length = data.map List.length)
    (hget : ∀ q, getloc data' q = getloc data q) : data' = data := by
  refine List.ext_getElem? ?_
  intro i
  have hlength : data'[i]?.map List.length = data[i]?.map List.length := by
    rw [← List.getElem?_map, ← List.getElem?_map, hshape]
  cases hrow' : data'[i]? with
  | none =>
    rw [hrow'] at hlength
    exact (Option.map_eq_none_iff.mp hlength.symm).symm
  | some row' =>
    rw [hrow'] at hlength
    obtain ⟨row, hrow, -⟩ := Option.map_eq_some_iff.mp hlength.symm
    rw [hrow]
    refine congrArg some (List.ext_getElem? ?_)
    intro j
    have hj := hget ⟨j, i⟩
    simp only [getloc] at hj
    rw [hrow', hrow] at hj
    exact hj

theorem map_some_flatten (hcols : ∀ row ∈ data, row.length = cols) :
    data.flatten.map some = (cells cols data.length).map (getloc data) := by
  have hdata : data = (List.range data.length).map fun y => data[y]?.getD [] := by
    refine List.ext_getElem? ?_
    intro i
    rw [List.getElem?_map]
    by_cases hi : i < data.length
    · rw [List.getElem?_range hi, Option.map_some, List.getElem?_eq_getElem hi, Option.getD_some]
    · have hle : data.length ≤ i := Nat.le_of_not_lt hi
      have hle' : (List.range data.length).length ≤ i := by
        rw [List.length_range]
        exact hle
      rw [List.getElem?_eq_none hle, List.getElem?_eq_none hle']
      rfl
  conv_lhs => rw [hdata]
  rw [← List.flatMap_def, List.map_flatMap, cells, List.map_flatMap]
  refine List.flatMap_congr ?_
  intro y hy
  have hy' : y < data.length := List.mem_range.mp hy
  have hrow : data[y]? = some data[y] := List.getElem?_eq_getElem hy'
  rw [hrow, Option.getD_some, List.map_map]
  refine List.ext_getElem? ?_
  intro x
  rw [List.getElem?_map, List.getElem?_map]
  by_cases hx : x < cols
  · have hx' : x < data[y].length := by
      rw [hcols _ (List.getElem_mem hy')]
      exact hx
    rw [List.getElem?_range hx, List.getElem?_eq_getElem hx', Option.map_some, Option.map_some,
      Function.comp_apply, getloc, hrow, Option.bind_some, List.getElem?_eq_getElem hx']
  · have hle : (List.range cols).length ≤ x := by
      rw [List.length_range]
      exact Nat.le_of_not_lt hx
    have hle' : data[y].length ≤ x := by
      rw [hcols _ (List.getElem_mem hy')]
      exact Nat.le_of_not_lt hx
    rw [List.getElem?_eq_none hle, List.getElem?_eq_none hle']
    rfl

/-- What a permutation of the places does to a grid loses and doubles nothing. -/
theorem flatten_perm (hcols : ∀ row ∈ data, row.length = cols)
    (hshape : data'.map List.length = data.map List.length) {turn : Loc → Loc}
    (hget : ∀ q, getloc data' q = getloc data (turn q)) (hinj : Function.Injective turn)
    (hmem : ∀ q ∈ cells cols data.length, turn q ∈ cells cols data.length) :
    data'.flatten.Perm data.flatten := by
  obtain ⟨hcols', hlength⟩ := rows_of_map_length hcols hshape
  have hturn : ((cells cols data.length).map turn).Perm (cells cols data.length) := by
    have hsubset : (cells cols data.length).map turn ⊆ cells cols data.length := by
      intro q hq
      obtain ⟨p, hp, rfl⟩ := List.mem_map.mp hq
      exact hmem p hp
    exact (List.subperm_of_subset ((nodup_cells _ _).map hinj) hsubset).perm_of_length_le
      (Nat.le_of_eq (List.length_map turn).symm)
  have hsome : (data'.flatten.map some).Perm (data.flatten.map some) := by
    rw [map_some_flatten hcols', map_some_flatten hcols, hlength]
    have hmap : (cells cols data.length).map (getloc data') =
        ((cells cols data.length).map turn).map (getloc data) := by
      rw [List.map_map]
      exact List.map_congr_left fun q _ => hget q
    rw [hmap]
    exact hturn.map _
  have hperm := hsome.filterMap id
  rwa [List.filterMap_map, List.filterMap_map, Function.id_comp, List.filterMap_some,
    List.filterMap_some] at hperm

end HackerUnion.StackEditor
