import HackerUnion.Js.Integer
import HackerUnion.Run.Copy
import HackerUnion.StackEditor.Grid

namespace HackerUnion.StackEditor

open Js Run

variable {α : Type}

def remap (w h c r : Int) : Int × Int := ((w + c.tmod w).tmod w, (h + r.tmod h).tmod h)

def pre (loc1 i : Loc) : Loc := ⟨loc1.col + i.col, loc1.row + i.row⟩

def post (loc1 : Loc) (w h co ro : Int) (i : Loc) : Loc :=
  let offset := remap w h (number (co + i.col)) (number (ro + i.row))
  ⟨(loc1.col + offset.1).toNat, (loc1.row + offset.2).toNat⟩

/-- `active` are the active cells in the order of the page, `x` and `y` the integers that the two
fields hold. `none` when the loops look up a place that is not there. -/
def shift (data : List (List α)) (active : List Loc) (x y : Int) : Option (List (List α)) :=
  let co := -number x
  let ro := -number y
  let loc1 := active.head?.getD ⟨0, 0⟩
  let loc2 := active.getLast?.getD ⟨0, 0⟩
  let w : Int := loc2.col - loc1.col + 1
  let h : Int := loc2.row - loc1.row + 1
  copyAll getloc setloc (pre loc1) (post loc1 w h co ro) data (cells w.toNat h.toNat)

/-- A rectangle of cells, given by its first column and row and by its last. -/
structure Block where
  c1 : Nat
  r1 : Nat
  c2 : Nat
  r2 : Nat
  cols : c1 ≤ c2
  rows : r1 ≤ r2

/-- Where an index comes from when the `w` of them that begin at `lo` are turned by `a`. -/
def turned (lo w : Nat) (a : Int) (i : Nat) : Nat := lo + (((i : Int) - lo - a) % w).toNat

section Turned

variable {lo w : Nat} {a a' : Int} {i : Nat}

theorem turned_mem (hw : 0 < w) : lo ≤ turned lo w a i ∧ turned lo w a i < lo + w := by
  have hnonneg := Int.emod_nonneg ((i : Int) - lo - a) (Int.natCast_ne_zero.mpr hw.ne')
  have hlt := Int.emod_lt_of_pos ((i : Int) - lo - a) (Int.natCast_pos.mpr hw)
  unfold turned
  omega

theorem turned_turned (hw : 0 < w) :
    turned lo w a (turned lo w a' i) = turned lo w (a' + a) i := by
  have hnonneg := Int.emod_nonneg ((i : Int) - lo - a') (Int.natCast_ne_zero.mpr hw.ne')
  have hinner : (turned lo w a' i : Int) - lo - a = ((i : Int) - lo - a') % w - a := by
    unfold turned
    omega
  change lo + (((turned lo w a' i : Int) - lo - a) % w).toNat = _
  rw [hinner, Int.emod_sub_emod, Int.sub_sub]
  rfl

theorem turned_zero (hlo : lo ≤ i) (hi : i < lo + w) : turned lo w 0 i = i := by
  unfold turned
  rw [Int.sub_zero, Int.emod_eq_of_lt (by omega) (by omega)]
  omega

end Turned

namespace Block

variable (s : Block)

def w : Nat := s.c2 - s.c1 + 1

def h : Nat := s.r2 - s.r1 + 1

def loc1 : Loc := ⟨s.c1, s.r1⟩

/-- Its cells in the order of the page. -/
def active : List Loc := (cells s.w s.h).map (pre s.loc1)

def Has (q : Loc) : Prop := s.c1 ≤ q.col ∧ q.col ≤ s.c2 ∧ s.r1 ≤ q.row ∧ q.row ≤ s.r2

instance (q : Loc) : Decidable (s.Has q) := inferInstanceAs (Decidable (_ ∧ _))

/-- Where the value of a cell comes from. -/
def turn (a b : Int) (q : Loc) : Loc :=
  if s.Has q then ⟨turned s.c1 s.w a q.col, turned s.r1 s.h b q.row⟩ else q

theorem w_pos : 0 < s.w := Nat.succ_pos _

theorem h_pos : 0 < s.h := Nat.succ_pos _

variable {s} {a b : Int} {q : Loc}

theorem has_iff :
    s.Has q ↔ (s.c1 ≤ q.col ∧ q.col < s.c1 + s.w) ∧ s.r1 ≤ q.row ∧ q.row < s.r1 + s.h := by
  have hcols := s.cols
  have hrows := s.rows
  unfold Has w h
  omega

theorem turn_of_has (hq : s.Has q) :
    s.turn a b q = ⟨turned s.c1 s.w a q.col, turned s.r1 s.h b q.row⟩ := if_pos hq

theorem has_turn (hq : s.Has q) : s.Has (s.turn a b q) := by
  rw [turn_of_has hq, has_iff]
  exact ⟨turned_mem s.w_pos, turned_mem s.h_pos⟩

theorem turn_turn (a' b' : Int) : s.turn a b (s.turn a' b' q) = s.turn (a' + a) (b' + b) q := by
  by_cases hq : s.Has q
  · rw [turn_of_has (has_turn hq), turn_of_has hq, turn_of_has hq]
    exact congrArg₂ Loc.mk (turned_turned s.w_pos) (turned_turned s.h_pos)
  · have hstay (a b : Int) : s.turn a b q = q := if_neg hq
    rw [hstay a' b', hstay, hstay]

theorem turn_zero : s.turn 0 0 q = q := by
  by_cases hq : s.Has q
  · obtain ⟨hcol, hrow⟩ := has_iff.mp hq
    rw [turn_of_has hq, turned_zero hcol.1 hcol.2, turned_zero hrow.1 hrow.2]
  · exact if_neg hq

theorem turn_injective : Function.Injective (s.turn a b) := by
  intro q q' heq
  have hback := congrArg (s.turn (-a) (-b)) heq
  rwa [turn_turn, turn_turn, add_neg_cancel, add_neg_cancel, turn_zero, turn_zero] at hback

theorem mem_active : q ∈ s.active ↔ s.Has q := by
  rw [has_iff, active, List.mem_map]
  constructor
  · intro hq
    obtain ⟨i, hi, rfl⟩ := hq
    obtain ⟨hcol, hrow⟩ := mem_cells.mp hi
    exact ⟨⟨Nat.le_add_right _ _, Nat.add_lt_add_left hcol _⟩, Nat.le_add_right _ _,
      Nat.add_lt_add_left hrow _⟩
  · intro hq
    refine ⟨⟨q.col - s.c1, q.row - s.r1⟩, mem_cells.mpr ⟨?_, ?_⟩, ?_⟩
    · exact Nat.sub_lt_left_of_lt_add hq.1.1 hq.1.2
    · exact Nat.sub_lt_left_of_lt_add hq.2.1 hq.2.2
    · exact congrArg₂ Loc.mk (Nat.add_sub_cancel' hq.1.1) (Nat.add_sub_cancel' hq.2.1)

theorem nodup_active : s.active.Nodup := by
  refine (nodup_cells _ _).map ?_
  intro i i' heq
  have hcol : s.c1 + i.col = s.c1 + i'.col := congrArg Loc.col heq
  have hrow : s.r1 + i.row = s.r1 + i'.row := congrArg Loc.row heq
  cases i
  cases i'
  exact congrArg₂ Loc.mk (Nat.add_left_cancel hcol) (Nat.add_left_cancel hrow)

end Block

/-- The code's numbers hold each of the `w` differences that it forms. -/
def Held (w : Nat) (a : Int) : Prop := ∀ x : Nat, x < w → ((x : Int) - a).natAbs ≤ 2 ^ 53

theorem Held.number_eq {w : Nat} {a : Int} (h : Held w a) {x : Nat} (hx : x < w) :
    number (-number a + x) = x - a := by
  have hnumber : number a = a := by
    have hzero := h 0 (Nat.zero_lt_of_lt hx)
    rw [Int.natCast_zero, Int.zero_sub, Int.natAbs_neg] at hzero
    exact Js.number_eq hzero
  have hsum : -a + x = (x : Int) - a := by omega
  rw [hnumber, hsum, Js.number_eq (h x hx)]

theorem post_eq {s : Block} {a b : Int} (ha : Held s.w a) (hb : Held s.h b) {i : Loc}
    (hi : i ∈ cells s.w s.h) :
    post s.loc1 s.w s.h (-number a) (-number b) i = s.turn a b (pre s.loc1 i) := by
  obtain ⟨hcol, hrow⟩ := mem_cells.mp hi
  have hturned (lo w x : Nat) (a : Int) (hw : 0 < w) :
      ((lo : Int) + ((x : Int) - a) % w).toNat = turned lo w a (lo + x) := by
    have hnonneg := Int.emod_nonneg ((x : Int) - a) (Int.natCast_ne_zero.mpr hw.ne')
    have hsub : ((lo + x : Nat) : Int) - lo - a = x - a := by omega
    rw [turned, hsub]
    omega
  rw [Block.turn_of_has (Block.mem_active.mp (List.mem_map_of_mem hi)), post, remap,
    ha.number_eq hcol, hb.number_eq hrow, tmod_add_tmod (Int.natCast_pos.mpr s.w_pos),
    tmod_add_tmod (Int.natCast_pos.mpr s.h_pos)]
  exact congrArg₂ Loc.mk (hturned s.c1 s.w i.col a s.w_pos) (hturned s.r1 s.h i.row b s.h_pos)

section Turns

variable {data : List (List α)} {cols : Nat} {s : Block} {a b : Int}

theorem shift_active :
    shift data s.active a b = copyAll getloc setloc (pre s.loc1)
      (post s.loc1 s.w s.h (-number a) (-number b)) data (cells s.w s.h) := by
  have hhead : s.active.head?.getD ⟨0, 0⟩ = s.loc1 := by
    rw [Block.active, List.head?_map, head?_cells s.w_pos s.h_pos]
    rfl
  have hlast : s.active.getLast?.getD ⟨0, 0⟩ = ⟨s.c1 + (s.w - 1), s.r1 + (s.h - 1)⟩ := by
    rw [Block.active, List.getLast?_map, getLast?_cells s.w_pos s.h_pos]
    rfl
  have hw : ((s.c1 + (s.w - 1) : Nat) : Int) - s.loc1.col + 1 = s.w := by
    have hpos := s.w_pos
    change ((s.c1 + (s.w - 1) : Nat) : Int) - s.c1 + 1 = s.w
    omega
  have hh : ((s.r1 + (s.h - 1) : Nat) : Int) - s.loc1.row + 1 = s.h := by
    have hpos := s.h_pos
    change ((s.r1 + (s.h - 1) : Nat) : Int) - s.r1 + 1 = s.h
    omega
  unfold shift
  simp only [hhead, hlast, hw, hh, Int.toNat_natCast]

variable (hcols : ∀ row ∈ data, row.length = cols) (hc : s.c2 < cols) (hr : s.r2 < data.length)
include hcols hc hr

theorem getloc_isSome_of_has {q : Loc} (hq : s.Has q) : (getloc data q).isSome = true :=
  (getloc_isSome hcols).mpr ⟨Nat.lt_of_le_of_lt hq.2.1 hc, Nat.lt_of_le_of_lt hq.2.2.2 hr⟩

theorem shift_turns (ha : Held s.w a) (hb : Held s.h b) :
    ∃ data', shift data s.active a b = some data' ∧
      data'.map List.length = data.map List.length ∧
      ∀ q, getloc data' q = getloc data (s.turn a b q) := by
  have hpre (i : Loc) (hi : i ∈ cells s.w s.h) : s.Has (pre s.loc1 i) :=
    Block.mem_active.mp (List.mem_map_of_mem hi)
  have hsome (i : Loc) (hi : i ∈ cells s.w s.h) : (getloc data (pre s.loc1 i)).isSome = true ∧
      (getloc data (post s.loc1 s.w s.h (-number a) (-number b) i)).isSome = true := by
    rw [post_eq ha hb hi]
    exact ⟨getloc_isSome_of_has hcols hc hr (hpre i hi),
      getloc_isSome_of_has hcols hc hr (Block.has_turn (hpre i hi))⟩
  have hset (data : List (List α)) (p : Loc) (v : α) (q : Loc)
      (hp : (getloc data p).isSome = true) :
      getloc (setloc data p v) q = if q = p then some v else getloc data q :=
    getloc_setloc v q hp
  obtain ⟨data', hdata', hmoved, hrest⟩ :=
    copyAll_get hset data (cells s.w s.h) Block.nodup_active hsome
  refine ⟨data', shift_active.trans hdata', ?_, ?_⟩
  · exact copyAll_invariant (Q := fun d => d.map List.length = data.map List.length)
      (fun d p v hd => (map_length_setloc p v).trans hd) hdata' rfl
  · intro q
    by_cases hq : s.Has q
    · obtain ⟨i, hi, rfl⟩ := List.mem_map.mp (Block.mem_active.mpr hq)
      rw [hmoved i hi, post_eq ha hb hi]
    · rw [hrest q fun hmem => hq (Block.mem_active.mp hmem)]
      exact congrArg _ (if_neg hq).symm

end Turns

/-- The values of the rectangle are moved by `a` columns and `b` rows, around its edges, and those
of the other cells stay. -/
structure Shifted (data : List (List α)) (s : Block) (a b : Int) (data' : List (List α)) :
    Prop where
  shape : data'.map List.length = data.map List.length
  inside : ∀ x < s.w, ∀ y < s.h, getloc data' ⟨s.c1 + x, s.r1 + y⟩ =
    getloc data ⟨s.c1 + (((x : Int) - a) % s.w).toNat, s.r1 + (((y : Int) - b) % s.h).toNat⟩
  outside : ∀ q, ¬s.Has q → getloc data' q = getloc data q
  perm : data'.flatten.Perm data.flatten

theorem shifted_of_turns {data data' : List (List α)} {cols : Nat} {s : Block} {a b : Int}
    (hcols : ∀ row ∈ data, row.length = cols) (hc : s.c2 < cols) (hr : s.r2 < data.length)
    (hshape : data'.map List.length = data.map List.length)
    (hget : ∀ q, getloc data' q = getloc data (s.turn a b q)) : Shifted data s a b data' := by
  refine ⟨hshape, ?_, ?_, ?_⟩
  · intro x hx y hy
    have hhas : s.Has ⟨s.c1 + x, s.r1 + y⟩ := by
      rw [Block.has_iff]
      exact ⟨⟨Nat.le_add_right _ _, Nat.add_lt_add_left hx _⟩, Nat.le_add_right _ _,
        Nat.add_lt_add_left hy _⟩
    rw [hget, Block.turn_of_has hhas, turned, turned, Int.natCast_add, Int.natCast_add,
      add_sub_cancel_left, add_sub_cancel_left]
  · intro q hq
    rw [hget]
    exact congrArg _ (if_neg hq)
  · refine flatten_perm hcols hshape hget Block.turn_injective ?_
    intro q hq
    by_cases hhas : s.Has q
    · have hturn : s.Has (s.turn a b q) := Block.has_turn hhas
      exact mem_cells.mpr ⟨Nat.lt_of_le_of_lt hturn.2.1 hc, Nat.lt_of_le_of_lt hturn.2.2.2 hr⟩
    · rw [show s.turn a b q = q from if_neg hhas]
      exact hq

/-- No number holds 2^53 + 1. -/
theorem shift_not_shifted :
    ¬∃ data', shift [['A', 'B']] (Block.mk 0 0 1 0 (by decide) (by decide)).active (-2 ^ 53) 0 =
        some data' ∧
      Shifted [['A', 'B']] (Block.mk 0 0 1 0 (by decide) (by decide)) (-2 ^ 53) 0 data' := by
  intro h
  obtain ⟨data', hdata', hshifted⟩ := h
  have hrun : shift [['A', 'B']] (Block.mk 0 0 1 0 (by decide) (by decide)).active (-2 ^ 53) 0 =
      some [['A', 'A']] := by decide +kernel
  obtain rfl := Option.some.inj (hrun.symm.trans hdata')
  exact absurd (hshifted.inside 1 (by decide) 0 (by decide)) (by decide +kernel)

/-- As long as the code's numbers hold the differences, shifts move the values around the rectangle,
one after another as one by the sum, and back again. -/
theorem shift_shifted (data : List (List α)) (cols : Nat) (hcols : ∀ row ∈ data, row.length = cols)
    (s : Block) (hc : s.c2 < cols) (hr : s.r2 < data.length) (a b : Int) (ha : Held s.w a)
    (hb : Held s.h b) :
    ∃ data', shift data s.active a b = some data' ∧ Shifted data s a b data' ∧
      (∀ a' b', Held s.w a' → Held s.h b' → Held s.w (a + a') → Held s.h (b + b') →
        shift data' s.active a' b' = shift data s.active (a + a') (b + b')) ∧
      (Held s.w (-a) → Held s.h (-b) → shift data' s.active (-a) (-b) = some data) := by
  obtain ⟨data', hdata', hshape, hget⟩ := shift_turns hcols hc hr ha hb
  obtain ⟨hcols', hlength⟩ := rows_of_map_length hcols hshape
  have hr' : s.r2 < data'.length := by
    rw [hlength]
    exact hr
  refine ⟨data', hdata', shifted_of_turns hcols hc hr hshape hget, ?_, ?_⟩
  · intro a' b' ha' hb' hsa hsb
    obtain ⟨data₂, hdata₂, hshape₂, hget₂⟩ := shift_turns hcols' hc hr' ha' hb'
    obtain ⟨data₃, hdata₃, hshape₃, hget₃⟩ := shift_turns hcols hc hr hsa hsb
    rw [hdata₂, hdata₃]
    refine congrArg some (ext_getloc ((hshape₂.trans hshape).trans hshape₃.symm) ?_)
    intro q
    rw [hget₂, hget, hget₃, Block.turn_turn, add_comm a', add_comm b']
  · intro ha' hb'
    obtain ⟨data₂, hdata₂, hshape₂, hget₂⟩ := shift_turns hcols' hc hr' ha' hb'
    rw [hdata₂]
    refine congrArg some (ext_getloc (hshape₂.trans hshape) ?_)
    intro q
    rw [hget₂, hget, Block.turn_turn, neg_add_cancel, neg_add_cancel, Block.turn_zero]

theorem shift_shifted_around :
    ∃ data', shift [[1, 2, 3], [4, 5, 6]] (Block.mk 1 0 2 1 (by decide) (by decide)).active 5 (-3) =
        some data' ∧
      Shifted [[1, 2, 3], [4, 5, 6]] (Block.mk 1 0 2 1 (by decide) (by decide)) 5 (-3) data' := by
  have hheld (a : Int) (ha : a.natAbs ≤ 8) : Held 2 a := by
    intro x hx
    omega
  obtain ⟨data', hdata', hshifted, -⟩ := shift_shifted [[1, 2, 3], [4, 5, 6]] 3 (by decide)
    (Block.mk 1 0 2 1 (by decide) (by decide)) (by decide) (by decide) 5 (-3)
    (hheld 5 (by decide)) (hheld (-3) (by decide))
  exact ⟨data', hdata', hshifted⟩

end HackerUnion.StackEditor
