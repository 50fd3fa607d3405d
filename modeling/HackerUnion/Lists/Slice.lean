import Mathlib.Data.List.TakeDrop
import Mathlib.Data.List.Flatten

namespace HackerUnion.Lists

/-- The place in a list of this length that an index names: a negative one counts from behind. -/
def place (length : Nat) (i : Int) : Nat := if i < 0 then (length + i).toNat else i.toNat

/-- `l[i:j]` -/
def slice {α : Type} (l : List α) (i j : Int) : List α :=
  (l.take (place l.length j)).drop (place l.length i)

variable {α : Type}

@[simp] theorem place_natCast (length i : Nat) : place length i = i := by
  rw [place, if_neg (by omega), Int.toNat_natCast]

theorem slice_natCast (l : List α) (i j : Nat) : slice l i j = (l.take j).drop i := by
  rw [slice, place_natCast, place_natCast]

theorem length_slice_natCast (l : List α) (i j : Nat) :
    (slice l i j).length = min j l.length - i := by
  rw [slice_natCast, List.length_drop, List.length_take]

theorem slice_zero (l : List α) (j : Int) : slice l 0 j = l.take (place l.length j) := by
  rw [slice, show place l.length 0 = 0 by rfl, List.drop_zero]

/-- What stands before a slice, and behind it. -/
theorem take_append_slice (l : List α) {i j : Nat} (hij : i ≤ j) :
    l.take i ++ slice l i j ++ l.drop j = l := by
  have htake : (l.take j).take i = l.take i := by
    rw [List.take_take, Nat.min_eq_left hij]
  rw [slice_natCast, ← htake, List.take_append_drop, List.take_append_drop]

/-- Slices of one length, one behind the other. -/
theorem flatMap_slice (l : List α) (size n : Nat) :
    (List.range n).flatMap (fun p => slice l (p * size : Nat) ((p + 1) * size : Nat)) =
      l.take (n * size) := by
  induction n with
  | zero => simp
  | succ n ih =>
    have hstep : (l.take ((n + 1) * size)).take (n * size) = l.take (n * size) := by
      rw [List.take_take, Nat.min_eq_left (Nat.mul_le_mul_right size (Nat.le_succ n))]
    rw [List.range_succ, List.flatMap_append, ih, List.flatMap_singleton, slice_natCast, ← hstep,
      List.take_append_drop]

end HackerUnion.Lists
