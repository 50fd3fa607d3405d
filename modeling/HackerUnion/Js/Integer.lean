import Mathlib.Algebra.Order.Group.Nat
import Mathlib.Algebra.Order.Ring.Int

namespace Js

/-- The number closest to an integer, the even one of two, as the integer that it is. Nothing is
said of integers so large that it would be infinite. -/
def number (n : Int) : Int :=
  let unit := 2 ^ (n.natAbs.log2 - 52)
  let q := n.natAbs / unit
  let r := n.natAbs % unit
  n.sign * ((if unit < 2 * r ∨ (unit = 2 * r ∧ q % 2 = 1) then q + 1 else q) * unit : Nat)

theorem number_eq {n : Int} (h : n.natAbs ≤ 2 ^ 53) : number n = n := by
  have hunit : 2 ^ (n.natAbs.log2 - 52) ∣ n.natAbs := by
    rcases Nat.lt_or_eq_of_le h with h | h
    · have hlog : n.natAbs.log2 ≤ 52 := by
        by_cases hn : n.natAbs = 0
        · rw [hn]
          decide
        · exact Nat.le_of_lt_succ ((Nat.log2_lt hn).mpr h)
      rw [Nat.sub_eq_zero_of_le hlog]
      exact one_dvd _
    · rw [h, Nat.log2_two_pow]
      exact pow_dvd_pow 2 (by decide)
  have hpos : 0 < 2 ^ (n.natAbs.log2 - 52) := Nat.two_pow_pos _
  unfold number
  dsimp only
  rw [Nat.mod_eq_zero_of_dvd hunit, if_neg (by omega), Nat.div_mul_cancel hunit,
    Int.sign_mul_natAbs]

/-- A remainder has the sign of what is divided; once the divisor is added it no longer matters. -/
theorem tmod_add_tmod {w : Int} (hw : 0 < w) (c : Int) : (w + c.tmod w).tmod w = c % w := by
  have hlow : 0 ≤ w + c.tmod w := by
    have hlt := Int.lt_tmod_of_pos c hw
    omega
  rw [Int.tmod_eq_emod_of_nonneg hlow, Int.add_emod_left, Int.tmod_eq_emod]
  split
  · rw [Int.natCast_zero, Int.sub_zero, Int.emod_emod]
  · rw [Int.natAbs_of_nonneg hw.le, Int.sub_emod_right, Int.emod_emod]

end Js
