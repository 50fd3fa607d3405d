import Mathlib.Data.List.Shortlex
import Mathlib.Algebra.BigOperators.Group.Finset.Basic
import Mathlib.Algebra.BigOperators.Intervals
import Mathlib.Tactic.Ring
import Mathlib.Tactic.Linarith

namespace HackerUnion.Lists

open Finset

/-! Numerals without a zero: in base `N` the digits count from one to `N`, so that every number has
one numeral, and zero the empty one. The digit `d` counts for `d + 1`. -/

namespace Numeral

variable {N : Nat}

/-- The most significant digit comes first. -/
def value (ds : List (Fin N)) : Nat := ds.foldl (fun n d => N * n + (d.val + 1)) 0

def digits (N : Nat) [NeZero N] : Nat → List (Fin N)
  | 0 => []
  | n + 1 => digits N (n / N) ++ [Fin.ofNat N n]
termination_by n => n
decreasing_by exact Nat.lt_succ_of_le (Nat.div_le_self n N)

/-- The least number with a numeral of this length. -/
def least (N length : Nat) : Nat := ∑ i ∈ range length, N ^ i

@[simp] theorem value_nil : value ([] : List (Fin N)) = 0 := rfl

@[simp] theorem value_concat (ds : List (Fin N)) (d : Fin N) :
    value (ds ++ [d]) = N * value ds + (d + 1) := by
  simp [value]

@[simp] theorem least_zero : least N 0 = 0 := by simp [least]

theorem least_succ (length : Nat) : least N (length + 1) = least N length + N ^ length := by
  rw [least, sum_range_succ, least]

theorem least_mono {j k : Nat} (h : j ≤ k) : least N j ≤ least N k := by
  induction k, h using Nat.le_induction with
  | base => exact le_refl _
  | succ k hk ih =>
    rw [least_succ]
    omega

theorem value_foldl (ds : List (Fin N)) (n : Nat) :
    ds.foldl (fun n d => N * n + (d.val + 1)) n = N ^ ds.length * n + value ds := by
  induction ds generalizing n with
  | nil => simp
  | cons d ds ih =>
    have hstart : value (d :: ds) = N ^ ds.length * (d + 1) + value ds := by
      rw [value, List.foldl_cons, ih]
      simp
    rw [List.foldl_cons, ih, hstart, List.length_cons, pow_succ]
    ring

theorem value_cons (d : Fin N) (ds : List (Fin N)) :
    value (d :: ds) = (d + 1) * N ^ ds.length + value ds := by
  rw [value, List.foldl_cons, value_foldl]
  ring

theorem least_le_value (ds : List (Fin N)) : least N ds.length ≤ value ds := by
  induction ds with
  | nil => simp
  | cons d ds ih =>
    rw [value_cons, List.length_cons, least_succ, Nat.add_mul, one_mul]
    omega

theorem value_lt_least (ds : List (Fin N)) : value ds < least N (ds.length + 1) := by
  induction ds with
  | nil => simp [least_succ]
  | cons d ds ih =>
    have hdigit : (d + 1) * N ^ ds.length ≤ N * N ^ ds.length :=
      Nat.mul_le_mul_right _ d.isLt
    rw [value_cons, List.length_cons, least_succ, pow_succ']
    omega

theorem value_lt_least_iff (ds : List (Fin N)) (length : Nat) :
    value ds < least N (length + 1) ↔ ds.length ≤ length := by
  constructor
  · intro hlt
    by_contra! hlong
    have hleast := least_mono (N := N) (show length + 1 ≤ ds.length by omega)
    have hvalue := least_le_value ds
    omega
  · intro hle
    exact (value_lt_least ds).trans_le (least_mono (by omega))

theorem value_lt_of_lex {s t : List (Fin N)} (hlength : s.length = t.length)
    (h : List.Lex (· < ·) s t) : value s < value t := by
  induction h with
  | nil => simp at hlength
  | cons _ ih =>
    have htail := Nat.succ.inj hlength
    have hlt := ih htail
    rw [value_cons, value_cons, htail]
    omega
  | rel hlt =>
    rename_i a s b t
    have htail : s.length = t.length := Nat.succ.inj hlength
    have hs := value_lt_least s
    have ht := least_le_value t
    have hdigit : (a + 1 + 1) * N ^ t.length ≤ (b + 1) * N ^ t.length :=
      Nat.mul_le_mul_right _ (by simpa using hlt)
    rw [least_succ, htail] at hs
    rw [value_cons, value_cons, htail]
    rw [Nat.add_mul (a + 1) 1, one_mul] at hdigit
    omega

theorem value_lt_of_shortlex {s t : List (Fin N)} (h : List.Shortlex (· < ·) s t) :
    value s < value t := by
  rcases List.shortlex_def.mp h with hlength | ⟨hlength, hlex⟩
  · calc
      value s < least N (s.length + 1) := value_lt_least s
      _ ≤ least N t.length := least_mono hlength
      _ ≤ value t := least_le_value t
  · exact value_lt_of_lex hlength hlex

theorem value_injective : Function.Injective (value (N := N)) := by
  intro s t hvalue
  by_contra hne
  have hcases : List.Shortlex (· < ·) s t ∨ s = t ∨ List.Shortlex (· < ·) t s :=
    Std.Trichotomous.rel_or_eq_or_rel_swap
  rcases hcases with hlt | heq | hgt
  · have h := value_lt_of_shortlex hlt
    omega
  · exact hne heq
  · have h := value_lt_of_shortlex hgt
    omega

/-- Numerals are ordered by their length first, and then by their first different digit. -/
theorem shortlex_iff {s t : List (Fin N)} :
    List.Shortlex (· < ·) s t ↔ value s < value t := by
  constructor
  · exact value_lt_of_shortlex
  · intro hlt
    have hcases : List.Shortlex (· < ·) s t ∨ s = t ∨ List.Shortlex (· < ·) t s :=
      Std.Trichotomous.rel_or_eq_or_rel_swap
    rcases hcases with hst | heq | hts
    · exact hst
    · rw [heq] at hlt
      omega
    · have h := value_lt_of_shortlex hts
      omega

variable [NeZero N]

@[simp] theorem value_digits (n : Nat) : value (digits N n) = n := by
  induction n using Nat.strongRecOn with
  | ind n ih =>
    cases n with
    | zero => simp [digits]
    | succ n =>
      have hquotient : value (digits N (n / N)) = n / N :=
        ih (n / N) (Nat.lt_succ_of_le (Nat.div_le_self n N))
      have hdivision := Nat.div_add_mod n N
      rw [digits, value_concat, hquotient, Fin.val_ofNat]
      omega

@[simp] theorem digits_value (ds : List (Fin N)) : digits N (value ds) = ds :=
  value_injective (value_digits _)

theorem length_digits_le_iff (n length : Nat) :
    (digits N n).length ≤ length ↔ n < least N (length + 1) := by
  rw [← value_lt_least_iff, value_digits]

theorem digits_shortlex_iff (m n : Nat) :
    List.Shortlex (· < ·) (digits N m) (digits N n) ↔ m < n := by
  rw [shortlex_iff, value_digits, value_digits]

theorem digits_ne_nil {n : Nat} (h : 0 < n) : digits N n ≠ [] := by
  intro hnil
  have hvalue := value_digits (N := N) n
  rw [hnil, value_nil] at hvalue
  omega

end Numeral

end HackerUnion.Lists
