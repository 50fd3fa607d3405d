import Mathlib.Tactic.FieldSimp
import Mathlib.Tactic.IntervalCases
import Mathlib.Tactic.Linarith
import Mathlib.Tactic.Positivity
import HackerUnion.Announce.Targets
import HackerUnion.Js.Exact

namespace HackerUnion.Announce

open Js Js.Number

/-- What `confidence` takes the root of. -/
def radicand (F : Type) [Number F] (pos neg : Nat) : F :=
  let n : F := lit (pos + neg : Nat)
  let z : F := lit (8 / 5)
  let phat := lit pos / n
  phat + z * z / (lit 2 * n) - z * ((phat * (lit 1 - phat) + z * z / (lit 4 * n)) / n)

theorem confidence_eq {F : Type} [Number F] (pos neg : Nat) : (confidence pos neg : F) =
    if pos + neg = 0 then lit 0
    else sqrt (radicand F pos neg) /
      (lit 1 + lit (8 / 5) * lit (8 / 5) / lit (pos + neg : Nat)) := rfl

/-- The score times itself, as a fraction. -/
def square (g b : ℕ) : ℚ :=
  5 * (125 * g * (g + b) ^ 2 + 160 * (g + b) ^ 2 - 200 * g * b - 128 * (g + b)) /
    ((g + b) * (25 * (g + b) + 64) ^ 2)

theorem radicand_eq (g b : ℕ) (h : g + b ≠ 0) : radicand ℝ g b =
    ((125 * g * (g + b) ^ 2 + 160 * (g + b) ^ 2 - 200 * g * b - 128 * (g + b)) /
      (125 * (g + b) ^ 3) : ℝ) := by
  have hn : (g + b : ℝ) ≠ 0 := by exact_mod_cast h
  unfold radicand
  simp only [lit]
  push_cast
  field_simp
  ring

/-- In exact numbers the score is the root of a fraction. -/
theorem confidence_exact (g b : ℕ) : (confidence g b : ℝ) = √(square g b : ℝ) := by
  rw [confidence_eq]
  split
  · rename_i h
    obtain ⟨rfl, rfl⟩ := Nat.add_eq_zero_iff.mp h
    simp [lit, square]
  · rename_i h
    have hn : (0 : ℝ) < g + b := by exact_mod_cast Nat.pos_of_ne_zero h
    have hdenominator : (lit 1 + lit (8 / 5) * lit (8 / 5) / lit (g + b : ℕ) : ℝ) =
        (25 * (g + b) + 64) / (25 * (g + b)) := by
      simp only [lit]
      push_cast
      field_simp
      ring
    have hpos : (0 : ℝ) ≤ (25 * (g + b) + 64) / (25 * (g + b)) := by positivity
    rw [hdenominator]
    calc √(radicand ℝ g b) / ((25 * (g + b) + 64) / (25 * (g + b)))
        = √(radicand ℝ g b) / √(((25 * (g + b) + 64) / (25 * (g + b))) ^ 2) := by
          rw [Real.sqrt_sq hpos]
      _ = √(radicand ℝ g b / ((25 * (g + b) + 64) / (25 * (g + b))) ^ 2) :=
          (Real.sqrt_div' _ (sq_nonneg _)).symm
      _ = √(square g b : ℝ) := by
          congr 1
          rw [radicand_eq g b h, square]
          push_cast
          field_simp
          ring

section Square

variable (g b : ℕ)

/-- What is divided in the square. -/
theorem numerator_nonneg (h : g + b ≠ 0) :
    (0 : ℚ) ≤ 125 * g * (g + b) ^ 2 + 160 * (g + b) ^ 2 - 200 * g * b - 128 * (g + b) := by
  have hn : (1 : ℚ) ≤ g + b := by exact_mod_cast Nat.one_le_iff_ne_zero.mpr h
  have hg : (g : ℚ) ≤ g ^ 2 := by exact_mod_cast Nat.le_self_pow two_ne_zero g
  have hb : (0 : ℚ) ≤ b := Nat.cast_nonneg b
  have hgb : (0 : ℚ) ≤ (g ^ 2 - g) * b := mul_nonneg (by linarith) hb
  have hcube : (0 : ℚ) ≤ g * (g - b) ^ 2 := by positivity
  nlinarith

theorem square_nonneg : 0 ≤ square g b := by
  by_cases h : g + b = 0
  · obtain ⟨rfl, rfl⟩ := Nat.add_eq_zero_iff.mp h
    simp [square]
  · have hnumerator := numerator_nonneg g b h
    unfold square
    positivity

theorem square_le_one : square g b ≤ 1 := by
  by_cases h : g + b = 0
  · obtain ⟨rfl, rfl⟩ := Nat.add_eq_zero_iff.mp h
    simp [square]
  · have hn : (0 : ℚ) < g + b := by exact_mod_cast Nat.pos_of_ne_zero h
    have hrest : (0 : ℚ) ≤
        625 * b * (g + b) ^ 2 + 2400 * (g + b) ^ 2 + 1000 * g * b + 4736 * (g + b) := by
      positivity
    unfold square
    rw [div_le_one (by positivity)]
    linarith

/-- An upvote never lowers it. -/
theorem square_up : square g b ≤ square (g + 1) b := by
  by_cases h : g + b = 0
  · obtain ⟨rfl, rfl⟩ := Nat.add_eq_zero_iff.mp h
    exact (by simp [square] : square 0 0 = 0).trans_le (square_nonneg 1 0)
  · have hn : (0 : ℚ) < g + b := by exact_mod_cast Nat.pos_of_ne_zero h
    have hgain : (0 : ℚ) ≤ 78125 * g ^ 4 * b + 300000 * g ^ 4 + 312500 * g ^ 3 * b ^ 2 +
        1606250 * g ^ 3 * b + 1784000 * g ^ 3 + 468750 * g ^ 2 * b ^ 3 + 2643750 * g ^ 2 * b ^ 2 +
        5933125 * g ^ 2 * b + 3140960 * g ^ 2 + 312500 * g * b ^ 4 + 1668750 * g * b ^ 3 +
        4859250 * g * b ^ 2 + 6534920 * g * b + 1656960 * g + 78125 * b ^ 5 + 331250 * b ^ 4 +
        710125 * b ^ 3 + 1809760 * b ^ 2 + 1656960 * b := by
      positivity
    unfold square
    push_cast
    rw [div_le_div_iff₀ (by positivity) (by positivity)]
    nlinarith

variable {g b}

/-- A downvote does not raise it once there are enough votes. -/
theorem square_down (h : 2 ≤ g ∨ 4 ≤ g + b) : square g (b + 1) ≤ square g b := by
  have hn : (0 : ℚ) < g + b := by exact_mod_cast (by omega : 0 < g + b)
  unfold square
  push_cast
  rw [div_le_div_iff₀ (by positivity) (by positivity)]
  have hcases : 2 ≤ g ∨ g = 1 ∧ 3 ≤ b ∨ g = 0 ∧ 4 ≤ b := by omega
  rcases hcases with hg | ⟨rfl, hb⟩ | ⟨rfl, hb⟩
  · obtain ⟨x, rfl⟩ := Nat.exists_eq_add_of_le hg
    have hsquare : (0 : ℚ) ≤ 2662290 * b ^ 2 - 1059800 * b + 4688040 := by
      nlinarith [sq_nonneg ((b : ℚ) - 1)]
    have hloss : (0 : ℚ) ≤ 78125 * x ^ 5 + 312500 * x ^ 4 * b + 1162500 * x ^ 4 +
        468750 * x ^ 3 * b ^ 2 + 3368750 * x ^ 3 * b + 6421125 * x ^ 3 + 312500 * x ^ 2 * b ^ 3 +
        3506250 * x ^ 2 * b ^ 2 + 11589750 * x ^ 2 * b + 15978990 * x ^ 2 + 78125 * x * b ^ 4 +
        1556250 * x * b ^ 3 + 7071125 * x * b ^ 2 + 12247080 * x * b + 16667500 * x +
        256250 * b ^ 4 + 1902500 * b ^ 3 := by
      positivity
    push_cast
    nlinarith
  · obtain ⟨y, rfl⟩ := Nat.exists_eq_add_of_le hb
    have hloss : (0 : ℚ) ≤ 178125 * y ^ 4 + 2796250 * y ^ 3 + 14176165 * y ^ 2 + 24022360 * y +
        4215000 := by
      positivity
    push_cast
    nlinarith
  · obtain ⟨y, rfl⟩ := Nat.exists_eq_add_of_le hb
    have hloss : (0 : ℚ) ≤ 100000 * y ^ 4 + 1640000 * y ^ 3 + 8875040 * y ^ 2 + 16735360 * y +
        4300800 := by
      positivity
    push_cast
    nlinarith

/-- Before that it does, each time. -/
theorem square_lt_down (h : ¬(2 ≤ g ∨ 4 ≤ g + b)) : square g b < square g (b + 1) := by
  have hg : g < 2 := by omega
  have hb : b < 4 := by omega
  interval_cases g <;> interval_cases b <;> first | omega | norm_num [square]

end Square

theorem confidence_le_iff (g b g' b' : ℕ) :
    (confidence g b : ℝ) ≤ confidence g' b' ↔ square g b ≤ square g' b' := by
  rw [confidence_exact, confidence_exact,
    Real.sqrt_le_sqrt_iff (by exact_mod_cast square_nonneg g' b'), Rat.cast_le]

/-- A downvote never raises a score and an upvote never lowers it, except that a downvote does where
there are less than two upvotes and less than four votes. -/
theorem confidence_monotone_iff (g b : ℕ) :
    (confidence g (b + 1) : ℝ) ≤ confidence g b ∧
        (confidence g b : ℝ) ≤ confidence (g + 1) b ↔
      2 ≤ g ∨ 4 ≤ g + b := by
  rw [confidence_le_iff, confidence_le_iff, and_iff_left (square_up g b)]
  constructor
  · intro hle
    by_contra h
    exact absurd hle (square_lt_down h).not_ge
  · exact square_down

/-- The second downvote of somebody with one upvote raises the score. -/
theorem not_confidence_monotone :
    ¬∀ g b : ℕ, (confidence g (b + 1) : ℝ) ≤ confidence g b ∧
      (confidence g b : ℝ) ≤ confidence (g + 1) b := by
  intro h
  have hle := (confidence_le_iff 1 2 1 1).mp (h 1 1).1
  norm_num [square] at hle

section Range

/-- A score between 0 and 1 has its grade among the five. -/
theorem getGrade_unit {score : ℝ} (h0 : 0 ≤ score) (h1 : score ≤ 1) :
    ∃ i : ℕ, Number.round (lit (grades.length - 1) * score) = some (i : ℤ) ∧ i < grades.length ∧
      getGrade score = grades[i]? := by
  have hround : Number.round (lit (grades.length - 1) * score) = some ⌊4 * score + 1 / 2⌋ := by
    simp only [Number.round, lit, grades, List.length_cons, List.length_nil]
    norm_num
  have hlow : 0 ≤ ⌊4 * score + 1 / 2⌋ := Int.floor_nonneg.mpr (by linarith)
  have hhigh : ⌊4 * score + 1 / 2⌋ < 5 := Int.floor_lt.mpr (by push_cast; linarith)
  obtain ⟨i, hi⟩ := Int.eq_ofNat_of_zero_le hlow
  rw [hi] at hround hhigh
  refine ⟨i, hround, by exact_mod_cast hhigh, ?_⟩
  unfold getGrade
  rw [hround]
  simp

/-- With each grade some users are reached, and at most three quarters. -/
theorem getReachByScore_unit {score : ℝ} (h0 : 0 ≤ score) (h1 : score ≤ 1) :
    ∃ reach : ℝ, getReachByScore score = some reach ∧ 0 ≤ reach ∧ reach ≤ 3 / 4 := by
  obtain ⟨i, -, hi, hgrade⟩ := getGrade_unit h0 h1
  unfold getReachByScore
  rw [hgrade]
  have hlength : grades.length = 5 := rfl
  rw [hlength] at hi
  interval_cases i
  all_goals
    refine ⟨_, rfl, ?_⟩
    simp only [lit]
    norm_num

/-- So no more users are asked for than there are. -/
theorem sampleSize_unit {score : ℝ} (h0 : 0 ≤ score) (h1 : score ≤ 1) (inc exc : List String) :
    ∃ k : ℤ, sampleSize score inc exc = some k ∧ 0 ≤ k ∧ k ≤ (without inc exc).length := by
  obtain ⟨reach, hreach, hlow, hhigh⟩ := getReachByScore_unit h0 h1
  have hlength : (0 : ℝ) ≤ (without inc exc).length := Nat.cast_nonneg _
  have hproduct : (without inc exc).length * reach ≤ (without inc exc).length := by
    exact mul_le_of_le_one_right hlength (by linarith)
  refine ⟨⌊(without inc exc).length * reach + 1 / 2⌋, ?_, ?_, ?_⟩
  · rw [sampleSize, hreach]
    simp only [Option.bind_some, Number.round, lit]
    push_cast
    rfl
  · exact Int.floor_nonneg.mpr (by positivity)
  · refine Int.lt_add_one_iff.mp (Int.floor_lt.mpr ?_)
    push_cast
    linarith

end Range

/-- The score is the root of something that is not negative, and lies between 0 and 1, so that it
has a grade and a reach, and never more users are asked for than there are. -/
theorem confidence_range (g b : ℕ) :
    0 ≤ radicand ℝ g b ∧ 0 ≤ (confidence g b : ℝ) ∧ (confidence g b : ℝ) ≤ 1 ∧
      (∃ i : ℕ, Number.round (lit (grades.length - 1) * (confidence g b : ℝ)) = some (i : ℤ) ∧
        i < grades.length ∧ getGrade (confidence g b : ℝ) = grades[i]?) ∧
      (getReachByScore (confidence g b : ℝ)).isSome = true ∧
      ∀ inc exc, ∃ k : ℤ, sampleSize (confidence g b : ℝ) inc exc = some k ∧ 0 ≤ k ∧
        k ≤ (without inc exc).length := by
  have h0 : 0 ≤ (confidence g b : ℝ) := by
    rw [confidence_exact]
    exact Real.sqrt_nonneg _
  have h1 : (confidence g b : ℝ) ≤ 1 := by
    rw [confidence_exact, Real.sqrt_le_one]
    exact_mod_cast square_le_one g b
  obtain ⟨reach, hreach, -⟩ := getReachByScore_unit h0 h1
  refine ⟨?_, h0, h1, getGrade_unit h0 h1, by rw [hreach]; rfl, sampleSize_unit h0 h1⟩
  by_cases h : g + b = 0
  · obtain ⟨rfl, rfl⟩ := Nat.add_eq_zero_iff.mp h
    simp [radicand, lit]
  · rw [radicand_eq g b h]
    refine div_nonneg ?_ (by positivity)
    exact_mod_cast numerator_nonneg g b h

end HackerUnion.Announce
