import Mathlib.Analysis.Real.Sqrt
import HackerUnion.Js.Value

namespace Js

/-- Exact real numbers, of which none is `NaN`. -/
noncomputable instance exact : Number ℝ where
  lit q := q
  sqrt := Real.sqrt
  ge a b := decide (b ≤ a)
  round x := some ⌊x + 1 / 2⌋
  isNaN _ := false

end Js
