import Mathlib.Logic.Function.Basic
import Mathlib.Data.List.Basic

namespace HackerUnion.Run

variable {ω κ β : Type} [DecidableEq κ]

/-- A file is rewritten in its place, if the name leads to one. -/
def rewrite (target : ω → Option κ) (f : ω → β → β) (files : κ → Option β) (w : ω) : κ → Option β :=
  match target w with
  | none => files
  | some k => Function.update files k ((files k).map (f w))

variable {target : ω → Option κ} {f : ω → β → β} {files : κ → Option β} {w : ω} {k : κ} {b : β}

theorem rewrite_of_none (h : target w = none) : rewrite target f files w = files := by
  simp [rewrite, h]

theorem rewrite_of_absent (h : target w = some k) (hk : files k = none) :
    rewrite target f files w = files := by
  simp only [rewrite, h, hk, Option.map_none]
  rw [← hk, Function.update_eq_self]

theorem rewrite_of_some (h : target w = some k) (hk : files k = some b) :
    rewrite target f files w = Function.update files k (some (f w b)) := by
  simp [rewrite, h, hk]

theorem rewrite_apply (files : κ → Option β) (w : ω) (k : κ) :
    rewrite target f files w k = if target w = some k then (files k).map (f w) else files k := by
  cases h : target w with
  | none => simp [rewrite_of_none h]
  | some j =>
    unfold rewrite
    simp only [h]
    by_cases hk : k = j
    · subst hk
      simp
    · have hne : j ≠ k := fun h => hk h.symm
      simp [Function.update_of_ne hk, hne]

/-- After a loop over names each file is as its own names leave it, one after the other. -/
theorem foldl_rewrite (ws : List ω) (files : κ → Option β) (k : κ) :
    ws.foldl (rewrite target f) files k =
      (files k).map fun b => (ws.filter (fun w => target w = some k)).foldl (fun b w => f w b) b := by
  induction ws generalizing files with
  | nil => simp
  | cons w ws ih =>
    rw [List.foldl_cons, ih, rewrite_apply, List.filter_cons]
    by_cases hk : target w = some k
    · simp [hk, Option.map_map, Function.comp_def]
    · simp [hk]

end HackerUnion.Run
