import Mathlib.Data.List.Induction
import Mathlib.Data.List.Nodup

namespace HackerUnion.Lists

variable {α κ : Type} [DecidableEq κ] (key : α → κ)

/-- The elements of one key go before all others. -/
def toFront (l : List α) (k : κ) : List α :=
  let (removed, left) := l.partition fun a => key a = k
  removed ++ left

theorem toFront_eq (l : List α) (k : κ) :
    toFront key l k = l.filter (fun a => key a = k) ++ l.filter (fun a => key a ≠ k) := by
  rw [toFront, List.partition_eq_filter_filter]
  refine congrArg (_ ++ ·) (List.filter_congr fun a _ => ?_)
  simp

theorem toFront_perm (l : List α) (k : κ) : (toFront key l k).Perm l := by
  rw [toFront, List.partition_eq_filter_filter]
  exact List.filter_append_perm _ l

theorem foldl_toFront_perm (ks : List κ) (l : List α) : (ks.foldl (toFront key) l).Perm l := by
  induction ks generalizing l with
  | nil => exact List.Perm.refl l
  | cons k ks ih => exact (ih (toFront key l k)).trans (toFront_perm key l k)

/-- The keys that were brought to the front stand there the last one first, and the rest behind
them is as it was. -/
theorem foldl_toFront {ks : List κ} (hks : ks.Nodup) (l : List α) :
    ks.foldl (toFront key) l =
      ks.reverse.flatMap (fun k => l.filter fun a => key a = k) ++
        l.filter (fun a => key a ∉ ks) := by
  -- the first `ks` are gone through already, and `k` comes after them
  induction ks using List.reverseRecOn with
  | nil => simp
  | append_singleton ks k ih =>
    rw [List.nodup_append] at hks
    obtain ⟨hks, -, hne⟩ := hks
    have hk : ∀ k' ∈ ks, k' ≠ k := fun k' hk' => hne k' hk' k (by simp)
    set moved := ks.reverse.flatMap fun k => l.filter fun a => key a = k with hmoved
    have hmem : ∀ a ∈ moved, key a ≠ k := by
      intro a ha
      obtain ⟨k', hk', ha⟩ := List.mem_flatMap.mp ha
      have hkey : key a = k' := by simpa using (List.mem_filter.mp ha).2
      exact hkey ▸ hk k' (List.mem_reverse.mp hk')
    have hnone : moved.filter (fun a => key a = k) = [] := by
      simpa using hmem
    have hall : moved.filter (fun a => key a ≠ k) = moved := by
      simpa using hmem
    have hnew : (l.filter fun a => key a ∉ ks).filter (fun a => key a = k) =
        l.filter fun a => key a = k := by
      rw [List.filter_filter]
      refine List.filter_congr fun a _ => ?_
      by_cases ha : key a = k
      · have hout : k ∉ ks := fun h => hk k h rfl
        simp [ha, hout]
      · simp [ha]
    have hrest : (l.filter fun a => key a ∉ ks).filter (fun a => key a ≠ k) =
        l.filter fun a => key a ∉ ks ++ [k] := by
      rw [List.filter_filter]
      refine List.filter_congr fun a _ => ?_
      simp [and_comm]
    rw [List.foldl_append, List.foldl_cons, List.foldl_nil, ih hks, toFront_eq,
      List.filter_append, List.filter_append, hnone, hall, hnew, hrest, List.reverse_append,
      List.reverse_singleton, List.singleton_append, List.flatMap_cons, List.nil_append,
      ← hmoved, List.append_assoc]

end HackerUnion.Lists
