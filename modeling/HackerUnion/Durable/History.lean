import Mathlib.Logic.Function.Basic
import Mathlib.Data.List.Basic

namespace HackerUnion.Durable

/-- A store and what has been written to it, one value after the other. -/
structure History (κ β : Type) where
  base : κ → Option β
  writes : List (κ × β)

namespace History

variable {κ β : Type}

def put (h : History κ β) (k : κ) (b : β) : History κ β := ⟨h.base, h.writes ++ [(k, b)]⟩

@[simp] theorem writes_put (h : History κ β) (k : κ) (b : β) :
    (h.put k b).writes = h.writes ++ [(k, b)] := rfl

variable [DecidableEq κ]

/-- The store after some writes. -/
def after (base : κ → Option β) (writes : List (κ × β)) : κ → Option β :=
  writes.foldl (fun s w => Function.update s w.1 (some w.2)) base

def store (h : History κ β) : κ → Option β := after h.base h.writes

/-- The store when there had been so many writes. -/
def past (h : History κ β) (n : Nat) : κ → Option β := after h.base (h.writes.take n)

/-- Nothing has been written under the key since there had been so many writes. -/
def Untouched (h : History κ β) (n : Nat) (k : κ) : Prop := ∀ w ∈ h.writes.drop n, w.1 ≠ k

instance decidableUntouched (h : History κ β) (n : Nat) (k : κ) : Decidable (h.Untouched n k) :=
  List.decidableBAll _ _

variable {h : History κ β} {n : Nat} {k : κ} {b : β}

theorem after_append (base : κ → Option β) (ws ws' : List (κ × β)) :
    after base (ws ++ ws') = after (after base ws) ws' := by
  simp [after]

theorem store_put (h : History κ β) (k : κ) (b : β) :
    (h.put k b).store = Function.update h.store k (some b) := by
  simp [store, put, after]

theorem past_length (h : History κ β) : h.past h.writes.length = h.store := by
  simp [past, store]

/-- Later writes do not change what was. -/
theorem past_put (hn : n ≤ h.writes.length) : (h.put k b).past n = h.past n := by
  unfold past put
  rw [List.take_append_of_le_length hn]

theorem after_of_untouched (base : κ → Option β) {ws : List (κ × β)} (h : ∀ w ∈ ws, w.1 ≠ k) :
    after base ws k = base k := by
  induction ws generalizing base with
  | nil => rfl
  | cons w ws ih =>
    obtain ⟨hw, hws⟩ := List.forall_mem_cons.mp h
    have hrest := ih (Function.update base w.1 (some w.2)) hws
    rw [Function.update_of_ne hw.symm] at hrest
    exact hrest

/-- A key that has been written holds one of the values that were written. -/
theorem exists_after (base : κ → Option β) {ws : List (κ × β)} (h : ∃ w ∈ ws, w.1 = k) :
    ∃ w ∈ ws, w.1 = k ∧ after base ws k = some w.2 := by
  induction ws generalizing base with
  | nil => simp at h
  | cons w ws ih =>
    by_cases hws : ∃ w ∈ ws, w.1 = k
    · obtain ⟨w', hw', hk, hafter⟩ := ih (Function.update base w.1 (some w.2)) hws
      exact ⟨w', List.mem_cons_of_mem _ hw', hk, hafter⟩
    · obtain ⟨w', hw', hk⟩ := h
      rcases List.mem_cons.mp hw' with rfl | hmem
      · refine ⟨w', List.mem_cons_self, hk, ?_⟩
        have hnone : ∀ w ∈ ws, w.1 ≠ k := fun w hw hkey => hws ⟨w, hw, hkey⟩
        have hrest := after_of_untouched (Function.update base w'.1 (some w'.2)) hnone
        rw [← hk, Function.update_self] at hrest
        rw [← hk]
        exact hrest
      · exact absurd ⟨w', hmem, hk⟩ hws

theorem store_eq (h : History κ β) (n : Nat) :
    h.store = after (h.past n) (h.writes.drop n) := by
  rw [past, ← after_append, List.take_append_drop, store]

theorem store_of_untouched (hu : h.Untouched n k) : h.store k = h.past n k := by
  rw [store_eq h n, after_of_untouched _ hu]

theorem exists_of_not_untouched (hu : ¬h.Untouched n k) :
    ∃ w ∈ h.writes.drop n, w.1 = k ∧ h.store k = some w.2 := by
  rw [store_eq h n]
  refine exists_after _ ?_
  by_contra hnone
  exact hu fun w hw hk => hnone ⟨w, hw, hk⟩

end History

end HackerUnion.Durable
