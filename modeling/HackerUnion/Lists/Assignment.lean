import Mathlib.Algebra.Order.Rearrangement
import Mathlib.Algebra.Order.Ring.Nat
import Mathlib.Data.Fintype.EquivFin

namespace HackerUnion.Lists

open Finset

/-! What it costs to put something in place of each element of a list. -/

variable {α β : Type} [DecidableEq α]

/-- What is handed out costs least where the more frequent has what costs less. -/
theorem sum_le_of_antivaryOn {s : Finset α} {count : α → ℕ} {code other : α → β} {size : β → ℕ}
    (hanti : AntivaryOn count (fun a => size (code a)) s)
    (hother : ∀ a ∈ s, ∃ b ∈ s, code b = other a) (hinj : Set.InjOn other s) :
    ∑ a ∈ s, count a * size (code a) ≤ ∑ a ∈ s, count a * size (other a) := by
  have hchoice : ∀ a : s, ∃ b : s, code b = other a := by
    intro a
    obtain ⟨b, hb, hcode⟩ := hother a a.2
    exact ⟨⟨b, hb⟩, hcode⟩
  choose turn hturn using hchoice
  have hturnInj : Function.Injective turn := by
    intro a b hab
    refine Subtype.ext (hinj a.2 b.2 ?_)
    rw [← hturn a, ← hturn b, hab]
  let σ : Equiv.Perm α :=
    Equiv.Perm.ofSubtype (Equiv.ofBijective turn (Finite.injective_iff_bijective.mp hturnInj))
  have hσ : ∀ a (ha : a ∈ s), σ a = turn ⟨a, ha⟩ :=
    fun a ha => Equiv.Perm.ofSubtype_apply_of_mem _ ha
  have hsupport : {a | σ a ≠ a} ⊆ (s : Set α) := by
    intro a hmoved
    by_contra ha
    exact hmoved (Equiv.Perm.ofSubtype_apply_of_not_mem _ ha)
  calc
    ∑ a ∈ s, count a * size (code a)
      ≤ ∑ a ∈ s, count a * size (code (σ a)) := hanti.sum_mul_le_sum_mul_comp_perm hsupport
    _ = ∑ a ∈ s, count a * size (other a) :=
      sum_congr rfl fun a ha => by rw [hσ a ha, hturn ⟨a, ha⟩]

theorem length_flatMap_eq_sum [beq : BEq α] [LawfulBEq α] (l : List α) (f : α → List β) :
    (l.flatMap f).length = ∑ a ∈ l.toFinset, l.count a * (f a).length := by
  have hbeq : beq = instBEqOfDecidableEq := lawful_beq_subsingleton _ _
  subst hbeq
  rw [List.length_flatMap, sum_list_map_count]
  exact sum_congr rfl fun a _ => smul_eq_mul _ _

end HackerUnion.Lists
