import Mathlib.Data.List.AList

namespace HackerUnion.Lists

variable {K V : Type} [DecidableEq K]

/-- The second map is the first one with its keys renamed. -/
def Renames (f : K → K) (d m : AList fun _ : K => V) : Prop :=
  ∀ x a, a ∈ m.lookup x ↔ ∃ k, a ∈ d.lookup k ∧ f k = x

namespace Renames

variable {f g : K → K} {d m n : AList fun _ : K => V}

theorem lookup_eq (hm : Renames f d m) (hn : Renames f d n) (x : K) :
    m.lookup x = n.lookup x := by
  apply Option.ext
  intro a
  exact (hm x a).trans (hn x a).symm

theorem refl (d : AList fun _ : K => V) : Renames id d d := by
  intro x a
  simp

theorem trans (hm : Renames f d m) (hn : Renames g m n) : Renames (g ∘ f) d n := by
  intro x a
  rw [hn x a]
  constructor
  · intro h
    obtain ⟨y, hy, hgy⟩ := h
    obtain ⟨k, hk, rfl⟩ := (hm y a).mp hy
    exact ⟨k, hk, hgy⟩
  · intro h
    obtain ⟨k, hk, hgk⟩ := h
    exact ⟨f k, (hm (f k) a).mpr ⟨k, hk, rfl⟩, hgk⟩

theorem congr (hm : Renames f d m) (hfg : ∀ k ∈ d, f k = g k) : Renames g d m := by
  intro x a
  rw [hm x a]
  refine exists_congr fun k => and_congr_right fun hk => ?_
  have hmem : k ∈ d := AList.lookup_isSome.mp (Option.isSome_of_mem hk)
  rw [hfg k hmem]

theorem lookup (hm : Renames f d m) {k : K} (hk : k ∈ d) :
    ∃ a, a ∈ m.lookup (f k) := by
  obtain ⟨a, ha⟩ := Option.isSome_iff_exists.mp (AList.lookup_isSome.mpr hk)
  exact ⟨a, (hm (f k) a).mpr ⟨k, ha, rfl⟩⟩

/-- One key goes, and what it stood for gets another. -/
theorem insert_erase {k v : K} {value : V} (hvalue : value ∈ d.lookup k) (hne : v ≠ k)
    (hnew : v ∉ d) : Renames (Function.update id k v) d ((d.insert v value).erase k) := by
  intro x a
  constructor
  · intro ha
    by_cases hxk : x = k
    · rw [hxk, AList.lookup_erase] at ha
      cases ha
    · rw [AList.lookup_erase_ne hxk] at ha
      by_cases hxv : x = v
      · rw [hxv, AList.lookup_insert] at ha
        cases ha
        exact ⟨k, hvalue, by rw [Function.update_self, hxv]⟩
      · rw [AList.lookup_insert_ne hxv] at ha
        exact ⟨x, ha, Function.update_of_ne hxk v id⟩
  · intro h
    obtain ⟨y, hy, rfl⟩ := h
    by_cases hyk : y = k
    · subst hyk
      rw [Function.update_self, AList.lookup_erase_ne hne, AList.lookup_insert, ← hvalue]
      exact hy
    · have hyv : y ≠ v := by
        intro hyv
        rw [← AList.lookup_eq_none, ← hyv] at hnew
        rw [hnew] at hy
        cases hy
      rw [Function.update_of_ne hyk, id_eq, AList.lookup_erase_ne hyk, AList.lookup_insert_ne hyv]
      exact hy

theorem mem_lookup_foldl_insert (f : K → K) {l : List (Σ _ : K, V)}
    (hl : l.Pairwise fun e e' => f e.1 ≠ f e'.1) (m : AList fun _ : K => V) (x : K) (a : V) :
    a ∈ (l.foldl (fun m e => m.insert (f e.1) e.2) m).lookup x ↔
      (∃ e ∈ l, e.2 = a ∧ f e.1 = x) ∨ (∀ e ∈ l, f e.1 ≠ x) ∧ a ∈ m.lookup x := by
  induction l generalizing m with
  | nil => simp
  | cons e l ih =>
    obtain ⟨he, hl⟩ := List.pairwise_cons.mp hl
    rw [List.foldl_cons, ih hl]
    by_cases hx : f e.1 = x
    · have hlater : ∀ e' ∈ l, f e'.1 ≠ x := fun e' he' hsame => he e' he' (hx.trans hsame.symm)
      subst hx
      have hnone : ¬∃ e' ∈ l, e'.2 = a ∧ f e'.1 = f e.1 :=
        fun h => h.elim fun e' he' => hlater e' he'.1 he'.2.2
      simp [AList.lookup_insert, hnone]
      exact fun _ => hlater
    · rw [AList.lookup_insert_ne (Ne.symm hx)]
      simp [hx]

/-- A map is filled with the entries of another one under new keys. -/
theorem foldl_insert (hf : ∀ k₁ ∈ d, ∀ k₂ ∈ d, f k₁ = f k₂ → k₁ = k₂) :
    Renames f d (d.entries.foldl (fun m e => m.insert (f e.1) e.2) ∅) := by
  have hmem {e : Σ _ : K, V} (he : e ∈ d.entries) : e.1 ∈ d :=
    AList.mem_keys.mpr (List.mem_map_of_mem he)
  have hpairwise : d.entries.Pairwise fun e e' => f e.1 ≠ f e'.1 := by
    have hkeys := List.nodupKeys_iff_pairwise.mp d.nodupKeys
    refine hkeys.imp_of_mem ?_
    intro e e' he he' hne hsame
    exact hne (hf _ (hmem he) _ (hmem he') hsame)
  intro x a
  rw [mem_lookup_foldl_insert f hpairwise, AList.lookup_empty]
  constructor
  · intro h
    rcases h with ⟨e, he, rfl, hx⟩ | ⟨_, hnone⟩
    · exact ⟨e.1, AList.mem_lookup_iff.mpr he, hx⟩
    · cases hnone
  · intro h
    obtain ⟨k, hk, hx⟩ := h
    exact .inl ⟨⟨k, a⟩, AList.mem_lookup_iff.mp hk, rfl, hx⟩

end Renames

end HackerUnion.Lists
