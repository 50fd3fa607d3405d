import Mathlib.Data.List.Nodup

namespace HackerUnion.Durable

/-- Rows with a key, no two rows with the same one. -/
structure Table (α : Type) (key : α → Nat) where
  rows : List α
  nodup : (rows.map key).Nodup

namespace Table

variable {α : Type} {key : α → Nat}

def empty : Table α key := ⟨[], List.nodup_nil⟩

def find? (t : Table α key) (k : Nat) : Option α := t.rows.find? (fun r => key r = k)

/-- The rows once a row is in the place of the one with its key, or is the last where there is
none. -/
def put (key : α → Nat) (r : α) : List α → List α
  | [] => [r]
  | x :: xs => if key x = key r then r :: xs else x :: put key r xs

theorem map_put (r : α) (xs : List α) :
    (put key r xs).map key =
      if key r ∈ xs.map key then xs.map key else xs.map key ++ [key r] := by
  induction xs with
  | nil => simp [put]
  | cons x xs ih =>
    by_cases hx : key x = key r
    · simp [put, hx]
    · have hne : key r ≠ key x := fun h => hx h.symm
      simp only [put, hx, if_false, List.map_cons, ih, List.mem_cons, hne, false_or]
      split <;> simp

theorem put_of_not_mem {r : α} {xs : List α} (h : key r ∉ xs.map key) :
    put key r xs = xs ++ [r] := by
  induction xs with
  | nil => rfl
  | cons x xs ih =>
    rw [List.map_cons, List.mem_cons, not_or] at h
    rw [put, if_neg (Ne.symm h.1), ih h.2, List.cons_append]

theorem nodup_put (r : α) {xs : List α} (h : (xs.map key).Nodup) :
    ((put key r xs).map key).Nodup := by
  rw [map_put]
  split
  · exact h
  · rename_i hmem
    exact List.nodup_append.mpr ⟨h, List.nodup_singleton _, by
      intro a ha b hb hab
      rw [List.mem_singleton.mp hb] at hab
      exact hmem (hab ▸ ha)⟩

def save (t : Table α key) (r : α) : Table α key := ⟨put key r t.rows, nodup_put r t.nodup⟩

def ofList (rows : List α) : Table α key := rows.foldl save empty

/-- A key that no row has. -/
def nextKey (t : Table α key) : Nat := (t.rows.map key).foldr max 0 + 1

section Find

variable {t : Table α key} {r x : α} {k : Nat}

theorem find?_eq_some_iff : t.find? k = some r ↔ r ∈ t.rows ∧ key r = k := by
  constructor
  · intro h
    exact ⟨List.mem_of_find?_eq_some h, by simpa using List.find?_some h⟩
  · intro h
    obtain ⟨hmem, hkey⟩ := h
    obtain ⟨y, hy⟩ := Option.isSome_iff_exists.mp
      (List.find?_isSome (p := fun r => decide (key r = k)) |>.mpr ⟨r, hmem, by simpa using hkey⟩)
    have hkey' : key y = k := by simpa using List.find?_some hy
    have heq := List.inj_on_of_nodup_map t.nodup (List.mem_of_find?_eq_some hy) hmem
      (hkey'.trans hkey.symm)
    rw [find?, hy, heq]

theorem find?_of_mem (h : r ∈ t.rows) : t.find? (key r) = some r :=
  find?_eq_some_iff.mpr ⟨h, rfl⟩

theorem find?_eq_none_iff : t.find? k = none ↔ ∀ r ∈ t.rows, key r ≠ k := by
  simp [find?, List.find?_eq_none]

/-- A key has one row. -/
theorem eq_of_key (hr : r ∈ t.rows) (hx : x ∈ t.rows) (h : key r = key x) : r = x :=
  List.inj_on_of_nodup_map t.nodup hr hx h

theorem mem_put {xs : List α} (h : (xs.map key).Nodup) :
    x ∈ put key r xs ↔ x = r ∨ (x ∈ xs ∧ key x ≠ key r) := by
  induction xs with
  | nil => simp [put]
  | cons y ys ih =>
    obtain ⟨hy, hys⟩ := List.nodup_cons.mp h
    by_cases hkey : key y = key r
    · have hne : x ∈ ys → key x ≠ key r := by
        intro hx hxr
        exact hy (List.mem_map.mpr ⟨x, hx, hxr.trans hkey.symm⟩)
      simp only [put, hkey, if_true, List.mem_cons]
      constructor
      · intro hx
        rcases hx with hx | hx
        · exact Or.inl hx
        · exact Or.inr ⟨Or.inr hx, hne hx⟩
      · intro hx
        rcases hx with hx | ⟨hx | hx, hxr⟩
        · exact Or.inl hx
        · exact absurd (hx ▸ hkey) hxr
        · exact Or.inr hx
    · simp only [put, hkey, if_false, List.mem_cons, ih hys]
      constructor
      · intro hx
        rcases hx with hx | hx | ⟨hx, hxr⟩
        · exact Or.inr ⟨Or.inl hx, hx ▸ hkey⟩
        · exact Or.inl hx
        · exact Or.inr ⟨Or.inr hx, hxr⟩
      · intro hx
        rcases hx with hx | ⟨hx | hx, hxr⟩
        · exact Or.inr (Or.inl hx)
        · exact Or.inl hx
        · exact Or.inr (Or.inr ⟨hx, hxr⟩)

/-- Of rows among which the new one is not, the ones with its key are left out. -/
theorem filter_put {p : α → Bool} {xs : List α} (h : (xs.map key).Nodup) (hr : p r = false)
    (hmem : key r ∈ xs.map key) :
    (put key r xs).filter p = (xs.filter p).filter fun x => key x ≠ key r := by
  induction xs with
  | nil => cases hmem
  | cons y ys ih =>
    obtain ⟨hy, hys⟩ := List.nodup_cons.mp h
    by_cases hkey : key y = key r
    · have hothers : (ys.filter p).filter (fun x => key x ≠ key r) = ys.filter p := by
        rw [List.filter_eq_self]
        intro x hx
        have hne : key x ≠ key y := fun heq =>
          hy (heq ▸ List.mem_map_of_mem (List.mem_of_mem_filter hx))
        simpa [← hkey] using hne
      rw [put, if_pos hkey, List.filter_cons, hr, if_neg Bool.false_ne_true, List.filter_cons]
      cases p y with
      | false => exact hothers.symm
      | true =>
        rw [if_pos rfl, List.filter_cons, if_neg (by simpa using hkey)]
        exact hothers.symm
    · have hmem' : key r ∈ ys.map key := by
        rcases List.mem_cons.mp hmem with heq | hmem
        · exact absurd heq.symm hkey
        · exact hmem
      have hrest := ih hys hmem'
      rw [put, if_neg hkey, List.filter_cons, List.filter_cons, hrest]
      cases p y with
      | false => rfl
      | true => simp [hkey]

theorem mem_save : x ∈ (t.save r).rows ↔ x = r ∨ (x ∈ t.rows ∧ key x ≠ key r) := mem_put t.nodup

theorem find?_save : (t.save r).find? k = if key r = k then some r else t.find? k := by
  split
  · rename_i h
    exact find?_eq_some_iff.mpr ⟨mem_save.mpr (Or.inl rfl), h⟩
  · rename_i h
    cases hf : t.find? k with
    | none =>
      refine find?_eq_none_iff.mpr ?_
      intro x hx hk
      rcases mem_save.mp hx with rfl | ⟨hmem, -⟩
      · exact h hk
      · exact find?_eq_none_iff.mp hf x hmem hk
    | some x =>
      obtain ⟨hmem, hk⟩ := find?_eq_some_iff.mp hf
      exact find?_eq_some_iff.mpr ⟨mem_save.mpr (Or.inr ⟨hmem, fun he => h (he ▸ hk)⟩), hk⟩

@[simp] theorem find?_save_self : (t.save r).find? (key r) = some r := by
  rw [find?_save, if_pos rfl]

theorem nextKey_lt (h : r ∈ t.rows) : key r < t.nextKey := by
  have hle {ks : List Nat} {k : Nat} (hk : k ∈ ks) : k ≤ ks.foldr max 0 := by
    induction ks with
    | nil => cases hk
    | cons j js ih =>
      simp only [List.foldr_cons]
      rcases List.mem_cons.mp hk with rfl | hk
      · omega
      · have := ih hk
        omega
  have := hle (List.mem_map_of_mem h (f := key))
  unfold nextKey
  omega

theorem find?_nextKey : t.find? t.nextKey = none := by
  refine find?_eq_none_iff.mpr ?_
  intro r hr hk
  have := nextKey_lt hr
  omega

end Find

section Count

variable {t : Table α key} {r : α} (p : α → Bool)

def count (t : Table α key) (p : α → Bool) : Nat := t.rows.countP p

theorem countP_put_le (r : α) (xs : List α) : (put key r xs).countP p ≤ xs.countP p + 1 := by
  induction xs with
  | nil => simp only [put, List.countP_cons, List.countP_nil]; split <;> omega
  | cons y ys ih =>
    unfold put
    split
    · simp only [List.countP_cons]
      split <;> split <;> omega
    · simp only [List.countP_cons]
      omega

theorem countP_put_le_of {xs : List α}
    (h : p r = true → ∃ x ∈ xs, key x = key r ∧ p x = true) :
    (xs.map key).Nodup → (put key r xs).countP p ≤ xs.countP p := by
  induction xs with
  | nil =>
    intro _
    cases hr : p r with
    | false => simp [put, hr]
    | true =>
      obtain ⟨x, hx, -⟩ := h hr
      cases hx
  | cons y ys ih =>
    intro hnodup
    obtain ⟨hy, hys⟩ := List.nodup_cons.mp hnodup
    unfold put
    by_cases hkey : key y = key r
    · have hp : p r = true → p y = true := by
        intro hr
        obtain ⟨x, hx, hxr, hpx⟩ := h hr
        rcases List.mem_cons.mp hx with rfl | hx
        · exact hpx
        · exact absurd (List.mem_map.mpr ⟨x, hx, hxr.trans hkey.symm⟩) hy
      simp only [hkey, if_true, List.countP_cons]
      split
      · rename_i hr
        simp [hp hr]
      · omega
    · simp only [hkey, if_false, List.countP_cons]
      have hrest : (put key r ys).countP p ≤ ys.countP p := by
        refine ih ?_ hys
        intro hr
        obtain ⟨x, hx, hxr, hpx⟩ := h hr
        rcases List.mem_cons.mp hx with rfl | hx
        · exact absurd hxr hkey
        · exact ⟨x, hx, hxr, hpx⟩
      omega

theorem count_save_le : (t.save r).count p ≤ t.count p + 1 := countP_put_le p r t.rows

/-- A row that counts in the place of one that does, or one that does not count, adds nothing. -/
theorem count_save_le_of (h : p r = true → ∃ x ∈ t.rows, key x = key r ∧ p x = true) :
    (t.save r).count p ≤ t.count p := countP_put_le_of p h t.nodup

end Count

end Table

end HackerUnion.Durable
