import HackerUnion.Durable.Table

namespace HackerUnion.Durable

/-- A table that counts its keys up: a key that has been given out is not given out again, also
when its row is gone. -/
structure Serial (α : Type) (key : α → Nat) extends Table α key where
  next : Nat
  lt_next : ∀ r ∈ rows, key r < next

namespace Serial

variable {α : Type} {key : α → Nat}

def empty : Serial α key := ⟨Table.empty, 1, fun _ h => absurd h List.not_mem_nil⟩

def find? (t : Serial α key) (k : Nat) : Option α := t.toTable.find? k

def save (t : Serial α key) (r : α) : Serial α key where
  toTable := t.toTable.save r
  next := max t.next (key r + 1)
  lt_next := by
    intro x hx
    rcases Table.mem_save.mp hx with rfl | ⟨hx, -⟩
    · omega
    · have := t.lt_next x hx
      omega

/-- The rows for which `p` does not hold. -/
def remove (t : Serial α key) (p : α → Bool) : Serial α key where
  rows := t.rows.filter fun r => !p r
  nodup := t.nodup.sublist (List.filter_sublist.map key)
  next := t.next
  lt_next := fun r h => t.lt_next r (List.mem_of_mem_filter h)

def ofList (rows : List α) : Serial α key := rows.foldl save empty

variable {t : Serial α key} {r x : α} {k : Nat} {p : α → Bool}

theorem find?_eq_some_iff : t.find? k = some r ↔ r ∈ t.rows ∧ key r = k := Table.find?_eq_some_iff

theorem find?_of_mem (h : r ∈ t.rows) : t.find? (key r) = some r := Table.find?_of_mem h

theorem find?_eq_none_iff : t.find? k = none ↔ ∀ r ∈ t.rows, key r ≠ k := Table.find?_eq_none_iff

theorem mem_save : x ∈ (t.save r).rows ↔ x = r ∨ (x ∈ t.rows ∧ key x ≠ key r) := Table.mem_save

@[simp] theorem mem_remove : x ∈ (t.remove p).rows ↔ x ∈ t.rows ∧ p x = false := by
  simp [remove]

@[simp] theorem next_remove : (t.remove p).next = t.next := rfl

theorem find?_save : (t.save r).find? k = if key r = k then some r else t.find? k :=
  Table.find?_save

theorem lt_next_of_find? (h : t.find? k = some r) : k < t.next := by
  obtain ⟨hmem, rfl⟩ := find?_eq_some_iff.mp h
  exact t.lt_next r hmem

/-- A row that is there keeps its place, and the keys stay as they are. -/
theorem map_save_of_find? (h : t.find? (key r) = some x) :
    (t.save r).rows.map key = t.rows.map key := by
  obtain ⟨hmem, hkey⟩ := find?_eq_some_iff.mp h
  have hkeys : key r ∈ t.rows.map key := List.mem_map.mpr ⟨x, hmem, hkey⟩
  change (Table.put key r t.rows).map key = _
  rw [Table.map_put, if_pos hkeys]

theorem next_save_of_find? (h : t.find? (key r) = some x) : (t.save r).next = t.next := by
  have := lt_next_of_find? h
  exact Nat.max_eq_left this

/-- A row with the next key is the last. -/
theorem map_save_next (h : key r = t.next) :
    (t.save r).rows.map key = t.rows.map key ++ [t.next] := by
  have hnot : key r ∉ t.rows.map key := by
    intro hmem
    obtain ⟨x, hx, hkey⟩ := List.mem_map.mp hmem
    have := t.lt_next x hx
    omega
  change (Table.put key r t.rows).map key = _
  rw [Table.map_put, if_neg hnot, h]

theorem rows_save_next (h : key r = t.next) : (t.save r).rows = t.rows ++ [r] := by
  refine Table.put_of_not_mem ?_
  intro hmem
  obtain ⟨x, hx, hkey⟩ := List.mem_map.mp hmem
  have := t.lt_next x hx
  omega

theorem next_save_next (h : key r = t.next) : (t.save r).next = t.next + 1 := by
  change max t.next (key r + 1) = t.next + 1
  omega

end Serial

end HackerUnion.Durable
