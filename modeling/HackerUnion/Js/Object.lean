import Mathlib.Data.List.Nodup
import Mathlib.Data.List.Sort
import Mathlib.Algebra.Group.Nat.Defs

namespace Js

variable {K V : Type} [DecidableEq K]

namespace Entries

def get (k : K) : List (K × V) → Option V
  | [] => none
  | (k', v) :: es => if k' = k then some v else get k es

/-- Assignment keeps the place of a key that is there and appends one that is not. -/
def set (k : K) (v : V) : List (K × V) → List (K × V)
  | [] => [(k, v)]
  | (k', v') :: es => if k' = k then (k, v) :: es else (k', v') :: set k v es

def erase (k : K) : List (K × V) → List (K × V)
  | [] => []
  | e :: es => if e.1 = k then erase k es else e :: erase k es

theorem get_set (k k' : K) (v : V) (es : List (K × V)) :
    get k' (set k v es) = if k' = k then some v else get k' es := by
  induction es with
  | nil => simp [set, get, eq_comm]
  | cons e es ih =>
    obtain ⟨j, u⟩ := e
    by_cases hj : j = k
    · subst hj
      by_cases hk : k' = j <;> simp [set, get, hk, eq_comm]
    · by_cases hk : k' = k
      · subst hk
        simp [set, get, hj, ih]
      · simp [set, get, hj, hk, ih]

theorem get_erase (k k' : K) (es : List (K × V)) :
    get k' (erase k es) = if k' = k then none else get k' es := by
  induction es with
  | nil => simp [erase, get]
  | cons e es ih =>
    obtain ⟨j, u⟩ := e
    by_cases hj : j = k
    · subst hj
      by_cases hk : k' = j
      · subst hk
        simpa [erase] using ih
      · simp [erase, get, hk, Ne.symm hk, ih]
    · by_cases hk : k' = k
      · subst hk
        simp [erase, get, hj, ih]
      · simp [erase, get, hj, hk, ih]

theorem erase_of_not_mem {k : K} {es : List (K × V)} (h : k ∉ es.map Prod.fst) :
    erase k es = es := by
  induction es with
  | nil => rfl
  | cons e es ih =>
    simp only [List.map_cons, List.mem_cons, not_or] at h
    simp [erase, Ne.symm h.1, ih h.2]

theorem erase_sublist (k : K) (es : List (K × V)) : (erase k es).Sublist es := by
  induction es with
  | nil => exact List.Sublist.refl _
  | cons e es ih =>
    by_cases he : e.1 = k
    · simpa [erase, he] using ih.cons e
    · simpa [erase, he] using ih.cons_cons e

theorem mem_keys_set (k k' : K) (v : V) (es : List (K × V)) :
    k' ∈ (set k v es).map Prod.fst ↔ k' = k ∨ k' ∈ es.map Prod.fst := by
  induction es with
  | nil => simp [set]
  | cons e es ih =>
    obtain ⟨j, u⟩ := e
    by_cases hj : j = k
    · subst hj
      simp [set]
    · simp only [set, hj, if_false, List.map_cons, List.mem_cons, ih]
      tauto

theorem nodup_set (k : K) (v : V) (es : List (K × V)) (h : (es.map Prod.fst).Nodup) :
    ((set k v es).map Prod.fst).Nodup := by
  induction es with
  | nil => simp [set]
  | cons e es ih =>
    obtain ⟨j, u⟩ := e
    obtain ⟨hn, ht⟩ := List.nodup_cons.mp h
    by_cases hj : j = k
    · subst hj
      simpa [set] using And.intro hn ht
    · simp only [set, hj, if_false, List.map_cons, List.nodup_cons, mem_keys_set]
      exact ⟨by simpa [hj] using hn, ih ht⟩

theorem nodup_erase (k : K) (es : List (K × V)) (h : (es.map Prod.fst).Nodup) :
    ((erase k es).map Prod.fst).Nodup :=
  h.sublist ((erase_sublist k es).map _)

theorem get_eq_none (k : K) (es : List (K × V)) : get k es = none ↔ k ∉ es.map Prod.fst := by
  induction es with
  | nil => simp [get]
  | cons e es ih =>
    obtain ⟨j, u⟩ := e
    by_cases hj : j = k
    · simp [get, hj]
    · simp [get, hj, Ne.symm hj, ih]

theorem mem_of_get {k : K} {v : V} {es : List (K × V)} (h : get k es = some v) : (k, v) ∈ es := by
  induction es with
  | nil => simp [get] at h
  | cons e es ih =>
    obtain ⟨j, u⟩ := e
    by_cases hj : j = k
    · subst hj
      simp only [get, if_true, Option.some.injEq] at h
      simp [h]
    · simp only [get, hj, if_false] at h
      exact List.mem_cons_of_mem _ (ih h)

variable (f : V → Bool)

def count (es : List (K × V)) : Nat := es.countP (fun e => f e.2)

theorem count_erase {k : K} {v : V} {es : List (K × V)} (hn : (es.map Prod.fst).Nodup)
    (h : get k es = some v) : count f (erase k es) + (f v).toNat = count f es := by
  induction es with
  | nil => simp [get] at h
  | cons e es ih =>
    obtain ⟨j, u⟩ := e
    obtain ⟨hj, ht⟩ := List.nodup_cons.mp hn
    by_cases hk : j = k
    · subst hk
      have hv : u = v := by simpa [get] using h
      subst hv
      have hcons : erase j ((j, u) :: es) = es := by
        simpa [erase] using erase_of_not_mem hj
      rw [hcons, count, count, List.countP_cons]
      cases f u <;> rfl
    · have ih' := ih ht (by simpa [get, hk] using h)
      have hcons : erase k ((j, u) :: es) = (j, u) :: erase k es := by simp [erase, hk]
      rw [hcons]
      simp only [count, List.countP_cons] at ih' ⊢
      omega

theorem count_set {k : K} {v : V} {es : List (K × V)} (h : get k es = none) :
    count f (set k v es) = count f es + (f v).toNat := by
  induction es with
  | nil => cases hv : f v <;> simp [set, count, hv]
  | cons e es ih =>
    obtain ⟨j, u⟩ := e
    by_cases hk : j = k
    · simp [get, hk] at h
    · have ih' := ih (by simpa [get, hk] using h)
      simp only [set, hk, if_false, count, List.countP_cons] at ih' ⊢
      omega

theorem count_set_le (k : K) (v : V) (es : List (K × V)) :
    count f (set k v es) ≤ count f es + (f v).toNat := by
  induction es with
  | nil => cases hv : f v <;> simp [set, count, hv]
  | cons e es ih =>
    obtain ⟨j, u⟩ := e
    by_cases hk : j = k
    · simp only [set, hk, if_true, count, List.countP_cons]
      cases f u <;> cases f v <;> simp
    · simp only [set, hk, if_false, count, List.countP_cons] at ih ⊢
      omega

end Entries

/-- The own properties of an object, in the order in which they were added. -/
structure Obj (K V : Type) where
  entries : List (K × V)
  nodup : (entries.map Prod.fst).Nodup
  deriving DecidableEq

namespace Obj

def empty : Obj K V := ⟨[], List.nodup_nil⟩

def get (o : Obj K V) (k : K) : Option V := Entries.get k o.entries

def has (o : Obj K V) (k : K) : Bool := (o.get k).isSome

def set (o : Obj K V) (k : K) (v : V) : Obj K V :=
  ⟨Entries.set k v o.entries, Entries.nodup_set k v o.entries o.nodup⟩

/-- The `delete` operator. -/
def erase (o : Obj K V) (k : K) : Obj K V :=
  ⟨Entries.erase k o.entries, Entries.nodup_erase k o.entries o.nodup⟩

def keys (o : Obj K V) : List K := o.entries.map Prod.fst

/-- How many of the values satisfy `f`. -/
def count (f : V → Bool) (o : Obj K V) : Nat := Entries.count f o.entries

variable (o : Obj K V) (k k' : K) (v : V)

@[simp] theorem get_empty : (empty : Obj K V).get k = none := rfl

theorem get_set : (o.set k v).get k' = if k' = k then some v else o.get k' :=
  Entries.get_set k k' v o.entries

theorem get_erase : (o.erase k).get k' = if k' = k then none else o.get k' :=
  Entries.get_erase k k' o.entries

@[simp] theorem get_set_self : (o.set k v).get k = some v := by simp [get_set]

@[simp] theorem get_erase_self : (o.erase k).get k = none := by simp [get_erase]

theorem get_set_ne {k k' : K} (h : k' ≠ k) : (o.set k v).get k' = o.get k' := by
  simp [get_set, h]

theorem get_erase_ne {k k' : K} (h : k' ≠ k) : (o.erase k).get k' = o.get k' := by
  simp [get_erase, h]

theorem mem_keys : k ∈ o.keys ↔ o.has k = true := by
  have h := Entries.get_eq_none k o.entries
  unfold has get keys
  cases hg : Entries.get k o.entries with
  | none => simpa using h.mp hg
  | some v => simpa using (Entries.mem_of_get hg : (k, v) ∈ o.entries) |> fun hm => ⟨v, hm⟩

variable {o k k' v}

theorem has_of_has_erase (h : (o.erase k).has k' = true) : o.has k' = true := by
  rw [has, get_erase] at h
  split at h
  · cases h
  · exact h

variable (f : V → Bool)

theorem count_erase (h : o.get k = some v) : (o.erase k).count f + (f v).toNat = o.count f :=
  Entries.count_erase f o.nodup h

theorem erase_of_get (h : o.get k = none) : o.erase k = o := by
  have hk := (Entries.get_eq_none k o.entries).mp h
  cases o
  simp [erase, Entries.erase_of_not_mem hk]

theorem count_erase_le (o : Obj K V) (k : K) : (o.erase k).count f ≤ o.count f := by
  cases h : o.get k with
  | none => rw [erase_of_get h]
  | some v =>
    have herase := count_erase f h
    omega

theorem count_set (h : o.get k = none) : (o.set k v).count f = o.count f + (f v).toNat :=
  Entries.count_set f h

theorem count_set_le : (o.set k v).count f ≤ o.count f + (f v).toNat :=
  Entries.count_set_le f k v o.entries

/-- Every value satisfies `P`. -/
def All (P : V → Prop) (o : Obj K V) : Prop := ∀ k v, o.get k = some v → P v

variable {P : V → Prop}

theorem all_set (h : o.All P) (hv : P v) (k : K) : (o.set k v).All P := by
  intro k' v' hg
  rw [get_set] at hg
  split at hg
  · cases hg
    exact hv
  · exact h k' v' hg

theorem all_erase (h : o.All P) (k : K) : (o.erase k).All P := by
  intro k' v' hg
  rw [get_erase] at hg
  split at hg
  · cases hg
  · exact h k' v' hg

end Obj

/-- The property names every object inherits from `Object.prototype`. -/
def inherited : List String :=
  ["constructor", "__defineGetter__", "__defineSetter__", "hasOwnProperty", "__lookupGetter__",
    "__lookupSetter__", "isPrototypeOf", "propertyIsEnumerable", "toString", "valueOf", "__proto__",
    "toLocaleString"]

/-- The operator `k in o`, which also sees inherited names. -/
def Obj.hasIn (o : Obj String V) (k : String) : Bool := o.has k || inherited.contains k

/-- The number an array index stands for: a canonical decimal numeral below `2 ^ 32 - 1`. -/
def arrayIndex (s : String) : Option Nat :=
  let n := s.toList.foldl (fun n c => 10 * n + (c.toNat - '0'.toNat)) 0
  if toString n = s ∧ n < 2 ^ 32 - 1 then some n else none

/-- `Object.keys`: array indices in ascending order, then the other keys as they were added. -/
def Obj.ownKeys (o : Obj String V) : List String :=
  ((o.keys.filterMap arrayIndex).insertionSort (· ≤ ·)).map toString ++
    o.keys.filter (fun k => (arrayIndex k).isNone)

theorem arrayIndex_some {s : String} {n : Nat} (h : arrayIndex s = some n) : toString n = s := by
  simp only [arrayIndex] at h
  split at h
  · rename_i hc
    cases h
    exact hc.1
  · cases h

theorem Obj.mem_ownKeys (o : Obj String V) (k : String) : k ∈ o.ownKeys ↔ o.has k = true := by
  rw [← mem_keys]
  simp only [ownKeys, List.mem_append, List.mem_map, List.mem_insertionSort, List.mem_filterMap,
    List.mem_filter, Option.isNone_iff_eq_none]
  constructor
  · intro hmem
    rcases hmem with ⟨n, ⟨k', hk, hn⟩, rfl⟩ | h
    · rw [arrayIndex_some hn]
      exact hk
    · exact h.1
  · intro hk
    cases hi : arrayIndex k with
    | none => exact Or.inr ⟨hk, rfl⟩
    | some n => exact Or.inl ⟨n, ⟨k, hk, hi⟩, arrayIndex_some hi⟩

theorem Obj.ownKeys_length (o : Obj String V) : o.ownKeys.length = o.keys.length := by
  have hsome : (o.keys.filterMap arrayIndex).length =
      o.keys.countP (fun k => (arrayIndex k).isSome) := List.length_filterMap_eq_countP
  have hnone : (o.keys.filter (fun k => (arrayIndex k).isNone)).length =
      o.keys.countP (fun k => decide (¬(arrayIndex k).isSome = true)) := by
    rw [← List.countP_eq_length_filter]
    exact List.countP_congr (fun k _ => by simp)
  have hall := List.length_eq_countP_add_countP (fun k => (arrayIndex k).isSome) (l := o.keys)
  simp only [ownKeys, List.length_append, List.length_map, List.length_insertionSort]
  rw [hsome, hnone]
  exact hall.symm

/-- `Object.values`. -/
def Obj.values (o : Obj String V) : List V := o.ownKeys.filterMap o.get

theorem Obj.mem_values (o : Obj String V) (v : V) : v ∈ o.values ↔ ∃ k, o.get k = some v := by
  rw [values, List.mem_filterMap]
  constructor
  · intro hmem
    obtain ⟨k, -, hk⟩ := hmem
    exact ⟨k, hk⟩
  · intro hget
    obtain ⟨k, hk⟩ := hget
    refine ⟨k, (mem_ownKeys o k).mpr ?_, hk⟩
    simp [has, hk]

end Js
