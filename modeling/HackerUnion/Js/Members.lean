import HackerUnion.Js.Lodash

namespace Js

variable {K V W : Type} [DecidableEq K]

theorem Entries.set_of_not_mem {k : K} {es : List (K × V)} (h : k ∉ es.map Prod.fst) (v : V) :
    Entries.set k v es = es ++ [(k, v)] := by
  induction es with
  | nil => rfl
  | cons e es ih =>
    rw [List.map_cons, List.mem_cons, not_or] at h
    obtain ⟨j, u⟩ := e
    rw [Entries.set, if_neg (Ne.symm h.1), ih h.2]
    rfl

theorem Entries.get_of_mem {k : K} {v : V} {es : List (K × V)} (hn : (es.map Prod.fst).Nodup)
    (h : (k, v) ∈ es) : Entries.get k es = some v := by
  induction es with
  | nil => cases h
  | cons e es ih =>
    obtain ⟨j, u⟩ := e
    rw [List.map_cons, List.nodup_cons] at hn
    rcases List.mem_cons.mp h with heq | hmem
    · obtain ⟨rfl, rfl⟩ := Prod.mk.inj heq
      rw [Entries.get, if_pos rfl]
    · have hk : k ∈ es.map Prod.fst := List.mem_map_of_mem hmem
      have hj : j ≠ k := fun heq => hn.1 (heq ▸ hk)
      rw [Entries.get, if_neg hj, ih hn.2 hmem]

namespace Obj

/-- The object to which these were assigned, one after the other. -/
def ofEntries (es : List (K × V)) : Obj K V := es.foldl (fun o e => o.set e.1 e.2) empty

theorem entries_foldl (o : Obj K V) (es : List (K × V))
    (h : ((o.entries ++ es).map Prod.fst).Nodup) :
    (es.foldl (fun o e => o.set e.1 e.2) o).entries = o.entries ++ es := by
  induction es generalizing o with
  | nil => simp
  | cons e es ih =>
    have hnew : e.1 ∉ o.entries.map Prod.fst := by
      rw [List.map_append, List.map_cons, List.nodup_append] at h
      intro hmem
      exact h.2.2 _ hmem _ List.mem_cons_self rfl
    have hset : (o.set e.1 e.2).entries = o.entries ++ [e] := Entries.set_of_not_mem hnew e.2
    have hrest : (((o.set e.1 e.2).entries ++ es).map Prod.fst).Nodup := by
      rw [hset, List.append_assoc]
      exact h
    rw [List.foldl_cons, ih _ hrest, hset, List.append_assoc]
    rfl

theorem entries_ofEntries {es : List (K × V)} (h : (es.map Prod.fst).Nodup) :
    (ofEntries es).entries = es := entries_foldl empty es h

omit [DecidableEq K] in
theorem eq_of_entries {o o' : Obj K V} (h : o.entries = o'.entries) : o = o' := by
  cases o
  cases o'
  cases h
  rfl

@[simp] theorem ofEntries_entries (o : Obj K V) : ofEntries o.entries = o :=
  eq_of_entries (entries_ofEntries o.nodup)

theorem get_of_mem {o : Obj K V} {e : K × V} (h : e ∈ o.entries) : o.get e.1 = some e.2 :=
  Entries.get_of_mem o.nodup h

omit [DecidableEq K] in
@[simp] theorem keys_mapValues (f : V → W) (o : Obj K V) : (mapValues f o).keys = o.keys := by
  simp [keys, mapValues, Function.comp_def]

theorem keys_set (o : Obj K V) (k : K) (v : V) :
    (o.set k v).keys = if o.has k then o.keys else o.keys ++ [k] := by
  have hentries (es : List (K × V)) : (Entries.set k v es).map Prod.fst =
      if k ∈ es.map Prod.fst then es.map Prod.fst else es.map Prod.fst ++ [k] := by
    induction es with
    | nil => rfl
    | cons e es ih =>
      obtain ⟨j, u⟩ := e
      by_cases hj : j = k
      · simp [Entries.set, hj]
      · have hk : k ≠ j := Ne.symm hj
        simp only [Entries.set, hj, if_false, List.map_cons, ih, List.mem_cons, hk, false_or]
        split <;> rfl
  have hmem := o.mem_keys k
  rw [keys] at hmem
  simp only [keys, set, hentries, hmem]

theorem keys_erase (o : Obj K V) (k : K) : (o.erase k).keys = o.keys.filter (· ≠ k) := by
  have hentries (es : List (K × V)) :
      (Entries.erase k es).map Prod.fst = (es.map Prod.fst).filter (· ≠ k) := by
    induction es with
    | nil => rfl
    | cons e es ih =>
      obtain ⟨j, u⟩ := e
      by_cases hj : j = k <;> simp [Entries.erase, hj, ih]
  exact hentries o.entries

end Obj

/-- What `Object.keys` makes of the keys as they were added. -/
def ordered (ks : List String) : List String :=
  ((ks.filterMap arrayIndex).insertionSort (· ≤ ·)).map toString ++
    ks.filter (fun k => (arrayIndex k).isNone)

section Ordered

variable {ks ks' : List String}

theorem ordered_perm (ks : List String) : (ordered ks).Perm ks := by
  have hsome : (ks.filterMap arrayIndex).map toString =
      ks.filter (fun k => (arrayIndex k).isSome) := by
    induction ks with
    | nil => rfl
    | cons k ks ih =>
      cases hk : arrayIndex k with
      | none => simp [hk, ih]
      | some n => simp [hk, ih, arrayIndex_some hk]
  have hsorted := ((ks.filterMap arrayIndex).perm_insertionSort (· ≤ ·)).map toString
  have hnot : (fun k => (arrayIndex k).isNone) = fun k => !(arrayIndex k).isSome := by
    funext k
    simp
  rw [ordered, hnot]
  exact ((hsome ▸ hsorted).append_right _).trans (List.filter_append_perm _ _)

theorem filter_ordered (ks : List String) :
    (ordered ks).filter (fun k => (arrayIndex k).isNone) =
      ks.filter (fun k => (arrayIndex k).isNone) := by
  have hindex : (((ks.filterMap arrayIndex).insertionSort (· ≤ ·)).map toString).filter
      (fun k => (arrayIndex k).isNone) = [] := by
    rw [List.filter_eq_nil_iff]
    intro k hk
    obtain ⟨n, hn, rfl⟩ := List.mem_map.mp hk
    obtain ⟨j, -, hj⟩ := List.mem_filterMap.mp ((List.mem_insertionSort _).mp hn)
    rw [arrayIndex_some hj, hj]
    simp
  rw [ordered, List.filter_append, hindex, List.nil_append, List.filter_filter]
  simp

/-- The order depends on which keys there are and on the order of those that are no array index. -/
theorem ordered_eq_iff : ordered ks = ordered ks' ↔ ks.Perm ks' ∧
    ks.filter (fun k => (arrayIndex k).isNone) = ks'.filter (fun k => (arrayIndex k).isNone) := by
  constructor
  · intro h
    refine ⟨(ordered_perm ks).symm.trans (h ▸ ordered_perm ks'), ?_⟩
    rw [← filter_ordered ks, h, filter_ordered ks']
  · intro h
    have hsort : (ks.filterMap arrayIndex).insertionSort (· ≤ ·) =
        (ks'.filterMap arrayIndex).insertionSort (· ≤ ·) := by
      apply List.Perm.eq_of_pairwise' (List.pairwise_insertionSort _ _)
        (List.pairwise_insertionSort _ _)
      exact (List.perm_insertionSort _ _).trans
        ((h.1.filterMap _).trans (List.perm_insertionSort _ _).symm)
    rw [ordered, ordered, hsort, h.2]

@[simp] theorem ordered_ordered (ks : List String) : ordered (ordered ks) = ordered ks :=
  ordered_eq_iff.mpr ⟨ordered_perm ks, filter_ordered ks⟩

theorem ordered_append (h : ordered ks = ordered ks') (k : String) :
    ordered (ks ++ [k]) = ordered (ks' ++ [k]) := by
  rw [ordered_eq_iff] at h ⊢
  simp [h.1.append_right, h.2]

theorem ordered_filter (h : ordered ks = ordered ks') (p : String → Bool) :
    ordered (ks.filter p) = ordered (ks'.filter p) := by
  rw [ordered_eq_iff] at h ⊢
  refine ⟨h.1.filter p, ?_⟩
  rw [List.filter_comm, h.2, List.filter_comm]

end Ordered

namespace Obj

variable (o : Obj String V) {o₁ : Obj String V} {o₂ : Obj String W}

theorem ownKeys_eq : o.ownKeys = ordered o.keys := rfl

theorem ownKeys_nodup : o.ownKeys.Nodup := (ordered_perm o.keys).nodup_iff.mpr o.nodup

theorem has_eq (h : o₁.ownKeys = o₂.ownKeys) (k : String) : o₁.has k = o₂.has k := by
  rw [Bool.eq_iff_iff, ← mem_ownKeys, ← mem_ownKeys, h]

theorem hasIn_eq (h : o₁.ownKeys = o₂.ownKeys) (k : String) : o₁.hasIn k = o₂.hasIn k := by
  rw [hasIn, hasIn, has_eq h]

theorem ownKeys_set (h : o₁.ownKeys = o₂.ownKeys) (k : String) (v : V) (w : W) :
    (o₁.set k v).ownKeys = (o₂.set k w).ownKeys := by
  rw [ownKeys_eq, ownKeys_eq, keys_set, keys_set, has_eq h]
  split
  · exact h
  · exact ordered_append h k

theorem ownKeys_erase (h : o₁.ownKeys = o₂.ownKeys) (k : String) :
    (o₁.erase k).ownKeys = (o₂.erase k).ownKeys := by
  rw [ownKeys_eq, ownKeys_eq, keys_erase, keys_erase]
  exact ordered_filter h _

@[simp] theorem ownKeys_mapValues (f : V → W) : (mapValues f o).ownKeys = o.ownKeys := by
  rw [ownKeys_eq, keys_mapValues, ownKeys_eq]

/-- The own members in the order in which they are listed. -/
def members : List (String × V) := o.ownKeys.filterMap fun k => (o.get k).map (k, ·)

theorem map_members : o.members.map Prod.fst = o.ownKeys := by
  have hall : ∀ k ∈ o.ownKeys, (o.get k).isSome = true := fun k hk => (o.mem_ownKeys k).mp hk
  rw [members]
  revert hall
  induction o.ownKeys with
  | nil => simp
  | cons k ks ih =>
    intro hall
    obtain ⟨hk, hks⟩ := List.forall_mem_cons.mp hall
    obtain ⟨v, hv⟩ := Option.isSome_iff_exists.mp hk
    simp [hv, ih hks]

theorem mem_members {e : String × V} : e ∈ o.members ↔ o.get e.1 = some e.2 := by
  rw [members, List.mem_filterMap]
  constructor
  · intro h
    obtain ⟨k, -, hk⟩ := h
    obtain ⟨v, hv, rfl⟩ := Option.map_eq_some_iff.mp hk
    exact hv
  · intro h
    exact ⟨e.1, (o.mem_ownKeys e.1).mpr (by simp [has, h]), by simp [h]⟩

/-- The members as they are listed, which is how they are written and read. -/
def listed : Obj String V := ofEntries o.members

theorem entries_listed : o.listed.entries = o.members :=
  entries_ofEntries (o.map_members ▸ o.ownKeys_nodup)

@[simp] theorem get_listed (k : String) : o.listed.get k = o.get k := by
  cases h : o.get k with
  | some v =>
    have hmem : (k, v) ∈ o.listed.entries := by
      rw [entries_listed, mem_members]
      exact h
    exact get_of_mem hmem
  | none =>
    have hnot : k ∉ o.listed.entries.map Prod.fst := by
      rw [entries_listed, map_members, mem_ownKeys]
      simp [has, h]
    exact (Entries.get_eq_none k _).mpr hnot

/-- They are listed in that order again. -/
@[simp] theorem ownKeys_listed : o.listed.ownKeys = o.ownKeys := by
  rw [ownKeys_eq, keys, entries_listed, map_members, ownKeys_eq, ordered_ordered]

theorem members_congr {o o' : Obj String V} (hkeys : o.ownKeys = o'.ownKeys)
    (hget : ∀ k, o.get k = o'.get k) : o.members = o'.members := by
  rw [members, members, hkeys]
  simp only [hget]

theorem listed_eq_iff {o o' : Obj String V} :
    o.listed = o'.listed ↔ o.ownKeys = o'.ownKeys ∧ ∀ k, o.get k = o'.get k := by
  constructor
  · intro h
    refine ⟨by rw [← o.ownKeys_listed, h, ownKeys_listed], ?_⟩
    intro k
    rw [← o.get_listed, h, get_listed]
  · intro h
    rw [listed, listed, members_congr h.1 h.2]

end Obj

end Js
