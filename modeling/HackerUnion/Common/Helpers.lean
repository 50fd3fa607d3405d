import HackerUnion.Bash.Text
import HackerUnion.Lists.Renaming

namespace HackerUnion.Common

open Bash (Text text)
open HackerUnion.Lists (Renames)

variable {K V : Type} [DecidableEq K]

/-- One round of the loop that renames in place. -/
def remapStep (d : AList fun _ : K => V) (entry : Σ _ : K, K) : AList fun _ : K => V :=
  match d.lookup entry.1 with
  | none => d
  | some value => (d.insert entry.2 value).erase entry.1

/-- A dictionary is its entries in the order in which they are gone through. -/
def remap (d : AList fun _ : K => V) (keys : AList fun _ : K => K) (inplace : Bool := true) :
    AList fun _ : K => V :=
  if inplace then keys.entries.foldl remapStep d
  else
    d.entries.foldl (fun nxt entry =>
      match keys.lookup entry.1 with
      | some v => nxt.insert v entry.2
      | none => nxt.insert entry.1 entry.2) ∅

def iremap (iterable : List (AList fun _ : K => V)) (keys : AList fun _ : K => K)
    (inplace : Bool := true) : List (AList fun _ : K => V) :=
  iterable.map fun d => remap d keys inplace

/-- No key of the dictionary becomes itself, or a key that is only reached afterwards. -/
def Settled (d : AList fun _ : K => V) (entries : List (Σ _ : K, K)) : Prop :=
  ∀ before (entry : Σ _ : K, K) after, entries = before ++ entry :: after → entry.1 ∈ d →
    entry.2 ∉ List.keys (entry :: after)

/-- No two keys become the same one. -/
def Injective (entries : List (Σ _ : K, K)) : Prop :=
  ∀ e ∈ entries, ∀ e' ∈ entries, e.2 = e'.2 → e.1 = e'.1

/-- A key that others become is not left in its place. -/
def Touched (d : AList fun _ : K => V) (entries : List (Σ _ : K, K)) : Prop :=
  ∀ entry ∈ entries, entry.2 ∈ d → entry.2 ∈ entries.keys

/-- The key that a key becomes. -/
def renamed (entries : List (Σ _ : K, K)) (k : K) : K := (entries.dlookup k).getD k

variable {d : AList fun _ : K => V} {entries : List (Σ _ : K, K)} {entry : Σ _ : K, K}

theorem remapStep_of_notMem (h : entry.1 ∉ d) : remapStep d entry = d := by
  rw [remapStep, AList.lookup_eq_none.mpr h]

theorem mem_remapStep {k : K} (hk : k ≠ entry.1) (hv : entry.1 ∈ d → k ≠ entry.2) :
    k ∈ remapStep d entry ↔ k ∈ d := by
  by_cases hentry : entry.1 ∈ d
  · obtain ⟨value, hvalue⟩ := Option.isSome_iff_exists.mp (AList.lookup_isSome.mpr hentry)
    rw [remapStep, hvalue]
    simp [AList.mem_erase, AList.mem_insert, hk, hv hentry]
  · rw [remapStep_of_notMem hentry]

theorem of_mem_remapStep {k : K} (h : k ∈ remapStep d entry) :
    k ≠ entry.1 ∧ (k = entry.2 ∨ k ∈ d) := by
  by_cases hentry : entry.1 ∈ d
  · obtain ⟨value, hvalue⟩ := Option.isSome_iff_exists.mp (AList.lookup_isSome.mpr hentry)
    rw [remapStep, hvalue] at h
    exact ⟨(AList.mem_erase.mp h).1, (AList.mem_insert _).mp (AList.mem_erase.mp h).2⟩
  · rw [remapStep_of_notMem hentry] at h
    exact ⟨fun hsame => hentry (hsame ▸ h), .inr h⟩

theorem renames_remapStep (hne : entry.1 ∈ d → entry.2 ≠ entry.1)
    (hnew : entry.1 ∈ d → entry.2 ∉ d) :
    Renames (Function.update id entry.1 entry.2) d (remapStep d entry) := by
  by_cases hentry : entry.1 ∈ d
  · obtain ⟨value, hvalue⟩ := Option.isSome_iff_exists.mp (AList.lookup_isSome.mpr hentry)
    rw [remapStep, hvalue]
    exact Renames.insert_erase hvalue (hne hentry) (hnew hentry)
  · rw [remapStep_of_notMem hentry]
    refine (Renames.refl d).congr fun k hk => ?_
    have hkey : k ≠ entry.1 := fun hsame => hentry (hsame ▸ hk)
    rw [Function.update_of_ne hkey]

/-- Where no key comes back before its turn, the loop renames all of them. -/
theorem renames_foldl (hdistinct : entries.NodupKeys) (hinjective : Injective entries)
    (htouched : Touched d entries) (hsettled : Settled d entries) :
    Renames (renamed entries) d (entries.foldl remapStep d) := by
  induction entries generalizing d with
  | nil => exact (Renames.refl d).congr fun k _ => rfl
  | cons entry entries ih =>
    obtain ⟨hkey, hdistinct⟩ := List.nodupKeys_cons.mp hdistinct
    have hfresh {e : Σ _ : K, K} (he : e ∈ entries) : e.2 ≠ entry.2 := by
      intro hsame
      have hkeys := hinjective e (List.mem_cons_of_mem _ he) entry List.mem_cons_self hsame
      exact hkey (hkeys ▸ List.mem_keys_of_mem he)
    have hlater := hsettled [] entry entries rfl
    have hne (hentry : entry.1 ∈ d) : entry.2 ≠ entry.1 := by
      intro hsame
      exact hlater hentry (by simp [hsame])
    have hnew (hentry : entry.1 ∈ d) : entry.2 ∉ d :=
      fun hmem => hlater hentry (htouched entry List.mem_cons_self hmem)
    have hstep := renames_remapStep hne hnew
    -- the keys whose turns come are those of `d`, so what holds of it still holds
    have hkeep {k : K} (hk : k ∈ entries.keys) : k ∈ remapStep d entry ↔ k ∈ d := by
      apply mem_remapStep
      · exact fun hsame => hkey (hsame ▸ hk)
      · exact fun hentry hsame => hlater hentry (List.mem_cons_of_mem _ (hsame ▸ hk))
    have hrest : Renames (renamed entries) (remapStep d entry)
        (entries.foldl remapStep (remapStep d entry)) := by
      apply ih hdistinct
      · exact fun e he e' he' =>
          hinjective e (List.mem_cons_of_mem _ he) e' (List.mem_cons_of_mem _ he')
      · intro e he hmem
        obtain ⟨hdone, hsame | hmem⟩ := of_mem_remapStep hmem
        · exact absurd hsame (hfresh he)
        · have hkeys := htouched e (List.mem_cons_of_mem _ he) hmem
          rw [List.keys_cons, List.mem_cons] at hkeys
          exact hkeys.resolve_left hdone
      · intro before e after heq hmem
        have he : e.1 ∈ entries.keys := by simp [heq]
        have hwhole : entry :: entries = entry :: before ++ e :: after := by
          rw [heq, List.cons_append]
        exact hsettled (entry :: before) e after hwhole ((hkeep he).mp hmem)
    refine (hstep.trans hrest).congr fun k hk => ?_
    rw [Function.comp_apply, renamed, renamed]
    by_cases hsame : k = entry.1
    · subst hsame
      have hnone : entries.dlookup entry.2 = none := by
        rw [List.dlookup_eq_none]
        exact fun h => hlater hk (List.mem_cons_of_mem _ h)
      rw [Function.update_self, hnone, List.dlookup_cons_eq]
      rfl
    · rw [Function.update_of_ne hsame, id_eq, List.dlookup_cons_ne _ _ hsame]

theorem renamed_of_mem (hdistinct : entries.NodupKeys) (h : entry ∈ entries) :
    renamed entries entry.1 = entry.2 := by
  rw [renamed, List.mem_dlookup hdistinct h]
  rfl

theorem exists_renamed (entries : List (Σ _ : K, K)) (k : K) :
    (∃ entry ∈ entries, entry.1 = k ∧ renamed entries k = entry.2) ∨
      k ∉ entries.keys ∧ renamed entries k = k := by
  cases hlookup : entries.dlookup k with
  | none => exact .inr ⟨List.dlookup_eq_none.mp hlookup, by rw [renamed, hlookup]; rfl⟩
  | some v =>
    refine .inl ⟨⟨k, v⟩, List.of_mem_dlookup hlookup, rfl, ?_⟩
    rw [renamed, hlookup]
    rfl

/-- The keys of the dictionary stay different. -/
theorem renamed_injective (hinjective : Injective entries) (htouched : Touched d entries) :
    ∀ k₁ ∈ d, ∀ k₂ ∈ d, renamed entries k₁ = renamed entries k₂ → k₁ = k₂ := by
  intro k₁ h₁ k₂ h₂ hsame
  rcases exists_renamed entries k₁ with ⟨e₁, he₁, rfl, hv₁⟩ | ⟨hk₁, hv₁⟩ <;>
  rcases exists_renamed entries k₂ with ⟨e₂, he₂, rfl, hv₂⟩ | ⟨hk₂, hv₂⟩ <;>
  rw [hv₁, hv₂] at hsame
  · exact hinjective e₁ he₁ e₂ he₂ hsame
  · exact absurd (hsame ▸ htouched e₁ he₁ (hsame ▸ h₂)) hk₂
  · exact absurd (hsame ▸ htouched e₂ he₂ (hsame ▸ h₁)) hk₁
  · exact hsame

theorem renames_remap_copy {keys : AList fun _ : K => K} (hinjective : Injective keys.entries)
    (htouched : Touched d keys.entries) :
    Renames (renamed keys.entries) d (remap d keys false) := by
  have hstep : remap d keys false =
      d.entries.foldl (fun nxt e => nxt.insert (renamed keys.entries e.1) e.2) ∅ := by
    rw [remap, if_neg (by decide)]
    refine congrFun (congrFun (congrArg _ (funext fun nxt => funext fun e => ?_)) _) _
    show _ = nxt.insert ((keys.lookup e.1).getD e.1) e.2
    cases keys.lookup e.1 <;> rfl
  rw [hstep]
  exact Renames.foldl_insert (renamed_injective hinjective htouched)

/-- A key that is gone comes back by a renaming only. -/
theorem notMem_foldl {x : K} (hx : x ∉ d) (hentries : ∀ e ∈ entries, e.2 ≠ x) :
    x ∉ entries.foldl remapStep d := by
  induction entries generalizing d with
  | nil => exact hx
  | cons e entries ih =>
    apply ih
    · intro hmem
      obtain ⟨_, hsame | hmem⟩ := of_mem_remapStep hmem
      · exact hentries e List.mem_cons_self hsame.symm
      · exact hx hmem
    · exact fun e' he' => hentries e' (List.mem_cons_of_mem _ he')

/-- What a key becomes is taken away again when that key's own turn comes. -/
theorem notMem_foldl_cons (hdistinct : List.NodupKeys (entry :: entries))
    (hinjective : Injective (entry :: entries)) (hlater : entry.2 ∈ List.keys (entry :: entries)) :
    entry.2 ∉ (entry :: entries).foldl remapStep d := by
  obtain ⟨later, hmem, hkey⟩ := List.mem_map.mp hlater
  obtain ⟨before, after, hsplit⟩ := List.append_of_mem hmem
  have hafter : ∀ e ∈ after, e ∈ entries := by
    intro e he
    cases before with
    | nil =>
      obtain ⟨_, rfl⟩ := List.cons.inj hsplit
      exact he
    | cons _ before =>
      obtain ⟨_, rfl⟩ := List.cons.inj hsplit
      exact List.mem_append_right before (List.mem_cons_of_mem later he)
  rw [hsplit, List.foldl_append, List.foldl_cons]
  apply notMem_foldl
  · rw [← hkey]
    exact fun h => (of_mem_remapStep h).1 rfl
  · intro e he hsame
    have hkeys := hinjective e (List.mem_cons_of_mem _ (hafter e he)) entry List.mem_cons_self hsame
    exact (List.nodupKeys_cons.mp hdistinct).1 (hkeys ▸ List.mem_keys_of_mem (hafter e he))

theorem remap_inplace_of_settled {keys : AList fun _ : K => K} (hinjective : Injective keys.entries)
    (htouched : Touched d keys.entries) (hsettled : Settled d keys.entries) (k : K) :
    (remap d keys true).lookup k = (remap d keys false).lookup k := by
  have hinplace := renames_foldl keys.nodupKeys hinjective htouched hsettled
  exact hinplace.lookup_eq (renames_remap_copy hinjective htouched) k

/-- Renaming in place agrees with copying where, in the order of the keys, none becomes itself or a
key that is still to come. -/
theorem remap_inplace_iff (d : AList fun _ : K => V) (keys : AList fun _ : K => K)
    (hinjective : Injective keys.entries) (htouched : Touched d keys.entries) :
    (∀ k, (remap d keys true).lookup k = (remap d keys false).lookup k) ↔
      Settled d keys.entries := by
  constructor
  · intro hsame before entry after hsplit hmem hlater
    have hpart : (entry :: after).Sublist keys.entries := by
      rw [hsplit]
      exact List.sublist_append_right before _
    have hgone : entry.2 ∉ remap d keys true := by
      rw [remap, if_pos rfl, hsplit, List.foldl_append]
      exact notMem_foldl_cons (keys.nodupKeys.sublist hpart)
        (fun e he e' he' => hinjective e (hpart.subset he) e' (hpart.subset he')) hlater
    have hentry : entry ∈ keys.entries := hpart.subset List.mem_cons_self
    obtain ⟨value, hvalue⟩ := (renames_remap_copy hinjective htouched).lookup hmem
    rw [renamed_of_mem keys.nodupKeys hentry, ← hsame, AList.lookup_eq_none.mpr hgone] at hvalue
    cases hvalue
  · exact fun hsettled k => remap_inplace_of_settled hinjective htouched hsettled k

/-- Three fields, of which two are renamed, the second to what the first was. -/
def fields : AList fun _ : Text => Nat :=
  ((AList.singleton (text "id") 1).insert (text "name") 2).insert (text "age") 3

def spellings : AList fun _ : Text => Text :=
  (AList.singleton (text "name") (text "id")).insert (text "id") (text "user")

theorem remap_inplace_fields :
    (∀ k, (remap fields spellings true).lookup k = (remap fields spellings false).lookup k) ↔
      Settled fields spellings.entries :=
  remap_inplace_iff fields spellings (by unfold Injective; decide) (by unfold Touched; decide)

theorem remap_inplace_identity :
    ¬∀ (d : AList fun _ : Text => Nat) (keys : AList fun _ : Text => Text),
      Injective keys.entries → Touched d keys.entries →
        ∀ k, (remap d keys true).lookup k = (remap d keys false).lookup k := by
  intro hall
  have hsame := hall (AList.singleton (text "id") 1) (AList.singleton (text "id") (text "id"))
    (by unfold Injective; decide) (by unfold Touched; decide) (text "id")
  exact absurd hsame (by decide)

theorem iremap_inplace (iterable : List (AList fun _ : K => V)) (keys : AList fun _ : K => K)
    (hinjective : Injective keys.entries) (htouched : ∀ d ∈ iterable, Touched d keys.entries)
    (hsettled : ∀ d ∈ iterable, Settled d keys.entries) :
    List.Forall₂ (fun m n => ∀ k, m.lookup k = n.lookup k)
      (iremap iterable keys true) (iremap iterable keys false) := by
  rw [iremap, iremap, List.forall₂_map_left_iff, List.forall₂_map_right_iff, List.forall₂_same]
  exact fun d hd => remap_inplace_of_settled hinjective (htouched d hd) (hsettled d hd)

end HackerUnion.Common
