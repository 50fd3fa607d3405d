import HackerUnion.Minify.Packer
import Mathlib.Data.List.ReduceOption

namespace HackerUnion.Minify

open Js HackerUnion.Lists

/-! The dictionary of a script: its words in the order of their codes. -/

variable {script : Script} {codes j : Nat} {word : Word}

/-- A word that is none of so many codes. -/
def Free (codes : Nat) (word : Word) : Prop := ∀ j < codes, encode62 j ≠ word

/-- What is known of the keywords of a script. -/
structure Dictionary (script : Script) (keywords : Keywords) : Prop where
  nodup : keywords.sorted.Nodup
  mem : ∀ w, w ∈ keywords.sorted ↔ w ∈ runs isWord script
  own : ∀ j < keywords.sorted.length, encode62 j ∈ keywords.sorted →
    keywords.sorted[j]? = some (encode62 j)
  protectedWords : ∀ j, j ∈ keywords.protectedWords ↔
    j < keywords.sorted.length ∧ encode62 j ∈ keywords.sorted
  ordered : ∀ (i j : Nat) (u v : Word), i < j →
    keywords.sorted[i]? = some u → keywords.sorted[j]? = some v →
    Free keywords.sorted.length u → Free keywords.sorted.length v →
      (runs isWord script).count v ≤ (runs isWord script).count u

/-! ## The words and their counts -/

theorem count_foldl (ws : List Word) (t : Tally) :
    (ws.foldl Tally.add t).count word = t.count word + ws.count word := by
  induction ws generalizing t with
  | nil => rfl
  | cons w ws ih =>
    rw [List.foldl_cons, ih, List.count_cons]
    by_cases hw : w = word
    · subst hw
      simp [Tally.add]
      omega
    · simp [Tally.add, hw, Ne.symm hw]

theorem mem_unsorted_foldl (ws : List Word) (t : Tally) :
    word ∈ (ws.foldl Tally.add t).unsorted ↔ word ∈ t.unsorted ∨ word ∈ ws := by
  induction ws generalizing t with
  | nil => simp
  | cons w ws ih =>
    rw [List.foldl_cons, ih, List.mem_cons, Tally.add]
    split
    · next hin =>
      rw [List.contains_iff_mem] at hin
      constructor
      · exact fun h => h.imp_right Or.inr
      · intro h
        rcases h with h | rfl | h
        · exact Or.inl h
        · exact Or.inl hin
        · exact Or.inr h
    · rw [List.mem_append, List.mem_singleton, or_assoc]

theorem nodup_unsorted_foldl (ws : List Word) (t : Tally) (h : t.unsorted.Nodup) :
    (ws.foldl Tally.add t).unsorted.Nodup := by
  induction ws generalizing t with
  | nil => exact h
  | cons w ws ih =>
    rw [List.foldl_cons]
    refine ih _ ?_
    rw [Tally.add]
    split
    · exact h
    · next hin =>
      rw [List.contains_iff_mem] at hin
      refine List.nodup_append.mpr ⟨h, List.nodup_singleton w, fun a ha b hb => ?_⟩
      rw [List.mem_singleton] at hb
      exact fun heq => hin (hb ▸ heq ▸ ha)

variable {all : List Word}

theorem count_tally : (tally all).count word = all.count word := by
  rw [tally, count_foldl, List.count_reverse, Nat.zero_add]

theorem mem_tally : word ∈ (tally all).unsorted ↔ word ∈ all := by
  rw [tally, mem_unsorted_foldl, List.mem_reverse]
  simp

theorem nodup_tally : (tally all).unsorted.Nodup :=
  nodup_unsorted_foldl _ _ List.nodup_nil

/-! ## The words that are codes -/

theorem protectedAt_eq_some : protectedAt codes word = some j ↔ j < codes ∧ encode62 j = word := by
  rw [protectedAt]
  constructor
  · intro h
    exact ⟨List.mem_range.mp (List.mem_of_find?_eq_some h), by simpa using List.find?_some h⟩
  · intro h
    cases hfind : (List.range codes).find? fun j => encode62 j = word with
    | none =>
      have hno := List.find?_eq_none.mp hfind j (List.mem_range.mpr h.1)
      exact absurd h.2 (by simpa using hno)
    | some i =>
      have hi : encode62 i = word := by simpa using List.find?_some hfind
      rw [encode62_injective (hi.trans h.2.symm)]

theorem free_iff : Free codes word ↔ protectedAt codes word = none := by
  rw [Option.eq_none_iff_forall_ne_some]
  constructor
  · intro h j hj
    obtain ⟨hlt, hcode⟩ := protectedAt_eq_some.mp hj
    exact h j hlt hcode
  · intro h j hlt hcode
    exact h j (protectedAt_eq_some.mpr ⟨hlt, hcode⟩)

@[simp] theorem length_protect (sorted : List (Option Word)) :
    (protect codes sorted word).length = sorted.length := by
  rw [protect]
  split
  · exact List.length_set
  · rfl

theorem getElem?_protect {sorted : List (Option Word)} (hlength : sorted.length = codes) :
    (protect codes sorted word)[j]? =
      if j < codes ∧ encode62 j = word then some (some word) else sorted[j]? := by
  rw [protect]
  split
  · next i hi =>
    obtain ⟨hlt, hcode⟩ := protectedAt_eq_some.mp hi
    by_cases hij : i = j
    · subst hij
      rw [List.getElem?_set_self (by omega), if_pos ⟨hlt, hcode⟩]
    · rw [List.getElem?_set_ne hij, if_neg]
      exact fun h => hij (encode62_injective (hcode.trans h.2.symm))
  · next hnone => rw [if_neg fun h => free_iff.mpr hnone j h.1 h.2]

theorem getElem?_foldl_protect (ws : List Word) {sorted : List (Option Word)}
    (hlength : sorted.length = codes) : (ws.foldl (protect codes) sorted)[j]? =
      if j < codes ∧ ws.contains (encode62 j) then some (some (encode62 j)) else sorted[j]? := by
  induction ws generalizing sorted with
  | nil => simp
  | cons w ws ih =>
    rw [List.foldl_cons, ih (by rw [length_protect, hlength]), getElem?_protect hlength]
    by_cases hlt : j < codes
    · by_cases hw : encode62 j = w
      · simp [hlt, hw]
      · simp [hlt, hw]
    · simp [hlt]

/-- The places before the others are filled. -/
def places (codes : Nat) (ws : List Word) : List (Option Word) :=
  (List.range codes).map fun j => if ws.contains (encode62 j) then some (encode62 j) else none

theorem foldl_protect (ws : List Word) :
    ws.foldl (protect codes) (List.replicate codes none) = places codes ws := by
  refine List.ext_getElem? fun j => ?_
  rw [getElem?_foldl_protect ws List.length_replicate, places, List.getElem?_map]
  by_cases hlt : j < codes
  · by_cases hmem : encode62 j ∈ ws
    · simp [hlt, hmem]
    · simp [hlt, hmem]
  · simp [hlt]

/-! ## The other words -/

/-- What is put in the places that are left. -/
def filled (sorted : List (Option Word)) (words : List Word) : List Word :=
  (sorted.zip words).filterMap fun x => if x.1.isNone then some x.2 else none

/-- With enough words all places are filled, and the words are taken in their order. -/
theorem fill_eq (sorted : List (Option Word)) (words : List Word)
    (h : sorted.count none ≤ words.length) :
    ∃ out, fill sorted words = some out ∧ out.length = sorted.length ∧
      (∀ (j : Nat) (w : Word), sorted[j]? = some (some w) → out[j]? = some w) ∧
      filled sorted out = words.take (sorted.count none) ∧
      out.Perm (sorted.reduceOption ++ words.take (sorted.count none)) := by
  induction sorted generalizing words with
  | nil => exact ⟨[], by simp [fill, filled, List.reduceOption_nil]⟩
  | cons place sorted ih =>
    cases place with
    | some w =>
      rw [List.count_cons_of_ne (by simp)] at h ⊢
      obtain ⟨out, hfill, hlength, hplaces, hfilled, hperm⟩ := ih words h
      refine ⟨w :: out, by simp [fill, hfill], by simp [hlength], fun j v hv => ?_,
        by simpa [filled] using hfilled, ?_⟩
      · cases j with
        | zero => simpa using hv
        | succ j => exact hplaces j v hv
      · rw [List.reduceOption_cons_of_some, List.cons_append]
        exact hperm.cons w
    | none =>
      rw [List.count_cons_self] at h ⊢
      cases words with
      | nil => simp at h
      | cons w words =>
        rw [List.length_cons, Nat.succ_le_succ_iff] at h
        obtain ⟨out, hfill, hlength, hplaces, hfilled, hperm⟩ := ih words h
        refine ⟨w :: out, by simp [fill, hfill], by simp [hlength], fun j v hv => ?_,
          by simpa [filled] using hfilled, ?_⟩
        · cases j with
          | zero => simp at hv
          | succ j => exact hplaces j v hv
        · rw [List.reduceOption_cons_of_none, List.take_succ_cons]
          exact (hperm.cons w).trans List.perm_middle.symm

theorem filter_append_of_pairwise {α : Type} {f : α → Nat} {l : List α}
    (h : l.Pairwise fun a b => f b ≤ f a) :
    l.filter (fun a => 0 < f a) ++ l.filter (fun a => f a = 0) = l := by
  induction l with
  | nil => rfl
  | cons a l ih =>
    rw [List.pairwise_cons] at h
    by_cases ha : 0 < f a
    · simp [ha, Nat.ne_of_gt ha, ih h.2]
    · have hzero : ∀ b ∈ l, f b = 0 := fun b hb => by
        have hle := h.1 b hb
        omega
      have hnone : l.filter (fun a => 0 < f a) = [] :=
        List.filter_eq_nil_iff.mpr fun b hb => by simp [hzero b hb]
      have hall : l.filter (fun a => f a = 0) = l :=
        List.filter_eq_self.mpr fun b hb => by simp [hzero b hb]
      simp [Nat.eq_zero_of_not_pos ha, hnone, hall]

variable {t : Tally}

theorem order_perm (t : Tally) : (order t).Perm t.unsorted := List.mergeSort_perm _ _

theorem pairwise_order (t : Tally) :
    (order t).Pairwise fun a b => sortCount t b ≤ sortCount t a := by
  let before (a b : Word) : Bool := sortCount t b ≤ sortCount t a
  have htrans : ∀ a b c, before a b → before b c → before a c := by
    intro a b c hab hbc
    simp only [before, decide_eq_true_eq] at hab hbc ⊢
    omega
  have htotal : ∀ a b, before a b || before b a := by
    intro a b
    simp only [before, Bool.or_eq_true, decide_eq_true_eq]
    omega
  have h := List.pairwise_mergeSort htrans htotal t.unsorted
  rw [order]
  simpa only [before, decide_eq_true_eq] using h

theorem places_perm (t : Tally) (hnodup : t.unsorted.Nodup) :
    (places t.unsorted.length t.unsorted).reduceOption.Perm
      (t.unsorted.filter fun w => (protectedAt t.unsorted.length w).isSome) := by
  have hmap : (places t.unsorted.length t.unsorted).reduceOption =
      ((List.range t.unsorted.length).map encode62).filter (· ∈ t.unsorted) := by
    rw [places, List.reduceOption, List.filterMap_map, List.filter_map, ← List.filterMap_eq_map,
      ← List.filterMap_eq_filter, List.filterMap_filterMap]
    refine List.filterMap_congr fun j _ => ?_
    by_cases hmem : encode62 j ∈ t.unsorted
    · simp [hmem, Option.guard]
    · simp [hmem, Option.guard]
  rw [hmap]
  refine (List.perm_ext_iff_of_nodup ?_ (hnodup.filter _)).mpr fun w => ?_
  · exact (List.nodup_range.map encode62_injective).filter _
  · rw [List.mem_filter, List.mem_filter, List.mem_map, Option.isSome_iff_exists]
    constructor
    · intro h
      obtain ⟨⟨j, hj, hcode⟩, hmem⟩ := h
      exact ⟨by simpa using hmem, j, protectedAt_eq_some.mpr ⟨List.mem_range.mp hj, hcode⟩⟩
    · intro h
      obtain ⟨hmem, j, hj⟩ := h
      obtain ⟨hlt, hcode⟩ := protectedAt_eq_some.mp hj
      exact ⟨⟨j, List.mem_range.mpr hlt, hcode⟩, by simpa using hmem⟩

theorem length_reduceOption_add_count (sorted : List (Option Word)) :
    sorted.reduceOption.length + sorted.count none = sorted.length := by
  induction sorted with
  | nil => rfl
  | cons place sorted ih =>
    cases place with
    | none =>
      rw [List.reduceOption_cons_of_none, List.count_cons_self, List.length_cons, ← ih]
      omega
    | some w =>
      rw [List.reduceOption_cons_of_some, List.count_cons_of_ne (by simp), List.length_cons,
        List.length_cons, ← ih]
      omega

theorem sortCount_of_free (h : Free t.unsorted.length word) : sortCount t word = t.count word := by
  rw [sortCount, free_iff.mp h]
  rfl

theorem sortCount_pos_iff (hcount : 0 < t.count word) :
    0 < sortCount t word ↔ (protectedAt t.unsorted.length word).isSome = false := by
  rw [sortCount]
  split
  · next h => simp [h]
  · next h => simp [h, hcount]

theorem filter_sortCount (hcount : ∀ w ∈ t.unsorted, 0 < t.count w) :
    t.unsorted.filter (fun w => 0 < sortCount t w) =
      t.unsorted.filter fun w => !(protectedAt t.unsorted.length w).isSome := by
  refine List.filter_congr fun w hw => ?_
  rw [Bool.eq_iff_iff, decide_eq_true_eq, sortCount_pos_iff (hcount w hw), Bool.not_eq_true']

/-- The words that are taken are those that are no codes. -/
theorem take_order (hnodup : t.unsorted.Nodup) (hcount : ∀ w ∈ t.unsorted, 0 < t.count w) :
    (order t).take ((places t.unsorted.length t.unsorted).count none) =
      (order t).filter fun w => 0 < sortCount t w := by
  have hplaces := (places_perm t hnodup).length_eq
  have hadd := length_reduceOption_add_count (places t.unsorted.length t.unsorted)
  have hlength : (places t.unsorted.length t.unsorted).length = t.unsorted.length := by
    simp [places]
  have hall := List.length_eq_length_filter_add (l := t.unsorted)
    fun w => (protectedAt t.unsorted.length w).isSome
  have hordered := ((order_perm t).filter fun w => decide (0 < sortCount t w)).length_eq
  rw [filter_sortCount hcount] at hordered
  have htake : (places t.unsorted.length t.unsorted).count none =
      ((order t).filter fun w => 0 < sortCount t w).length := by
    omega
  have hsplit := filter_append_of_pairwise (pairwise_order t)
  calc
    (order t).take ((places t.unsorted.length t.unsorted).count none)
      = ((order t).filter (fun w => 0 < sortCount t w) ++
          (order t).filter fun w => sortCount t w = 0).take
            ((order t).filter fun w => 0 < sortCount t w).length := by rw [htake, hsplit]
    _ = (order t).filter fun w => 0 < sortCount t w := List.take_left

/-- Where a free word has come to be, the place was left. -/
theorem getElem?_zip_free {sorted : List Word}
    (hlength : sorted.length = (places t.unsorted.length t.unsorted).length)
    (hown : ∀ j < t.unsorted.length, encode62 j ∈ t.unsorted → sorted[j]? = some (encode62 j))
    (hj : sorted[j]? = some word) (hfree : Free t.unsorted.length word) :
    ((places t.unsorted.length t.unsorted).zip sorted)[j]? = some (none, word) := by
  have hlt : j < t.unsorted.length := by
    have hj' := (List.getElem?_eq_some_iff.mp hj).1
    rw [hlength] at hj'
    simpa [places] using hj'
  have hcode : encode62 j ∉ t.unsorted := by
    intro hmem
    exact hfree j hlt (Option.some.inj ((hown j hlt hmem).symm.trans hj))
  rw [List.getElem?_zip_eq_some]
  exact ⟨by simp [places, hlt, hcode], hj⟩

/-- All places are filled, each word is in one of them, and the more frequent is the first. -/
theorem fill_order (hnodup : t.unsorted.Nodup) (hcount : ∀ w ∈ t.unsorted, 0 < t.count w) :
    ∃ sorted, fill (places t.unsorted.length t.unsorted) (order t) = some sorted ∧
      sorted.Perm t.unsorted ∧
      (∀ j < t.unsorted.length, encode62 j ∈ t.unsorted → sorted[j]? = some (encode62 j)) ∧
      ∀ (i j : Nat) (u v : Word), i < j → sorted[i]? = some u → sorted[j]? = some v →
        Free t.unsorted.length u → Free t.unsorted.length v → t.count v ≤ t.count u := by
  have hle : (places t.unsorted.length t.unsorted).count none ≤ (order t).length := by
    rw [(order_perm t).length_eq]
    exact List.count_le_length.trans_eq (by simp [places])
  obtain ⟨sorted, hfill, hlength, hplaces, hfilled, hperm⟩ := fill_eq _ (order t) hle
  rw [take_order hnodup hcount] at hfilled hperm
  have hwords := ((order_perm t).filter fun w => decide (0 < sortCount t w)).trans
    (List.Perm.of_eq (filter_sortCount hcount))
  have hown : ∀ j < t.unsorted.length, encode62 j ∈ t.unsorted →
      sorted[j]? = some (encode62 j) := by
    intro j hlt hmem
    exact hplaces j _ (by simp [places, hlt, hmem])
  refine ⟨sorted, hfill, ?_, hown, fun i j u v hij hu hv hufree hvfree => ?_⟩
  · exact hperm.trans (((places_perm t hnodup).append hwords).trans (List.filter_append_perm _ _))
  · have hsorted : (filled (places t.unsorted.length t.unsorted) sorted).Pairwise
        fun a b => sortCount t b ≤ sortCount t a := by
      rw [hfilled]
      exact (pairwise_order t).filter _
    rw [filled, List.pairwise_filterMap] at hsorted
    obtain ⟨hi, hgi⟩ := List.getElem?_eq_some_iff.mp (getElem?_zip_free hlength hown hu hufree)
    obtain ⟨hj, hgj⟩ := List.getElem?_eq_some_iff.mp (getElem?_zip_free hlength hown hv hvfree)
    have hrel := List.pairwise_iff_getElem.mp hsorted i j hi hj hij
    rw [hgi, hgj] at hrel
    have hcounts := hrel u rfl v rfl
    rwa [sortCount_of_free hufree, sortCount_of_free hvfree] at hcounts

theorem analyze_dictionary (script : Script) :
    ∃ keywords, analyze script = some keywords ∧ Dictionary script keywords := by
  let t := tally (runs isWord script)
  have hnodup : t.unsorted.Nodup := nodup_tally
  have hmem : ∀ w, w ∈ t.unsorted ↔ w ∈ runs isWord script := fun w => mem_tally
  have hcount : ∀ w, t.count w = (runs isWord script).count w := fun w => count_tally
  have hpos : ∀ w ∈ t.unsorted, 0 < t.count w := by
    intro w hw
    rw [hcount]
    exact List.count_pos_iff.mpr ((hmem w).mp hw)
  obtain ⟨sorted, hfill, hperm, hown, hordered⟩ := fill_order hnodup hpos
  have hlength := hperm.length_eq
  refine ⟨⟨sorted, t.unsorted.filterMap (protectedAt t.unsorted.length)⟩, ?_, ?_⟩
  · rw [analyze, foldl_protect]
    exact congrArg (Option.map _) hfill
  · constructor
    · exact hperm.nodup_iff.mpr hnodup
    · exact fun w => hperm.mem_iff.trans (hmem w)
    · intro j hj hcode
      exact hown j (hlength ▸ hj) (hperm.mem_iff.mp hcode)
    · intro j
      rw [List.mem_filterMap, hperm.mem_iff, hlength]
      constructor
      · intro h
        obtain ⟨w, hw, hj⟩ := h
        obtain ⟨hlt, hcode⟩ := protectedAt_eq_some.mp hj
        exact ⟨hlt, hcode ▸ hw⟩
      · exact fun h => ⟨encode62 j, h.2, protectedAt_eq_some.mpr ⟨h.1, rfl⟩⟩
    · intro i j u v hij hu hv hufree hvfree
      rw [← hcount, ← hcount]
      rw [hlength] at hufree hvfree
      exact hordered i j u v hij hu hv hufree hvfree

end HackerUnion.Minify
