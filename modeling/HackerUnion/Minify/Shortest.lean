import HackerUnion.Lists.Assignment
import HackerUnion.Minify.Unpack

namespace HackerUnion.Minify

open Js HackerUnion.Lists

/-! No other way to hand out the codes makes a shorter script. -/

variable {script : Script} {keywords : Keywords} {word : Word} {other : Word → Word}

/-- A way to give the words of a script codes. A word that is a code keeps it. -/
structure Assigned (script : Script) (codes : Nat) (other : Word → Word) : Prop where
  code : ∀ w ∈ runs isWord script, ∃ j < codes, encode62 j = other w
  injective : ∀ u ∈ runs isWord script, ∀ v ∈ runs isWord script, other u = other v → u = v
  own : ∀ w ∈ runs isWord script, ¬Free codes w → other w = w

theorem encoded_own (hd : Dictionary script keywords) (hw : word ∈ runs isWord script)
    (hcode : ¬Free keywords.sorted.length word) : keywords.encoded word = word := by
  simp only [Free, not_forall, not_not] at hcode
  obtain ⟨j, hlt, hj⟩ := hcode
  have hplace := hd.own j hlt (hj ▸ (hd.mem word).mpr hw)
  rw [hj] at hplace
  rw [encoded_eq hd hplace, hj]

theorem encoded_assigned (hd : Dictionary script keywords) :
    Assigned script keywords.sorted.length keywords.encoded := by
  constructor
  · intro w hw
    obtain ⟨j, hlt, _, hencoded⟩ := exists_place hd hw
    exact ⟨j, hlt, hencoded.symm⟩
  · intro u hu v hv heq
    obtain ⟨i, _, hi, hui⟩ := exists_place hd hu
    obtain ⟨j, _, hj, hvj⟩ := exists_place hd hv
    have hij : i = j := encode62_injective (hui.symm.trans (heq.trans hvj))
    rw [hij, hj] at hi
    exact (Option.some.inj hi).symm
  · exact fun w hw hcode => encoded_own hd hw hcode

/-- The code that another way gives a free word is given to a free word by the packer. -/
theorem exists_free (hd : Dictionary script keywords)
    (hother : Assigned script keywords.sorted.length other) (hw : word ∈ runs isWord script)
    (hfree : Free keywords.sorted.length word) :
    ∃ v ∈ runs isWord script, Free keywords.sorted.length v ∧
      keywords.encoded v = other word := by
  obtain ⟨j, hlt, hj⟩ := hother.code word hw
  have hplace := List.getElem?_eq_getElem hlt
  have hv := (hd.mem _).mp (List.getElem_mem hlt)
  have hencoded : keywords.encoded keywords.sorted[j] = other word :=
    (encoded_eq hd hplace).trans hj
  refine ⟨keywords.sorted[j], hv, ?_, hencoded⟩
  by_contra hcode
  -- A word that is a code has it both ways, so that it would be the word itself.
  have hsame : other keywords.sorted[j] = other word := by
    rw [hother.own _ hv hcode, ← encoded_own hd hv hcode, hencoded]
  rw [hother.injective _ hv word hw hsame] at hcode
  exact hcode hfree

/-- Of two free words, the one with the shorter code is there at least as often. -/
theorem count_le_of_length_lt (hd : Dictionary script keywords) {u v : Word}
    (hu : u ∈ runs isWord script) (hv : v ∈ runs isWord script)
    (hufree : Free keywords.sorted.length u) (hvfree : Free keywords.sorted.length v)
    (h : (keywords.encoded u).length < (keywords.encoded v).length) :
    (runs isWord script).count v ≤ (runs isWord script).count u := by
  obtain ⟨i, _, hi, hui⟩ := exists_place hd hu
  obtain ⟨j, _, hj, hvj⟩ := exists_place hd hv
  have hij : i < j := by
    by_contra hle
    have hmono := length_encode62_mono (Nat.not_lt.mp hle)
    rw [hui, hvj] at h
    omega
  exact hd.ordered i j u v hij hi hj hufree hvfree

theorem length_encoded_le (hd : Dictionary script keywords)
    (hother : Assigned script keywords.sorted.length other) :
    ((runs isWord script).flatMap keywords.encoded).length ≤
      ((runs isWord script).flatMap other).length := by
  classical
  let free := (runs isWord script).toFinset.filter (Free keywords.sorted.length)
  have hmem : ∀ w, w ∈ free ↔ w ∈ runs isWord script ∧ Free keywords.sorted.length w := by
    intro w
    rw [Finset.mem_filter, List.mem_toFinset]
  have hfree : ∑ w ∈ free, (runs isWord script).count w * (keywords.encoded w).length ≤
      ∑ w ∈ free, (runs isWord script).count w * (other w).length := by
    refine sum_le_of_antivaryOn ?_ ?_ ?_
    · intro u hu v hv hlt
      obtain ⟨hu, hufree⟩ := (hmem u).mp hu
      obtain ⟨hv, hvfree⟩ := (hmem v).mp hv
      exact count_le_of_length_lt hd hu hv hufree hvfree hlt
    · intro w hw
      obtain ⟨hw, hwfree⟩ := (hmem w).mp hw
      obtain ⟨v, hv, hvfree, hcode⟩ := exists_free hd hother hw hwfree
      exact ⟨v, (hmem v).mpr ⟨hv, hvfree⟩, hcode⟩
    · intro u hu v hv heq
      exact hother.injective u ((hmem u).mp hu).1 v ((hmem v).mp hv).1 heq
  have hown : ∀ w ∈ (runs isWord script).toFinset.filter (¬Free keywords.sorted.length ·),
      (runs isWord script).count w * (keywords.encoded w).length =
        (runs isWord script).count w * (other w).length := by
    intro w hw
    rw [Finset.mem_filter, List.mem_toFinset] at hw
    rw [encoded_own hd hw.1 hw.2, hother.own w hw.1 hw.2]
  rw [length_flatMap_eq_sum, length_flatMap_eq_sum,
    ← Finset.sum_filter_add_sum_filter_not _ (Free keywords.sorted.length),
    ← Finset.sum_filter_add_sum_filter_not (runs isWord script).toFinset
      (Free keywords.sorted.length) fun w => (runs isWord script).count w * (other w).length,
    Finset.sum_congr rfl hown]
  exact Nat.add_le_add_right hfree _

/-- No word is in the dictionary twice. -/
theorem Dictionary.length_sorted (hd : Dictionary script keywords) :
    keywords.sorted.length = (runs isWord script).dedup.length := by
  have hperm : keywords.sorted.Perm (runs isWord script).dedup :=
    (List.perm_ext_iff_of_nodup hd.nodup (List.nodup_dedup _)).mpr fun w =>
      (hd.mem w).trans List.mem_dedup.symm
  exact hperm.length_eq

/-- The packer has as many codes as there are different words, gives each word a code of its own and
leaves the words that are codes alone, and of all ways to do so its own makes the shortest
script. -/
theorem encoded_shortest (script : Script) : ∃ keywords, analyze script = some keywords ∧
    keywords.sorted.length = (runs isWord script).dedup.length ∧
    Assigned script keywords.sorted.length keywords.encoded ∧
    ∀ other, Assigned script keywords.sorted.length other →
      (mapRuns isWord keywords.encoded script).length ≤ (mapRuns isWord other script).length := by
  obtain ⟨keywords, hanalyze, hd⟩ := analyze_dictionary script
  refine ⟨keywords, hanalyze, hd.length_sorted, encoded_assigned hd, fun other hother => ?_⟩
  rw [length_mapRuns, length_mapRuns]
  exact Nat.add_le_add_right (length_encoded_le hd hother) _

end HackerUnion.Minify
