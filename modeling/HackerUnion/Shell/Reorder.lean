import Mathlib.Order.Lattice
import HackerUnion.Lists.Front
import HackerUnion.Shell.Kernel

namespace HackerUnion.Shell

variable {O : Type} [LinearOrder O]

/-- What `.index` says of one entry. -/
structure Meta (O : Type) where
  path : String
  order : O

/-- The metadata are gone through in descending order, and each time the entry of that path is
removed and put before all others. -/
def reorder (dir : List File) (index : List (Meta O)) : List File :=
  (index.mergeSort fun a b => b.order ≤ a.order).foldl
    (fun dir idx => Lists.toFront File.path dir idx.path) dir

variable {dir : List File} {index : List (Meta O)}

def named (index : List (Meta O)) : List String := index.map Meta.path

/-- All that the metadata say of the first file and of the second puts the first before. -/
def Before (index : List (Meta O)) (f g : File) : Prop :=
  ∀ a ∈ index, ∀ b ∈ index, a.path = f.path → b.path = g.path → a.order < b.order

theorem pairwise_descending (index : List (Meta O)) :
    (index.mergeSort fun a b => b.order ≤ a.order).Pairwise fun a b => b.order ≤ a.order := by
  have h := @List.pairwise_mergeSort _ (fun a b : Meta O => decide (b.order ≤ a.order))
    (fun a b c hab hbc => by
      simp only [decide_eq_true_eq] at hab hbc ⊢
      exact hbc.trans hab)
    (fun a b => by
      simp only [Bool.or_eq_true, decide_eq_true_eq]
      exact le_total b.order a.order) index
  exact h.imp fun h => of_decide_eq_true h

theorem pairwise_ascending (horders : (index.map Meta.order).Nodup) :
    (index.mergeSort fun a b => b.order ≤ a.order).reverse.Pairwise
      fun a b => a.order < b.order := by
  have hperm := List.mergeSort_perm index fun a b => decide (b.order ≤ a.order)
  have hne := List.pairwise_map.mp ((hperm.map Meta.order).nodup_iff.mpr horders)
  rw [List.pairwise_reverse]
  refine (pairwise_descending index).imp₂ (fun a b hle hne => ?_) hne
  exact lt_of_le_of_ne hle hne.symm

/-- The entries that the metadata name, in ascending order. -/
def namedFirst (dir : List File) (index : List (Meta O)) : List File :=
  (index.mergeSort fun a b => b.order ≤ a.order).reverse.flatMap fun idx =>
    dir.filter fun f => f.path = idx.path

theorem mem_namedFirst {f : File} :
    f ∈ namedFirst dir index ↔ f ∈ dir ∧ f.path ∈ named index := by
  unfold namedFirst named
  simp only [List.mem_flatMap, List.mem_reverse, List.mem_mergeSort, List.mem_filter,
    decide_eq_true_eq, List.mem_map]
  constructor
  · intro h
    obtain ⟨idx, hidx, hf, hpath⟩ := h
    exact ⟨hf, idx, hidx, hpath.symm⟩
  · intro h
    obtain ⟨hf, idx, hidx, hpath⟩ := h
    exact ⟨idx, hidx, hf, hpath.symm⟩

theorem reorder_eq (hpaths : (named index).Nodup) :
    reorder dir index = namedFirst dir index ++ dir.filter (fun f => f.path ∉ named index) := by
  have hperm := List.mergeSort_perm index fun a b => decide (b.order ≤ a.order)
  have hsorted := (hperm.map Meta.path).nodup_iff.mpr hpaths
  have hfold := Lists.foldl_toFront File.path hsorted dir
  rw [List.foldl_map, ← List.map_reverse, List.flatMap_map] at hfold
  refine hfold.trans (congrArg (_ ++ ·) (List.filter_congr fun f _ => ?_))
  have hmem : f.path ∈ _ ↔ f.path ∈ named index := (hperm.map Meta.path).mem_iff
  exact decide_eq_decide.mpr (not_congr hmem)

theorem pairwise_namedFirst (hdir : (dir.map File.path).Nodup) (hpaths : (named index).Nodup)
    (horders : (index.map Meta.order).Nodup) :
    (namedFirst dir index).Pairwise (Before index) := by
  refine List.pairwise_flatMap.mpr ⟨fun idx _ => ?_, ?_⟩
  · -- the listing has no two entries of one path
    have hne := (List.pairwise_map.mp hdir).filter fun f => decide (f.path = idx.path)
    refine hne.imp_of_mem fun hf hg hfg => ?_
    have hf := of_decide_eq_true (List.mem_filter.mp hf).2
    have hg := of_decide_eq_true (List.mem_filter.mp hg).2
    exact absurd (hf.trans hg.symm) hfg
  · refine (pairwise_ascending horders).imp_of_mem fun {idx idx'} hidx hidx' hlt => ?_
    intro f hf g hg a ha b hb hfa hgb
    rw [List.mem_reverse, List.mem_mergeSort] at hidx hidx'
    have hf := of_decide_eq_true (List.mem_filter.mp hf).2
    have hg := of_decide_eq_true (List.mem_filter.mp hg).2
    have ha := List.inj_on_of_nodup_map hpaths ha hidx (hfa.trans hf)
    have hb := List.inj_on_of_nodup_map hpaths hb hidx' (hgb.trans hg)
    rw [ha, hb]
    exact hlt

/-- The listing is permuted: the entries the metadata name are in front, the one of the least
order first, and all others follow as they stood. -/
theorem reorder_listed (hdir : (dir.map File.path).Nodup) (hpaths : (named index).Nodup)
    (horders : (index.map Meta.order).Nodup) :
    (reorder dir index).Perm dir ∧
      ∃ front, reorder dir index = front ++ dir.filter (fun f => f.path ∉ named index) ∧
        (∀ f ∈ front, f.path ∈ named index) ∧ front.Pairwise (Before index) := by
  refine ⟨?_, namedFirst dir index, reorder_eq hpaths, ?_, ?_⟩
  · have hperm := Lists.foldl_toFront_perm File.path
      ((index.mergeSort fun a b => b.order ≤ a.order).map Meta.path) dir
    rwa [List.foldl_map] at hperm
  · exact fun f hf => (mem_namedFirst.mp hf).2
  · exact pairwise_namedFirst hdir hpaths horders

theorem reorder_listed_absent :
    let dir : List File := [⟨"..", "/"⟩, ⟨"a", "-"⟩, ⟨"b", "/"⟩, ⟨"c", "-"⟩]
    let index : List (Meta Nat) := [⟨"c", 2⟩, ⟨"gone", 1⟩, ⟨"a", 3⟩]
    (reorder dir index).Perm dir ∧
      ∃ front, reorder dir index = front ++ dir.filter (fun f => f.path ∉ named index) ∧
        (∀ f ∈ front, f.path ∈ named index) ∧ front.Pairwise (Before index) :=
  reorder_listed (by decide) (by decide) (by decide)

end HackerUnion.Shell
