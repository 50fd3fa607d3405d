import HackerUnion.Js.Object
import Mathlib.Data.List.Perm.Subperm

namespace Js

variable {α K V W : Type}

section GroupBy

variable [DecidableEq K]

def groupBy (key : α → K) (xs : List α) : Obj K (List α) :=
  xs.foldl (fun r x => r.set (key x) ((r.get (key x)).getD [] ++ [x])) Obj.empty

def mapValues (f : V → W) (o : Obj K V) : Obj K W :=
  ⟨o.entries.map (fun e => (e.1, f e.2)), by simpa [Function.comp_def] using o.nodup⟩

theorem get_mapValues (f : V → W) (o : Obj K V) (k : K) :
    (mapValues f o).get k = (o.get k).map f := by
  show Entries.get k (o.entries.map _) = (Entries.get k o.entries).map f
  induction o.entries with
  | nil => rfl
  | cons e es ih =>
    obtain ⟨j, v⟩ := e
    by_cases hj : j = k <;> simp [Entries.get, hj, ih]

private theorem get_groupBy_fold (key : α → K) (xs : List α) (o : Obj K (List α)) (k : K) :
    ((xs.foldl (fun r x => r.set (key x) ((r.get (key x)).getD [] ++ [x])) o).get k).getD [] =
      (o.get k).getD [] ++ xs.filter (fun x => key x = k) := by
  induction xs generalizing o with
  | nil => simp
  | cons x xs ih =>
    rw [List.foldl_cons, ih]
    by_cases hx : key x = k
    · subst hx
      simp
    · simp [Obj.get_set_ne o _ (Ne.symm hx), hx]

theorem get_groupBy (key : α → K) (xs : List α) (k : K) :
    ((groupBy key xs).get k).getD [] = xs.filter (fun x => key x = k) := by
  rw [groupBy, get_groupBy_fold]
  simp

/-- The first of each group is the first of the list with that key. -/
theorem get_first_groupBy (key : α → K) (xs : List α) (k : K) :
    ((mapValues List.head? (groupBy key xs)).get k).join = xs.find? (fun x => key x = k) := by
  have h := congrArg List.head? (get_groupBy key xs k)
  rw [List.head?_filter] at h
  rw [get_mapValues, ← h]
  cases (groupBy key xs).get k <;> rfl

end GroupBy

/-- `_.without`. -/
def without [DecidableEq α] (xs vals : List α) : List α := xs.filter (fun x => x ∉ vals)

section Max

/-- `computed` is the greatest key so far, and `none` stands for `-Infinity`; a key that is `none`
is `NaN` and compares false. -/
def maxLoop (key : α → Option Int) : Option Int → Option α → List α → Option α
  | _, result, [] => result
  | computed, result, x :: xs =>
    match key x with
    | none => maxLoop key computed result xs
    | some d =>
      if computed.all (· < d) then maxLoop key (some d) (some x) xs
      else maxLoop key computed result xs

/-- `_.max(xs, key)`; the answer `none` is the sentinel `-Infinity`. -/
def maxBy (key : α → Option Int) (xs : List α) : Option α := maxLoop key none none xs

/-- `m` is the running answer `r` or one of `xs`, and its key bounds all of theirs. -/
structure MaxOf (key : α → Option Int) (r : Option α) (xs : List α) (m : Option α) : Prop where
  mem : m = r ∨ ∃ x ∈ xs, m = some x
  start : ∀ e, r.bind key = some e → ∃ d, m.bind key = some d ∧ e ≤ d
  all : ∀ y ∈ xs, ∀ e, key y = some e → ∃ d, m.bind key = some d ∧ e ≤ d

variable {key : α → Option Int} {r m : Option α} {x : α} {xs : List α}

theorem MaxOf.skip (h : MaxOf key r xs m)
    (hx : ∀ e, key x = some e → ∃ d, m.bind key = some d ∧ e ≤ d) : MaxOf key r (x :: xs) m := by
  refine ⟨?_, h.start, ?_⟩
  · rcases h.mem with hm | ⟨y, hy, hm⟩
    · exact Or.inl hm
    · exact Or.inr ⟨y, List.mem_cons_of_mem _ hy, hm⟩
  · intro y hy e he
    rcases List.mem_cons.mp hy with rfl | hy
    · exact hx e he
    · exact h.all y hy e he

theorem MaxOf.take (h : MaxOf key (some x) xs m)
    (hr : ∀ e, r.bind key = some e → ∃ d, key x = some d ∧ e ≤ d) : MaxOf key r (x :: xs) m := by
  refine ⟨?_, ?_, ?_⟩
  · rcases h.mem with hm | ⟨y, hy, hm⟩
    · exact Or.inr ⟨x, by simp, hm⟩
    · exact Or.inr ⟨y, List.mem_cons_of_mem _ hy, hm⟩
  · intro e he
    obtain ⟨d, hd, hle⟩ := hr e he
    obtain ⟨d', hd', hle'⟩ := h.start d (by simpa using hd)
    exact ⟨d', hd', hle.trans hle'⟩
  · intro y hy e he
    rcases List.mem_cons.mp hy with rfl | hy
    · exact h.start e (by simpa using he)
    · exact h.all y hy e he

theorem maxLoop_spec (key : α → Option Int) (xs : List α) (r : Option α) :
    MaxOf key r xs (maxLoop key (r.bind key) r xs) := by
  induction xs generalizing r with
  | nil => exact ⟨Or.inl rfl, fun e he => ⟨e, he, le_refl e⟩, by simp⟩
  | cons x xs ih =>
    cases hx : key x with
    | none =>
      simp only [maxLoop, hx]
      exact (ih r).skip (by simp [hx])
    | some d =>
      by_cases hlt : (r.bind key).all (· < d) = true
      · have h := ih (some x)
        simp only [Option.bind_some, hx] at h
        simp only [maxLoop, hx, hlt, if_true]
        apply h.take
        intro e he
        have hed : e < d := by simpa [he] using hlt
        exact ⟨d, hx, hed.le⟩
      · simp only [maxLoop, hx, hlt]
        apply (ih r).skip
        intro e he
        have hde : d = e := by simpa [hx] using he
        cases hc : r.bind key with
        | none => simp [hc] at hlt
        | some b =>
          have hbd : ¬ b < d := by simpa [hc] using hlt
          obtain ⟨d', hd', hle⟩ := (ih r).start b hc
          rw [hc] at hd'
          exact ⟨d', hd', by omega⟩

theorem maxBy_mem (h : maxBy key xs = some x) : x ∈ xs := by
  rcases (maxLoop_spec key xs none).mem with hm | ⟨y, hy, hm⟩
  · exact absurd (h.symm.trans hm) (by simp)
  · cases h.symm.trans hm
    exact hy

/-- The key of the answer bounds every key. -/
theorem maxBy_ge {y : α} {e : Int} (hy : y ∈ xs) (he : key y = some e) :
    ∃ d, (maxBy key xs).bind key = some d ∧ e ≤ d :=
  (maxLoop_spec key xs none).all y hy e he

end Max

section Sample

/-- One round of the shuffle: exchange the element at `i` with a random one from there on. -/
def sampleSwap (draw : Nat → Nat) (xs : List α) (i : Nat) : List α :=
  let rand := i + draw i % (xs.length - i)
  match xs[i]?, xs[rand]? with
  | some a, some b => (xs.set rand a).set i b
  | _, _ => xs

/-- `_.sample(xs, n)` with the random numbers it draws; an `n` that is `NaN` counts as 0. -/
def sample (draw : Nat → Nat) (xs : List α) (n : Option Int) : List α :=
  let n := min (n.getD 0).toNat xs.length
  ((List.range n).foldl (sampleSwap draw) xs).take n

theorem sampleSwap_perm (draw : Nat → Nat) (xs : List α) (i : Nat) :
    (sampleSwap draw xs i).Perm xs := by
  simp only [sampleSwap]
  split
  · rename_i a b ha hb
    obtain ⟨hi, rfl⟩ := List.getElem?_eq_some_iff.mp ha
    obtain ⟨hr, rfl⟩ := List.getElem?_eq_some_iff.mp hb
    exact List.set_set_perm hr hi
  · exact List.Perm.refl _

theorem foldl_sampleSwap_perm (draw : Nat → Nat) (is : List Nat) (xs : List α) :
    (is.foldl (sampleSwap draw) xs).Perm xs := by
  induction is generalizing xs with
  | nil => exact List.Perm.refl _
  | cons i is ih => exact (ih _).trans (sampleSwap_perm draw xs i)

/-- A sample is made of elements at distinct positions of the list. -/
theorem sample_subperm (draw : Nat → Nat) (xs : List α) (n : Option Int) :
    (sample draw xs n).Subperm xs :=
  (List.take_sublist _ _).subperm.trans (foldl_sampleSwap_perm draw _ xs).subperm

theorem sample_length (draw : Nat → Nat) (xs : List α) (n : Option Int) :
    (sample draw xs n).length = min (n.getD 0).toNat xs.length := by
  simp [sample, (foldl_sampleSwap_perm draw _ xs).length_eq]

/-- Later rounds leave the first place alone. -/
theorem foldl_sampleSwap_head (draw : Nat → Nat) (is : List Nat) (h : ∀ i ∈ is, 0 < i)
    (xs : List α) : (is.foldl (sampleSwap draw) xs)[0]? = xs[0]? := by
  induction is generalizing xs with
  | nil => rfl
  | cons i is ih =>
    have hi := h i List.mem_cons_self
    rw [List.foldl_cons, ih fun j hj => h j (List.mem_cons_of_mem i hj)]
    simp only [sampleSwap]
    split
    · rw [List.getElem?_set_ne (by omega), List.getElem?_set_ne (by omega)]
    · rfl

/-- Each element is in some sample that is not empty. -/
theorem exists_mem_sample {xs : List α} {x : α} (hx : x ∈ xs) {n : Int} (hn : 0 < n) :
    ∃ draw, x ∈ sample draw xs (some n) := by
  obtain ⟨j, hj, rfl⟩ := List.mem_iff_getElem.mp hx
  obtain ⟨m, hm⟩ : ∃ m, min n.toNat xs.length = m + 1 := ⟨min n.toNat xs.length - 1, by omega⟩
  refine ⟨fun _ => j, ?_⟩
  have hswap : (sampleSwap (fun _ => j) xs 0)[0]? = some xs[j] := by
    have hrand : 0 + j % (xs.length - 0) = j := by
      rw [Nat.zero_add, Nat.sub_zero, Nat.mod_eq_of_lt hj]
    have hlen : 0 < xs.length := by omega
    simp only [sampleSwap, hrand]
    rw [List.getElem?_eq_getElem hlen, List.getElem?_eq_getElem hj]
    simp [hlen]
  have hhead := foldl_sampleSwap_head (fun _ => j) ((List.range m).map Nat.succ) (by simp)
    (sampleSwap (fun _ => j) xs 0)
  rw [hswap] at hhead
  have htake : (sample (fun _ => j) xs (some n))[0]? = some xs[j] := by
    simp only [sample, Option.getD_some, hm]
    rw [List.getElem?_take_of_lt (Nat.succ_pos m), List.range_succ_eq_map, List.foldl_cons]
    exact hhead
  exact List.mem_of_getElem? htake

end Sample

end Js
