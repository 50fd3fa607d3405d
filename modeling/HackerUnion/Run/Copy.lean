import Mathlib.Data.List.Nodup
import Mathlib.Logic.Function.Basic

namespace HackerUnion.Run

variable {S P V I : Type} [DecidableEq P]

/-- What is remembered of a place; the first time it is `obj`. -/
def remember (tmp : P → Option V) (p : P) (obj : Option V) : (P → Option V) × Option V :=
  match tmp p with
  | some v => (tmp, some v)
  | none => (Function.update tmp p obj, obj)

variable (get : S → P → Option V) (set : S → P → V → S) (pre post : I → P)

/-- Put at one place what was at another, while the store is written over. -/
def copyRound (st : S × (P → Option V)) (i : I) : Option (S × (P → Option V)) :=
  let tmp := (remember st.2 (pre i) (get st.1 (pre i))).1
  let (tmp, nxt) := remember tmp (post i) (get st.1 (post i))
  nxt.map fun v => (set st.1 (pre i) v, tmp)

def copyAll (s : S) (is : List I) : Option S :=
  (is.foldlM (copyRound get set pre post) (s, fun _ => none)).map Prod.fst

theorem remember_eq (tmp : P → Option V) (p : P) (obj : Option V) :
    remember tmp p obj = (Function.update tmp p ((tmp p).or obj), (tmp p).or obj) := by
  unfold remember
  cases htmp : tmp p with
  | some v =>
    dsimp only [Option.or]
    rw [← htmp, Function.update_eq_self]
  | none => rfl

/-- The rounds of `done` have copied from the store as it was at the start, and what is remembered
is what was there. -/
structure Copied (s : S) (done : List I) (st : S × (P → Option V)) : Prop where
  moved : ∀ i ∈ done, get st.1 (pre i) = get s (post i)
  rest : ∀ q, q ∉ done.map pre → get st.1 q = get s q
  tmp : ∀ q v, st.2 q = some v → get s q = some v
  kept : ∀ i ∈ done, (st.2 (pre i)).isSome = true

variable {get set pre post} {s : S} {done : List I} {st : S × (P → Option V)}

/-- Of a place one is told what was there, and then remembers it. -/
theorem Copied.remember (h : Copied get pre post s done st) (p : P) :
    (st.2 p).or (get st.1 p) = get s p ∧
      Copied get pre post s done (st.1, Function.update st.2 p (get s p)) := by
  have htold : (st.2 p).or (get st.1 p) = get s p := by
    cases htmp : st.2 p with
    | some v => exact (h.tmp p v htmp).symm
    | none =>
      have hnew : p ∉ done.map pre := by
        intro hmem
        obtain ⟨i, hi, hip⟩ := List.mem_map.mp hmem
        have hkept := h.kept i hi
        rw [hip, htmp] at hkept
        cases hkept
      rw [Option.none_or, h.rest p hnew]
  refine ⟨htold, h.moved, h.rest, ?_, ?_⟩
  · intro q v hq
    dsimp only at hq
    by_cases hqp : q = p
    · subst hqp
      simpa using hq
    · rw [Function.update_of_ne hqp] at hq
      exact h.tmp q v hq
  · intro i hi
    dsimp only
    by_cases hip : pre i = p
    · subst hip
      rw [Function.update_self, ← htold, Option.isSome_or, h.kept i hi]
      rfl
    · rw [Function.update_of_ne hip]
      exact h.kept i hi

variable (hset : ∀ s p v q, (get s p).isSome = true →
  get (set s p v) q = if q = p then some v else get s q)
include hset

theorem Copied.round (h : Copied get pre post s done st) {i : I} (hnew : pre i ∉ done.map pre)
    (hpre : (get s (pre i)).isSome = true) (hpost : (get s (post i)).isSome = true) :
    ∃ st', copyRound get set pre post st i = some st' ∧
      Copied get pre post s (done ++ [i]) st' := by
  obtain ⟨htold, h₁⟩ := h.remember (pre i)
  obtain ⟨htold', h₂⟩ := h₁.remember (post i)
  obtain ⟨v, hv⟩ := Option.isSome_iff_exists.mp hpost
  have hold : (get st.1 (pre i)).isSome = true := by
    rw [h.rest (pre i) hnew]
    exact hpre
  refine ⟨(set st.1 (pre i) v, Function.update (Function.update st.2 (pre i) (get s (pre i)))
    (post i) (get s (post i))), ?_, ?_, ?_, h₂.tmp, ?_⟩
  · dsimp only at htold'
    simp only [copyRound, remember_eq]
    rw [htold, htold', hv]
    rfl
  · intro j hj
    dsimp only
    rw [hset st.1 (pre i) v (pre j) hold]
    rcases List.mem_append.mp hj with hj | hj
    · have hne : pre j ≠ pre i := by
        intro heq
        exact hnew (heq ▸ List.mem_map_of_mem hj)
      rw [if_neg hne]
      exact h.moved j hj
    · rw [List.mem_singleton.mp hj, if_pos rfl, hv]
  · intro q hq
    rw [List.map_append, List.mem_append, not_or] at hq
    have hne : q ≠ pre i := by
      intro heq
      exact hq.2 (heq ▸ List.mem_singleton_self q)
    dsimp only
    rw [hset st.1 (pre i) v q hold, if_neg hne]
    exact h.rest q hq.1
  · intro j hj
    rcases List.mem_append.mp hj with hj | hj
    · exact h₂.kept j hj
    · rw [List.mem_singleton.mp hj]
      dsimp only
      by_cases heq : pre i = post i
      · rw [← heq, Function.update_self]
        exact hpre
      · rw [Function.update_of_ne heq, Function.update_self]
        exact hpre

/-- Every place gets what was at its source, whatever the order and wherever the sources are. -/
theorem copyAll_get (s : S) (is : List I) (hnodup : (is.map pre).Nodup)
    (his : ∀ i ∈ is, (get s (pre i)).isSome = true ∧ (get s (post i)).isSome = true) :
    ∃ s', copyAll get set pre post s is = some s' ∧
      (∀ i ∈ is, get s' (pre i) = get s (post i)) ∧
      ∀ q, q ∉ is.map pre → get s' q = get s q := by
  have hrun (todo done : List I) (st : S × (P → Option V)) (hsplit : is = done ++ todo)
      (h : Copied get pre post s done st) :
      ∃ st', todo.foldlM (copyRound get set pre post) st = some st' ∧
        Copied get pre post s is st' := by
    induction todo generalizing done st with
    | nil =>
      rw [List.append_nil] at hsplit
      exact ⟨st, rfl, hsplit ▸ h⟩
    | cons i todo ih =>
      have hnew : pre i ∉ done.map pre := by
        intro hmem
        rw [hsplit, List.map_append] at hnodup
        exact (List.nodup_append.mp hnodup).2.2 (pre i) hmem (pre i) List.mem_cons_self rfl
      have hi := his i (hsplit ▸ List.mem_append_right done List.mem_cons_self)
      obtain ⟨st₁, hst₁, h₁⟩ := h.round hset hnew hi.1 hi.2
      obtain ⟨st', hst', h'⟩ := ih (done ++ [i]) st₁ (by simp [hsplit]) h₁
      refine ⟨st', ?_, h'⟩
      rw [List.foldlM_cons, hst₁]
      exact hst'
  have hstart : Copied get pre post s [] (s, fun _ => none) := by
    refine ⟨?_, fun q _ => rfl, ?_, ?_⟩
    · intro i hi
      exact absurd hi List.not_mem_nil
    · intro q v h
      cases h
    · intro i hi
      exact absurd hi List.not_mem_nil
  obtain ⟨st', hst', h'⟩ := hrun is [] (s, fun _ => none) rfl hstart
  refine ⟨st'.1, ?_, h'.moved, h'.rest⟩
  rw [copyAll, hst']
  rfl

omit hset in
/-- What writing keeps, such a copy keeps. -/
theorem copyAll_invariant {Q : S → Prop} (hQ : ∀ s p v, Q s → Q (set s p v)) {s s' : S}
    {is : List I} (h : copyAll get set pre post s is = some s') (hs : Q s) : Q s' := by
  have hrun (is : List I) (st st' : S × (P → Option V)) (hst : Q st.1)
      (h : is.foldlM (copyRound get set pre post) st = some st') : Q st'.1 := by
    induction is generalizing st with
    | nil =>
      rw [← Option.some.inj h]
      exact hst
    | cons i is ih =>
      rw [List.foldlM_cons] at h
      obtain ⟨st₁, hst₁, h⟩ := Option.bind_eq_some_iff.mp h
      refine ih st₁ ?_ h
      obtain ⟨v, -, rfl⟩ := Option.map_eq_some_iff.mp hst₁
      exact hQ st.1 (pre i) v hst
  obtain ⟨st', hst', rfl⟩ := Option.map_eq_some_iff.mp h
  exact hrun is (s, fun _ => none) st' hs hst'

end HackerUnion.Run
