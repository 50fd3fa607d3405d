import Mathlib.Data.List.Induction
import Mathlib.Data.Nat.Find

namespace HackerUnion.Lists

/-! Edit scripts as walks. The point `n`, `o` has `n` tokens of the new text behind it and `o` of
the old one; `same n o` says that the two tokens that come next there are the same. -/

/-- What a step of a script does with the tokens that come next. -/
inductive Edit where
  | keep
  | add
  | remove
  deriving DecidableEq, Repr

/-- The number of tokens that are added or removed. -/
def cost (es : List Edit) : Nat := es.count .add + es.count .remove

/-- The script leads from one point to another, in texts of so many tokens. -/
inductive Walk (same : Nat → Nat → Prop) (N M : Nat) : List Edit → Nat → Nat → Nat → Nat → Prop
  | nil (n o : Nat) : Walk same N M [] n o n o
  | keep {es : List Edit} {n o n' o' : Nat} (hn : n < N) (ho : o < M) (h : same n o)
      (rest : Walk same N M es (n + 1) (o + 1) n' o') : Walk same N M (.keep :: es) n o n' o'
  | add {es : List Edit} {n o n' o' : Nat} (hn : n < N) (rest : Walk same N M es (n + 1) o n' o') :
      Walk same N M (.add :: es) n o n' o'
  | remove {es : List Edit} {n o n' o' : Nat} (ho : o < M)
      (rest : Walk same N M es n (o + 1) n' o') : Walk same N M (.remove :: es) n o n' o'

@[simp] theorem cost_nil : cost [] = 0 := rfl

@[simp] theorem cost_append (es es' : List Edit) : cost (es ++ es') = cost es + cost es' := by
  simp only [cost, List.count_append]
  omega

@[simp] theorem cost_keeps (c : Nat) : cost (List.replicate c .keep) = 0 := by
  simp [cost, List.count_replicate]

@[simp] theorem cost_adds (c : Nat) : cost (List.replicate c .add) = c := by
  simp [cost, List.count_replicate]

@[simp] theorem cost_removes (c : Nat) : cost (List.replicate c .remove) = c := by
  simp [cost, List.count_replicate]

@[simp] theorem cost_singleton {e : Edit} (he : e ≠ .keep) : cost [e] = 1 := by
  cases e <;> simp_all [cost]

/-- A script without edits keeps everything. -/
theorem eq_keeps_of_cost {es : List Edit} (h : cost es = 0) :
    ∃ c, es = List.replicate c .keep := by
  refine ⟨es.length, List.eq_replicate_of_mem ?_⟩
  intro e he
  unfold cost at h
  have hadd : .add ∉ es := List.count_eq_zero.mp (by omega)
  have hremove : .remove ∉ es := List.count_eq_zero.mp (by omega)
  cases e with
  | keep => rfl
  | add => exact absurd he hadd
  | remove => exact absurd he hremove

/-- The last edit of a script, and what is kept after it. -/
theorem exists_last_edit {es : List Edit} (h : cost es ≠ 0) :
    ∃ es' e c, es = es' ++ e :: List.replicate c .keep ∧ e ≠ .keep := by
  induction es using List.reverseRecOn with
  | nil => simp at h
  | append_singleton es e ih =>
    by_cases he : e = .keep
    · subst he
      have hes : cost es ≠ 0 := by simpa [cost] using h
      obtain ⟨es', e, c, rfl, he⟩ := ih hes
      refine ⟨es', e, c + 1, ?_, he⟩
      rw [List.replicate_succ']
      simp
    · exact ⟨es, e, 0, by simp, he⟩

namespace Walk

variable {same : Nat → Nat → Prop} {N M : Nat} {es es' : List Edit} {n o n' o' n'' o'' : Nat}

theorem append (h : Walk same N M es n o n' o') (h' : Walk same N M es' n' o' n'' o'') :
    Walk same N M (es ++ es') n o n'' o'' := by
  induction h with
  | nil => exact h'
  | keep hn ho hsame _ ih => exact .keep hn ho hsame (ih h')
  | add hn _ ih => exact .add hn (ih h')
  | remove ho _ ih => exact .remove ho (ih h')

theorem exists_of_append (h : Walk same N M (es ++ es') n o n'' o'') :
    ∃ n' o', Walk same N M es n o n' o' ∧ Walk same N M es' n' o' n'' o'' := by
  induction es generalizing n o with
  | nil => exact ⟨n, o, .nil n o, h⟩
  | cons e es ih =>
    cases h with
    | keep hn ho hsame rest =>
      obtain ⟨n', o', hleft, hright⟩ := ih rest
      exact ⟨n', o', .keep hn ho hsame hleft, hright⟩
    | add hn rest =>
      obtain ⟨n', o', hleft, hright⟩ := ih rest
      exact ⟨n', o', .add hn hleft, hright⟩
    | remove ho rest =>
      obtain ⟨n', o', hleft, hright⟩ := ih rest
      exact ⟨n', o', .remove ho hleft, hright⟩

theorem new_eq (h : Walk same N M es n o n' o') : n' = n + es.count .keep + es.count .add := by
  induction h <;> simp_all <;> omega

theorem old_eq (h : Walk same N M es n o n' o') : o' = o + es.count .keep + es.count .remove := by
  induction h <;> simp_all <;> omega

theorem new_le (h : Walk same N M es n o n' o') (hn : n ≤ N) : n' ≤ N := by
  induction h with
  | nil => exact hn
  | keep hlt _ _ _ ih => exact ih hlt
  | add hlt _ ih => exact ih hlt
  | remove _ _ ih => exact ih hn

theorem old_le (h : Walk same N M es n o n' o') (ho : o ≤ M) : o' ≤ M := by
  induction h with
  | nil => exact ho
  | keep _ hlt _ _ ih => exact ih hlt
  | add _ _ ih => exact ih ho
  | remove hlt _ ih => exact ih hlt

theorem keeps_eq {c : Nat} (h : Walk same N M (List.replicate c .keep) n o n' o') :
    n' = n + c ∧ o' = o + c := by
  have hnew := h.new_eq
  have hold := h.old_eq
  simp [List.count_replicate] at hnew hold
  omega

theorem adds (c : Nat) (h : n + c ≤ N) :
    Walk same N M (List.replicate c .add) n o (n + c) o := by
  induction c generalizing n with
  | zero => exact .nil n o
  | succ c ih =>
    have hrest := ih (n := n + 1) (by omega)
    rw [show n + 1 + c = n + (c + 1) by omega] at hrest
    exact .add (by omega) hrest

theorem removes (c : Nat) (h : o + c ≤ M) :
    Walk same N M (List.replicate c .remove) n o n (o + c) := by
  induction c generalizing o with
  | zero => exact .nil n o
  | succ c ih =>
    have hrest := ih (o := o + 1) (by omega)
    rw [show o + 1 + c = o + (c + 1) by omega] at hrest
    exact .remove (by omega) hrest

/-- Nothing but keeping goes along a diagonal on which all is the same. -/
theorem keeps_iff (c : Nat) (hn : n + c ≤ N) (ho : o + c ≤ M) :
    Walk same N M (List.replicate c .keep) n o (n + c) (o + c) ↔
      ∀ i < c, same (n + i) (o + i) := by
  induction c generalizing n o with
  | zero => simpa using Walk.nil n o
  | succ c ih =>
    have hih := ih (n := n + 1) (o := o + 1) (by omega) (by omega)
    rw [show n + 1 + c = n + (c + 1) by omega, show o + 1 + c = o + (c + 1) by omega] at hih
    constructor
    · intro h i hi
      cases h with
      | keep _ _ hsame rest =>
        cases i with
        | zero => exact hsame
        | succ i =>
          have hnext := hih.mp rest i (by omega)
          rwa [show n + 1 + i = n + (i + 1) by omega,
            show o + 1 + i = o + (i + 1) by omega] at hnext
    · intro h
      refine .keep (by omega) (by omega) (h 0 (by omega)) (hih.mpr ?_)
      intro i hi
      have hnext := h (i + 1) (by omega)
      rwa [show n + (i + 1) = n + 1 + i by omega, show o + (i + 1) = o + 1 + i by omega] at hnext

end Walk

section Least

variable (same : Nat → Nat → Prop) (N M : Nat)

/-- No script for the whole texts has fewer than `D` edits. -/
def AtLeast (D : Nat) : Prop := ∀ es, Walk same N M es 0 0 N M → D ≤ cost es

/-- A point that a script with `D` edits for the whole texts passes after `d` of them. -/
structure OnScript (D d n o : Nat) : Prop where
  reached : ∃ es, cost es = d ∧ Walk same N M es 0 0 n o
  leads : ∃ es, d + cost es = D ∧ Walk same N M es n o N M

/-- There is a shortest script, and it has no more edits than there are tokens. -/
theorem exists_least : ∃ D, (∃ es, cost es = D ∧ Walk same N M es 0 0 N M) ∧
    AtLeast same N M D ∧ D ≤ N + M := by
  have hadds : Walk same N M (List.replicate N .add) 0 0 (0 + N) 0 := Walk.adds N (by omega)
  have hremoves : Walk same N M (List.replicate M .remove) N 0 N (0 + M) :=
    Walk.removes M (by omega)
  rw [Nat.zero_add] at hadds hremoves
  have hall : ∃ D es, cost es = D ∧ Walk same N M es 0 0 N M := ⟨_, _, rfl, hadds.append hremoves⟩
  classical
  refine ⟨Nat.find hall, Nat.find_spec hall, ?_, ?_⟩
  · intro es hwalk
    exact Nat.find_min' hall ⟨es, rfl, hwalk⟩
  · apply Nat.find_min' hall
    exact ⟨_, by simp, hadds.append hremoves⟩

variable {same N M} {D d n o n' o' : Nat}

/-- The point of a script before its last edit. -/
theorem OnScript.last_edit (h : OnScript same N M D (d + 1) n o) :
    ∃ n₁ o₁ e c, OnScript same N M D d n₁ o₁ ∧ e ≠ .keep ∧
      (∃ es, d + cost (e :: es) = D ∧ Walk same N M (e :: es) n₁ o₁ N M) ∧
      Walk same N M (e :: List.replicate c .keep) n₁ o₁ n o := by
  obtain ⟨⟨es, hcost, hreached⟩, rest, hrest, hleads⟩ := h
  have hedits : cost es ≠ 0 := by omega
  obtain ⟨es', e, c, rfl, he⟩ := exists_last_edit hedits
  obtain ⟨n₁, o₁, hbefore, hlast⟩ := hreached.exists_of_append
  have hcost' : cost es' = d := by
    have hone : cost (e :: List.replicate c .keep) = 1 := by
      rw [← List.singleton_append, cost_append, cost_singleton he, cost_keeps]
    rw [cost_append, hone] at hcost
    omega
  have hon : d + cost ((e :: List.replicate c .keep) ++ rest) = D := by
    rw [← List.singleton_append, cost_append, cost_append, cost_singleton he, cost_keeps]
    omega
  have hall := hlast.append hleads
  exact ⟨n₁, o₁, e, c, ⟨⟨es', hcost', hbefore⟩, ⟨_, hon, hall⟩⟩, he, ⟨_, hon, hall⟩, hlast⟩

/-- Where a shortest script adds a token, whoever has come as far with as many edits on the same
diagonal can add one. -/
theorem AtLeast.can_add {es es' : List Edit} (hleast : AtLeast same N M D)
    (hcost : cost es = d) (hreached : Walk same N M es 0 0 n' o')
    (hcost' : d + cost (.add :: es') = D) (hleads : Walk same N M (.add :: es') n o N M)
    (hdiagonal : (n' : Int) - o' = n - o) : n' < N := by
  have hn := hreached.new_le (Nat.zero_le N)
  have ho := hreached.old_le (Nat.zero_le M)
  by_contra hnot
  obtain rfl : n' = N := by omega
  have hrest : Walk same n' M (List.replicate (M - o') .remove) n' o' n' M := by
    have hremoves : Walk same n' M (List.replicate (M - o') .remove) n' o' n' (o' + (M - o')) :=
      Walk.removes _ (by omega)
    rwa [show o' + (M - o') = M by omega] at hremoves
  have hbound := hleast _ (hreached.append hrest)
  have hnew := hleads.new_eq
  have hold := hleads.old_eq
  rw [cost_append, cost_removes] at hbound
  simp [cost] at hcost' hnew hold
  omega

theorem AtLeast.can_remove {es es' : List Edit} (hleast : AtLeast same N M D)
    (hcost : cost es = d) (hreached : Walk same N M es 0 0 n' o')
    (hcost' : d + cost (.remove :: es') = D) (hleads : Walk same N M (.remove :: es') n o N M)
    (hdiagonal : (n' : Int) - o' = n - o) : o' < M := by
  have hn := hreached.new_le (Nat.zero_le N)
  have ho := hreached.old_le (Nat.zero_le M)
  by_contra hnot
  obtain rfl : o' = M := by omega
  have hrest : Walk same N o' (List.replicate (N - n') .add) n' o' N o' := by
    have hadds : Walk same N o' (List.replicate (N - n') .add) n' o' (n' + (N - n')) o' :=
      Walk.adds _ (by omega)
    rwa [show n' + (N - n') = N by omega] at hadds
  have hbound := hleast _ (hreached.append hrest)
  have hnew := hleads.new_eq
  have hold := hleads.old_eq
  rw [cost_append, cost_adds] at hbound
  simp [cost] at hcost' hnew hold
  omega

end Least

end HackerUnion.Lists
