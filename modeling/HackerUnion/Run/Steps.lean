import Mathlib.Data.List.Basic

namespace HackerUnion.Run

variable {S O : Type} (step : S → O → Option S)

/-- The state before each operation and after the last one. -/
def states (s : S) : List O → List S
  | [] => [s]
  | op :: ops => s :: ((step s op).map (fun s => states s ops)).getD []

/-- `C` holds of each operation and the state it is performed in. -/
def Throughout (C : S → O → Prop) (s : S) : List O → Prop
  | [] => True
  | op :: ops => C s op ∧ ∀ s' ∈ step s op, Throughout C s' ops

instance decidableThroughout (C : S → O → Prop) [∀ s op, Decidable (C s op)] :
    ∀ s ops, Decidable (Throughout step C s ops)
  | _, [] => isTrue trivial
  | s, op :: ops =>
    have (s' : S) := decidableThroughout C s' ops
    inferInstanceAs (Decidable (C s op ∧ ∀ s' ∈ step s op, Throughout step C s' ops))

variable {step} {Inv Good : S → Prop} {C : S → O → Prop}

/-- Where a step that meets its condition is exactly one that keeps a state good, all states of a
run are good if and only if every step meets its condition. -/
theorem forall_states_iff
    (hstep : ∀ s op, Inv s → Good s → ∃ s', step s op = some s' ∧ Inv s' ∧ (Good s' ↔ C s op))
    {s : S} (hi : Inv s) (hg : Good s) (ops : List O) :
    ((states step s ops).length = ops.length + 1 ∧ ∀ s' ∈ states step s ops, Good s') ↔
      Throughout step C s ops := by
  induction ops generalizing s with
  | nil =>
    refine iff_of_true ⟨rfl, ?_⟩ trivial
    intro s' hs
    cases List.mem_singleton.mp hs
    exact hg
  | cons op ops ih =>
    obtain ⟨s₁, hs₁, hi₁, hiff⟩ := hstep s op hi hg
    have hstates : states step s (op :: ops) = s :: states step s₁ ops := by
      simp [states, hs₁]
    have hthrough : Throughout step C s (op :: ops) ↔ C s op ∧ Throughout step C s₁ ops := by
      simp [Throughout, hs₁]
    have hfirst : s₁ ∈ states step s₁ ops := by
      cases ops <;> simp [states]
    rw [hstates, hthrough]
    constructor
    · intro hrun
      obtain ⟨hlen, hall⟩ := hrun
      have hg₁ := hall s₁ (List.mem_cons_of_mem s hfirst)
      refine ⟨hiff.mp hg₁, (ih hi₁ hg₁).mp ⟨by simpa using hlen, ?_⟩⟩
      intro s' hs
      exact hall s' (List.mem_cons_of_mem s hs)
    · intro hsteps
      obtain ⟨hc, hrest⟩ := hsteps
      obtain ⟨hlen, hall⟩ := (ih hi₁ (hiff.mpr hc)).mpr hrest
      refine ⟨by simp [hlen], ?_⟩
      intro s' hs
      rcases List.mem_cons.mp hs with rfl | hs
      · exact hg
      · exact hall s' hs

theorem throughout_of_forall (hc : ∀ s op, C s op) (s : S) (ops : List O) :
    Throughout step C s ops := by
  induction ops generalizing s with
  | nil => trivial
  | cons op ops ih => exact ⟨hc s op, fun s' _ => ih s'⟩

theorem throughout_and {C' : S → O → Prop} {s : S} {ops : List O} (h : Throughout step C s ops)
    (h' : Throughout step C' s ops) : Throughout step (fun s op => C s op ∧ C' s op) s ops := by
  induction ops generalizing s with
  | nil => trivial
  | cons op ops ih => exact ⟨⟨h.1, h'.1⟩, fun s' hs => ih (h.2 s' hs) (h'.2 s' hs)⟩

/-- A run in two parts meets its conditions in the first and in the second, from where the first
ends. -/
theorem throughout_append {s : S} {pre post : List O} :
    Throughout step C s (pre ++ post) ↔
      Throughout step C s pre ∧ ∀ s' ∈ pre.foldlM step s, Throughout step C s' post := by
  induction pre generalizing s with
  | nil => simp [Throughout]
  | cons op pre ih =>
    rw [List.cons_append, Throughout, Throughout, and_assoc, List.foldlM_cons]
    refine and_congr_right fun _ => ?_
    cases hop : step s op with
    | none => simp
    | some s₁ =>
      simp only [Option.mem_some_iff, forall_eq', Option.bind_eq_bind, Option.bind_some]
      exact ih

theorem throughout_last {s s' : S} {ops : List O} {op : O}
    (h : Throughout step C s (ops ++ [op])) (hs : ops.foldlM step s = some s') : C s' op := by
  induction ops generalizing s with
  | nil =>
    obtain rfl := Option.some.inj hs
    exact h.1
  | cons op' ops ih =>
    obtain ⟨s₁, hs₁, hrest⟩ := Option.bind_eq_some_iff.mp hs
    exact ih (h.2 s₁ hs₁) hrest

/-- Steps that keep an invariant by their conditions do throughout a run what each of them does from
there. -/
theorem throughout_of_invariant {I : S → Prop} {D : S → O → Prop}
    (hstep : ∀ s op s', I s → C s op → step s op = some s' → I s')
    (hcond : ∀ s op, I s → C s op → D s op) {s : S} (hi : I s) {ops : List O}
    (hc : Throughout step C s ops) : Throughout step D s ops := by
  induction ops generalizing s with
  | nil => trivial
  | cons op ops ih =>
    exact ⟨hcond s op hi hc.1, fun s' hs => ih (hstep s op s' hi hc.1 hs) (hc.2 s' hs)⟩

/-- Where no step fails, the last state of a run is what its steps fold to. -/
theorem foldl_mem_states (f : S → O → S) (s : S) (ops : List O) :
    ops.foldl f s ∈ states (fun s op => some (f s op)) s ops := by
  induction ops generalizing s with
  | nil => simp [states]
  | cons op ops ih => exact List.mem_cons_of_mem s (ih (f s op))

/-- What each step that meets its condition keeps holds in every state of a run of them. -/
theorem states_invariant {I : S → Prop}
    (hstep : ∀ s op s', I s → C s op → step s op = some s' → I s') {s : S} (hi : I s) {ops : List O}
    (hc : Throughout step C s ops) : ∀ s' ∈ states step s ops, I s' := by
  induction ops generalizing s with
  | nil =>
    intro s' hs
    cases List.mem_singleton.mp hs
    exact hi
  | cons op ops ih =>
    intro s' hs
    rcases List.mem_cons.mp hs with rfl | hs
    · exact hi
    · cases hop : step s op with
      | none => simp [hop] at hs
      | some s₁ =>
        rw [hop] at hs
        exact ih (hstep s op s₁ hi hc.1 hop) (hc.2 s₁ hop) s' hs

/-- What each step does to a state, if it holds on from step to step, holds of any two states of a
run, the earlier and the later. -/
theorem states_pairwise {R : S → S → Prop} (hrefl : ∀ s, R s s)
    (htrans : ∀ s t u, R s t → R t u → R s u)
    (hstep : ∀ s op s', step s op = some s' → R s s') (s : S) (ops : List O) :
    (states step s ops).Pairwise R ∧ ∀ s' ∈ states step s ops, R s s' := by
  induction ops generalizing s with
  | nil =>
    refine ⟨List.pairwise_singleton R s, ?_⟩
    intro s' hs
    cases List.mem_singleton.mp hs
    exact hrefl s
  | cons op ops ih =>
    cases hop : step s op with
    | none => simp [states, hop, hrefl]
    | some s₁ =>
      have hstates : states step s (op :: ops) = s :: states step s₁ ops := by
        simp [states, hop]
      obtain ⟨hpairs, hfrom⟩ := ih s₁
      have hlater (s' : S) (hs : s' ∈ states step s₁ ops) : R s s' :=
        htrans s s₁ s' (hstep s op s₁ hop) (hfrom s' hs)
      rw [hstates]
      refine ⟨List.pairwise_cons.mpr ⟨hlater, hpairs⟩, ?_⟩
      intro s' hs
      rcases List.mem_cons.mp hs with rfl | hs
      · exact hrefl s'
      · exact hlater s' hs

end HackerUnion.Run
