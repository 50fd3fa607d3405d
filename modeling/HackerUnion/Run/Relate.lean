import HackerUnion.Run.Copy

namespace HackerUnion.Run

section Options

variable {A A' B B' : Type} {R : A → A' → Prop} {Q : B → B' → Prop} {x : Option A} {x' : Option A'}

theorem rel_bind {f : A → Option B} {f' : A' → Option B'} (h : Option.Rel R x x')
    (hf : ∀ a a', R a a' → Option.Rel Q (f a) (f' a')) : Option.Rel Q (x.bind f) (x'.bind f') := by
  cases h with
  | some h => exact hf _ _ h
  | none => exact .none

theorem rel_map {f : A → B} {f' : A' → B'} (h : Option.Rel R x x')
    (hf : ∀ a a', R a a' → Q (f a) (f' a')) : Option.Rel Q (x.map f) (x'.map f') := by
  cases h with
  | some h => exact .some (hf _ _ h)
  | none => exact .none

theorem map_eq_map {f : A → B} {f' : A' → B} (h : Option.Rel R x x')
    (hf : ∀ a a', R a a' → f a = f' a') : x.map f = x'.map f' := by
  cases h with
  | some h => exact congrArg some (hf _ _ h)
  | none => rfl

theorem rel_isSome (h : Option.Rel R x x') : x.isSome = x'.isSome := by
  cases h <;> rfl

end Options

section Steps

variable {S S' A : Type} {R : S → S' → Prop} {f : S → A → Option S} {f' : S' → A → Option S'}

/-- Steps that keep two states related do so all the way, and come to an end together. -/
theorem foldlM_rel (hstep : ∀ s s' a, R s s' → Option.Rel R (f s a) (f' s' a)) {s : S} {s' : S'}
    (h : R s s') (as : List A) : Option.Rel R (as.foldlM f s) (as.foldlM f' s') := by
  induction as generalizing s s' with
  | nil => exact .some h
  | cons a as ih =>
    rw [List.foldlM_cons, List.foldlM_cons]
    exact rel_bind (hstep s s' a h) fun _ _ hone => ih hone

end Steps

section Copy

variable {S S' P V V' I : Type} [DecidableEq P] {RS : S → S' → Prop} {RV : V → V' → Prop}
variable {get : S → P → Option V} {get' : S' → P → Option V'}
variable {set : S → P → V → S} {set' : S' → P → V' → S'} {pre post : I → P}

theorem remember_rel {tmp : P → Option V} {tmp' : P → Option V'}
    (h : ∀ p, Option.Rel RV (tmp p) (tmp' p)) {obj : Option V} {obj' : Option V'}
    (hobj : Option.Rel RV obj obj') (p : P) :
    (∀ q, Option.Rel RV ((remember tmp p obj).1 q) ((remember tmp' p obj').1 q)) ∧
      Option.Rel RV (remember tmp p obj).2 (remember tmp' p obj').2 := by
  have hor : Option.Rel RV ((tmp p).or obj) ((tmp' p).or obj') := by
    have hp := h p
    revert hp
    cases tmp p <;> cases tmp' p <;> intro hp <;> cases hp
    · exact hobj
    · next hp => exact .some hp
  rw [remember_eq, remember_eq]
  refine ⟨?_, hor⟩
  intro q
  by_cases hq : q = p
  · rw [hq]
    simpa using hor
  · simpa [hq] using h q

/-- Related stores are copied alike. -/
theorem copyAll_rel (hget : ∀ s s' p, RS s s' → Option.Rel RV (get s p) (get' s' p))
    (hset : ∀ s s' p v v', RS s s' → RV v v' → RS (set s p v) (set' s' p v')) {s : S} {s' : S'}
    (h : RS s s') (is : List I) :
    Option.Rel RS (copyAll get set pre post s is) (copyAll get' set' pre post s' is) := by
  let R (st : S × (P → Option V)) (st' : S' × (P → Option V')) : Prop :=
    RS st.1 st'.1 ∧ ∀ p, Option.Rel RV (st.2 p) (st'.2 p)
  have hround (st : S × (P → Option V)) (st' : S' × (P → Option V')) (i : I) (h : R st st') :
      Option.Rel R (copyRound get set pre post st i) (copyRound get' set' pre post st' i) := by
    have hpre := remember_rel h.2 (hget st.1 st'.1 (pre i) h.1) (pre i)
    have hpost := remember_rel hpre.1 (hget st.1 st'.1 (post i) h.1) (post i)
    exact rel_map hpost.2 fun v v' hv => ⟨hset _ _ _ _ _ h.1 hv, hpost.1⟩
  have hstart : R (s, fun _ => none) (s', fun _ => none) := ⟨h, fun _ => .none⟩
  exact rel_map (foldlM_rel hround hstart is) fun _ _ hend => hend.1

end Copy

end HackerUnion.Run
