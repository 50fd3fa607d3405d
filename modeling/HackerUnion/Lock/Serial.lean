import HackerUnion.Lock.World
import Mathlib.Data.List.Perm.Basic

namespace Lock

variable {Pid σ : Type} (prog : Pid → Program σ)

/-- The processes one after the other, in the given order. -/
def replay (order : List Pid) (s : σ) : σ :=
  order.foldl (fun s p => (prog p).exec s) s

theorem replay_append (l₁ l₂ : List Pid) (s : σ) :
    replay prog (l₁ ++ l₂) s = replay prog l₂ (replay prog l₁ s) := by
  simp [replay]

/-- `s` is one of the states the replay passes through. -/
def Visits (init : σ) (order : List Pid) (s : σ) : Prop :=
  ∃ l₁ l₂, order = l₁ ++ l₂ ∧ replay prog l₁ init = s

variable {prog} {init s : σ} {order : List Pid} {p : Pid}

theorem visits_last : Visits prog init order (replay prog order init) :=
  ⟨order, [], by simp, rfl⟩

theorem visits_snoc (h : Visits prog init order s) (p : Pid) :
    Visits prog init (order ++ [p]) s := by
  obtain ⟨l₁, l₂, rfl, hs⟩ := h
  exact ⟨l₁, l₂ ++ [p], by simp, hs⟩

/-- A process that changes nothing at a state the replay passes through can be put there: the
replay then passes through the same states and ends in the same one. -/
theorem visits_insert (h : Visits prog init order s) (hp : (prog p).exec s = s) :
    ∃ order', order'.Perm (p :: order) ∧ replay prog order' init = replay prog order init ∧
      ∀ t, Visits prog init order t → Visits prog init order' t := by
  obtain ⟨l₁, l₂, rfl, hs⟩ := h
  have same : replay prog (l₁ ++ [p]) init = replay prog l₁ init := by
    rw [replay_append, hs]
    exact hp
  refine ⟨l₁ ++ p :: l₂, List.perm_middle, ?_, ?_⟩
  · rw [List.append_cons, replay_append, same, replay_append]
  · intro t hvisits
    obtain ⟨m₁, m₂, he, ht⟩ := hvisits
    rcases List.append_eq_append_iff.mp he with ⟨x, rfl, rfl⟩ | ⟨x, rfl, rfl⟩
    · refine ⟨l₁ ++ p :: x, m₂, by simp, ?_⟩
      rw [← ht, List.append_cons, replay_append, same, replay_append]
    · exact ⟨m₁, x ++ p :: l₂, by simp, ht⟩

variable (prog)

/-- A process that is about to write does so over the very contents it read. -/
def FreshWrite (w : World Pid σ) (p : Pid) : Prop :=
  (w.procs p).todo.head? = some .write → (w.procs p).result.any Prod.snd = true →
    (w.procs p).loaded = some w.file

instance [DecidableEq σ] (w : World Pid σ) (p : Pid) : Decidable (FreshWrite w p) :=
  inferInstanceAs (Decidable (_ → _ → _))

/-- The process read a state the replay passes through, and made of it what its handler makes. -/
structure ProcSerial (init : σ) (order : List Pid) (p : Pid) (x : Proc σ) : Prop where
  loaded : ∀ s, x.loaded = some s → Visits prog init order s
  result : ∀ r, x.result = some r → ∃ s, x.loaded = some s ∧ (prog p).handle s = some r

/-- The file is what the finished processes make of `init` one after the other. -/
def Serial (init : σ) (w : World Pid σ) : Prop :=
  ∃ order, order.Perm w.finished ∧ replay prog order init = w.file ∧
    ∀ p, ProcSerial prog init order p (w.procs p)

variable {prog} {w : World Pid σ}

theorem exec_of_clean {s' : σ} (h : (prog p).handle s = some (s', false)) :
    (prog p).exec s = s := by
  simp [Program.exec, h]

theorem exec_of_dirty {s' : σ} (h : (prog p).handle s = some (s', true))
    (hw : (prog p).writable = true) : (prog p).exec s = s' := by
  simp [Program.exec, h, hw]

variable [DecidableEq Pid]

theorem serial_step (w : World Pid σ) (p : Pid) (h : Serial prog init w)
    (hf : FreshWrite w p) : Serial prog init (step prog w p) := by
  apply step_induction prog h
  intro a rest ht
  obtain ⟨order, hperm, hfile, hprocs⟩ := h
  have keep (x : Proc σ) (hl : x.loaded = (w.procs p).loaded)
      (hr : x.result = (w.procs p).result) :
      ∀ q, ProcSerial prog init order q ((w.setProc p x).procs q) := by
    apply World.setProc_forall (fun q _ => hprocs q)
    have hp := hprocs p
    exact ⟨by rw [hl]; exact hp.loaded, by rw [hl, hr]; exact hp.result⟩
  cases a with
  | load =>
    refine ⟨order, hperm, hfile, ?_⟩
    apply World.setProc_forall (fun q _ => hprocs q)
    refine ⟨?_, by simp⟩
    intro s hs
    cases hs
    rw [← hfile]
    exact visits_last
  | lock | lockOrExit =>
    simp only [perform]
    split <;> exact ⟨order, hperm, hfile, keep _ rfl rfl⟩
  | handle =>
    simp only [perform]
    split
    · rename_i r hr
      obtain ⟨s, hs, hh⟩ := Option.bind_eq_some_iff.mp hr
      refine ⟨order, hperm, hfile, World.setProc_forall (fun q _ => hprocs q) ?_⟩
      refine ⟨(hprocs p).loaded, ?_⟩
      intro r' hr'
      cases hr'
      exact ⟨s, hs, hh⟩
    · exact ⟨order, hperm, hfile, keep _ rfl rfl⟩
  | write =>
    simp only [perform]
    split
    · rename_i s' hres
      split
      · -- the process comes last: it has worked on the file as the others left it
        rename_i hw
        obtain ⟨s, hs, hh⟩ := (hprocs p).result _ hres
        have hcur : s = w.file := by
          have e := hf (by simp [ht]) (by simp [hres])
          rw [hs] at e
          exact Option.some.inj e
        refine ⟨order ++ [p], ?_, ?_, ?_⟩
        · exact (List.perm_append_singleton p order).trans (hperm.cons p)
        · rw [replay_append, hfile, ← hcur]
          exact exec_of_dirty hh hw
        · intro q
          have k := keep { w.procs p with todo := rest } rfl rfl q
          exact ⟨fun t hq => visits_snoc (k.loaded t hq) p, k.result⟩
      · exact ⟨order, hperm, hfile, keep _ rfl rfl⟩
    · -- nothing was written: the process belongs right after its read, however long ago that was
      rename_i s' hres
      obtain ⟨s, hs, hh⟩ := (hprocs p).result _ hres
      obtain ⟨order', hp', hr', hv'⟩ := visits_insert ((hprocs p).loaded s hs) (exec_of_clean hh)
      refine ⟨order', hp'.trans (hperm.cons p), hr'.trans hfile, ?_⟩
      intro q
      have k := keep { w.procs p with todo := rest } rfl rfl q
      exact ⟨fun t hq => hv' t (k.loaded t hq), k.result⟩
    · exact ⟨order, hperm, hfile, keep _ rfl rfl⟩
  | unlock => exact ⟨order, hperm, hfile, keep _ rfl rfl⟩
  | exit =>
    simp only [perform]
    split <;> exact ⟨order, hperm, hfile, keep _ rfl rfl⟩

/-- When every write goes over the contents its process read, the file is at any time the result
of some serial order of the processes that finished. -/
theorem serial_run (prog : Pid → Program σ) (file : σ) (sched : List Pid)
    (hf : Along prog FreshWrite (start prog file) sched) :
    Serial prog file (run prog (start prog file) sched) := by
  apply run_induction prog serial_step sched _ hf
  exact ⟨[], by simp [start], rfl, fun p => ⟨by simp [start], by simp [start]⟩⟩

section Once

/-- The process writes at most once more, and not at all if it has finished. -/
structure WritesOnce (finished : List Pid) (p : Pid) (x : Proc σ) : Prop where
  count : x.todo.count .write ≤ 1
  finished : p ∈ finished → .write ∉ x.todo

theorem writesOnce_step (w : World Pid σ) (p : Pid)
    (h : w.finished.Nodup ∧ ∀ q, WritesOnce w.finished q (w.procs q)) :
    (step prog w p).finished.Nodup ∧
      ∀ q, WritesOnce (step prog w p).finished q ((step prog w p).procs q) := by
  apply step_induction prog
    (I := fun w => w.finished.Nodup ∧ ∀ q, WritesOnce w.finished q (w.procs q)) h
  intro a rest ht
  obtain ⟨hn, hw⟩ := h
  have hp := hw p
  have hc : rest.count .write ≤ 1 :=
    Nat.le_trans (by rw [ht]; exact List.count_le_count_cons) hp.count
  have hf : p ∈ w.finished → .write ∉ rest := by
    intro hm hr
    exact hp.finished hm (by simp [ht, hr])
  have keep (x : Proc σ) (hx : x.todo = rest ∨ x.todo = [] ∨ x.todo = [.exit]) :
      ∀ q, WritesOnce w.finished q ((w.setProc p x).procs q) := by
    apply World.setProc_forall (fun q _ => hw q)
    rcases hx with hx | hx | hx
    · exact ⟨by rw [hx]; exact hc, by rw [hx]; exact hf⟩
    · exact ⟨by simp [hx], by simp [hx]⟩
    · exact ⟨by simp [hx], by simp [hx]⟩
  have finishes (ha : a = .write) : (p :: w.finished).Nodup ∧
      ∀ q, WritesOnce (p :: w.finished) q
        ((w.setProc p { w.procs p with todo := rest }).procs q) := by
    subst ha
    have hnew : p ∉ w.finished := fun hm => hp.finished hm (by simp [ht])
    have hr : .write ∉ rest := by
      have h1 := hp.count
      rw [ht, List.count_cons_self] at h1
      exact List.count_eq_zero.mp (by omega)
    refine ⟨List.nodup_cons.mpr ⟨hnew, hn⟩, World.setProc_forall ?_ ⟨hc, fun _ => hr⟩⟩
    intro q hq
    refine ⟨(hw q).count, ?_⟩
    intro hm
    exact (hw q).finished (by simpa [hq] using hm)
  cases a with
  | load => exact ⟨hn, keep _ (Or.inl rfl)⟩
  | lock =>
    simp only [perform]
    split <;> exact ⟨hn, keep _ (Or.inl rfl)⟩
  | lockOrExit =>
    simp only [perform]
    split
    · exact ⟨hn, keep _ (Or.inl rfl)⟩
    · exact ⟨hn, keep _ (Or.inr (Or.inl rfl))⟩
  | handle =>
    simp only [perform]
    split
    · exact ⟨hn, keep _ (Or.inl rfl)⟩
    · exact ⟨hn, keep _ (Or.inr (Or.inr rfl))⟩
  | write =>
    simp only [perform]
    split
    · split
      · exact finishes rfl
      · exact ⟨hn, keep _ (Or.inr (Or.inr rfl))⟩
    · exact finishes rfl
    · exact ⟨hn, keep _ (Or.inr (Or.inl rfl))⟩
  | unlock => exact ⟨hn, keep _ (Or.inl rfl)⟩
  | exit =>
    simp only [perform]
    split <;> exact ⟨hn, keep _ (Or.inr (Or.inl rfl))⟩

/-- A process whose program writes once finishes once. -/
theorem finished_nodup (prog : Pid → Program σ)
    (hprog : ∀ p, (prog p).actions.count .write ≤ 1) (file : σ) (sched : List Pid) : (run prog (start prog file) sched).finished.Nodup := by
  refine (run_invariant prog writesOnce_step sched ?_).1
  exact ⟨by simp [start], fun p => ⟨hprog p, by simp [start]⟩⟩

end Once

end Lock
