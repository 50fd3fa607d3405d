import HackerUnion.Lock.World

namespace Lock

variable {Pid σ : Type}

def Action.held (held : Bool) : Action → Bool
  | .lock | .lockOrExit => true
  | .unlock | .exit => false
  | _ => held

/-- Every action of the list that `needs` the lock comes after one that takes it and before any
that gives it up, for a process that holds the lock at the start exactly when `held` says so. -/
def covered (needs : Action → Bool) : Bool → List Action → Bool
  | _, [] => true
  | held, a :: as => (!needs a || held) && covered needs (a.held held) as

theorem covered_cons {needs : Action → Bool} {held : Bool} {a : Action} {as : List Action}
    (h : covered needs held (a :: as) = true) :
    (needs a = true → held = true) ∧ covered needs (a.held held) as = true := by
  simp only [covered, Bool.and_eq_true, Bool.or_eq_true, Bool.not_eq_true'] at h
  refine ⟨?_, h.2⟩
  intro hn
  simpa [hn] using h.1

/-- The step does not try to create a lock file that exists, unless the process ends if it does. -/
def LockFree (w : World Pid σ) (p : Pid) : Prop :=
  (w.procs p).todo.head? = some .lock → w.lock = none

instance [DecidableEq Pid] (w : World Pid σ) (p : Pid) : Decidable (LockFree w p) :=
  inferInstanceAs (Decidable (_ → _))

/-- If the process counts the lock as its own then it created the lock file that exists, and what
is left of its program has its lock where it needs it. -/
structure ProcOwned (needs : Action → Bool) (lock : Option Pid) (p : Pid) (x : Proc σ) : Prop where
  covered : covered needs x.holds x.todo = true
  owner : x.holds = true → lock = some p

def Owned (needs : Action → Bool) (w : World Pid σ) : Prop :=
  ∀ p, ProcOwned needs w.lock p (w.procs p)

namespace Owned

variable {needs : Action → Bool} {w : World Pid σ} {p q : Pid}

theorem exclusive (h : Owned needs w) (hp : (w.procs p).holds = true)
    (hq : (w.procs q).holds = true) : p = q := by
  have e := ((h p).owner hp).symm.trans ((h q).owner hq)
  exact Option.some.inj e

theorem next (h : Owned needs w) {a : Action} {rest : List Action}
    (ht : (w.procs p).todo = a :: rest) (hn : needs a = true) :
    (w.procs p).holds = true ∧ w.lock = some p := by
  have hc := (h p).covered
  rw [ht] at hc
  have hh := (covered_cons hc).1 hn
  exact ⟨hh, (h p).owner hh⟩

theorem rest (h : Owned needs w) {a : Action} {rest : List Action}
    (ht : (w.procs p).todo = a :: rest) :
    covered needs (a.held (w.procs p).holds) rest = true := by
  have hc := (h p).covered
  rw [ht] at hc
  exact (covered_cons hc).2

variable [DecidableEq Pid]

/-- A step that neither takes nor gives up the lock. -/
theorem keep (h : Owned needs w) (x : Proc σ) (hx : x.holds = (w.procs p).holds)
    (hc : covered needs x.holds x.todo = true) : Owned needs (w.setProc p x) := by
  have own : x.holds = true → w.lock = some p := by
    rw [hx]
    exact (h p).owner
  exact World.setProc_forall (P := ProcOwned needs w.lock) (fun q _ => h q) ⟨hc, own⟩

theorem acquire (h : Owned needs w) {rest : List Action} (hl : w.lock = none)
    (hc : covered needs true rest = true) : Owned needs (acquire w p rest) := by
  apply World.setProc_forall (P := ProcOwned needs (some p))
  · intro q _
    refine ⟨(h q).covered, ?_⟩
    intro hq
    have e := (h q).owner hq
    simp [hl] at e
  · exact ⟨hc, fun _ => rfl⟩

/-- A step that gives the lock up: nobody else can have been counting on it. -/
theorem release (h : Owned needs w) (x : Proc σ) (hp : (w.procs p).holds = true)
    (hx : x.holds = false) (hc : covered needs false x.todo = true) :
    Owned needs { w.setProc p x with lock := none } := by
  apply World.setProc_forall (P := ProcOwned needs none)
  · intro q hq
    refine ⟨(h q).covered, ?_⟩
    intro hh
    exact absurd (h.exclusive hh hp) hq
  · exact ⟨by rw [hx]; exact hc, by simp [hx]⟩

end Owned

section Runs

variable [DecidableEq Pid] (prog : Pid → Program σ) {needs : Action → Bool}

theorem owned_step (hu : needs .unlock = true) (he : needs .exit = false) (w : World Pid σ)
    (p : Pid)
    (h : Owned needs w) (hc : LockFree w p) : Owned needs (step prog w p) := by
  apply step_induction prog h
  intro a rest ht
  have hr := h.rest ht
  have exits (held : Bool) : covered needs held [.exit] = true := by simp [covered, he]
  cases a with
  | load => exact h.keep _ rfl hr
  | lock =>
    have hl : w.lock = none := hc (by simp [ht])
    simp only [perform, hl]
    exact h.acquire hl hr
  | lockOrExit =>
    simp only [perform]
    split
    · exact h.acquire ‹_› hr
    · exact h.keep _ rfl rfl
  | handle =>
    simp only [perform]
    split
    · exact h.keep _ rfl hr
    · exact h.keep _ rfl (exits _)
  | write =>
    have wrote (file : σ) (finished : List Pid) : Owned needs
        { w.setProc p { w.procs p with todo := rest } with file := file, finished := finished } := by
      exact h.keep { w.procs p with todo := rest } rfl hr
    simp only [perform]
    split
    · split
      · exact wrote _ _
      · exact h.keep _ rfl (exits _)
    · exact wrote _ _
    · exact h.keep _ rfl rfl
  | unlock => exact h.release _ (h.next ht hu).1 rfl hr
  | exit =>
    simp only [perform]
    split
    · exact h.release _ ‹_› rfl rfl
    · exact h.keep _ rfl rfl

omit [DecidableEq Pid] in
theorem owned_start (file : σ) (hprog : ∀ p, covered needs false (prog p).actions = true) :
    Owned needs (start prog file) :=
  fun p => ⟨hprog p, by simp [start]⟩

/-- When no process goes on after a failed attempt to lock, whatever needs the lock is done by
the process that created the lock file. -/
theorem owned_run (hu : needs .unlock = true) (he : needs .exit = false) (file : σ)
    (hprog : ∀ p, covered needs false (prog p).actions = true) (sched : List Pid)
    (hc : Along prog LockFree (start prog file) sched) :
    Owned needs (run prog (start prog file) sched) :=
  run_induction prog (owned_step prog hu he) sched (owned_start prog file hprog) hc

end Runs

end Lock
