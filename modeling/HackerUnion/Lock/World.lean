import Mathlib.Data.List.Basic
import Mathlib.Logic.Function.Basic

namespace Lock

/-- The atomic steps a program that shares one file is made of. -/
inductive Action where
  /-- Read the whole file. -/
  | load
  /-- Try to create the lock file, and go on whatever comes of it. -/
  | lock
  /-- Try to create the lock file, and end the process when it exists. -/
  | lockOrExit
  /-- Work on what was read, in memory. -/
  | handle
  /-- Write the whole file back if the work made it dirty. -/
  | write
  /-- Remove the lock file, whoever created it. -/
  | unlock
  /-- End: the exit listener removes the lock file if this process still counts it as its own. -/
  | exit
  deriving DecidableEq, Repr

/-- A process's program. `handle` gives the new contents and the dirty flag, or nothing when the
process ends before it gets to the write; `writable` is the file system's answer to the write. -/
structure Program (σ : Type) where
  actions : List Action
  handle : σ → Option (σ × Bool)
  writable : Bool := true

/-- What the program makes of the file when nothing else runs. -/
def Program.exec {σ : Type} (g : Program σ) (s : σ) : σ :=
  match g.handle s with
  | some (s', true) => if g.writable then s' else s
  | _ => s

structure Proc (σ : Type) where
  todo : List Action
  loaded : Option σ
  result : Option (σ × Bool)
  holds : Bool

/-- `lock` is the creator of the lock file that exists. The two histories are most recent first:
the processes that created the lock file, and those that got past their write. -/
structure World (Pid σ : Type) where
  file : σ
  lock : Option Pid
  procs : Pid → Proc σ
  locked : List Pid
  finished : List Pid

variable {Pid σ : Type} [DecidableEq Pid]

def start (prog : Pid → Program σ) (file : σ) : World Pid σ where
  file := file
  lock := none
  procs p := { todo := (prog p).actions, loaded := none, result := none, holds := false }
  locked := []
  finished := []

def World.setProc (w : World Pid σ) (p : Pid) (q : Proc σ) : World Pid σ :=
  { w with procs := Function.update w.procs p q }

namespace World

variable (w : World Pid σ) (p q : Pid) (x : Proc σ)

@[simp] theorem setProc_file : (w.setProc p x).file = w.file := rfl
@[simp] theorem setProc_lock : (w.setProc p x).lock = w.lock := rfl
@[simp] theorem setProc_locked : (w.setProc p x).locked = w.locked := rfl
@[simp] theorem setProc_finished : (w.setProc p x).finished = w.finished := rfl
@[simp] theorem setProc_self : (w.setProc p x).procs p = x := by simp [setProc]

@[simp] theorem setProc_other {p q : Pid} (h : q ≠ p) : (w.setProc p x).procs q = w.procs q := by
  simp [setProc, h]

end World

/-- Create the lock file for `p`, which exists no longer than the world says. -/
def acquire (w : World Pid σ) (p : Pid) (rest : List Action) : World Pid σ :=
  { w.setProc p { w.procs p with todo := rest, holds := true } with
    lock := some p, locked := p :: w.locked }

/-- Perform `a`, the next action of `p`; `rest` is what is left after it. -/
def perform (prog : Pid → Program σ) (w : World Pid σ) (p : Pid) (rest : List Action) :
    Action → World Pid σ
  | .load => w.setProc p { w.procs p with todo := rest, loaded := some w.file, result := none }
  | .lock =>
    match w.lock with
    | none => acquire w p rest
    | some _ => w.setProc p { w.procs p with todo := rest }
  | .lockOrExit =>
    match w.lock with
    | none => acquire w p rest
    | some _ => w.setProc p { w.procs p with todo := [] }
  | .handle =>
    match (w.procs p).loaded.bind (prog p).handle with
    | some r => w.setProc p { w.procs p with todo := rest, result := some r }
    | none => w.setProc p { w.procs p with todo := [.exit] }
  | .write =>
    match (w.procs p).result with
    | some (s, true) =>
      if (prog p).writable then
        { w.setProc p { w.procs p with todo := rest } with file := s, finished := p :: w.finished }
      else w.setProc p { w.procs p with todo := [.exit] }
    | some (_, false) =>
      { w.setProc p { w.procs p with todo := rest } with finished := p :: w.finished }
    | none => w.setProc p { w.procs p with todo := [] }
  | .unlock => { w.setProc p { w.procs p with todo := rest, holds := false } with lock := none }
  | .exit =>
    if (w.procs p).holds then
      { w.setProc p { w.procs p with todo := [], holds := false } with lock := none }
    else w.setProc p { w.procs p with todo := [] }

def step (prog : Pid → Program σ) (w : World Pid σ) (p : Pid) : World Pid σ :=
  match (w.procs p).todo with
  | [] => w
  | a :: rest => perform prog w p rest a

/-- Run a schedule: each entry lets that process take its next step. -/
def run (prog : Pid → Program σ) (w : World Pid σ) (sched : List Pid) : World Pid σ :=
  sched.foldl (step prog) w

/-- `C` holds of the state before every step of the schedule. -/
def Along (prog : Pid → Program σ) (C : World Pid σ → Pid → Prop) :
    World Pid σ → List Pid → Prop
  | _, [] => True
  | w, p :: sched => C w p ∧ Along prog C (step prog w p) sched

instance decidableAlong (prog : Pid → Program σ) (C : World Pid σ → Pid → Prop)
    [∀ w p, Decidable (C w p)] : ∀ w sched, Decidable (Along prog C w sched)
  | _, [] => isTrue trivial
  | w, p :: sched =>
    have := decidableAlong prog C (step prog w p) sched
    inferInstanceAs (Decidable (C w p ∧ Along prog C (step prog w p) sched))

theorem step_of_todo (prog : Pid → Program σ) {w : World Pid σ} {p : Pid} {a : Action}
    {rest : List Action} (h : (w.procs p).todo = a :: rest) :
    step prog w p = perform prog w p rest a := by
  simp [step, h]

/-- An invariant is shown one action at a time. -/
theorem step_induction (prog : Pid → Program σ) {w : World Pid σ} {p : Pid}
    {I : World Pid σ → Prop} (h0 : I w)
    (h : ∀ a rest, (w.procs p).todo = a :: rest → I (perform prog w p rest a)) :
    I (step prog w p) := by
  unfold step
  split
  · exact h0
  · exact h _ _ ‹_›

theorem run_induction (prog : Pid → Program σ) {C : World Pid σ → Pid → Prop}
    {I : World Pid σ → Prop} (hs : ∀ w p, I w → C w p → I (step prog w p))
    (sched : List Pid) {w : World Pid σ} (h0 : I w) (hc : Along prog C w sched) :
    I (run prog w sched) := by
  induction sched generalizing w with
  | nil => exact h0
  | cons p sched ih => exact ih (hs w p h0 hc.1) hc.2

theorem along_true (prog : Pid → Program σ) (w : World Pid σ) (sched : List Pid) :
    Along prog (fun _ _ => True) w sched := by
  induction sched generalizing w with
  | nil => trivial
  | cons p sched ih => exact ⟨trivial, ih _⟩

theorem run_invariant (prog : Pid → Program σ) {I : World Pid σ → Prop}
    (hs : ∀ w p, I w → I (step prog w p)) (sched : List Pid) {w : World Pid σ} (h0 : I w) :
    I (run prog w sched) :=
  run_induction prog (fun w p hw _ => hs w p hw) sched h0 (along_true prog w sched)

theorem World.setProc_forall {P : Pid → Proc σ → Prop} {w : World Pid σ} {p : Pid} {x : Proc σ}
    (h : ∀ q, q ≠ p → P q (w.procs q)) (hx : P p x) (q : Pid) :
    P q ((w.setProc p x).procs q) := by
  by_cases hq : q = p
  · subst hq
    simpa using hx
  · simpa [hq] using h q hq

section Contents

variable (prog : Pid → Program σ) (I : σ → Prop)

/-- What a process has read, and what it has made of it, satisfy `I`. -/
structure ProcHolds (x : Proc σ) : Prop where
  loaded : ∀ s, x.loaded = some s → I s
  result : ∀ s d, x.result = some (s, d) → I s

/-- The file satisfies `I`, and so does every copy of it in some process's memory. -/
structure FileHolds (w : World Pid σ) : Prop where
  file : I w.file
  procs : ∀ p, ProcHolds I (w.procs p)

variable {I}

theorem fileHolds_step (hI : ∀ p s s' d, I s → (prog p).handle s = some (s', d) → I s')
    (w : World Pid σ) (p : Pid) (h : FileHolds I w) : FileHolds I (step prog w p) := by
  have hp := h.procs p
  have keep (x : Proc σ) (hl : x.loaded = (w.procs p).loaded)
      (hr : x.result = (w.procs p).result) : ∀ q, ProcHolds I ((w.setProc p x).procs q) :=
    World.setProc_forall (fun q _ => h.procs q)
      ⟨by rw [hl]; exact hp.loaded, by rw [hr]; exact hp.result⟩
  apply step_induction prog h
  intro a rest _
  cases a with
  | load =>
    refine ⟨h.file, World.setProc_forall (fun q _ => h.procs q) ⟨?_, by simp⟩⟩
    intro s hs
    cases hs
    exact h.file
  | lock | lockOrExit =>
    simp only [perform]
    split
    · exact ⟨h.file, keep _ rfl rfl⟩
    · exact ⟨h.file, keep _ rfl rfl⟩
  | handle =>
    simp only [perform]
    split
    · rename_i r hr
      obtain ⟨s, hs, hh⟩ := Option.bind_eq_some_iff.mp hr
      refine ⟨h.file, World.setProc_forall (fun q _ => h.procs q) ⟨hp.loaded, ?_⟩⟩
      intro s' d he
      cases he
      exact hI p s s' d (hp.loaded s hs) hh
    · exact ⟨h.file, keep _ rfl rfl⟩
  | write =>
    simp only [perform]
    split
    · split
      · exact ⟨hp.result _ _ ‹_›, keep _ rfl rfl⟩
      · exact ⟨h.file, keep _ rfl rfl⟩
    · exact ⟨h.file, keep _ rfl rfl⟩
    · exact ⟨h.file, keep _ rfl rfl⟩
  | unlock => exact ⟨h.file, keep _ rfl rfl⟩
  | exit =>
    simp only [perform]
    split
    · exact ⟨h.file, keep _ rfl rfl⟩
    · exact ⟨h.file, keep _ rfl rfl⟩

/-- What every handler keeps holds of every version of the file, whatever the interleaving:
a stale copy is a copy of a file that satisfied it. -/
theorem fileHolds_run (hI : ∀ p s s' d, I s → (prog p).handle s = some (s', d) → I s')
    {file : σ} (h : I file) (sched : List Pid) :
    FileHolds I (run prog (start prog file) sched) := by
  apply run_invariant prog (fileHolds_step prog hI)
  exact ⟨h, fun p => ⟨by simp [start], by simp [start]⟩⟩

/-- Every result, and every process that got past its write, comes from a file that satisfied
`I`. -/
structure Worked (I : σ → Prop) (w : World Pid σ) : Prop where
  holds : FileHolds I w
  result : ∀ p r, (w.procs p).result = some r → ∃ s, I s ∧ (prog p).handle s = some r
  finished : ∀ p ∈ w.finished, ∃ s r, I s ∧ (prog p).handle s = some r ∧
    (r.2 = true → (prog p).writable = true)

theorem worked_step (hI : ∀ p s s' d, I s → (prog p).handle s = some (s', d) → I s')
    (w : World Pid σ) (p : Pid) (h : Worked prog I w) : Worked prog I (step prog w p) := by
  have hholds := fileHolds_step prog hI w p h.holds
  have keep (x : Proc σ) (hr : ∀ r, x.result = some r → ∃ s, I s ∧ (prog p).handle s = some r) :
      ∀ q r, ((w.setProc p x).procs q).result = some r → ∃ s, I s ∧ (prog q).handle s = some r :=
    World.setProc_forall
      (P := fun q x => ∀ r, x.result = some r → ∃ s, I s ∧ (prog q).handle s = some r)
      (fun q _ => h.result q) hr
  suffices hrest : (∀ q r, ((step prog w p).procs q).result = some r →
      ∃ s, I s ∧ (prog q).handle s = some r) ∧
      ∀ q ∈ (step prog w p).finished, ∃ s r, I s ∧ (prog q).handle s = some r ∧
        (r.2 = true → (prog q).writable = true) from
    ⟨hholds, hrest.1, hrest.2⟩
  refine step_induction prog
    (I := fun w => (∀ q r, (w.procs q).result = some r → ∃ s, I s ∧ (prog q).handle s = some r) ∧
      ∀ q ∈ w.finished, ∃ s r, I s ∧ (prog q).handle s = some r ∧
        (r.2 = true → (prog q).writable = true)) ⟨h.result, h.finished⟩ ?_
  intro a rest _
  cases a with
  | load => exact ⟨keep _ (by simp), h.finished⟩
  | lock | lockOrExit =>
    simp only [perform]
    split
    · exact ⟨keep _ (h.result p), h.finished⟩
    · exact ⟨keep _ (h.result p), h.finished⟩
  | handle =>
    simp only [perform]
    split
    · rename_i r hr
      obtain ⟨s, hs, hh⟩ := Option.bind_eq_some_iff.mp hr
      refine ⟨keep _ ?_, h.finished⟩
      intro r' he
      cases he
      exact ⟨s, (h.holds.procs p).loaded s hs, hh⟩
    · exact ⟨keep _ (h.result p), h.finished⟩
  | write =>
    have hcons (r : σ × Bool) (hr : (w.procs p).result = some r)
        (hw : r.2 = true → (prog p).writable = true) :
        ∀ q ∈ p :: w.finished, ∃ s r, I s ∧ (prog q).handle s = some r ∧
          (r.2 = true → (prog q).writable = true) := by
      intro q hq
      rcases List.mem_cons.mp hq with rfl | hq
      · obtain ⟨s, hs, hh⟩ := h.result q r hr
        exact ⟨s, r, hs, hh, hw⟩
      · exact h.finished q hq
    simp only [perform]
    split
    · split
      · exact ⟨keep _ (h.result p), hcons _ ‹_› (fun _ => ‹_›)⟩
      · exact ⟨keep _ (h.result p), h.finished⟩
    · exact ⟨keep _ (h.result p), hcons _ ‹_› (by simp)⟩
    · exact ⟨keep _ (h.result p), h.finished⟩
  | unlock => exact ⟨keep _ (h.result p), h.finished⟩
  | exit =>
    simp only [perform]
    split
    · exact ⟨keep _ (h.result p), h.finished⟩
    · exact ⟨keep _ (h.result p), h.finished⟩

theorem worked_run (hI : ∀ p s s' d, I s → (prog p).handle s = some (s', d) → I s')
    {file : σ} (h : I file) (sched : List Pid) :
    Worked prog I (run prog (start prog file) sched) := by
  apply run_invariant prog (worked_step prog hI)
  exact ⟨fileHolds_run prog hI h [], by simp [start], by simp [start]⟩

end Contents

end Lock
