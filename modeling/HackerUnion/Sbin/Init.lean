import HackerUnion.Bash.Read
import HackerUnion.Bash.Sort
import HackerUnion.Sbin.Common

namespace HackerUnion.Sbin

open Bash

/-- How a command leaves the shell it runs in: going on, or ended with a status. -/
inductive Flow where
  | next
  | exit (status : Nat)
  deriving DecidableEq

def Flow.andThen : Flow → Flow → Flow
  | .next, f => f
  | .exit status, _ => .exit status

/-- Each stage of a pipeline is a process of its own, and it is that process that `exit` ends. -/
def Flow.inPipeline (_ : Flow) : Flow := .next

def Flow.status : Flow → Nat
  | .next => 0
  | .exit status => status

/-- What has been started and logged, and how it ended. -/
structure Run where
  started : List Text
  log : List Text
  flow : Flow
  deriving DecidableEq

def inBackground (line : Text) : Bool := line.getLast? = some '&'

/-- The process that a line asks for. -/
def process (line : Text) : Text := if inBackground line then line.dropLast else line

def logLine (context process : Text) (message : String) : Text :=
  '[' :: context ++ text "] " ++ process ++ ' ' :: text message

/-- `code` is what the process exits with, should it be waited for. A process leaves its standard
input, which is what is left of the list, unread. -/
def runner (context line : Text) (code : Nat) : Run :=
  if inBackground line then
    ⟨[process line], [logLine context (process line) "starting in background..."], .next⟩
  else
    let starting := logLine context line "starting..."
    -- The status that is logged is that of the test, which has come out true.
    if code ≠ 0 then ⟨[line], [starting, logLine context line "failed (0)"], .exit 2⟩
    else ⟨[line], [starting, logLine context line "ok (0)"], .next⟩

/-- `while read line; do runner "$line"; done` -/
def runAll (context : Text) : List (Text × Nat) → Run
  | [] => ⟨[], [], .next⟩
  | (line, code) :: tasks =>
    let r := runner context line code
    match r.flow with
    | .exit status => ⟨r.started, r.log, .exit status⟩
    | .next =>
      let rest := runAll context tasks
      ⟨r.started ++ rest.started, r.log ++ rest.log, rest.flow⟩

/-- The loop is the last stage of a pipeline, after which the script ends with `exit 0`. -/
def runList (context : Text) (tasks : List (Text × Nat)) : Run :=
  let r := runAll context tasks
  ⟨r.started, r.log, r.flow.inPipeline.andThen (.exit 0)⟩

/-- A task that is waited for and exits with an error. -/
def fails (task : Text × Nat) : Bool := !inBackground task.1 && task.2 ≠ 0

/-- A list up to and including the first element with a property. -/
def through {α : Type} (p : α → Bool) : List α → List α
  | [] => []
  | a :: as => if p a then [a] else a :: through p as

section Failure

variable {context : Text} {tasks : List (Text × Nat)}

/-- A task is started whatever comes of it, and ends the loop exactly when it fails. -/
theorem runner_spec (context : Text) (task : Text × Nat) :
    (runner context task.1 task.2).started = [process task.1] ∧
      (runner context task.1 task.2).flow = if fails task then .exit 2 else .next := by
  unfold runner fails
  by_cases hb : inBackground task.1 = true
  · simp [hb]
  · by_cases hcode : task.2 = 0
    · simp [hb, hcode, process]
    · simp [hb, hcode, process]

/-- What is started ends with the first task that fails. -/
theorem runAll_started (context : Text) (tasks : List (Text × Nat)) :
    (runAll context tasks).started = (through fails tasks).map (fun task => process task.1) := by
  induction tasks with
  | nil => rfl
  | cons task tasks ih =>
    obtain ⟨hstarted, hflow⟩ := runner_spec context task
    rw [runAll, through]
    by_cases hf : fails task = true
    · rw [if_pos hf] at hflow
      simp only [hflow, hstarted, if_pos hf, List.map_cons, List.map_nil]
    · rw [if_neg hf] at hflow
      simp only [hflow, hstarted, if_neg hf, List.map_cons, ih, List.singleton_append]

theorem through_eq_self {α : Type} {p : α → Bool} {l : List α} (h : ∀ a ∈ l, p a = false) :
    through p l = l := by
  induction l with
  | nil => rfl
  | cons a l ih =>
    have ha := h a List.mem_cons_self
    rw [through, if_neg (by simp [ha]), ih fun b hb => h b (List.mem_cons_of_mem _ hb)]

/-- However the loop ends, the script ends well. -/
theorem runList_status (context : Text) (tasks : List (Text × Nat)) :
    (runList context tasks).flow.status = 0 := rfl

/-- What is started is always right. The exit status tells the truth if and only if no task that is
waited for fails. -/
theorem init_failure (context : Text) (tasks : List (Text × Nat)) :
    ((runList context tasks).started = (through fails tasks).map (fun task => process task.1) ∧
      ((runList context tasks).flow.status ≠ 0 ↔ ∃ task ∈ tasks, fails task = true)) ↔
    ∀ task ∈ tasks, fails task = false := by
  have hstarted : (runList context tasks).started =
      (through fails tasks).map (fun task => process task.1) := runAll_started context tasks
  have hstatus : (runList context tasks).flow.status = 0 := runList_status context tasks
  constructor
  · intro h task htask
    rw [Bool.eq_false_iff]
    intro hf
    exact h.2.mpr ⟨task, htask, hf⟩ hstatus
  · intro h
    refine ⟨hstarted, ?_⟩
    rw [hstatus]
    constructor
    · intro hne
      exact absurd rfl hne
    · rintro ⟨task, htask, hf⟩
      rw [h task htask] at hf
      cases hf

/-- The first task fails, the second is not started, and init succeeds. -/
theorem not_init_failure :
    ¬ ∀ (context : Text) (tasks : List (Text × Nat)),
      (runList context tasks).flow.status ≠ 0 ↔ ∃ task ∈ tasks, fails task = true := by
  intro h
  have hfail := (h (text "boot") [(text "/sbin/fsck", 1), (text "/sbin/launch", 0)]).mpr
    (by decide)
  exact hfail rfl

end Failure

end HackerUnion.Sbin
