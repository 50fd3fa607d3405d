import HackerUnion.Announce.Process
import HackerUnion.Run.Steps

namespace HackerUnion.Announce

open Js

variable {F D : Type} [Number F] [DecidableEq D] (sha1 : String → D)

def Job.step (db : Database F D) (job : Job) : Option (Database F D) := some (job.exec sha1 db)

/-- The database before each job and after the last one. -/
abbrev databases (jobs : List Job) (db : Database F D) : List (Database F D) :=
  Run.states (Job.step sha1) db jobs

/-- `C` holds of each job and the database it is given. -/
abbrev Throughout (C : Job → Database F D → Prop) (jobs : List Job) (db : Database F D) : Prop :=
  Run.Throughout (Job.step sha1) (fun db job => C job db) db jobs

def Job.outbox (job : Job) (db : Database F D) : List Broadcast :=
  ((job.main sha1 db).map Scope.outbox).getD []

/-- What each job broadcasts. -/
def broadcasts : List Job → Database F D → List (List Broadcast)
  | [], _ => []
  | job :: jobs, db => job.outbox sha1 db :: broadcasts jobs (job.exec sha1 db)

variable {sha1} {job : Job} {jobs : List Job} {db : Database F D}

theorem runJobs_cons : runJobs sha1 (job :: jobs) db = runJobs sha1 jobs (job.exec sha1 db) := rfl

theorem Job.exec_eq :
    job.exec sha1 db = match job.main sha1 db with
      | some s => if s.dirty then s.db else db
      | none => db := by
  simp only [Job.exec, Job.program, Lock.Program.exec, Job.handle]
  cases job.main sha1 db with
  | none => rfl
  | some s => cases hd : s.dirty <;> simp [hd]

theorem Job.exec_of_dirty {s : Scope F D} (h : job.main sha1 db = some s) (hd : s.dirty = true) :
    job.exec sha1 db = s.db := by
  simp [Job.exec_eq, h, hd]

theorem Job.exec_of_clean {s : Scope F D} (h : job.main sha1 db = some s) (hd : s.dirty = false) :
    job.exec sha1 db = db := by
  simp [Job.exec_eq, h, hd]

/-- The file is as it was or as some run of `main` left it. -/
theorem Job.exec_induction {P : Database F D → Prop} (h0 : P db)
    (h : ∀ s, job.main sha1 db = some s → P s.db) : P (job.exec sha1 db) := by
  rw [Job.exec_eq]
  split
  · split
    · exact h _ ‹_›
    · exact h0
  · exact h0

theorem runJobs_mem_databases (jobs : List Job) (db : Database F D) :
    runJobs sha1 jobs db ∈ databases sha1 jobs db :=
  Run.foldl_mem_states (fun (db : Database F D) (job : Job) => job.exec sha1 db) db jobs

theorem databases_invariant {C : Job → Database F D → Prop} {I : Database F D → Prop}
    (hs : ∀ job db, I db → C job db → I (job.exec sha1 db)) (h0 : I db)
    (hc : Throughout sha1 C jobs db) : ∀ db' ∈ databases sha1 jobs db, I db' := by
  refine Run.states_invariant ?_ h0 hc
  intro db job db' hdb hjob hstep
  obtain rfl := Option.some.inj hstep
  exact hs job db hdb hjob

/-- One announcement by the author, with the given tasks. -/
def queueOf (author : String) (tasks : List (Task Rat)) : Database Rat String :=
  ⟨[⟨0, ["general"], "Welcome", "The union meets.", none, author⟩], tasks, Obj.empty, Obj.empty⟩

/-- A dispatch run for the accounts ann and bob. -/
def annAndBob : Dispatch where
  passwd := ["ann", "bob"]
  random n := toString n
  draw _ _ := 0
  now _ := 0

end HackerUnion.Announce
