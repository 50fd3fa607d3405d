import HackerUnion.Announce.Process

namespace HackerUnion.Announce

open Js Lock

variable {F D Pid : Type} [Number F] [DecidableEq D] [DecidableEq Pid]

/-- A job for each process, and whether its write would go through. -/
def programs (sha1 : String → D) (jobs : Pid → Job) (writable : Pid → Bool) :
    Pid → Program (Database F D) :=
  fun p => (jobs p).program sha1 (writable p)

/-- The world after a schedule of steps of the processes. -/
def interleave (sha1 : String → D) (jobs : Pid → Job) (writable : Pid → Bool)
    (db : Database F D) (sched : List Pid) : World Pid (Database F D) :=
  run (programs sha1 jobs writable) (start (programs sha1 jobs writable) db) sched

/-- Some serial order of the finished processes explains the file. -/
def Serializable (prog : Pid → Program (Database F D)) (db : Database F D)
    (w : World Pid (Database F D)) : Prop :=
  ∃ order : List Pid, order.Nodup ∧ order.Perm w.finished ∧ replay prog order db = w.file

theorem writes_once (job : Job) : job.actions.count .write ≤ 1 := by
  cases job <;> simp [Job.actions]

/-- Whenever the step is a write, the file still holds what its process loaded. -/
theorem interleave_serializable (sha1 : String → D) (jobs : Pid → Job) (writable : Pid → Bool)
    (db : Database F D) (sched : List Pid)
    (h : Along (programs sha1 jobs writable) FreshWrite
      (start (programs sha1 jobs writable) db) sched) :
    Serializable (programs sha1 jobs writable) db (interleave sha1 jobs writable db sched) := by
  obtain ⟨order, hperm, hfile, -⟩ := serial_run (programs sha1 jobs writable) db sched h
  have hnodup := finished_nodup (programs sha1 jobs writable)
    (fun p => writes_once (jobs p)) db sched
  exact ⟨order, hperm.nodup_iff.mpr hnodup, hperm, hfile⟩

/-- A user's `save_topics` request. -/
def saveTopics (user topics : String) : Job :=
  .request
    { user := user, post := true, token := .absent, now := 0, stamp := 0
      body := .ok ⟨.text "save_topics", .text topics, .absent, .absent⟩ }

def twoSaves : Bool → Job
  | true => saveTopics "ann" "#go"
  | false => saveTopics "bob" "#art"

theorem interleave_serializable_saves :
    Serializable (programs id twoSaves (fun _ => true)) emptyDatabase
      (interleave id twoSaves (fun _ => true) emptyDatabase
        (List.replicate 6 true ++ List.replicate 6 false)) :=
  interleave_serializable id twoSaves (fun _ => true) emptyDatabase _ (by decide +kernel)

/-- Both load the empty file; the one that writes last erases the other's topics. -/
theorem not_interleave_serializable :
    ¬ ∀ (jobs : Bool → Job) (db : Database Rat String) (sched : List Bool),
      Serializable (programs id jobs (fun _ => true)) db
        (interleave id jobs (fun _ => true) db sched) := by
  intro h
  obtain ⟨order, -, hperm, hfile⟩ := h twoSaves emptyDatabase
    ([true, false] ++ List.replicate 5 true ++ List.replicate 5 false)
  have hfin : (interleave id twoSaves (fun _ => true) emptyDatabase
      ([true, false] ++ List.replicate 5 true ++ List.replicate 5 false)).finished =
        [false, true] := by decide +kernel
  rw [hfin] at hperm
  obtain ⟨a, b, rfl⟩ := List.length_eq_two.mp hperm.length_eq
  have hbad : ∀ a b : Bool, [a, b].Perm [false, true] →
      replay (programs id twoSaves (fun _ => true)) [a, b] emptyDatabase ≠
        (interleave id twoSaves (fun _ => true) emptyDatabase
          ([true, false] ++ List.replicate 5 true ++ List.replicate 5 false)).file := by
    decide +kernel
  exact hbad a b hperm hfile

section Ownership

/-- The file is written and the lock file removed only by the process that created the lock file
there is, and at most one process is between its successful lock and its unlock. -/
structure LockOwnership {σ : Type} (w : World Pid σ) : Prop where
  write : ∀ p, (w.procs p).todo.head? = some .write → (w.procs p).result.any Prod.snd = true →
    w.lock = some p
  remove : ∀ p q, ((w.procs p).todo.head? = some .unlock ∨
    ((w.procs p).todo.head? = some .exit ∧ (w.procs p).holds = true)) → w.lock = some q → q = p
  exclusive : ∀ p q, (w.procs p).holds = true → (w.procs q).holds = true → p = q

def writesOrUnlocks : Action → Bool
  | .write | .unlock => true
  | _ => false

omit [DecidableEq Pid] in
theorem lockOwnership_of_owned {σ : Type} {w : World Pid σ} (h : Owned writesOrUnlocks w) :
    LockOwnership w := by
  have next (p : Pid) (a : Action) (ha : writesOrUnlocks a = true)
      (ht : (w.procs p).todo.head? = some a) : w.lock = some p := by
    obtain ⟨rest, hr⟩ := List.head?_eq_some_iff.mp ht
    exact (h.next hr ha).2
  refine ⟨fun p ht _ => next p _ rfl ht, ?_, fun p q hp hq => h.exclusive hp hq⟩
  intro p q hp hq
  have hl : w.lock = some p := by
    rcases hp with ht | ⟨-, hh⟩
    · exact next p _ rfl ht
    · exact (h p).owner hh
  exact Option.some.inj (hq.symm.trans hl)

/-- Ownership holds as long as nobody tries to lock while the lock file exists. -/
theorem interleave_lockOwnership (sha1 : String → D) (jobs : Pid → Job) (writable : Pid → Bool)
    (db : Database F D) (sched : List Pid)
    (h : Along (programs sha1 jobs writable) LockFree
      (start (programs sha1 jobs writable) db) sched) :
    LockOwnership (interleave sha1 jobs writable db sched) := by
  apply lockOwnership_of_owned
  apply owned_run (programs sha1 jobs writable) rfl rfl db _ sched h
  intro p
  show covered writesOrUnlocks false (jobs p).actions = true
  cases jobs p <;> rfl

theorem interleave_lockOwnership_saves :
    LockOwnership (interleave id twoSaves (fun _ => true) emptyDatabase
      ([true, false] ++ List.replicate 5 true ++ List.replicate 2 false)) :=
  interleave_lockOwnership id twoSaves (fun _ => true) emptyDatabase _ (by decide +kernel)

/-- The second process fails to lock and is about to write all the same. -/
theorem not_interleave_lockOwnership :
    ¬ ∀ (jobs : Bool → Job) (db : Database Rat String) (sched : List Bool),
      LockOwnership (interleave id jobs (fun _ => true) db sched) := by
  intro h
  have hw := (h twoSaves emptyDatabase
    (List.replicate 2 true ++ List.replicate 3 false)).write false
  revert hw
  decide +kernel

end Ownership

end HackerUnion.Announce
