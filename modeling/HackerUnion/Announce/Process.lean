import HackerUnion.Announce.Request
import HackerUnion.Announce.Dispatch
import HackerUnion.Lock.Ownership
import HackerUnion.Lock.Serial

namespace HackerUnion.Announce

open Js Lock

/-- The two programs that share `database.json`. -/
inductive Job where
  | request (req : Request)
  | dispatch (run : Dispatch)

variable {F D : Type} [Number F] [DecidableEq D] (sha1 : String → D)

def Job.main : Job → Database F D → Option (Scope F D)
  | .request req => req.main sha1
  | .dispatch run => Dispatch.main sha1 run

def Job.handle (job : Job) (db : Database F D) : Option (Database F D × Bool) :=
  (job.main sha1 db).map (fun scope => (scope.db, scope.dirty))

/-- Both load the file before they try to lock it, `dispatch` also does all its work before, and
neither minds when the lock is not to be had. -/
def Job.actions : Job → List Action
  | .request _ => [.load, .lock, .handle, .write, .unlock, .exit]
  | .dispatch _ => [.load, .handle, .lock, .write, .unlock, .exit]

/-- `writable` says whether the write, which is in a `try`, goes through. -/
def Job.program (job : Job) (writable : Bool) : Program (Database F D) where
  actions := job.actions
  handle := job.handle sha1
  writable := writable

/-- What a job makes of the file when no other process runs. -/
def Job.exec (job : Job) (db : Database F D) : Database F D := (job.program sha1 true).exec db

/-- Jobs run one after the other. -/
def runJobs (jobs : List Job) (db : Database F D) : Database F D :=
  jobs.foldl (fun db job => job.exec sha1 db) db

/-- A database with nothing in it. -/
def emptyDatabase : Database Rat String := ⟨[], [], Obj.empty, Obj.empty⟩

end HackerUnion.Announce
