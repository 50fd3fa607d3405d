import HackerUnion.Announce.Lib

namespace HackerUnion.Announce

open Js Js.Number

/-- A run of `dispatch`: the user names of `passwd.json`, the strings `getToken` makes, and for
each round the random numbers of its sample and the clock. -/
structure Dispatch where
  passwd : List String
  random : Nat → String
  draw : Nat → Nat → Nat
  now : Nat → Int

variable {F D : Type} [Number F] [DecidableEq D] (sha1 : String → D) (run : Dispatch)

omit [Number F] in
/-- One e-mail with its two tokens. That `contact` fails is caught and makes no difference here. -/
def broadcastTo (announce : Announcement) (sent : Scope F D × List Mail) (user : String) :
    Scope F D × List Mail :=
  let (scope, good) := setToken sha1 run.random sent.1 announce.user "good"
  let (scope, bad) := setToken sha1 run.random scope announce.user "bad"
  (scope, sent.2 ++ [⟨user, good, bad⟩])

/-- The e-mails to `rcpt`, and the author's new total. -/
def broadcast (announce : Announcement) (scope : Scope F D) (rcpt : List String) : Scope F D :=
  let (scope, mails) := rcpt.foldl (broadcastTo sha1 run announce) (scope, [])
  let r := reputation scope announce.user
  let scope := setReputation scope announce.user { r with total := r.total + rcpt.length }
  let scope := setProfile scope announce.user
  { scope with outbox := scope.outbox ++ [⟨announce, mails⟩] }

/-- The callback of `processQueue`. It throws on a task whose announcement does not exist, and on
one without a list of users once that has to grow. -/
def handleTask (scope : Scope F D) (task : Task F)
    (announce : Option Announcement) : Option (Scope F D × Task F) := do
  let announce ← announce
  let (scope, inc) := targetUsers scope run.passwd announce.topics
  let rcpt := chooseByScore (run.draw scope.rounds) task.score inc (task.users.getD [])
  let scope := getProfile scope announce.user
  let (scope, users) ←
    if task.ttl = ttl || ge (reputation scope announce.user).score task.score then do
      let users ← task.users
      some (broadcast sha1 run announce scope rcpt, some (users ++ rcpt))
    else some (scope, task.users)
  some ({ scope with rounds := scope.rounds + 1 },
    { task with
      ttl := task.ttl - 1
      users := users
      score := (reputation scope announce.user).score
      timestamp := some (run.now scope.rounds) })

def handleDispatch (scope : Scope F D) : Option (Scope F D) :=
  processQueue scope (handleTask sha1 run)

/-- `dispatch` has no user and reads none. -/
def Dispatch.main (db : Database F D) : Option (Scope F D) :=
  handleDispatch sha1 run (getScope db "")

end HackerUnion.Announce
