import HackerUnion.Announce.Lib

namespace HackerUnion.Announce

open Js Js.Number

structure Form where
  task : Field
  topics : Field
  subject : Field
  message : Field
  deriving DecidableEq

/-- A request to `index.cgi`: the environment, the body as `body.parse` reports it, and the two
readings of the clock an announcement takes. -/
structure Request where
  user : String
  post : Bool
  token : Field
  body : Except String Form
  now : Int
  stamp : Int

/-- The page, as far as the template computes it from what the program knows. -/
structure Page (F : Type) where
  message : String
  compose : Compose
  user : String
  topics : String
  good : Nat
  bad : Nat
  ignored : Int
  total : Nat
  grade : Option String
  authorized : Bool

variable {F D : Type} [Number F]

def Reputation.vote (r : Reputation F) (good : Bool) : Reputation F :=
  let r := { r with good := r.good + good.toNat, bad := r.bad + (!good).toNat }
  { r with score := getScore r }

def handleVote (scope : Scope F D) (user : String) (good : Bool) : Scope F D :=
  let scope := getProfile scope user
  let scope := setReputation scope user ((reputation scope user).vote good)
  { scope with msg := (if good then "Upvote" else "Downvote") ++ " saved!" }

/-- Assign to `profile.topics`. -/
def setTopics (scope : Scope F D) (user : String) (topics : Option (List String)) : Scope F D :=
  putRecord scope user { record scope user with topics := some topics }

/-- The record of `user` as a string, which is what it becomes as a property name. -/
def recordText (scope : Scope F D) (user : String) : String :=
  if scope.db.users.has user || !inherited.contains user || user = "__proto__" then "[object Object]"
  else
    "function " ++ (if user = "constructor" then "Object" else user) ++ "() \x7b [native code] \x7d"

/-- `setProfile` is called without the user here: it takes the record for the name and writes
undefined under it. The page then throws if that was the requester's own record. -/
def handleSaveTopics (scope : Scope F D) (qs : Form) : Option (Scope F D) := do
  let scope := getProfile scope scope.user
  let text ← qs.topics.string
  match getTopics text with
  | none => some { setTopics scope scope.user none with msg := "Invalid topics." }
  | some topics =>
    let scope := setTopics scope scope.user (some topics)
    let name := recordText scope scope.user
    if name = scope.user then none
    else some { unsetProfile scope name with msg := "Topics saved." }

/-- `Math.round`. -/
def roundRat (q : Rat) : Int := (q + 1 / 2).floor

/-- The early returns of `handleAnnounce`: the message of the first check that fails. -/
def rejection (scope : Scope F D) (now : Int) (topics : Option (List String))
    (subject message : String) : Option String :=
  if topics.getD [] = [] then some "Invalid topics."
  else if length subject < 5 || length subject > 50 then some "Subject too short or too long."
  else if length message < 50 || length message > 25000 then some "Message too short or too long."
  else
    -- `prior` is an object or the number `-Infinity`, so `prior &&` lets both through
    let prior := lastAnnounce scope scope.user
    match secondsElapsed (prior.bind Announcement.timestamp) (some now) with
    | some delta =>
      if delta < coolDown then
        some ("Please wait " ++ toString (roundRat (coolDown - delta)) ++
          " second(s) before posting this announcement.")
      else none
    | none => none

def handleAnnounce (req : Request) (scope : Scope F D) (qs : Form) : Option (Scope F D) := do
  let topics ← qs.topics.string.map getTopics
  let scope := getProfile scope scope.user
  let subject ← qs.subject.string.map trim
  let message ← qs.message.string.map trim
  let scope := { scope with
    compose := ⟨", ".intercalate ((topics.getD []).map ("#" ++ ·)), message, subject⟩ }
  match rejection scope req.now topics subject message with
  | some msg => some { scope with msg := msg }
  | none =>
    let score := (reputation scope scope.user).score
    let (scope, announce) := setAnnounce scope req.stamp scope.user (topics.getD []) subject message
    some { queueAnnounce scope announce score with msg := "Message queued!" }

/-- Any other task is not answered: `finish` is never called. -/
def handlePost (req : Request) (scope : Scope F D) : Option (Scope F D) :=
  match req.body with
  | .error err => some { scope with msg := err }
  | .ok qs =>
    match qs.task with
    | .text "save_topics" => handleSaveTopics scope qs
    | .text "announce" => handleAnnounce req scope qs
    | _ => none

/-- `token.action.toLowerCase()`; other letters than these do not turn into them. -/
def lower (s : String) : String := String.ofList (s.toList.map Char.toLower)

variable [DecidableEq D] (sha1 : String → D)

def handleToken (scope : Scope F D) (token : Field) : Option (Scope F D) := do
  let token ← token.string
  let (scope, token) := popToken sha1 scope token
  match token with
  | some ⟨some user, some action⟩ =>
    if user = "" || action = "" then
      some { scope with msg := "This link is no longer valid." }
    else if lower action = "good" then some (handleVote scope user true)
    else if lower action = "bad" then some (handleVote scope user false)
    else some { scope with msg := "This link is invalid." }
  | _ => some { scope with msg := "This link is no longer valid." }

omit [DecidableEq D] in
/-- Drawing the page makes a record for the requester, which the write that follows saves. -/
def renderPage (scope : Scope F D) : Scope F D × Page F :=
  let scope := getProfile scope scope.user
  let r := reputation scope scope.user
  let topics := (topicsOf scope scope.user).join.getD []
  (scope,
    { message := scope.msg, compose := scope.compose, user := scope.user
      topics := "\n".intercalate (topics.map ("#" ++ ·))
      good := r.good, bad := r.bad, ignored := max 0 ((r.total : Int) - r.good - r.bad)
      total := r.total, grade := getGrade r.score, authorized := scope.user ≠ "guest" })

def finish (scope : Scope F D) : Scope F D :=
  if scope.ok then (renderPage scope).1 else scope

/-- `main`, from the database it loaded to its `finish`; nothing when it ends before. -/
def Request.main (req : Request) (db : Database F D) : Option (Scope F D) :=
  let scope := getScope db req.user
  (if req.token.truthy then handleToken sha1 scope req.token
    else if req.user ≠ "guest" && req.post then handlePost req scope
    else some scope).map finish

end HackerUnion.Announce
