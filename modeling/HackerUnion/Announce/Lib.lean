import HackerUnion.Js.Lodash
import HackerUnion.Js.Value

namespace HackerUnion.Announce

open Js Js.Number

structure Reputation (F : Type) where
  good : Nat
  bad : Nat
  total : Nat
  score : F
  deriving DecidableEq

/-- The own properties of a user's record: `none` is undefined, `some none` is null. -/
structure Profile (F : Type) where
  reputation : Option (Reputation F)
  topics : Option (Option (List String))
  deriving DecidableEq

/-- A timestamp is kept as `Date.parse` reads it: milliseconds, or `none` for `NaN`. -/
structure Announcement where
  id : Nat
  topics : List String
  subject : String
  text : String
  timestamp : Option Int
  user : String
  deriving DecidableEq

structure Task (F : Type) where
  id : Nat
  ttl : Int
  timestamp : Option Int
  score : F
  users : Option (List String)
  deriving DecidableEq

structure Token where
  user : Option String
  action : Option String
  deriving DecidableEq

/-- `database.json`. Tokens are kept under their digest, a string of type `D`. -/
structure Database (F D : Type) where
  announcements : List Announcement
  spool : List (Task F)
  users : Obj String (Profile F)
  tokens : Obj D Token
  deriving DecidableEq

/-- An e-mail handed to `contact`, with the tokens in its two links. -/
structure Mail where
  user : String
  good : String
  bad : String
  deriving DecidableEq

structure Broadcast where
  announce : Announcement
  mails : List Mail
  deriving DecidableEq

structure Compose where
  topics : String
  message : String
  subject : String
  deriving DecidableEq

/-- What one process has in memory. `builtins` are the properties it hung on the objects that
`users[user]` yields for an inherited name: functions, and `Object.prototype` under `__proto__`.
`issued`, `rounds` and `outbox` record the tokens made, the tasks passed to the callback and what
was broadcast so far. -/
structure Scope (F D : Type) where
  db : Database F D
  user : String
  ok : Bool
  msg : String
  dirty : Bool
  compose : Compose
  builtins : String → Profile F
  issued : List String
  rounds : Nat
  outbox : List Broadcast

def coolDown : Rat := 300

def ttl : Int := 3

variable {F D : Type}

section Reputation

variable [Number F]

def confidence (pos neg : Nat) : F :=
  let n := pos + neg
  let z : F := lit (8 / 5)
  if n = 0 then lit 0
  else
    let n : F := lit n
    let phat := lit pos / n
    sqrt (phat + z * z / (lit 2 * n) -
      z * ((phat * (lit 1 - phat) + z * z / (lit 4 * n)) / n)) / (lit 1 + z * z / n)

def getScore (reputation : Reputation F) : F := confidence reputation.good reputation.bad

def grades : List String := ["F", "D", "C", "B", "A"]

/-- `none` is undefined: the score falls outside the grades. -/
def getGrade (score : F) : Option String :=
  match round (lit (grades.length - 1) * score) with
  | some i => if 0 ≤ i then grades[i.toNat]? else none
  | none => none

def getReachByScore (score : F) : Option F :=
  match getGrade score with
  | some "A" => some (lit (75 / 100))
  | some "B" => some (lit (45 / 100))
  | some "C" => some (lit (20 / 100))
  | some "D" => some (lit (10 / 100))
  | some "F" => some (lit (5 / 100))
  | _ => none

def chooseByScore (draw : Nat → Nat) (score : F) (inc exc : List String) : List String :=
  let inc := without inc exc
  sample draw inc ((getReachByScore score).bind (fun reach => round (lit inc.length * reach)))

end Reputation

/-- The separators of a list of topics. A run of them counts as one: between two there is only an
empty topic, and those are dropped. -/
def isTopicSeparator (c : Char) : Bool := isSpace c || c = ','

def getTopics (topics : String) : Option (List String) :=
  if trim topics = "" || topics.toList.any (fun c => !(isSpace c || isWord c || c = '#' || c = ',')) ||
      length topics > 2000 then none
  else
    some ((((topics.toList.map Char.toLower).filter (· ≠ '#')).splitOnP isTopicSeparator).filter
      (· ≠ []) |>.map String.ofList)

def getScope (db : Database F D) (user : String) : Scope F D where
  db := db
  user := user
  ok := true
  msg := ""
  dirty := false
  compose := ⟨"", "", ""⟩
  builtins _ := ⟨none, none⟩
  issued := []
  rounds := 0
  outbox := []

/-- In seconds; a date that does not parse makes it `NaN`. -/
def secondsElapsed (d₁ d₂ : Option Int) : Option Rat :=
  match d₁, d₂ with
  | some d₁, some d₂ => some (((max d₁ d₂ - min d₁ d₂ : Int) : Rat) / 1000)
  | _, _ => none

section Profiles

variable [Number F]

/-- `user in scope.db.users`. Once `getProfile` has put its defaults on `Object.prototype`, their
names are inherited too. -/
def hasUser (scope : Scope F D) (user : String) : Bool :=
  scope.db.users.hasIn user ||
    ((scope.builtins "__proto__").reputation.isSome && user ∈ ["reputation", "topics"])

/-- The object `scope.db.users[user]`, by its own properties. -/
def record (scope : Scope F D) (user : String) : Profile F :=
  (scope.db.users.get user).getD (scope.builtins user)

def putRecord (scope : Scope F D) (user : String) (profile : Profile F) : Scope F D :=
  if scope.db.users.has user then
    { scope with db := { scope.db with users := scope.db.users.set user profile } }
  else { scope with builtins := Function.update scope.builtins user profile }

def Reputation.zero : Reputation F := ⟨0, 0, 0, lit 0⟩

/-- A property that `Object.prototype` lends the record counts as defined and gets no default. -/
def defaults (profile proto : Profile F) : Profile F where
  reputation := if proto.reputation.isSome then profile.reputation
    else profile.reputation <|> some Reputation.zero
  topics := if proto.topics.isSome then profile.topics
    else profile.topics <|> some (some ["general"])

def getProfile (scope : Scope F D) (user : String) : Scope F D :=
  let scope :=
    if hasUser scope user then scope
    else { scope with db := { scope.db with users := scope.db.users.set user ⟨none, none⟩ } }
  putRecord scope user (defaults (record scope user) (scope.builtins "__proto__"))

/-- `profile.reputation`, own or inherited. -/
def reputation (scope : Scope F D) (user : String) : Reputation F :=
  ((record scope user).reputation <|> (scope.builtins "__proto__").reputation).getD Reputation.zero

/-- Assign to the fields of `profile.reputation`, wherever that object lives. -/
def setReputation (scope : Scope F D) (user : String) (r : Reputation F) : Scope F D :=
  if (record scope user).reputation.isSome then
    putRecord scope user { record scope user with reputation := some r }
  else putRecord scope "__proto__" { record scope "__proto__" with reputation := some r }

/-- Put the object `getProfile` gave back under its name. A function put there is not written to
the file, and `users.__proto__ = Object.prototype` changes nothing. -/
def setProfile (scope : Scope F D) (user : String) : Scope F D :=
  { scope with
    dirty := true
    db := if inherited.contains user then scope.db
      else { scope.db with users := scope.db.users.set user (record scope user) } }

/-- `users[user] = undefined`, a property that is not written to the file. -/
def unsetProfile (scope : Scope F D) (user : String) : Scope F D :=
  { scope with dirty := true, db := { scope.db with users := scope.db.users.erase user } }

end Profiles

def getAnnounceMap (scope : Scope F D) : Obj Nat (Option Announcement) :=
  mapValues List.head? (groupBy Announcement.id scope.db.announcements)

/-- `none` is the sentinel `-Infinity` of an empty maximum. -/
def lastAnnounce (scope : Scope F D) (user : String) : Option Announcement :=
  maxBy Announcement.timestamp (scope.db.announcements.filter (fun a => a.user = user))

def setAnnounce (scope : Scope F D) (now : Int) (user : String) (topics : List String)
    (subject message : String) : Scope F D × Announcement :=
  let announce : Announcement :=
    { id := scope.db.announcements.length, topics := topics, subject := subject, text := message,
      timestamp := some now, user := user }
  ({ scope with
      dirty := true
      db := { scope.db with announcements := scope.db.announcements ++ [announce] } }, announce)

def queueAnnounce [Number F] (scope : Scope F D) (announce : Announcement) (score : F) : Scope F D :=
  let task : Task F :=
    { id := announce.id, ttl := ttl, timestamp := none, score := orZero score,
      users := some [announce.user] }
  { scope with dirty := true, db := { scope.db with spool := scope.db.spool ++ [task] } }

/-- The rounds of `forEach` from index `i` on. A round at an index past the end does nothing, and
the list may have shrunk under the loop. -/
def processFrom (map : Obj Nat (Option Announcement))
    (cb : Scope F D → Task F → Option Announcement → Option (Scope F D × Task F)) :
    Nat → Nat → Scope F D → Option (Scope F D)
  | 0, _, scope => some scope
  | n + 1, i, scope =>
    match scope.db.spool[i]? with
    | none => processFrom map cb n (i + 1) scope
    | some task =>
      if task.ttl = 0 then
        processFrom map cb n (i + 1)
          { scope with db := { scope.db with spool := scope.db.spool.eraseIdx i } }
      else do
        let (scope, task) ← cb scope task (map.get task.id).join
        processFrom map cb n (i + 1)
          { scope with db := { scope.db with spool := scope.db.spool.set i task } }

/-- The callback works on the task object itself; its answer `none` is an exception. -/
def processQueue (scope : Scope F D)
    (cb : Scope F D → Task F → Option Announcement → Option (Scope F D × Task F)) :
    Option (Scope F D) :=
  let map := getAnnounceMap scope
  let scope := { scope with dirty := true }
  processFrom map cb scope.db.spool.length 0 scope

section Targets

variable [Number F]

/-- The condition of the filter. -/
def targets (profile : Option (Option (List String))) (topics : List String) : Bool :=
  match profile.join with
  | none => true
  | some own => inArray "general" own || arrayTruthy (intersection own topics)

/-- `profile.topics`, own or inherited. -/
def topicsOf (scope : Scope F D) (user : String) : Option (Option (List String)) :=
  (record scope user).topics <|> (scope.builtins "__proto__").topics

def targetUsers (scope : Scope F D) (users topics : List String) : Scope F D × List String :=
  users.foldl
    (fun (scope, found) user =>
      let scope := getProfile scope user
      (scope, if targets (topicsOf scope user) topics then found ++ [user] else found))
    (scope, [])

end Targets

section Tokens

variable [DecidableEq D] (sha1 : String → D) (random : Nat → String)

def popToken (scope : Scope F D) (token : String) : Scope F D × Option Token :=
  let hashed := sha1 token
  ({ scope with dirty := true, db := { scope.db with tokens := scope.db.tokens.erase hashed } },
    scope.db.tokens.get hashed)

/-- `random` gives the strings `getToken` makes, in the order of its calls. -/
def setToken (scope : Scope F D) (user action : String) : Scope F D × String :=
  let token := random scope.issued.length
  ({ scope with
      dirty := true
      issued := scope.issued ++ [token]
      db := { scope.db with
        tokens := scope.db.tokens.set (sha1 token) ⟨some user, some action⟩ } }, token)

end Tokens

end HackerUnion.Announce
