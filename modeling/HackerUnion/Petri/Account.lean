import HackerUnion.Petri.Models

namespace HackerUnion.Petri

open Bash (Text text lower)
open Durable
open Durable.Handler

/-- Of a request of the application what the forms read: the user, and the chapter of the URL. -/
structure Request where
  user : User
  chapter : Chapter
  deriving DecidableEq

/-- Where a form is turned down, the fields and what is said of them. -/
abbrev Errors := List (Text × Text)

inductive Reply where
  | success
  | errors (errors : Errors)
  | forbidden
  | notFound
  | login
  deriving DecidableEq

/-- `__all__` -/
def nonField : Text := text "__all__"

def invalid (message : Text) : Reply := .errors [(nonField, message)]

/-- What is posted to a form that files a request. -/
structure RequestData where
  title : Text := []
  content : Text := []
  related : Option Nat := none
  isGlobal : Option Bool := none
  delete : Bool := false
  deriving DecidableEq

def invalidChoice : Text :=
  text "Select a valid choice. That choice is not one of the available choices."

/-- What is white space in a Unicode string. -/
def isStripped (c : Char) : Bool :=
  let n := c.toNat
  (0x9 ≤ n && n ≤ 0xD) || (0x1C ≤ n && n ≤ 0x20) || n = 0x85 || n = 0xA0 || n = 0x1680 ||
    n = 0x180E || (0x2000 ≤ n && n ≤ 0x200A) || n = 0x2028 || n = 0x2029 || n = 0x202F ||
    n = 0x205F || n = 0x3000

def strip (t : Text) : Text := (t.dropWhile isStripped).rdropWhile isStripped

/-- A form to which `delete` is posted is given nothing else. -/
def RequestData.bound (data : RequestData) : RequestData :=
  if data.delete then { delete := true } else data

def Kind.allowMultiple : Kind → Bool
  | .promote | .help => true
  | .join | .lead | .pair => false

section Validate

def RequestForm.validate (_ : User) (_ : Option Nat) : M (Option Text) := return none

def PromoteRequestForm.validate (_ : User) (related : Option Nat) : M (Option Text) :=
  return if related = none then some (text "The referenced post couldn't be found.") else none

def JoinRequestForm.validate (user : User) (_ : Option Nat) : M (Option Text) := do
  let profile ← user.getProfile
  return if profile.canApply then none else some (text "User is not eligible to apply.")

def LeadRequestForm.validate (user : User) (_ : Option Nat) : M (Option Text) := do
  let profile ← user.getProfile
  return if profile.isLeader then some (text "User is already a leader.") else none

/-- The forms to seek a mentor and to ask for help have none of their own. -/
def Kind.validate : Kind → User → Option Nat → M (Option Text)
  | .join => JoinRequestForm.validate
  | .lead => LeadRequestForm.validate
  | .pair => RequestForm.validate
  | .help => RequestForm.validate
  | .promote => PromoteRequestForm.validate

end Validate

/-- `clean_title` -/
def Kind.title (username : Text) : Kind → Text
  | .join => username ++ text " wants to join this chapter."
  | .lead => username ++ text " wants to become a leader."
  | .pair => username ++ text " is seeking a new mentor."
  | .help => username ++ text " has a question."
  | .promote => username ++ text " wants to endorse a post."

def leaderships (db : Db) : List Leadership := db.tables.posts.rows.filterMap Post.asLeadership

/-- `has_requested` -/
def hasRequested (db : Db) (owner : User) (request : Kind) : Bool :=
  (leaderships db).any fun l =>
    l.request = request && l.owner = owner.pk && l.response = .pending

/-- The fields of the form, each by itself. -/
def RequestForm.fieldErrors (request : Request) (data : RequestData) : M Errors := do
  let db ← read
  let title := if titleMaxLen < data.title.length then
      [(text "title", text "Ensure this value has at most 140 characters (it has " ++
        decimal data.title.length ++ text ").")]
    else []
  let content := if data.delete then []
    else if data.content = [] then [(text "content", text "This field is required.")]
    else if strip data.content = [] then [(text "content", text "Your content cannot be blank")]
    else []
  let related := if data.related.any fun pk => (db.tables.posts.find? pk).isNone then
      [(text "related", invalidChoice)] else []
  let isGlobal ← if data.isGlobal = some true then do
      let profile ← request.user.getProfile
      pure (if profile.isLeader then []
        else [(text "is_global", text "Only leaders can post global bulletins.")])
    else pure []
  return title ++ content ++ related ++ isGlobal

/-- `RequestForm.clean`, of fields without errors. -/
def RequestForm.clean (kind : Kind) (request : Request) (data : RequestData) :
    M (Option Text) := do
  if !kind.allowMultiple && hasRequested (← read) request.user kind then
    return some (text "User has already issued this request.")
  kind.validate request.user data.related

def PromoteRequestForm.clean (request : Request) (data : RequestData) : M (Option Text) := do
  match ← RequestForm.clean .promote request data with
  | some message => return some message
  | none =>
    if data.related = none then
      return some (text "You must include a post to endorse in your request.")
    if (leaderships (← read)).any fun l => l.request = .promote && l.related = data.related then
      return some (text "A user has already requested that this content be endorsed.")
    return none

def PairRequestForm.clean (request : Request) (data : RequestData) : M (Option Text) := do
  match ← RequestForm.clean .pair request data with
  | some message => return some message
  | none =>
    let profile ← request.user.getProfile
    return if profile.isLeader then some (text "Leaders cannot seek new mentors.") else none

/-- `clean` of the form of each kind. -/
def Kind.clean : Kind → Request → RequestData → M (Option Text)
  | .promote => PromoteRequestForm.clean
  | .pair => PairRequestForm.clean
  | .join => RequestForm.clean .join
  | .lead => RequestForm.clean .lead
  | .help => RequestForm.clean .help

/-- The request the form is filled into. -/
def Kind.filled (kind : Kind) (request : Request) (data : RequestData) : Leadership where
  pk := 0
  title := kind.title request.user.username
  content := strip data.content
  owner := request.user.pk
  promotedBy := none
  related := data.related
  chapter := request.chapter
  isOfficial := true
  isGlobal := data.isGlobal.getD false
  request := kind
  response := .pending
  processedBy := none

/-- `RequestForm.save`: a request to delete is not stored, so deleting it raises. -/
def Kind.save (kind : Kind) (request : Request) (data : RequestData) : M Unit := do
  if data.delete then throw .assertionError
  let l ← (kind.filled request data).save true
  l.follow request.user

/-- A request is filed: `is_valid`, and then `save`. -/
def Kind.file (kind : Kind) (request : Request) (data : RequestData) : M Reply := do
  let data := data.bound
  match ← RequestForm.fieldErrors request data with
  | [] =>
    match ← kind.clean request data with
    | some message => return invalid message
    | none => do
      kind.save request data
      return .success
  | errors => return .errors errors

def bootstrapJoinRequest (user : User) (chapter : Chapter) (application : Text) : M Bool := do
  return (← Kind.join.file ⟨user, chapter⟩ { content := application }) = .success

def createPairRequest (user : User) (chapter : Chapter) (reason : Text) : M Bool := do
  return (← Kind.pair.file ⟨user, chapter⟩ { content := reason }) = .success

namespace UserProfile

def save (p : UserProfile) : M Unit := saved fun t => { t with profiles := t.profiles.save p }

def getEmail (p : UserProfile) : Text := p.user.email

def getMentees (p : UserProfile) : M (List UserProfile) := do
  return (← read).tables.profiles.rows.filter fun m => m.leader = some p.pk

def availableToLead (p : UserProfile) : M Bool := do
  return p.isLeader && (← p.getMentees).length < maxMentees

def resignModeration (p : UserProfile) : M UserProfile := do
  if !p.canModerate then return p
  let p := { p with isModerator := false }
  p.save
  return p

def becomeLeader (p : UserProfile) : M UserProfile := do
  if p.isLeader then return p
  let p := { p with isLeader := true, leader := none }
  p.save
  if p.allowOfficial then subscribeList p.chapter.getOfficialList p.getEmail
  return p

def becomeModerator (p : UserProfile) : M UserProfile := do
  if p.canModerate then return p
  let p ← if p.isLeader then pure p else p.becomeLeader
  let p := { p with isModerator := true }
  p.save
  return p

/-- `assign_leader` with `commit`; `abandon` gives no leader. -/
def assignLeader (p : UserProfile) (user : Option User) : M UserProfile := do
  let p := { p with leader := user.map User.pk }
  p.save
  return p

def abandon (p : UserProfile) : M UserProfile := p.assignLeader none

/-- The mentees are other objects than `p`, each saved as it was read. -/
def detach (p : UserProfile) (mentee : UserProfile) : M Unit := do
  save { mentee with leader := none }
  let user ← getUser mentee.pk
  let _ ← createPairRequest user p.chapter
    (text "My mentor (" ++ p.displayName ++ text ") stepped down as a leader.")

def resignLeadership (p : UserProfile) (commit : Bool := true) : M UserProfile := do
  let p ← p.resignModeration
  if !p.isLeader then return p
  let p := { p with isLeader := false }
  let mentees ← p.getMentees
  mentees.forM p.detach
  if commit then p.save
  unsubscribeList p.chapter.getOfficialList p.getEmail
  return p

/-- `activate`, with `commit`. -/
def activate (p : UserProfile) (chapter : Chapter) (leader : User) : M UserProfile := do
  let p := { p with status := .approved, chapter := chapter }
  let p ← if ← (← leader.getProfile).availableToLead then p.assignLeader (some leader)
    else p.assignLeader none
  proxyEmail p.getEmail p.user.username
  if p.allowAnnounce then subscribeList p.chapter.getAnnounceList p.getEmail
  if p.allowDiscuss then subscribeList p.chapter.getDiscussList p.getEmail
  return p

/-- An assignment to the field, which is declared `null=False`. -/
def setChapter (p : UserProfile) : Option Chapter → M UserProfile
  | none => throw .valueError
  | some chapter => return { p with chapter := chapter }

def deactivate (p : UserProfile) : M UserProfile := do
  unsubscribeList p.chapter.getAnnounceList p.getEmail
  unsubscribeList p.chapter.getDiscussList p.getEmail
  let p ← p.resignLeadership false
  let p := { p with leader := none }
  let p ← p.setChapter none
  let p := { p with status := .inactive }
  p.save
  return p

/-- What the three settings of a list have in common. -/
def subscription (p : UserProfile) (list : Text) (allow : Bool) : M UserProfile := do
  p.save
  if allow then subscribeList list p.getEmail else unsubscribeList list p.getEmail
  return p

def manageOfficial (p : UserProfile) (allow : Bool) : M UserProfile := do
  if !p.isLeader then return p
  { p with allowOfficial := allow }.subscription p.chapter.getOfficialList allow

def manageDiscuss (p : UserProfile) (allow : Bool) : M UserProfile :=
  { p with allowDiscuss := allow }.subscription p.chapter.getDiscussList allow

def manageAnnounce (p : UserProfile) (allow : Bool) : M UserProfile :=
  { p with allowAnnounce := allow }.subscription p.chapter.getAnnounceList allow

def approveMembership (p : UserProfile) (leader : User) : M UserProfile :=
  p.activate p.chapter leader

def denyMembership (p : UserProfile) : M UserProfile := do
  let p := { p with status := .denied }
  p.save
  return p

end UserProfile

/-- `Invitation.activate`; the profile is that of the user, which the caller goes on with. -/
def Invitation.activate (i : Invitation) (profile : UserProfile) : M UserProfile := do
  let sponsor ← getUser i.sponsor
  let profile ← profile.activate i.chapter sponsor
  saved fun t => { t with invitations := t.invitations.save { i with isActive := false } }
  return profile

end HackerUnion.Petri
