import HackerUnion.Petri.Account

namespace HackerUnion.Petri

open Bash (Text text lower)
open Durable
open Durable.Handler

/-- The response with a number. -/
def Response.ofInt : Int → Option Response
  | 1 => some .pending
  | 2 => some .approved
  | 3 => some .denied
  | 4 => some .active
  | 5 => some .canceled
  | _ => none

namespace ResponseForm

/-- `response`, which no form takes to be pending. -/
def cleanResponse (response : Int) : Except Text Response :=
  match Response.ofInt response with
  | none =>
    .error (if response < 1 then text "Ensure this value is greater than or equal to 1."
      else text "Ensure this value is less than or equal to 5.")
  | some .pending => .error (text "Cannot mark a request as pending.")
  | some r => .ok r

/-- Whether the request still meets what its form asks for: `_valid`. -/
def valid (view : Kind) (l : Leadership) : M Bool := do
  let owner ← getUser l.owner
  return (← view.validate owner l.related).isNone

/-- `ResponseForm.save` -/
def save (request : Request) (l : Leadership) (response : Response) (valid : Bool) :
    M Response := do
  let response := if valid then response else .canceled
  match response with
  | .canceled => let _ ← l.cancel (some request.user.pk)
  | .approved => let _ ← l.approve request.user
  | .denied => let _ ← l.deny request.user
  | .active => let _ ← l.activate request.user
  | .pending => pure ()
  return response

end ResponseForm

def PromoteResponseForm.save (request : Request) (l : Leadership) (response : Response)
    (valid : Bool) : M Response := do
  let response ← ResponseForm.save request l response valid
  if response = .approved then
    match l.related with
    | none => throw .attributeError
    | some related => promote related request.user
  return response

def JoinResponseForm.save (request : Request) (l : Leadership) (response : Response)
    (valid : Bool) : M Response := do
  let profile ← (← getUser l.owner).getProfile
  let response ← ResponseForm.save request l response valid
  if response = .approved then
    let _ ← profile.approveMembership request.user
  else if response = .denied then
    let _ ← profile.denyMembership
  return response

def LeadResponseForm.save (request : Request) (l : Leadership) (response : Response)
    (valid : Bool) : M Response := do
  let profile ← (← getUser l.owner).getProfile
  let response ← ResponseForm.save request l response valid
  if response = .approved then
    let _ ← profile.becomeLeader
  return response

def PairResponseForm.save (request : Request) (l : Leadership) (response : Response)
    (valid : Bool) : M Response := do
  let profile ← (← getUser l.owner).getProfile
  let response ← ResponseForm.save request l response valid
  if response = .approved then
    let _ ← profile.assignLeader (some request.user)
  return response

def HelpResponseForm.save (request : Request) (l : Leadership) (response : Response)
    (valid : Bool) : M Response :=
  ResponseForm.save request l response valid

/-- `save` of the response form of each kind. -/
def Kind.saveResponse : Kind → Request → Leadership → Response → Bool → M Response
  | .join => JoinResponseForm.save
  | .lead => LeadResponseForm.save
  | .pair => PairResponseForm.save
  | .help => HelpResponseForm.save
  | .promote => PromoteResponseForm.save

/-- What `PairResponseForm.clean` asks for besides. -/
def Kind.cleanResponder (request : Request) : Kind → M (Option Text)
  | .pair => do
    let profile ← request.user.getProfile
    return if ← profile.availableToLead then none else some (text "User has too many mentees.")
  | _ => return none

/-- A response form: `is_valid`, and then `save`. A bulletin that is no request cannot be responded
to. -/
def Kind.answer (view : Kind) (request : Request) (post : Post) (response : Int) : M Reply := do
  match ResponseForm.cleanResponse response with
  | .error message => return .errors [(text "response", message)]
  | .ok r =>
    match post with
    | .other _ => throw .attributeError
    | .leadership l => do
      if !l.canRespond then return invalid (text "This request has already received a response.")
      let valid ← ResponseForm.valid view l
      match ← view.cleanResponder request with
      | some message => return invalid message
      | none => do
        let _ ← view.saveResponse request l r valid
        return .success

/-- `chapter_view`: someone who is not logged in is asked to, and where a member is needed
`request.has_chapter`, which a request does not have, raises for any other. -/
def chapterView (slug : Text) (user : Option Nat) (membersOnly : Bool)
    (view : Request → M Reply) : M Reply := do
  match (← read).tables.chapters.rows.find? (fun c => c.slug = slug) with
  | none => return .notFound
  | some chapter =>
    match user with
    | none => return .login
    | some pk => do
      let user ← getUser pk
      let profile ← user.getProfile
      if membersOnly && !profile.isMember chapter then throw .attributeError
      view ⟨user, chapter⟩

/-- `bulletin_view`, of any member or not. `ownerOnly` and `leadersOnly` do not hold for a
moderator. -/
def bulletinView (slug : Text) (user : Option Nat) (bulletin : Nat) (leadersOnly ownerOnly : Bool)
    (view : Request → Post → M Reply) : M Reply :=
  chapterView slug user false fun request => do
    let profile ← request.user.getProfile
    match (← read).tables.posts.find? bulletin with
    | none => return .notFound
    | some post => do
      let isOwner := post.bulletin.owner = request.user.pk
      if profile.isLeader then
        let owner ← getUser post.bulletin.owner
        let _ ← owner.getProfile
      if !profile.canModerate then
        if !isOwner && ownerOnly then return .forbidden
        if leadersOnly && !profile.isLeader then return .forbidden
        if post.bulletin.isOfficial && !isOwner && !profile.isLeader then return .forbidden
      view request post

/-- `_request_view` -/
def requestView (kind : Kind) (slug : Text) (user : Option Nat) (data : RequestData) : M Reply :=
  chapterView slug user true fun request => kind.file request data

/-- `_response_view` -/
def responseView (kind : Kind) (slug : Text) (user : Option Nat) (bulletin : Nat)
    (response : Int) : M Reply :=
  bulletinView slug user bulletin true false fun request post => kind.answer request post response

/-- `cancel`: the form is made with the arguments of `super` the wrong way round. -/
def cancel (slug : Text) (user : Option Nat) (bulletin : Nat) : M Reply :=
  bulletinView slug user bulletin false true fun _ _ => throw .typeError

/-- `LeadResignForm` -/
def leadResign (user : User) : M Reply := do
  let profile ← user.getProfile
  if !profile.isLeader then return invalid (text "Only leaders can resign.")
  let profile ← profile.resignLeadership false
  profile.save
  return .success

def resign (slug : Text) (user : Option Nat) : M Reply :=
  chapterView slug user true fun request => leadResign request.user

/-- `login_required` -/
def loginRequired (user : Option Nat) (view : User → M Reply) : M Reply := do
  match user with
  | none => return .login
  | some pk => view (← getUser pk)

def settingsResign (user : Option Nat) : M Reply := loginRequired user leadResign

/-- `AbandonForm`: one of the user's mentees, while the user is a leader. -/
def abandon (user : Option Nat) (mentee : Nat) : M Reply :=
  loginRequired user fun user => do
    let db ← read
    let isLeader := (db.tables.profiles.find? user.pk).any UserProfile.isLeader
    let isMentee := (db.tables.profiles.find? mentee).any fun p => p.leader = some user.pk
    if !(isLeader && isMentee) then return .errors [(text "user", invalidChoice)]
    let profile ← (← getUser mentee).getProfile
    let _ ← profile.abandon
    return .success

/-- `BanForm`: the query that would keep a leader to his own mentees is made and not used. -/
def ban (user : Option Nat) (username : Text) : M Reply :=
  loginRequired user fun user => do
    match ← getUserByName username with
    | none => return .errors [(text "username", text "Invalid user.")]
    | some banned => do
      if !(← user.getProfile).isLeader then return invalid (text "Only guides can ban users.")
      let profile ← banned.getProfile
      let _ ← profile.deactivate
      return .success

/-- `User.objects.get` with the name and with a profile that is a leader's, or is not. -/
def getUserByRole (username : Text) (isLeader : Bool) : M (Option User) := do
  let db ← read
  match db.tables.users.rows.filter (fun u => lower u.username = lower username &&
      (db.tables.profiles.find? u.pk).any fun p => p.isLeader = isLeader) with
  | [] => return none
  | [u] => return some u
  | _ => throw .multipleObjects

/-- `TransferForm` -/
def transfer (user : Option Nat) (mentee leader : Text) : M Reply :=
  loginRequired user fun user => do
    match ← getUserByRole mentee false with
    | none => return .errors [(text "mentee", text "Invalid mentee.")]
    | some mentee =>
      match ← getUserByRole leader true with
      | none => return .errors [(text "leader", text "Invalid guide.")]
      | some leader => do
        if !(← (← leader.getProfile).availableToLead) then
          return .errors [(text "leader", text "Unavailable to guide.")]
        if !(← user.getProfile).canModerate then
          return invalid (text "Only moderators can use this feature.")
        let profile ← mentee.getProfile
        let _ ← profile.assignLeader (some leader)
        return .success

/-- `ModeratorForm` -/
def moderator (user : Option Nat) (username : Text) (grant : Bool) : M Reply :=
  loginRequired user fun user => do
    match ← getUserByName username with
    | none => return .errors [(text "username", text "Invalid user.")]
    | some named => do
      if !(← user.getProfile).canModerate then
        return invalid (text "Only moderators can use this feature.")
      let profile ← named.getProfile
      if grant then
        let _ ← profile.becomeModerator
      else
        let _ ← profile.resignModeration
      return .success

/-- `GuideForm` -/
def guide (user : Option Nat) (username : Text) (grant : Bool) : M Reply :=
  loginRequired user fun user => do
    let own ← user.getProfile
    match ← getUserByName username with
    | none => do
      if !own.canModerate && own.isLeader then throw .attributeError
      return .errors [(text "username", text "Invalid user.")]
    | some named => do
      let profile ← named.getProfile
      if !own.canModerate && !(own.isLeader && profile.leader = some user.pk) then
        return invalid (text "This is a restricted feature.")
      if grant then
        let _ ← profile.becomeLeader
      else
        let _ ← profile.resignLeadership
      return .success

/-- What is posted to `NoticeForm`; a digest that is none of the choices is an error. -/
structure NoticeData where
  official : Option Bool := none
  discuss : Option Bool := none
  announce : Option Bool := none
  digest : Option Nat := none
  deriving DecidableEq

/-- A setting of a list, where one is posted. -/
def UserProfile.setting (p : UserProfile) (manage : UserProfile → Bool → M UserProfile) :
    Option Bool → M UserProfile
  | some allow => manage p allow
  | none => return p

/-- `NoticeForm` -/
def notice (user : Option Nat) (data : NoticeData) : M Reply :=
  loginRequired user fun user => do
    if data.digest.any fun d => !(1 ≤ d && d ≤ 4) then
      return .errors [(text "digest", text "Select a valid choice.")]
    let profile ← user.getProfile
    let official := if profile.isLeader then data.official else none
    let profile ← profile.setting UserProfile.manageOfficial official
    let profile ← profile.setting UserProfile.manageDiscuss data.discuss
    let profile ← profile.setting UserProfile.manageAnnounce data.announce
    match data.digest with
    | some digest => UserProfile.save { profile with emailDigest := digest }
    | none => pure ()
    return .success

/-- What is posted to `AccountApplicationForm`, and whether the address is one and the two passwords
are the same. -/
structure ApplicationData where
  username : Text
  email : Text
  displayName : Text
  chapter : Nat
  application : Text := []
  invitationCode : Text := []
  isEmail : Bool := true
  samePasswords : Bool := true
  deriving DecidableEq

namespace AccountApplicationForm

def messageOf (field : Text) (ok : Bool) (message : Text) : Errors :=
  if ok then [] else [(field, message)]

def atMost (field : Text) (n : Nat) (value : Text) : Errors :=
  messageOf field (value.length ≤ n) (text "Ensure this value has at most " ++ decimal n ++
    text " characters (it has " ++ decimal value.length ++ text ").")

def atLeast (field : Text) (n : Nat) (value : Text) : Errors :=
  messageOf field (n ≤ value.length) (text "Ensure this value has at least " ++ decimal n ++
    text " characters (it has " ++ decimal value.length ++ text ").")

/-- One or more characters of a class from the beginning to `$`, which a line break may follow. -/
def isMatch (p : Char → Bool) (value : Text) : Bool :=
  let body := if value.getLast? = some '\n' then value.dropLast else value
  body ≠ [] && body.all p

/-- What the two names have in common: the field itself, and what `clean_username` and
`clean_display_name` ask of a value without errors. -/
def nameErrors (field : Text) (p : Char → Bool) (message value : Text) : Errors :=
  if value = [] then [(field, text "This field is required.")]
  else
    match atMost field 30 value ++ messageOf field (isMatch p value) message with
    | [] =>
      match strip value with
      | [] => [(field, text "Name is Invalid")]
      | c :: _ => messageOf field c.isAlpha (text "Must start with a letter")
    | errors => errors

def usernameErrors (db : Db) (value : Text) : Errors :=
  match nameErrors (text "username") isWord
      (text "This value may contain only letters, numbers and _ characters.") value with
  | [] =>
    messageOf (text "username")
      (!db.tables.users.rows.any fun u => u.username = lower (strip value))
      (text "User with this Username already exists.")
  | errors => errors

def displayNameErrors (value : Text) : Errors :=
  nameErrors (text "display_name") (fun c => isWord c || c = ' ' || c = '-')
    (text "This value may contain only letters, numbers, spaces and _ characters.") value

def applicationErrors (value : Text) : Errors :=
  if value = [] then []
  else atLeast (text "application") 50 value ++ atMost (text "application") 2000 value

/-- The fields of the form, each by itself. -/
def fieldErrors (db : Db) (data : ApplicationData) : Errors :=
  usernameErrors db data.username ++ displayNameErrors data.displayName ++
    applicationErrors data.application ++ atMost (text "invitation_code") 16 data.invitationCode ++
    messageOf (text "email") data.isEmail (text "Enter a valid e-mail address.") ++
    messageOf (text "password2") data.samePasswords
      (text "The two password fields didn't match.") ++
    messageOf (text "chapter") (db.tables.chapters.find? data.chapter).isSome invalidChoice

/-- `Invitation.objects.get(code=...)`, with `None` for `Invitation.DoesNotExist`. -/
def invitationOf (code : Text) : M (Option Invitation) := do
  match (← read).tables.invitations.rows.filter (fun i => i.code = code) with
  | [] => return none
  | [i] => return some i
  | _ => throw .multipleObjects

/-- The invitation that the code given is of, if it is one to this chapter that is not used. -/
def invite (data : ApplicationData) (chapter : Chapter) : M (Option Invitation) := do
  if data.invitationCode = [] then return none
  match ← invitationOf data.invitationCode with
  | none => return none
  | some i => return if i.chapter.pk = chapter.pk && i.isActive then some i else none

/-- `AccountApplicationForm.clean` -/
def clean (data : ApplicationData) (chapter : Chapter) : M (Option Text) := do
  if data.invitationCode ≠ [] then
    match ← invite data chapter with
    | some _ => return none
    | none => return some (text "Invalid Invitation Code")
  else if data.application ≠ [] then
    return none
  else
    return some (text "Must include an invite code or an essay")

/-- The profile `create_user_profile` makes, of the first chapter. -/
def defaultProfile (user : User) (chapter : Chapter) : UserProfile where
  user := user
  emailDigest := 3
  allowDiscuss := true
  allowOfficial := true
  allowAnnounce := true
  status := .pending
  isLeader := false
  isModerator := false
  chapter := chapter
  leader := none
  displayName := []

/-- A key that no user has had: no profile refers to it. -/
def newUserKey (t : Tables) : Nat := max t.users.nextKey t.profiles.nextKey

/-- `UserCreationForm.save`, and the signal of a new user. -/
def createUser (username : Text) : M User := do
  let db ← read
  let user : User := ⟨newUserKey db.tables, username, []⟩
  saved fun t => { t with users := t.users.save user }
  if (db.tables.profiles.find? user.pk).isNone then
    match db.tables.chapters.find? 1 with
    | some first =>
      saved fun t => { t with profiles := t.profiles.save (defaultProfile user first) }
    | none => throw .outage
  return user

/-- `AccountApplicationForm.save` -/
def save (data : ApplicationData) (chapter : Chapter) : M Unit := do
  let user ← createUser (lower (strip data.username))
  let user := { user with email := data.email }
  let profile ← user.getProfile
  let profile := { profile with displayName := strip data.displayName, chapter := chapter }
  let invitation ← invite data chapter
  let profile ← match invitation with
    | some i => i.activate profile
    | none => pure profile
  profile.save
  saved fun t => { t with users := t.users.save user }
  if invitation.isNone then
    let _ ← bootstrapJoinRequest user chapter data.application

end AccountApplicationForm

/-- `apply` -/
def apply (data : ApplicationData) : M Reply := do
  let db ← read
  match AccountApplicationForm.fieldErrors db data, db.tables.chapters.find? data.chapter with
  | [], some chapter =>
    match ← AccountApplicationForm.clean data chapter with
    | some message => return invalid message
    | none => do
      AccountApplicationForm.save data chapter
      return .success
  | errors, _ => return .errors errors

/-- A form that is submitted, and by whom; the last is the programmatic pair request. -/
inductive Submission where
  | request (kind : Kind) (slug : Text) (user : Option Nat) (data : RequestData)
  | response (view : Kind) (slug : Text) (user : Option Nat) (bulletin : Nat) (response : Int)
  | cancel (slug : Text) (user : Option Nat) (bulletin : Nat)
  | resign (slug : Text) (user : Option Nat)
  | settingsResign (user : Option Nat)
  | abandon (user : Option Nat) (mentee : Nat)
  | ban (user : Option Nat) (username : Text)
  | transfer (user : Option Nat) (mentee leader : Text)
  | moderator (user : Option Nat) (username : Text) (grant : Bool)
  | guide (user : Option Nat) (username : Text) (grant : Bool)
  | notice (user : Option Nat) (data : NoticeData)
  | apply (data : ApplicationData)
  | createPairRequest (user : User) (chapter : Chapter) (reason : Text)
  deriving DecidableEq

def Submission.handle : Submission → M Reply
  | request kind slug user data => requestView kind slug user data
  | response view slug user bulletin r => responseView view slug user bulletin r
  | cancel slug user bulletin => Petri.cancel slug user bulletin
  | resign slug user => Petri.resign slug user
  | settingsResign user => Petri.settingsResign user
  | abandon user mentee => Petri.abandon user mentee
  | ban user username => Petri.ban user username
  | transfer user mentee leader => Petri.transfer user mentee leader
  | moderator user username grant => Petri.moderator user username grant
  | guide user username grant => Petri.guide user username grant
  | notice user data => Petri.notice user data
  | apply data => Petri.apply data
  | createPairRequest user chapter reason => do
    return if ← Petri.createPairRequest user chapter reason then .success else invalid []

/-- A submission, and what fails while it is handled. -/
structure Op where
  submission : Submission
  faults : Nat → Service → Bool

/-- What the application is left with: a handler that raises leaves what it has written. -/
def step (db : Db) (op : Op) : Db := (exec op.submission.handle ⟨db, op.faults⟩).2.db

end HackerUnion.Petri
