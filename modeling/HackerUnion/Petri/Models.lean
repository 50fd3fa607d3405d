import HackerUnion.Bash.Text
import HackerUnion.Durable.Handler
import HackerUnion.Durable.Table

namespace HackerUnion.Petri

open Bash (Text text lower)
open Durable
open Durable.Handler

/-- `MAX_MENTEES` -/
def maxMentees : Nat := 9

/-- `TITLE_MAX_LEN` -/
def titleMaxLen : Nat := 140

/-- `EMAIL_FORMAT` -/
def emailFormat (name : Text) : Text := name ++ text "@hackerunion.org"

structure User where
  pk : Nat
  username : Text
  email : Text
  deriving DecidableEq

structure Chapter where
  pk : Nat
  slug : Text
  deriving DecidableEq

namespace Chapter

def getAnnounceList (c : Chapter) : Text := emailFormat (text "announce." ++ c.slug)

def getOfficialList (c : Chapter) : Text := emailFormat (text "leadership." ++ c.slug)

def getDiscussList (c : Chapter) : Text := emailFormat (text "talk." ++ c.slug)

end Chapter

/-- `STATUS_CHOICES` -/
inductive Status where
  | pending
  | approved
  | denied
  | inactive
  deriving DecidableEq

/-- A profile as it is in memory. `user` is the object it was reached from, of which the row keeps
the key; `chapter` is declared `null=False`. -/
structure UserProfile where
  user : User
  emailDigest : Nat
  allowDiscuss : Bool
  allowOfficial : Bool
  allowAnnounce : Bool
  status : Status
  isLeader : Bool
  isModerator : Bool
  chapter : Chapter
  leader : Option Nat
  displayName : Text
  deriving DecidableEq

namespace UserProfile

def pk (p : UserProfile) : Nat := p.user.pk

def canModerate (p : UserProfile) : Bool := p.isLeader && p.isModerator

/-- `chapter != None` of a field that is never `None`. -/
def hasChapter (_ : UserProfile) : Bool := true

def canApply (p : UserProfile) : Bool :=
  p.hasChapter && p.status ≠ .approved && p.status ≠ .denied

def isMember (p : UserProfile) (c : Chapter) : Bool :=
  p.hasChapter && p.status = .approved && p.chapter.pk = c.pk

end UserProfile

/-- `REQUEST_CHOICES` -/
inductive Kind where
  | join
  | lead
  | pair
  | help
  | promote
  deriving DecidableEq

/-- `RESPONSE_CHOICES` -/
inductive Response where
  | pending
  | approved
  | denied
  | active
  | canceled
  deriving DecidableEq

structure Bulletin where
  pk : Nat
  title : Text
  content : Text
  owner : Nat
  promotedBy : Option Nat
  related : Option Nat
  chapter : Chapter
  isOfficial : Bool
  isGlobal : Bool
  deriving DecidableEq

structure Leadership extends Bulletin where
  request : Kind
  response : Response
  processedBy : Option Nat
  deriving DecidableEq

/-- A bulletin as the model it was made from. -/
inductive Post where
  | leadership (l : Leadership)
  | other (b : Bulletin)
  deriving DecidableEq

namespace Post

def bulletin : Post → Bulletin
  | leadership l => l.toBulletin
  | other b => b

def pk (p : Post) : Nat := p.bulletin.pk

def asLeadership : Post → Option Leadership
  | leadership l => some l
  | other _ => none

end Post

structure Invitation where
  pk : Nat
  code : Text
  sponsor : Nat
  chapter : Chapter
  isActive : Bool
  deriving DecidableEq

structure NotificationType where
  name : Text
  generatesEmail : Bool
  sendIndividually : Bool
  deriving DecidableEq

/-- A forwarding route at Mailgun. -/
structure Route where
  recipient : Text
  forward : Text
  description : Text
  deriving DecidableEq

/-- What the application has stored of notifications, and what mail it has sent. -/
inductive Event where
  | notification (type : Text)
  | recipient (user : Nat)
  | entry (key value : Text)
  | mail (type : Text) (users : List Nat)
  | welcome (list email : Text)
  deriving DecidableEq

structure Tables where
  users : Table User User.pk
  chapters : Table Chapter Chapter.pk
  profiles : Table UserProfile UserProfile.pk
  posts : Table Post Post.pk
  invitations : Table Invitation Invitation.pk

/-- The database, the mailing lists and routes at Mailgun, and what was sent. A subscription is a
list and an address; a follower, and a user who is mentioned or told so, is a bulletin and a user. -/
structure Db where
  tables : Tables
  notificationTypes : List NotificationType
  followedBy : List (Nat × Nat)
  usersMentioned : List (Nat × Nat)
  usersNotified : List (Nat × Nat)
  subscriptions : List (Text × Text)
  routes : List Route
  log : List Event

/-- What may fail. -/
inductive Service where
  | database
  | notifications
  | mail
  | mailgun
  deriving DecidableEq

inductive Exn where
  | outage
  | doesNotExist
  | multipleObjects
  | attributeError
  | assertionError
  | typeError
  | valueError
  deriving DecidableEq

abbrev M := Handler Service Exn Db

/-- A change of the tables that is saved. -/
def saved (f : Tables → Tables) : M Unit :=
  store .database .outage fun db => { db with tables := f db.tables }

def logged (service : Service) (e : Event) : M Unit :=
  store service .outage fun db => { db with log := db.log ++ [e] }

/-- `objects.get(pk=...)` -/
def getUser (pk : Nat) : M User := do
  match (← read).tables.users.find? pk with
  | some u => return u
  | none => throw .doesNotExist

/-- `objects.get(username__iexact=...)`, with `None` for `User.DoesNotExist`. -/
def getUserByName (username : Text) : M (Option User) := do
  match (← read).tables.users.rows.filter (fun u => lower u.username = lower username) with
  | [] => return none
  | [u] => return some u
  | _ => throw .multipleObjects

def User.getProfile (u : User) : M UserProfile := do
  match (← read).tables.profiles.find? u.pk with
  | some p => return { p with user := u }
  | none => throw .doesNotExist

/-- `list_membership` of a client that is silent. -/
def listMembership (list email : Text) (subscribe : Bool) : M Unit :=
  quietly .mailgun fun db =>
    { db with
      subscriptions :=
        if subscribe then
          if (list, email) ∈ db.subscriptions then db.subscriptions
          else db.subscriptions ++ [(list, email)]
        else db.subscriptions.filter (· ≠ (list, email)) }

/-- The silent client gives no answer where the mail is not taken, and `resp.get` raises. -/
def welcome (list email : Text) : M Unit :=
  store .mail .attributeError fun db => { db with log := db.log ++ [.welcome list email] }

def subscribeList (list email : Text) : M Unit := do
  listMembership list email true
  welcome list email

def unsubscribeList (list email : Text) : M Unit := listMembership list email false

/-- `PROXY_FROM_FLAG` -/
def proxyFromFlag (email : Text) : Text := email ++ text ":proxy:"

/-- `drop_routes` of a silent client that is told of all routes at once: where they cannot be listed
`rts.get` raises, and a route that cannot be dropped is passed over. -/
def dropRoutes (contains : Text) : M Unit := do
  call .mailgun .attributeError
  let routes := (← read).routes.filter fun r => Bash.contains contains r.description
  routes.forM fun r => quietly .mailgun fun db => { db with routes := db.routes.erase r }

def unproxyEmail (email : Text) : M Unit := dropRoutes (proxyFromFlag email)

def proxyEmail (email username : Text) : M Unit := do
  let recipient := emailFormat username
  unproxyEmail email
  quietly .mailgun fun db =>
    { db with
      routes := db.routes ++
        [⟨recipient, email, text "[proxy] " ++ proxyFromFlag email ++ recipient⟩] }

/-- A notification is stored, addressed, filled in, stored again and sent. `each` is what is done
for a user besides. -/
def notify (type : Text) (users : List Nat) (entries : List (Text × Text))
    (each : Nat → M Unit := fun _ => pure ()) : M Unit := do
  call .notifications .outage
  match (← read).notificationTypes.find? (fun t => t.name = type) with
  | none => throw .doesNotExist
  | some t => do
    logged .notifications (.notification type)
    users.forM fun u => do
      logged .notifications (.recipient u)
      each u
    entries.forM fun e => logged .notifications (.entry e.1 e.2)
    call .notifications .outage
    if t.generatesEmail && users ≠ [] then
      if t.sendIndividually then
        users.forM fun u => logged .mail (.mail type [u])
      else
        logged .mail (.mail type users)

def decimal (n : Nat) : Text := Nat.toDigits 10 n

section Mentions

/-- `[A-Za-z0-9_]` -/
def isWord (c : Char) : Bool := c.isAlphanum || c = '_'

/-- No mention follows one of these. -/
def isHandle (c : Char) : Bool := isWord c || c = '-' || c = '.'

/-- The name a mention has, after the sign: `[A-Za-z]+[A-Za-z0-9_]+`. -/
def mention (t : Text) : Option Text :=
  let name := t.takeWhile isWord
  if name.head?.any Char.isAlpha && 2 ≤ name.length then some name else none

/-- The mention that starts here, after the character before. -/
def mentionAt (before : Option Char) (c : Char) (t : Text) : Option Text :=
  if c = '@' && !before.any isHandle then mention t else none

def mentionsAfter (before : Option Char) : Text → List Text
  | [] => []
  | c :: t => (mentionAt before c t).toList ++ mentionsAfter (some c) t

def getMentions (content : Text) : List Text := mentionsAfter none content

def link (chapter : Chapter) (name : Text) : Text :=
  text "<a href=\"http://hackerunion.org/" ++ chapter.slug ++ text "/members/?n=" ++ lower name ++
    text "\">" ++ lower name ++ text "</a>"

/-- Mentions become links. `skip` characters of a name are still to be passed over. -/
def linkifyAfter (chapter : Chapter) (before : Option Char) : Nat → Text → Text
  | _, [] => []
  | skip + 1, c :: t => linkifyAfter chapter (some c) skip t
  | 0, c :: t =>
    match mentionAt before c t with
    | some name => link chapter name ++ linkifyAfter chapter (some c) name.length t
    | none => c :: linkifyAfter chapter (some c) 0 t

def linkifyMentions (chapter : Chapter) (content : Text) : Text :=
  linkifyAfter chapter none 0 content

end Mentions

namespace Bulletin

/-- The users who are mentioned and have not been told. -/
def untold (b : Bulletin) (db : Db) : List Nat :=
  ((db.usersMentioned.filter fun m => m.1 = b.pk && m ∉ db.usersNotified)).map Prod.snd

def createMentionNotifications (b : Bulletin) : M Unit := do
  let addUsers := b.untold (← read)
  if addUsers = [] then return
  notify (text "new_mention") addUsers
    [(text "chapter", b.chapter.slug), (text "bulletin", decimal b.pk)]
    fun u => store .database .outage fun db =>
      { db with usersNotified := db.usersNotified ++ [(b.pk, u)] }

/-- The users a text mentions are noted, and told. -/
def mentioned (b : Bulletin) (names : List Text) : M Unit := do
  names.forM fun name => do
    match ← getUserByName name with
    | none => return
    | some u => store .database .outage fun db =>
        { db with usersMentioned :=
            if (b.pk, u.pk) ∈ db.usersMentioned then db.usersMentioned
            else db.usersMentioned ++ [(b.pk, u.pk)] }
  b.createMentionNotifications

def follow (b : Bulletin) (u : User) : M Unit :=
  store .database .outage fun db =>
    { db with followedBy :=
        if (b.pk, u.pk) ∈ db.followedBy then db.followedBy else db.followedBy ++ [(b.pk, u.pk)] }

def withContent (b : Bulletin) : Bulletin :=
  { b with content := linkifyMentions b.chapter b.content }

end Bulletin

/-- The post whose bulletin row is this one. -/
def Post.withBulletin (b : Bulletin) : Post → Post
  | leadership l => leadership { l with toBulletin := b }
  | other _ => other b

/-- `related.promote(user)`: the row of the bulletin is saved, whatever it is a bulletin of. -/
def promote (pk : Nat) (user : User) : M Unit := do
  match (← read).tables.posts.find? pk with
  | none => throw .doesNotExist
  | some post => do
    let b := { post.bulletin with promotedBy := some user.pk }.withContent
    saved fun t => { t with posts := t.posts.save (post.withBulletin b) }
    b.mentioned (getMentions post.bulletin.content)

namespace Leadership

def canRespond (l : Leadership) : Bool := l.response = .pending || l.response = .active

/-- The signal of a new request: the leaders of the chapter are told, but for those it links to. -/
def createLeadership (l : Leadership) : M Unit := do
  let leaders := (← read).tables.profiles.rows.filter fun p =>
    p.chapter.pk = l.chapter.pk && p.isLeader &&
      !Bash.contains (text "?n=" ++ lower p.user.username) l.content
  notify (text "new_leadership") (leaders.map UserProfile.pk)
    [(text "chapter", l.chapter.slug), (text "bulletin", decimal l.pk), (text "title", l.title),
      (text "content", l.content)]

/-- A request is saved, with its own row and that of the bulletin. A new one gets its key. -/
def save (l : Leadership) (created : Bool := false) : M Leadership := do
  let names := getMentions l.content
  let db ← read
  let b := { l.toBulletin.withContent with
    pk := if created then db.tables.posts.nextKey else l.pk }
  let l := { l with toBulletin := b }
  saved fun t => { t with posts := t.posts.save (.leadership l) }
  if created then l.createLeadership
  b.mentioned names
  return l

def cancel (l : Leadership) (user : Option Nat := none) : M Leadership :=
  save { l with response := .canceled, processedBy := user }

def activate (l : Leadership) (user : User) : M Leadership :=
  save { l with response := .active, processedBy := some user.pk }

def deny (l : Leadership) (user : User) : M Leadership :=
  save { l with response := .denied, processedBy := some user.pk }

def approve (l : Leadership) (user : User) : M Leadership := do
  let l ← save { l with response := .approved, processedBy := some user.pk }
  let processor ← user.getProfile
  notify (if l.request = .join then text "membership_approved" else text "leadership_approved")
    [l.owner]
    [(text "chapter", l.chapter.slug), (text "processor", processor.displayName),
      (text "request_title", l.title), (text "request_pk", decimal l.pk)]
  return l

end Leadership

end HackerUnion.Petri
