import HackerUnion.Board.Models

namespace HackerUnion.Board

open Bash (Text text lower)
open Durable
open Durable.Handler
open Petri (Chapter UserProfile Errors decimal strip titleMaxLen invalidChoice nonField)

inductive Reply where
  | success
  | followed (now : Bool)
  | errors (errors : Errors)
  | forbidden
  | notFound
  | login
  | redirect
  | raised (e : Exn)
  deriving DecidableEq

def invalid (message : Text) : Reply := .errors [(nonField, message)]

/-- A parameter that has to be read: it is missing, or is not what it should be, or is. -/
inductive Field (α : Type) where
  | blank
  | malformed
  | value (a : α)
  deriving DecidableEq

/-- What the decorators bind in a request. -/
structure Request where
  user : Account
  profile : UserProfile
  chapter : Chapter
  deriving DecidableEq

structure BulletinRequest extends Request where
  bulletin : Bulletin
  deriving DecidableEq

section Decorators

/-- The user of the session. -/
def session (db : Db) (user : Option Nat) : Except Reply Account :=
  match user.bind db.users.find? with
  | some account => .ok account
  | none => .error .login

def Account.getProfile (db : Db) (u : Account) : Except Reply UserProfile :=
  match db.profiles.find? u.pk with
  | some p => .ok { p with user := u.toUser }
  | none => .error (.raised .doesNotExist)

/-- `get_object_or_404(Chapter, slug=...)` -/
def getChapter (db : Db) (slug : Text) : Except Reply Chapter :=
  match db.chapters.rows.filter (fun c => c.slug = slug) with
  | [] => .error .notFound
  | [c] => .ok c
  | _ => .error (.raised .multipleObjects)

/-- `has_mentee` -/
def hasMentee (db : Db) (p : UserProfile) (user : Nat) : Except Reply Bool :=
  if p.isLeader then
    match db.profiles.find? user with
    | some mentee => .ok (mentee.leader = some p.pk)
    | none => .error (.raised .doesNotExist)
  else .ok false

/-- `chapter_view` of a view that is not public: it binds the request, or answers itself. For
someone who is no member where one is needed it asks the request for `has_chapter`, which requests
do not have. -/
def chapterView (membersOnly : Bool) (db : Db) (user : Option Nat) (slug : Text) :
    Except Reply Request := do
  let chapter ← getChapter db slug
  let account ← session db user
  if !account.isActive then throw .login
  let profile ← account.getProfile db
  if membersOnly && !profile.isMember chapter then throw (.raised .attributeError)
  return ⟨account, profile, chapter⟩

/-- `bulletin_view`. The chapter of the URL need not be that of the bulletin. -/
def bulletinView (leaderOrOwner : Bool) (db : Db) (user : Option Nat) (slug : Text)
    (bulletin : Nat) : Except Reply BulletinRequest := do
  let request ← chapterView false db user slug
  match db.bulletins.find? bulletin with
  | none => throw .notFound
  | some b => do
    let isOwner := b.owner = request.user.pk
    let isLeader := request.profile.isLeader
    let isMentee ← hasMentee db request.profile b.owner
    if !request.profile.canModerate then
      if b.isOfficial && !isOwner && !isLeader then throw .forbidden
      if leaderOrOwner && !isOwner && !isMentee then throw .forbidden
    return ⟨request, b⟩

/-- `comment_view(leader_or_author=True)`. The comment need not be one on the bulletin. -/
def commentView (db : Db) (user : Option Nat) (slug : Text) (bulletin comment : Nat) :
    Except Reply Comment := do
  let request ← bulletinView false db user slug bulletin
  match db.comments.find? comment with
  | none => throw .notFound
  | some c => do
    let isAuthor := c.owner = request.user.pk
    let isMentee ← hasMentee db request.profile c.owner
    if !request.profile.canModerate && !(isMentee || isAuthor) then throw .forbidden
    return c

end Decorators

section Forms

structure CommentData where
  content : Text := []
  delete : Bool := false
  deriving DecidableEq

/-- A form to which `delete` is posted is given nothing else, and no field of it is required. -/
def CommentData.bound (data : CommentData) : CommentData :=
  if data.delete then { delete := true } else data

/-- The content of a valid form. It is not left blank either where it is not required. -/
def CommentForm.clean (data : CommentData) : Except Reply Text :=
  if !data.bound.delete && data.bound.content = [] then
    .error (.errors [(text "content", text "This field is required.")])
  else if strip data.bound.content = [] then
    .error (.errors [(text "content", text "Your content cannot be blank")])
  else .ok (strip data.bound.content)

def CommentForm.save (request : BulletinRequest) (content : Text) : M Comment :=
  Comment.create ⟨0, request.user.pk, request.bulletin.pk, content, none, false⟩ request.bulletin

structure BulletinData where
  title : Text := []
  content : Text := []
  related : Option Nat := none
  isGlobal : Option Bool := none
  isOfficial : Option Bool := none
  delete : Bool := false
  deriving DecidableEq

def BulletinData.bound (data : BulletinData) : BulletinData :=
  if data.delete then { delete := true } else data

/-- The forms in which a bulletin is written. The fields that some have besides do not matter to
what is modelled here, and neither do the rules by which a request is filed at all. -/
inductive Posting where
  | talk
  | event
  | introduction
  | project
  | request (kind : Petri.Kind)
  deriving DecidableEq

def Posting.actualType : Posting → ActualType
  | talk => .talk
  | event => .event
  | introduction => .introduction
  | project => .project
  | request _ => .leadership

/-- A request is official whoever files it. -/
def Posting.cleanIsOfficial (isLeader : Bool) (isOfficial : Option Bool) :
    Posting → Except Errors (Option Bool)
  | request _ => .ok (some true)
  | _ =>
    if isOfficial = some true && !isLeader then
      .error [(text "is_official", text "Only leaders can post official bulletins.")]
    else .ok isOfficial

def Posting.cleanTitle (username title : Text) : Posting → Text
  | request kind => kind.title username
  | _ => strip title

/-- What is wrong with the fields that all these forms have. -/
def BulletinForm.fieldErrors (db : Db) (isLeader : Bool) (data : BulletinData) : Errors :=
  let title := if titleMaxLen < data.title.length then
      [(text "title", text "Ensure this value has at most 140 characters (it has " ++
        decimal data.title.length ++ text ").")]
    else []
  let content := if data.delete then []
    else if data.content = [] then [(text "content", text "This field is required.")]
    else if strip data.content = [] then [(text "content", text "Your content cannot be blank")]
    else []
  let related := if data.related.any fun pk => (db.bulletins.find? pk).isNone then
      [(text "related", invalidChoice)] else []
  let isGlobal := if data.isGlobal = some true && !isLeader then
      [(text "is_global", text "Only leaders can post global bulletins.")] else []
  title ++ content ++ related ++ isGlobal

/-- The data of a valid form. -/
def BulletinForm.clean (posting : Posting) (db : Db) (request : Request) (data : BulletinData) :
    Except Reply BulletinData :=
  let isLeader := request.profile.isLeader
  let errors := fieldErrors db isLeader data.bound
  match posting.cleanIsOfficial isLeader data.bound.isOfficial with
  | .error error => .error (.errors (errors ++ error))
  | .ok isOfficial =>
    if errors ≠ [] then .error (.errors errors)
    else .ok { data.bound with
      title := posting.cleanTitle request.user.username data.bound.title
      content := strip data.bound.content
      isOfficial := isOfficial }

/-- `save` of a bulletin that is new: it is not stored, so deleting it raises. -/
def BulletinForm.saveNew (posting : Posting) (request : Request) (data : BulletinData) :
    M Bulletin := do
  if data.delete then throw .assertionError
  let b ← Bulletin.create
    { pk := 0
      actualType := posting.actualType
      title := data.title
      content := data.content
      owner := request.user.pk
      related := data.related
      chapter := request.chapter
      isOfficial := data.isOfficial.getD false
      isGlobal := data.isGlobal.getD false
      threadId := none
      isGenerated := false
      moderatedBy := none }
  b.follow request.user.pk
  return b

/-- A bulletin with what is set in a form. -/
def BulletinForm.filled (request : BulletinRequest) (data : BulletinData) : Bulletin :=
  { request.bulletin with
    title := data.title
    content := data.content
    related := data.related.orElse fun _ => request.bulletin.related
    isOfficial := data.isOfficial.getD request.bulletin.isOfficial
    isGlobal := data.isGlobal.getD request.bulletin.isGlobal
    moderatedBy := if request.bulletin.owner = request.user.pk then request.bulletin.moderatedBy
      else some request.user.pk }

def BulletinForm.saveOld (request : BulletinRequest) (data : BulletinData) : M Unit := do
  let b := filled request data
  if data.delete then b.delete
  else
    b.update
    b.follow request.user.pk

end Forms

section Views

/-- What a view comes to before it saves: the request and the data, or the answer. -/
abbrev Checked (α : Type) := Except Reply α

def addBulletinChecked (posting : Posting) (db : Db) (user : Option Nat) (slug : Text)
    (data : BulletinData) : Checked (Request × BulletinData) := do
  let membersOnly := posting.actualType = .leadership
  let request ← chapterView membersOnly db user slug
  let data ← BulletinForm.clean posting db request data
  return (request, data)

/-- `add_talk`, and the views like it. -/
def addBulletin (posting : Posting) (user : Option Nat) (slug : Text) (data : BulletinData) :
    M Reply := do
  match addBulletinChecked posting (← read) user slug data with
  | .error reply => return reply
  | .ok (request, data) =>
    let _ ← BulletinForm.saveNew posting request data
    return .success

def editBulletinChecked (posting : Posting) (db : Db) (user : Option Nat) (slug : Text)
    (bulletin : Nat) (data : BulletinData) : Checked (BulletinRequest × BulletinData) := do
  let request ← bulletinView true db user slug bulletin
  let data ← BulletinForm.clean posting db request.toRequest data
  return (request, data)

/-- `edit_talk`, and the views like it, of a bulletin of any type. -/
def editBulletin (posting : Posting) (user : Option Nat) (slug : Text) (bulletin : Nat)
    (data : BulletinData) : M Reply := do
  match editBulletinChecked posting (← read) user slug bulletin data with
  | .error reply => return reply
  | .ok (request, data) =>
    BulletinForm.saveOld request data
    return .success

def addCommentChecked (db : Db) (user : Option Nat) (slug : Text) (bulletin : Nat)
    (data : CommentData) : Checked (BulletinRequest × Text) := do
  let request ← bulletinView false db user slug bulletin
  let content ← CommentForm.clean data
  return (request, content)

/-- `add_comment` -/
def addComment (user : Option Nat) (slug : Text) (bulletin : Nat) (data : CommentData) :
    M Reply := do
  match addCommentChecked (← read) user slug bulletin data with
  | .error reply => return reply
  | .ok (request, content) =>
    let _ ← CommentForm.save request content
    return .success

/-- `delete_comment` -/
def deleteComment (user : Option Nat) (slug : Text) (bulletin comment : Nat) : M Reply := do
  match commentView (← read) user slug bulletin comment with
  | .error reply => return reply
  | .ok c =>
    c.delete
    return .redirect

/-- `follow_bulletin` -/
def followBulletin (user : Option Nat) (slug : Text) (bulletin : Nat) : M Reply := do
  let db ← read
  match bulletinView false db user slug bulletin with
  | .error reply => return reply
  | .ok request =>
    if db.followedBy.any fun f => f.1 = request.bulletin.pk && f.2 = request.user.pk then
      request.bulletin.unfollow request.user.pk
      return .followed false
    else
      request.bulletin.follow request.user.pk
      return .followed true

end Views

section Synergy

/-- `getNDVal` -/
def getNDVal (db : Db) (notification : Nat) (key : Text) : Option Text :=
  (db.entries.find? fun e => e.notification = notification && e.key = key).map Entry.value

/-- `int` of what is stored of a key. -/
def int (t : Text) : Except Reply Nat :=
  if t ≠ [] && t.all Char.isDigit then .ok (Nat.ofDigitChars 10 t 0)
  else .error (.raised .valueError)

/-- A notification as the listing shows it. -/
structure Shown where
  notification : Nat
  bulletin : Nat
  title : Text
  comment : Option (Nat × Text)
  deriving DecidableEq

def getBulletin (db : Db) (pk : Nat) : Except Reply Bulletin :=
  match db.bulletins.find? pk with
  | some b => .ok b
  | none => .error (.raised .indexError)

def getComment (db : Db) (pk : Nat) : Except Reply Comment :=
  match db.comments.find? pk with
  | some c => .ok c
  | none => .error (.raised .indexError)

/-- A round of the listing. A notification of no bulletin is passed over. -/
def showNotification (db : Db) (n : Nat) : Except Reply (Option Shown) := do
  match getNDVal db n (text "bulletin") with
  | none => return none
  | some value => do
    let bulletinId ← int value
    match getNDVal db n (text "comment") with
    | none => do
      let b ← getBulletin db bulletinId
      return some ⟨n, bulletinId, b.title, none⟩
    | some value => do
      let commentId ← int value
      let b ← getBulletin db bulletinId
      let c ← getComment db commentId
      return some ⟨n, bulletinId, b.title, some (commentId, (stripTags c.content).take 30)⟩

def showNotifications (db : Db) : List Notification → Except Reply (List Shown)
  | [] => .ok []
  | n :: ns => do
    let shown ← showNotification db n.pk
    let rest ← showNotifications db ns
    return shown.toList ++ rest

/-- The unread notifications of a user. -/
def unread (db : Db) (user : Nat) : List Notification :=
  db.notifications.rows.filter fun n => n.status = .unread &&
    db.recipients.any fun r => r.1 = n.pk && r.2 = user

/-- `get`: the notifications of a user, and the slug of his chapter. -/
def get (db : Db) (user : Option Nat) : Except Reply (List Shown × Text) := do
  let account ← session db user
  let profile ← account.getProfile db
  let shown ← showNotifications db (unread db account.pk)
  match db.chapters.find? profile.chapter.pk with
  | none => throw (.raised .indexError)
  | some chapter => return (shown, chapter.slug)

/-- What is given to the view that marks a notification. -/
structure ReadData where
  url : Option Text
  notifId : Field Nat
  deriving DecidableEq

/-- `update(status=READ)` of the notification with an id. -/
def markRead (pk : Nat) (db : Db) : Db :=
  match db.notifications.find? pk with
  | none => db
  | some n => { db with notifications := db.notifications.save { n with status := .read } }

/-- `read` -/
def readNotification (user : Option Nat) (data : ReadData) : M Reply := do
  match session (← read) user with
  | .error reply => return reply
  | .ok _ =>
    match data.url, data.notifId with
    | none, _ => throw .keyError
    | some _, .blank => throw .keyError
    | some _, .malformed => throw .valueError
    | some _, .value pk => do
      write (markRead pk)
      return .redirect

end Synergy

section Mail

/-- What Mailgun posts of a mail to a list. Of a field with an address there is the address that
`parseaddr` finds, and nothing where the field is empty; `in-reply-to` may be empty. -/
structure MailData where
  recipient : Option Text
  sender : Option Text
  messageFrom : Option Text
  subject : Text
  bodyPlain : Text
  bodyHtml : Text
  strippedHtml : Text
  strippedText : Text
  contentIdMap : Field Unit
  messageId : Text
  messageHeaders : Field (List (Text × Text))
  inReplyTo : Text
  chapter : Option Nat
  deriving DecidableEq

/-- The flags of a form for mail. -/
structure MailForm where
  insidersOnly : Bool
  membersOnly : Bool
  leadersOnly : Bool
  ignoreInternal : Bool
  requireId : Bool
  deriving DecidableEq

def broadcastMailForm : MailForm where
  insidersOnly := false
  membersOnly := true
  leadersOnly := false
  ignoreInternal := true
  requireId := true

def broadcastOfficialForm : MailForm := { broadcastMailForm with leadersOnly := true }

namespace MailData

def required (name : Text) (missing : Bool) : Errors :=
  if missing then [(name, text "This field is required.")] else []

/-- What is wrong with the fields, each by itself. -/
def fieldErrors (db : Db) (d : MailData) : Errors :=
  required (text "recipient") d.recipient.isNone ++ required (text "sender") d.sender.isNone ++
    required (text "message_from") d.messageFrom.isNone ++
    required (text "subject") (d.subject = []) ++ required (text "body_plain") (d.bodyPlain = []) ++
    required (text "body_html") (d.bodyHtml = []) ++
    required (text "stripped_html") (d.strippedHtml = []) ++
    required (text "stripped_text") (d.strippedText = []) ++
    (if d.contentIdMap = .malformed then
      [(text "content_id_map", text "Couldn't deserialize the content ID map.")] else []) ++
    required (text "message_id") (d.messageId = []) ++
    required (text "message_headers") (d.messageHeaders = .blank) ++
    (if d.messageHeaders = .malformed then
      [(text "message_headers", text "Couldn't deserialize the message headers.")] else []) ++
    (if d.chapter.any fun pk => (db.chapters.find? pk).isNone then
      [(text "chapter", invalidChoice)] else [])

/-- `is_reply` -/
def isReply (d : MailData) : Bool := d.inReplyTo ≠ []

/-- `get_header` -/
def getHeader (d : MailData) (header : Text) : List Text :=
  match d.messageHeaders with
  | .value headers => (headers.filter fun h => h.1 = header).map Prod.snd
  | _ => []

/-- `get_best_content`: of the four fields this one is there whenever the form is valid. -/
def getBestContent (d : MailData) : Text := d.strippedHtml

/-- `get_reply_bulletin`: among all bulletins the first in the thread, or with a comment in it. -/
def getReplyBulletin (db : Db) (d : MailData) : Option Bulletin :=
  if d.isReply then
    db.bulletins.rows.find? fun b => b.threadId = some d.inReplyTo ||
      db.comments.rows.any fun c => c.bulletin = b.pk && c.threadId = some d.inReplyTo
  else none

end MailData

/-- The users whom a form takes for the sender. -/
def MailForm.users (form : MailForm) (db : Db) (d : MailData) : List Account :=
  let membersOnly := form.membersOnly || form.leadersOnly
  let insidersOnly := form.insidersOnly || membersOnly
  db.users.rows.filter fun u =>
    let profile := db.profiles.find? u.pk
    (!form.leadersOnly || profile.any UserProfile.isLeader) &&
    (!membersOnly || profile.any fun p => d.chapter = some p.chapter.pk) &&
    (!insidersOnly || d.messageFrom.any fun address => lower u.email = lower address)

/-- `clean`: the user whose mail it is, with the chapter. -/
def MailForm.clean (form : MailForm) (db : Db) (d : MailData) : Checked (Account × Chapter) := do
  let membersOnly := form.membersOnly || form.leadersOnly
  if d.fieldErrors db ≠ [] then throw (.errors (d.fieldErrors db))
  if form.ignoreInternal && d.getHeader internalEmailHeader ≠ [] then
    throw (invalid (text "Cannot process internal emails"))
  if form.requireId && !d.isReply && d.messageId = [] then
    throw (invalid (text "Message is missing an ID"))
  match d.chapter.bind db.chapters.find? with
  | none =>
    if membersOnly then throw (invalid (text "A valid chapter is required"))
    -- neither form gets here
    throw (.raised .attributeError)
  | some chapter =>
    match form.users db d with
    | [] =>
      throw (if membersOnly || form.insidersOnly then invalid (text "Unauthorized posting.")
        else .raised .indexError)
    | user :: _ =>
      if d.getBestContent = [] then throw (invalid (text "Email cannot be blank"))
      return (user, chapter)

/-- `save`: a comment where it is a reply to a bulletin that is found, and else a talk. -/
def MailForm.save (isOfficial : Bool) (user : Account) (chapter : Chapter) (d : MailData) :
    M Item := do
  match d.getReplyBulletin (← read) with
  | some b =>
    let c ← Comment.create ⟨0, user.pk, b.pk, d.getBestContent, some d.messageId, true⟩ b
    return .comment c.pk
  | none =>
    let b ← Bulletin.create
      { pk := 0
        actualType := .talk
        title := d.subject
        content := d.getBestContent
        owner := user.pk
        related := none
        chapter := chapter
        isOfficial := isOfficial
        isGlobal := false
        threadId := some d.messageId
        isGenerated := true
        moderatedBy := none }
    return .bulletin b.pk

/-- The form of each of the lists that are open. -/
def listForm (official : Bool) : MailForm :=
  if official then broadcastOfficialForm else broadcastMailForm

/-- `discuss` and `official`. -/
def receiveMail (official : Bool) (d : MailData) : M Reply := do
  match (listForm official).clean (← read) d with
  | .error reply => return reply
  | .ok (user, chapter) =>
    let _ ← MailForm.save official user chapter d
    return .success

end Mail

/-- What is submitted on the web. -/
inductive Submission where
  | post (posting : Posting) (user : Option Nat) (slug : Text) (data : BulletinData)
  | edit (posting : Posting) (user : Option Nat) (slug : Text) (bulletin : Nat)
      (data : BulletinData)
  | comment (user : Option Nat) (slug : Text) (bulletin : Nat) (data : CommentData)
  | deleteComment (user : Option Nat) (slug : Text) (bulletin comment : Nat)
  | follow (user : Option Nat) (slug : Text) (bulletin : Nat)
  | read (user : Option Nat) (data : ReadData)

def Submission.handle : Submission → M Reply
  | .post posting user slug data => addBulletin posting user slug data
  | .edit posting user slug bulletin data => editBulletin posting user slug bulletin data
  | .comment user slug bulletin data => addComment user slug bulletin data
  | .deleteComment user slug bulletin pk => Board.deleteComment user slug bulletin pk
  | .follow user slug bulletin => followBulletin user slug bulletin
  | .read user data => readNotification user data

end HackerUnion.Board
