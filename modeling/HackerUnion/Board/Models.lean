import HackerUnion.Durable.Serial
import HackerUnion.Petri.Account

namespace HackerUnion.Board

open Bash (Text text lower)
open Durable
open Durable.Handler
open Petri (User Chapter UserProfile NotificationType getMentions linkifyMentions decimal strip)

/-- A user with what the login asks of him. -/
structure Account extends User where
  isActive : Bool
  deriving DecidableEq

def Account.key (a : Account) : Nat := a.pk

/-- The models that are bulletins. -/
inductive ActualType where
  | talk
  | event
  | introduction
  | pending
  | project
  | leadership
  deriving DecidableEq

structure Bulletin where
  pk : Nat
  actualType : ActualType
  title : Text
  content : Text
  owner : Nat
  related : Option Nat
  chapter : Chapter
  isOfficial : Bool
  isGlobal : Bool
  threadId : Option Text
  isGenerated : Bool
  moderatedBy : Option Nat
  deriving DecidableEq

structure Comment where
  pk : Nat
  owner : Nat
  bulletin : Nat
  content : Text
  threadId : Option Text
  isGenerated : Bool
  deriving DecidableEq

/-- What users are mentioned in, and what list mail is about. -/
inductive Item where
  | bulletin (pk : Nat)
  | comment (pk : Nat)
  deriving DecidableEq

/-- `STATUS_CHOICES` of notifications. -/
inductive NotificationStatus where
  | read
  | current
  | unread
  deriving DecidableEq

structure Notification where
  pk : Nat
  notificationType : Text
  status : NotificationStatus
  deriving DecidableEq

/-- `NotificationDict` -/
structure Entry where
  notification : Nat
  key : Text
  value : Text
  deriving DecidableEq

/-- A mail as it is given to Mailgun, with the id that Mailgun gives it. -/
structure Message where
  sender : Text
  recipient : Text
  subject : Text
  text : Text
  html : Text
  headers : List (Text × Text)
  id : Text
  deriving DecidableEq

/-- The functions that are called after a comment is saved. -/
inductive Receiver where
  | broadcastComment
  | createComment
  deriving DecidableEq

/-- The receivers of a signal, in the order in which they were connected. -/
structure Receivers where
  connected : List Receiver
  nodup : connected.Nodup

namespace Receivers

def disconnect (rs : Receivers) (r : Receiver) : Receivers :=
  ⟨rs.connected.filter (· ≠ r), rs.nodup.filter _⟩

/-- One that is connected is not connected again. -/
def connect (rs : Receivers) (r : Receiver) : Receivers :=
  if h : r ∈ rs.connected then rs
  else ⟨rs.connected ++ [r], List.nodup_append.mpr ⟨rs.nodup, List.nodup_singleton r, by
    intro a ha b hb hab
    rw [List.mem_singleton.mp hb] at hab
    exact h (hab ▸ ha)⟩⟩

/-- As the module leaves them when it is loaded. -/
def initial : Receivers := ⟨[.broadcastComment, .createComment], by decide⟩

end Receivers

/-- The database, the receivers of a new comment, the ids that Mailgun gives to the mails it takes,
in their order, and the mails to lists it has taken, each with what it is about. -/
structure Db where
  users : Table Account Account.key
  chapters : Table Chapter Chapter.pk
  profiles : Table UserProfile UserProfile.pk
  bulletins : Serial Bulletin Bulletin.pk
  comments : Serial Comment Comment.pk
  notifications : Serial Notification Notification.pk
  notificationTypes : List NotificationType
  followedBy : List (Nat × Nat)
  usersMentioned : List (Item × Nat)
  usersNotified : List (Item × Nat)
  recipients : List (Nat × Nat)
  entries : List Entry
  receivers : Receivers
  messageId : Nat → Text
  sent : List (Item × Message)

/-- What may fail. -/
inductive Service where
  | mail
  | mailgun
  deriving DecidableEq

inductive Exn where
  | outage
  | doesNotExist
  | multipleObjects
  | attributeError
  | assertionError
  | indexError
  | keyError
  | valueError
  deriving DecidableEq

abbrev M := Handler Service Exn Db

/-- A relation of many to many, once the pair is in it. -/
def added {α : Type} [DecidableEq α] (x : α) (xs : List α) : List α :=
  if x ∈ xs then xs else xs ++ [x]

/-- A foreign key that is followed. -/
def getUser (pk : Nat) : M Account := do
  match (← read).users.find? pk with
  | some u => return u
  | none => throw .doesNotExist

/-- `objects.get(username__iexact=...)`, with `None` for `User.DoesNotExist`. -/
def getUserByName (username : Text) : M (Option Account) := do
  match (← read).users.rows.filter (fun u => lower u.username = lower username) with
  | [] => return none
  | [u] => return some u
  | _ => throw .multipleObjects

section Notifications

def getNotificationType (name : Text) : M NotificationType := do
  match (← read).notificationTypes.filter (fun t => t.name = name) with
  | [] => throw .doesNotExist
  | [t] => return t
  | _ => throw .multipleObjects

/-- `dispatch`: the users of the notification are mailed, one by one or together. -/
def dispatch (t : NotificationType) (notification : Nat) : M Unit := do
  let users := (← read).recipients.filter fun r => r.1 = notification
  if t.generatesEmail && users ≠ [] then
    if t.sendIndividually then users.forM fun _ => call .mail .outage
    else call .mail .outage

/-- A notification is stored, addressed, filled in and sent. `each` is what is done for a user
besides. -/
def notify (type : Text) (users : List Nat) (entries : List (Text × Text))
    (each : Nat → M Unit := fun _ => pure ()) : M Unit := do
  let t ← getNotificationType type
  let n := (← read).notifications.next
  write fun db => { db with notifications := db.notifications.save ⟨n, type, .unread⟩ }
  users.forM fun u => do
    write fun db => { db with recipients := added (n, u) db.recipients }
    each u
  entries.forM fun e => write fun db => { db with entries := db.entries ++ [⟨n, e.1, e.2⟩] }
  dispatch t n

/-- The users who are mentioned and have not been told. -/
def untold (item : Item) (db : Db) : List Nat :=
  (db.usersMentioned.filter fun m => m.1 = item && m ∉ db.usersNotified).map Prod.snd

def createMentionNotifications (item : Item) (entries : List (Text × Text)) : M Unit := do
  let addUsers := untold item (← read)
  if addUsers = [] then return
  notify (text "new_mention") addUsers entries fun u =>
    write fun db => { db with usersNotified := added (item, u) db.usersNotified }

/-- The end of saving: the users a text mentions are noted, and told. -/
def mentioned (item : Item) (entries : List (Text × Text)) (names : List Text) : M Unit := do
  names.forM fun name => do
    match ← getUserByName name with
    | none => return
    | some u =>
      write fun db => { db with usersMentioned := added (item, u.pk) db.usersMentioned }
  createMentionNotifications item entries

end Notifications

section Mail

/-- `DEFAULT_EMAIL` -/
def defaultEmail : Text := Petri.emailFormat (text "no-reply")

/-- `INTERNAL_EMAIL_HEADER` -/
def internalEmailHeader : Text := text "X-From-Petri"

/-- `strip_tags`: from `<` to the next `>`, where there is one. -/
def stripTagsFrom (inside : Bool) : Text → Text
  | [] => []
  | c :: t =>
    if inside then stripTagsFrom (c ≠ '>') t
    else if c = '<' && '>' ∈ t then stripTagsFrom true t
    else c :: stripTagsFrom false t

def stripTags (t : Text) : Text := stripTagsFrom false t

/-- How long the rest of an entity is after its `&`. -/
def entity (t : Text) : Option Nat :=
  let name := t.takeWhile Petri.isWord
  let digits := (t.drop 1).takeWhile Char.isDigit
  if name ≠ [] && t[name.length]? = some ';' then some (name.length + 1)
  else if t.head? = some '#' && digits ≠ [] && t[digits.length + 1]? = some ';' then
    some (digits.length + 2)
  else none

/-- `strip_entities`. `skip` characters of an entity are still to be passed over. -/
def stripEntitiesFrom : Nat → Text → Text
  | _, [] => []
  | skip + 1, _ :: t => stripEntitiesFrom skip t
  | 0, c :: t =>
    match if c = '&' then entity t else none with
    | some length => stripEntitiesFrom length t
    | none => c :: stripEntitiesFrom 0 t

def stripEntities (t : Text) : Text := stripEntitiesFrom 0 t

def capitalize : Text → Text
  | [] => []
  | c :: t => c.toUpper :: lower t

/-- `send_email` of a client that is silent: it gives no answer where the mail is not taken, and
`resp.get` raises. -/
def sendEmail (about : Item) (recipient subject body sender : Text) (reply : Option Text)
    (internal : Bool) : M Text := do
  let marked := if internal then [(internalEmailHeader, text "Made by MY team.")] else []
  let answering := match reply with
    | none => []
    | some thread => if thread = [] then [] else [(text "In-Reply-To", thread)]
  call .mailgun .attributeError
  let db ← read
  let id := db.messageId db.sent.length
  let message : Message :=
    { sender := if sender = [] then defaultEmail else sender
      recipient := recipient
      subject := subject
      text := stripEntities (stripTags body)
      html := body
      headers := marked ++ answering
      id := id }
  write fun db => { db with sent := db.sent ++ [(about, message)] }
  return id

end Mail

namespace Bulletin

def getList (b : Bulletin) : Text :=
  if b.isOfficial then b.chapter.getOfficialList else b.chapter.getDiscussList

def canBroadcast (b : Bulletin) : Bool := !b.isGenerated && b.actualType = .talk

def isBroadcast (b : Bulletin) : Bool := b.threadId.any (· ≠ [])

def canNotify (b : Bulletin) : Bool := b.actualType ≠ .talk

/-- `TITLE_SNIPPET_LEN` -/
def titleSnippetLen : Nat := 35

def contentPlain (b : Bulletin) : Text := stripEntities (stripTags b.content)

def titleWithDefault (b : Bulletin) (owner : Account) : Text :=
  let snippet := b.contentPlain.take titleSnippetLen
  let default := if strip snippet = [] then text "New message from " ++ owner.username
    else capitalize (snippet ++ text "...")
  if b.title = [] then default else b.title

/-- The notification dictionary of a bulletin. -/
def entries (b : Bulletin) : List (Text × Text) :=
  [(text "chapter", b.chapter.slug), (text "bulletin", decimal b.pk)]

def put (b : Bulletin) : M Unit := write fun db => { db with bulletins := db.bulletins.save b }

def withContent (b : Bulletin) : Bulletin :=
  { b with content := linkifyMentions b.chapter b.content }

/-- `save` of a bulletin that is stored. -/
def update (b : Bulletin) : M Unit := do
  b.withContent.put
  mentioned (.bulletin b.pk) b.entries (getMentions b.content)

/-- `_broadcast_bulletin` of a new bulletin. It is taken off the signals of plain bulletins while it
saves again, of which it is not called; the second time the bulletin is not new. -/
def broadcast (b : Bulletin) : M Unit := do
  if !b.canBroadcast then return
  let owner ← getUser b.owner
  let id ← sendEmail (.bulletin b.pk) b.getList (b.titleWithDefault owner) b.content owner.email
    none true
  { b with threadId := some id }.update

/-- `create_leadership`: the leaders of the chapter are told, but for those it links to. -/
def createLeadership (b : Bulletin) : M Unit := do
  let leaders := (← read).profiles.rows.filter fun p =>
    p.chapter.pk = b.chapter.pk && p.isLeader &&
      !Bash.contains (text "?n=" ++ lower p.user.username) b.content
  notify (text "new_leadership") (leaders.map UserProfile.pk)
    (b.entries ++ [(text "title", b.title), (text "content", b.content)])

/-- `save` of a new bulletin, with the signals. -/
def create (b : Bulletin) : M Bulletin := do
  let names := getMentions b.content
  let b : Bulletin := { b.withContent with pk := (← read).bulletins.next }
  b.put
  b.broadcast
  if b.actualType = .leadership then b.createLeadership
  mentioned (.bulletin b.pk) b.entries names
  return b

def follow (b : Bulletin) (user : Nat) : M Unit :=
  write fun db => { db with followedBy := added (b.pk, user) db.followedBy }

def unfollow (b : Bulletin) (user : Nat) : M Unit :=
  write fun db => { db with followedBy := db.followedBy.filter (· ≠ (b.pk, user)) }

end Bulletin

namespace Comment

def canBroadcast (c : Comment) (b : Bulletin) : Bool := !c.isGenerated && b.isBroadcast

def entries (c : Comment) (b : Bulletin) : List (Text × Text) :=
  b.entries ++ [(text "comment", decimal c.pk)]

def put (c : Comment) : M Unit := write fun db => { db with comments := db.comments.save c }

def withContent (c : Comment) (b : Bulletin) : Comment :=
  { c with content := linkifyMentions b.chapter c.content }

/-- `save` of a comment that is stored. -/
def update (c : Comment) (b : Bulletin) : M Unit := do
  (c.withContent b).put
  mentioned (.comment c.pk) (c.entries b) (getMentions c.content)

/-- `_broadcast_comment` of a new comment. Where saving it again raises, it stays taken off. -/
def broadcast (c : Comment) (b : Bulletin) : M Unit := do
  if !c.canBroadcast b then return
  let owner ← getUser b.owner
  let author ← getUser c.owner
  let id ← sendEmail (.comment c.pk) b.getList (text "Re: " ++ b.titleWithDefault owner) c.content
    author.email b.threadId true
  write fun db => { db with receivers := db.receivers.disconnect .broadcastComment }
  { c with threadId := some id }.update b
  write fun db => { db with receivers := db.receivers.connect .broadcastComment }

/-- The users who are told of a comment. After the loop over the comments its variable still is the
last one. -/
def listeners (c : Comment) (b : Bulletin) (db : Db) : List Nat :=
  let comments := db.comments.rows.filter fun x => x.bulletin = b.pk
  let last := comments.getLast?.map owner
  (if b.owner ≠ c.owner then [b.owner] else []) ++
    (comments.filter fun x => b.owner ≠ x.owner && x.owner ≠ c.owner).map owner ++
    (db.followedBy.filter fun f => f.1 = b.pk && last ≠ some f.2 && f.2 ≠ c.owner).map Prod.snd

/-- `_create_comment` of a new comment. -/
def createComment (c : Comment) (b : Bulletin) : M Unit := do
  if !b.canNotify then return
  notify (text "new_comment") (c.listeners b (← read)) (c.entries b)

def receive (c : Comment) (b : Bulletin) : Receiver → M Unit
  | .broadcastComment => c.broadcast b
  | .createComment => c.createComment b

/-- `save` of a new comment, with the signals. -/
def create (c : Comment) (b : Bulletin) : M Comment := do
  let names := getMentions c.content
  let c : Comment := { c.withContent b with pk := (← read).comments.next }
  c.put
  (← read).receivers.connected.forM (c.receive b)
  mentioned (.comment c.pk) (c.entries b) names
  return c

/-- Its mentions go with it. -/
def delete (c : Comment) : M Unit :=
  write fun db => { db with
    comments := db.comments.remove fun x => x.pk = c.pk
    usersMentioned := db.usersMentioned.filter fun m => m.1 ≠ .comment c.pk
    usersNotified := db.usersNotified.filter fun m => m.1 ≠ .comment c.pk }

end Comment

section Cascade

/-- The bulletin is the one with this key or is related to it, over so many bulletins at most. -/
def leadsTo (db : Db) (pk : Nat) : Nat → Nat → Bool
  | 0, k => k = pk
  | n + 1, k => k = pk ||
    match (db.bulletins.find? k).bind Bulletin.related with
    | some r => leadsTo db pk n r
    | none => false

/-- The bulletin goes when the one with this key goes. -/
def Bulletin.doomed (db : Db) (pk : Nat) (b : Bulletin) : Bool :=
  leadsTo db pk db.bulletins.rows.length b.pk

/-- The comment goes with its bulletin. -/
def Comment.doomed (db : Db) (pk : Nat) (c : Comment) : Bool :=
  leadsTo db pk db.bulletins.rows.length c.bulletin

def Item.doomed (db : Db) (pk : Nat) : Item → Bool
  | .bulletin k => leadsTo db pk db.bulletins.rows.length k
  | .comment k => (db.comments.find? k).any (Comment.doomed db pk)

/-- What refers to a bulletin goes with it. -/
def Bulletin.delete (b : Bulletin) : M Unit :=
  write fun db => { db with
    bulletins := db.bulletins.remove (Bulletin.doomed db b.pk)
    comments := db.comments.remove (Comment.doomed db b.pk)
    followedBy := db.followedBy.filter fun f => !leadsTo db b.pk db.bulletins.rows.length f.1
    usersMentioned := db.usersMentioned.filter fun m => !m.1.doomed db b.pk
    usersNotified := db.usersNotified.filter fun m => !m.1.doomed db b.pk }

end Cascade

end HackerUnion.Board
