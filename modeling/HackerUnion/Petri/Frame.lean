import HackerUnion.Petri.Forms

namespace HackerUnion.Petri

open Bash (Text text)
open Durable
open Durable.Handler

/-- A property of the tables and of who is subscribed to what. -/
def OnCore (P : Tables → List (Text × Text) → Prop) (db : Db) : Prop :=
  P db.tables db.subscriptions

section Keeps

variable {may : Service → Bool → Prop} {P : Tables → List (Text × Text) → Prop} {I : Db → Prop}

theorem logged_keeps (service : Service) (e : Event) :
    Keeps may (OnCore P) (logged service e) :=
  keeps_store fun _ h => h

theorem getUser_keeps (pk : Nat) : Keeps may I (getUser pk) := by
  refine keeps_bind keeps_read ?_
  intro db
  split
  · exact keeps_pure _
  · exact keeps_throw

theorem getUserByName_keeps (username : Text) : Keeps may I (getUserByName username) := by
  refine keeps_bind keeps_read ?_
  intro db
  split
  · exact keeps_pure _
  · exact keeps_pure _
  · exact keeps_throw

theorem getProfile_keeps (u : User) : Keeps may I u.getProfile := by
  refine keeps_bind keeps_read ?_
  intro db
  split
  · exact keeps_pure _
  · exact keeps_throw

theorem notify_keeps {each : Nat → M Unit} (heach : ∀ u, Keeps may (OnCore P) (each u))
    (type : Text) (users : List Nat) (entries : List (Text × Text)) :
    Keeps may (OnCore P) (notify type users entries each) := by
  refine keeps_bind keeps_call ?_
  intro _
  refine keeps_bind keeps_read ?_
  intro db
  split
  · exact keeps_throw
  · refine keeps_bind (logged_keeps _ _) fun _ => ?_
    refine keeps_bind (keeps_forM fun u => keeps_bind (logged_keeps _ _) fun _ => heach u) ?_
    intro _
    refine keeps_bind (keeps_forM fun e => logged_keeps _ _) fun _ => ?_
    refine keeps_bind keeps_call fun _ => ?_
    split
    · split
      · exact keeps_forM fun u => logged_keeps _ _
      · exact logged_keeps _ _
    · exact keeps_pure _

theorem createMentionNotifications_keeps (b : Bulletin) :
    Keeps may (OnCore P) b.createMentionNotifications := by
  unfold Bulletin.createMentionNotifications
  refine keeps_bind keeps_read fun db => ?_
  dsimp only
  split
  · exact keeps_pure _
  · apply notify_keeps
    intro u
    apply keeps_store
    intro db h
    exact h

theorem mentioned_keeps (b : Bulletin) (names : List Text) :
    Keeps may (OnCore P) (b.mentioned names) := by
  refine keeps_bind (keeps_forM fun name => ?_) fun _ => createMentionNotifications_keeps b
  refine keeps_bind (getUserByName_keeps name) ?_
  intro found
  cases found with
  | none => exact keeps_pure _
  | some u => exact keeps_store fun _ h => h

theorem follow_keeps (b : Bulletin) (u : User) : Keeps may (OnCore P) (b.follow u) :=
  keeps_store fun _ h => h

theorem createLeadership_keeps (l : Leadership) : Keeps may (OnCore P) l.createLeadership := by
  refine keeps_bind keeps_read ?_
  intro db
  exact notify_keeps (fun _ => keeps_pure _) _ _ _

theorem proxyEmail_keeps (email username : Text) :
    Keeps may (OnCore P) (proxyEmail email username) := by
  refine keeps_bind ?_ fun _ => keeps_quietly fun _ h => h
  refine keeps_bind keeps_call fun _ => ?_
  refine keeps_bind keeps_read fun _ => ?_
  exact keeps_forM fun r => keeps_quietly fun _ h => h

theorem listMembership_keeps (hP : ∀ t s s', P t s → P t s') (list email : Text)
    (subscribe : Bool) : Keeps may (OnCore P) (listMembership list email subscribe) :=
  keeps_quietly fun _ h => hP _ _ _ h

theorem subscribeList_keeps (hP : ∀ t s s', P t s → P t s') (list email : Text) :
    Keeps may (OnCore P) (subscribeList list email) :=
  keeps_bind (listMembership_keeps hP list email true) fun _ => keeps_store fun _ h => h

theorem unsubscribeList_keeps (hP : ∀ t s s', P t s → P t s') (list email : Text) :
    Keeps may (OnCore P) (unsubscribeList list email) :=
  listMembership_keeps hP list email false

end Keeps

section Reads

variable {may : Service → Bool → Prop} {db : Db} {R : Db → Prop}

theorem getUser_ensures {pk : Nat} {Q : User → Db → Prop}
    (hok : ∀ u, db.tables.users.find? pk = some u → Q u db) (hr : R db) :
    Ensures may db (getUser pk) Q R := by
  apply ensures_read
  split
  · exact ensures_pure (hok _ (by assumption))
  · exact ensures_throw hr

theorem getProfile_ensures {u : User} {Q : UserProfile → Db → Prop}
    (hok : ∀ p, db.tables.profiles.find? u.pk = some p → Q { p with user := u } db) (hr : R db) :
    Ensures may db u.getProfile Q R := by
  apply ensures_read
  split
  · exact ensures_pure (hok _ (by assumption))
  · exact ensures_throw hr

theorem finds_getUser {pk : Nat} {u : User} (h : db.tables.users.find? pk = some u) :
    Finds db (getUser pk) u := by
  apply finds_bind finds_read
  rw [h]
  exact finds_pure

theorem finds_getProfile {u : User} {p : UserProfile}
    (h : db.tables.profiles.find? u.pk = some p) : Finds db u.getProfile { p with user := u } := by
  apply finds_bind finds_read
  rw [h]
  exact finds_pure

theorem finds_getMentees (p : UserProfile) :
    Finds db p.getMentees (db.tables.profiles.rows.filter fun m => m.leader = some p.pk) :=
  finds_bind finds_read finds_pure

end Reads

section Save

variable {may : Service → Bool → Prop} {db : Db}

/-- A request as it is stored. -/
def Leadership.stored (l : Leadership) (created : Bool) (t : Tables) : Leadership :=
  { l with
    content := linkifyMentions l.chapter l.content
    pk := if created then t.posts.nextKey else l.pk }

def Tables.withPost (t : Tables) (p : Post) : Tables := { t with posts := t.posts.save p }

/-- The request is stored, and nothing else is changed but what was sent. -/
def Leadership.IsStored (l : Leadership) (created : Bool) (db : Db) (t : Tables)
    (subscriptions : List (Text × Text)) : Prop :=
  t = db.tables.withPost (.leadership (l.stored created db.tables)) ∧
    subscriptions = db.subscriptions

/-- The row is written first; what follows only sends notifications. -/
theorem Leadership.save_ensures (l : Leadership) (created : Bool) :
    Ensures may db (l.save created)
      (fun l' db' => l' = l.stored created db.tables ∧ OnCore (l.IsStored created db) db')
      (fun db' => OnCore (l.IsStored created db) db' ∨
        (may .database true ∧ db'.tables = db.tables ∧ db'.subscriptions = db.subscriptions)) := by
  have hmentioned (db' : Db) (h : OnCore (l.IsStored created db) db') :
      Ensures may db' (do
          (l.stored created db.tables).toBulletin.mentioned (getMentions l.content)
          return l.stored created db.tables)
        (fun l' db' => l' = l.stored created db.tables ∧ OnCore (l.IsStored created db) db')
        (fun db' => OnCore (l.IsStored created db) db' ∨
          (may .database true ∧ db'.tables = db.tables ∧
            db'.subscriptions = db.subscriptions)) := by
    apply ensures_then (mentioned_keeps _ _ db' h)
    · intro _ db'' h''
      exact ensures_pure ⟨rfl, h''⟩
    · intro db'' h''
      exact Or.inl h''
  unfold Leadership.save
  apply ensures_read
  apply ensures_bind
  apply ensures_store
  · cases created with
    | false => exact hmentioned _ ⟨rfl, rfl⟩
    | true =>
      have hstored : OnCore (l.IsStored true db)
          { db with tables := db.tables.withPost (.leadership (l.stored true db.tables)) } :=
        ⟨rfl, rfl⟩
      apply ensures_then (createLeadership_keeps _ _ hstored)
      · intro _ db' h
        exact hmentioned db' h
      · intro db' h
        exact Or.inl h
  · intro hdown
    exact Or.inr ⟨hdown, rfl, rfl⟩

end Save

end HackerUnion.Petri
