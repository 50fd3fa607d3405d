import HackerUnion.Petri.Lists
import HackerUnion.Petri.Views

namespace HackerUnion.Petri

open Bash (Text text)
open Durable
open Durable.Handler

/-- No call fails, but for those that tell users of what is done. -/
abbrev calm : Service → Bool → Prop := fun service failed =>
  service ≠ .notifications → failed = false

def UserProfile.allows (p : UserProfile) : MailList → Bool
  | .announce => p.allowAnnounce
  | .official => p.allowOfficial
  | .discuss => p.allowDiscuss

def UserProfile.member (p : UserProfile) : Member :=
  ⟨p.user.email, p.chapter, p.status, p.isLeader, p.allows⟩

/-- The member of the key, from the row of the user and that of the profile. -/
def Tables.member (t : Tables) (k : Nat) : Option Member := do
  let u ← t.users.find? k
  let p ← t.profiles.find? k
  return UserProfile.member { p with user := u }

/-- What only a sign-up writes: the users, the invitations, and for which users there are profiles,
besides the chapters. -/
def Tables.registered (t : Tables) :
    Table User User.pk × Table Chapter Chapter.pk × Table Invitation Invitation.pk × List Nat :=
  (t.users, t.chapters, t.invitations, t.profiles.rows.map UserProfile.pk)

theorem Tables.users_of_registered {t t' : Tables} (h : t.registered = t'.registered) :
    t.users = t'.users := congrArg Prod.fst h

/-- The members and the lists, as the tables and the subscriptions have them. -/
def rolls (t : Tables) (subscriptions : List (Text × Text)) : Rolls :=
  ⟨t.member, {x | x ∈ subscriptions}⟩

def Db.rolls (db : Db) : Rolls := Petri.rolls db.tables db.subscriptions

/-- Nothing that the lists depend on has been changed. -/
def Still (db₀ : Db) : Db → Prop :=
  OnCore fun t s => t.registered = db₀.tables.registered ∧ rolls t s = db₀.rolls

/-- Nobody has signed up, and the members and lists have changed by writes that are allowed. -/
def Reached (E : Member → Change → Prop) (db₀ : Db) (db : Db) : Prop :=
  db.tables.registered = db₀.tables.registered ∧ Changes E db₀.rolls db.rolls

/-- The profile in memory is that of the stored user, and its row says the same. -/
structure Held (db : Db) (p : UserProfile) : Prop where
  account : db.tables.users.find? p.pk = some p.user
  row : db.tables.member p.pk = some p.member

variable {E : Member → Change → Prop} {db₀ db db' : Db} {p q : UserProfile} {α : Type}

section Still

theorem Still.refl : Still db db := ⟨rfl, rfl⟩

theorem Still.users (h : Still db db') : db'.tables.users = db.tables.users :=
  Tables.users_of_registered h.1

theorem Still.member (h : Still db db') : db'.tables.member = db.tables.member :=
  congrArg Rolls.record h.2

theorem Still.reached (h : Still db db') (hr : Reached E db₀ db) : Reached E db₀ db' := by
  obtain ⟨hregistered, hchanges⟩ := hr
  refine ⟨h.1.trans hregistered, ?_⟩
  have hrolls : db'.rolls = db.rolls := h.2
  rwa [hrolls]

theorem Reached.refl : Reached E db db := ⟨rfl, .refl⟩

theorem Held.still (h : Still db db') (hp : Held db p) : Held db' p := by
  refine ⟨?_, ?_⟩
  · rw [h.users]
    exact hp.account
  · rw [h.member]
    exact hp.row

/-- A profile that is fetched for its user is held. -/
theorem held_profile {u : User} {k : Nat} (hu : db.tables.users.find? k = some u)
    (hp : db.tables.profiles.find? u.pk = some p) : Held db { p with user := u } := by
  have hk : u.pk = k := (Table.find?_eq_some_iff.mp hu).2
  subst hk
  refine ⟨hu, ?_⟩
  change db.tables.member u.pk = _
  simp [Tables.member, hu, hp]

theorem Held.changed (h : Held db p) {c : Change} (hg : c.Guard p.member) (he : E p.member c)
    (hr : Reached E db₀ db) (hregistered : db'.tables.registered = db.tables.registered)
    (hrolls : db'.rolls = db.rolls.write p.pk (c.on p.member) (c.listing p.member)) :
    Reached E db₀ db' := by
  refine ⟨hregistered.trans hr.1, hr.2.tail ?_⟩
  rw [hrolls]
  exact .intro h.row hg he

end Still

section Save

variable {R : Db → Prop}

theorem saved_calm {f : Tables → Tables} {Q : Unit → Db → Prop}
    (h : Q () { db with tables := f db.tables }) : Ensures calm db (saved f) Q R := by
  apply ensures_store h
  intro hdown
  cases hdown (by decide)

theorem member_save (t : Tables) (p : UserProfile) :
    Tables.member { t with profiles := t.profiles.save p } =
      Function.update t.member p.pk
        ((t.users.find? p.pk).map fun u => UserProfile.member { p with user := u }) := by
  funext k
  rw [Function.update_apply]
  split
  · rename_i hk
    subst hk
    have hrow : (t.profiles.save p).find? p.pk = some p := Table.find?_save_self
    unfold Tables.member
    rw [hrow]
    cases t.users.find? p.pk <;> rfl
  · rename_i hk
    have hrow : (t.profiles.save p).find? k = t.profiles.find? k := by
      rw [Table.find?_save, if_neg fun h => hk h.symm]
    unfold Tables.member
    rw [hrow]

theorem mem_keys_of_find {t : Tables} {k : Nat} {p : UserProfile}
    (h : t.profiles.find? k = some p) : k ∈ t.profiles.rows.map UserProfile.pk := by
  obtain ⟨hmem, hk⟩ := Table.find?_eq_some_iff.mp h
  exact List.mem_map.mpr ⟨p, hmem, hk⟩

theorem Held.mem_keys (h : Held db p) : p.pk ∈ db.tables.profiles.rows.map UserProfile.pk := by
  obtain ⟨u, hu, hrow⟩ := Option.bind_eq_some_iff.mp h.row
  obtain ⟨q, hq, -⟩ := Option.bind_eq_some_iff.mp hrow
  exact mem_keys_of_find hq

/-- A row in the place of another is of no other user. -/
theorem registered_save (t : Tables) (h : p.pk ∈ t.profiles.rows.map UserProfile.pk) :
    Tables.registered { t with profiles := t.profiles.save p } = t.registered := by
  have hkeys : (t.profiles.save p).rows.map UserProfile.pk =
      t.profiles.rows.map UserProfile.pk := by
    have hput := @Table.map_put _ UserProfile.pk p t.profiles.rows
    rwa [if_pos h] at hput
  unfold Tables.registered
  rw [hkeys]

/-- A profile is written that says what the row says. -/
theorem save_still (hs : Still db₀ db) (hkey : p.pk ∈ db.tables.profiles.rows.map UserProfile.pk)
    (h : db.tables.member p.pk =
      (db.tables.users.find? p.pk).map fun u => UserProfile.member { p with user := u }) :
    Ensures calm db p.save (fun _ => Still db₀) R := by
  apply saved_calm
  have hmember := member_save db.tables p
  rw [← h, Function.update_eq_self] at hmember
  refine ⟨(registered_save db.tables hkey).trans hs.1, ?_⟩
  rw [← hs.2]
  simp only [rolls, hmember]

theorem Held.save_still (hp : Held db p) (hs : Still db₀ db) (hpk : q.pk = p.pk)
    (huser : q.user = p.user) (hmember : q.member = p.member) :
    Ensures calm db q.save (fun _ db' => Still db₀ db' ∧ Held db' q) R := by
  have hrow : db.tables.member q.pk =
      (db.tables.users.find? q.pk).map fun u => UserProfile.member { q with user := u } := by
    rw [hpk, hp.row, hp.account, Option.map_some, ← huser, ← hmember]
  have hkey : q.pk ∈ db.tables.profiles.rows.map UserProfile.pk := hpk ▸ hp.mem_keys
  refine ensures_weaken (Petri.save_still (R := R) Still.refl hkey hrow) fun _ db' h => ?_
  refine ⟨⟨h.1.trans hs.1, h.2.trans hs.2⟩, ?_, ?_⟩
  · rw [h.users, hpk, huser]
    exact hp.account
  · rw [h.member, hpk, hmember]
    exact hp.row

end Save

section Quiet

variable {may : Service → Bool → Prop}

/-- What writes only posts. -/
theorem still_of_path {t : Tables} (h : Path (fun a => ∃ l, a = .file l) db.tables t)
    (hprofiles : t.profiles = db.tables.profiles)
    (hsubs : db'.subscriptions = db.subscriptions) (ht : db'.tables = t) : Still db db' := by
  have hrows : (t.users, t.chapters, t.invitations) =
      (db.tables.users, db.tables.chapters, db.tables.invitations) := by
    refine h.invariant (I := fun t => (t.users, t.chapters, t.invitations) =
      (db.tables.users, db.tables.chapters, db.tables.invitations)) ?_ rfl
    rintro t' a ht' ⟨l, rfl⟩ -
    exact ht'
  have hregistered : t.registered = db.tables.registered := by
    simp only [Prod.mk.injEq] at hrows
    simp only [Tables.registered, hrows, hprofiles]
  have hmember : db'.tables.member = db.tables.member := by
    funext k
    simp only [Tables.member, ht, Tables.users_of_registered hregistered, hprofiles]
  refine ⟨by rw [ht, hregistered], ?_⟩
  simp only [Db.rolls, rolls, hmember, hsubs]

theorem file_still (kind : Kind) (request : Request) (data : RequestData) :
    Keeps may (Still db₀) (kind.file request data) := by
  intro db hs
  have hdone (db' : Db) (h : Path (fun a => ∃ l, a = .file l) db.tables db'.tables ∧
      db'.tables.profiles = db.tables.profiles ∧ db'.subscriptions = db.subscriptions) :
      Still db₀ db' := by
    have hstill : Still db db' := still_of_path h.1 h.2.1 h.2.2 rfl
    exact ⟨hstill.1.trans hs.1, hstill.2.trans hs.2⟩
  exact ensures_mono (file_path Path.refl fun l _ _ => ⟨l, rfl⟩) (fun _ => hdone) hdone

theorem createPairRequest_still (user : User) (chapter : Chapter) (reason : Text) :
    Keeps may (Still db₀) (createPairRequest user chapter reason) :=
  keeps_bind (file_still _ _ _) fun _ => keeps_pure _

theorem leadershipSave_still (l : Leadership) (created : Bool) :
    Keeps may (Still db₀) (l.save created) := by
  intro db hs
  have hstored (db' : Db) (h : OnCore (l.IsStored created db) db') : Still db₀ db' := by
    obtain ⟨htables, hsubs⟩ := h
    refine ⟨by rw [htables]; exact hs.1, ?_⟩
    rw [htables, hsubs]
    exact hs.2
  apply ensures_mono (Leadership.save_ensures l created)
  · intro l' db' h
    exact hstored db' h.2
  · rintro db' (h | ⟨-, htables, hsubs⟩)
    · exact hstored db' h
    · refine ⟨by rw [htables]; exact hs.1, ?_⟩
      rw [htables, hsubs]
      exact hs.2

theorem responseSave_still {request : Request} {l : Leadership} {response : Response}
    {valid : Bool} (hs : Still db₀ db) :
    Ensures may db (ResponseForm.save request l response valid)
      (fun r db' => Still db₀ db' ∧ (r ≠ .canceled → valid = true ∧ response = r))
      (Still db₀) := by
  have hmark (response : Response) : Keeps may (Still db₀)
      (Leadership.save { l with response := response, processedBy := some request.user.pk }) :=
    leadershipSave_still _ _
  have hdone {r : Response} {c : M Leadership} (hc : Keeps may (Still db₀) c)
      (hr : r ≠ .canceled → valid = true ∧ response = r) :
      Ensures may db (do let _ ← c; return r)
        (fun r db' => Still db₀ db' ∧ (r ≠ .canceled → valid = true ∧ response = r))
        (Still db₀) := by
    apply ensures_seq (hc db hs)
    intro _ db' h
    exact ensures_pure ⟨h, hr⟩
  unfold ResponseForm.save
  cases valid with
  | false => exact hdone (hmark .canceled) fun h => absurd rfl h
  | true =>
    cases response with
    | pending => exact ensures_pure ⟨hs, fun _ => ⟨rfl, rfl⟩⟩
    | canceled => exact hdone (hmark .canceled) fun h => absurd rfl h
    | denied => exact hdone (hmark .denied) fun _ => ⟨rfl, rfl⟩
    | active => exact hdone (hmark .active) fun _ => ⟨rfl, rfl⟩
    | approved =>
      refine hdone (c := l.approve request.user) ?_ fun _ => ⟨rfl, rfl⟩
      refine keeps_bind (hmark .approved) fun l' => ?_
      refine keeps_bind (getProfile_keeps request.user) fun processor => ?_
      exact keeps_bind (notify_keeps (fun _ => keeps_pure _) _ _ _) fun _ => keeps_pure _

theorem promote_still (post : Nat) (user : User) : Keeps may (Still db₀) (promote post user) := by
  refine keeps_bind keeps_read fun db => ?_
  split
  · exact keeps_throw
  · exact keeps_bind (keeps_store fun _ h => h) fun _ => mentioned_keeps _ _

end Quiet

section Lists

variable {R : Db → Prop} {Q : Unit → Db → Prop} {list email : Text} {l : MailList} {allow : Bool}

theorem subscribeList_calm (h : ∀ db', db'.tables = db.tables →
      (∀ x, x ∈ db'.subscriptions ↔ x ∈ db.subscriptions ∨ x = (list, email)) → Q () db') :
    Ensures calm db (subscribeList list email) Q R := by
  apply ensures_bind
  apply ensures_quietly
  · apply ensures_store
    · apply h
      · rfl
      · intro x
        simp only [if_true]
        split
        · rename_i hmem
          constructor
          · exact .inl
          · rintro (hx | rfl)
            · exact hx
            · exact hmem
        · simp
    · intro hdown
      cases hdown (by decide)
  · intro hdown
    cases hdown (by decide)

theorem unsubscribeList_calm (h : ∀ db', db'.tables = db.tables →
      (∀ x, x ∈ db'.subscriptions ↔ x ∈ db.subscriptions ∧ x ≠ (list, email)) → Q () db') :
    Ensures calm db (unsubscribeList list email) Q R := by
  apply ensures_quietly
  · apply h
    · rfl
    · intro x
      simp
  · intro hdown
    cases hdown (by decide)

/-- The profile is written, and no list is changed. -/
structure Wrote (db : Db) (p : UserProfile) (db' : Db) : Prop where
  tables : db'.tables = { db.tables with profiles := db.tables.profiles.save p }
  subscriptions : db'.subscriptions = db.subscriptions

theorem save_wrote (p : UserProfile) : Ensures calm db p.save (fun _ => Wrote db p) R :=
  saved_calm ⟨rfl, rfl⟩

theorem Wrote.registered (h : Wrote db p db')
    (hkey : p.pk ∈ db.tables.profiles.rows.map UserProfile.pk) :
    db'.tables.registered = db.tables.registered := by
  rw [h.tables, registered_save db.tables hkey]

theorem Wrote.member (h : Wrote db p db') (hu : db.tables.users.find? p.pk = some p.user) :
    db'.tables.member = Function.update db.tables.member p.pk (some p.member) := by
  rw [h.tables, member_save, hu]
  rfl

/-- Where a profile is written and its lists are changed, this is how the rolls are after it. -/
theorem rolls_eq_write {listing : MailList → Option Bool}
    (hmember : db'.tables.member = Function.update db.tables.member p.pk (some p.member))
    (hsubs : ∀ x, x ∈ db'.subscriptions ↔
      (x ∈ db.subscriptions ∨ ∃ l, listing l = some true ∧ x = p.member.entry l) ∧
        ¬∃ l, listing l = some false ∧ x = p.member.entry l) :
    db'.rolls = db.rolls.write p.pk p.member listing := by
  have hset : {x | x ∈ db'.subscriptions} =
      (db.rolls.write p.pk p.member listing).subscribed := by
    ext x
    exact hsubs x
  simp only [Db.rolls, rolls, hmember, hset]
  rfl

/-- The same where the address is only put on lists. -/
theorem rolls_eq_added {P : MailList → Prop} [DecidablePred P]
    (hmember : db'.tables.member = Function.update db.tables.member p.pk (some p.member))
    (hsubs : ∀ x, x ∈ db'.subscriptions ↔ x ∈ db.subscriptions ∨
      ∃ l, P l ∧ x = p.member.entry l) :
    db'.rolls = db.rolls.write p.pk p.member fun l => if P l then some true else none := by
  apply rolls_eq_write hmember
  intro x
  have hadds (l : MailList) (b : Bool) :
      (if P l then some true else none) = some b ↔ P l ∧ b = true := by
    rw [Option.ite_none_right_eq_some, Option.some.injEq]
    exact and_congr_right fun _ => eq_comm
  rw [hsubs]
  simp [hadds]

theorem held_of_write {listing : MailList → Option Bool}
    (hu : db.tables.users.find? p.pk = some p.user)
    (hregistered : db'.tables.registered = db.tables.registered)
    (hrolls : db'.rolls = db.rolls.write p.pk p.member listing) : Held db' p := by
  refine ⟨by rw [Tables.users_of_registered hregistered, hu], ?_⟩
  have hrecord := congrArg Rolls.record hrolls
  change db'.tables.member = _ at hrecord
  rw [hrecord]
  simp [Rolls.write]

/-- A setting of a list is written, and the address put on the list or taken off it. -/
theorem subscription_rolls (hu : db.tables.users.find? p.pk = some p.user)
    (hkey : p.pk ∈ db.tables.profiles.rows.map UserProfile.pk)
    (hlist : list = l.named p.chapter.slug) :
    Ensures calm db (p.subscription list allow)
      (fun p' db' => p' = p ∧ db'.tables.registered = db.tables.registered ∧
        db'.rolls = db.rolls.write p.pk p.member fun l' => if l' = l then some allow else none)
      R := by
  have hentry (x : Text × Text) : x = (list, p.getEmail) ↔ x = p.member.entry l := by
    rw [hlist]
    rfl
  apply ensures_seq (save_wrote p)
  intro _ db₁ h₁
  dsimp only
  split
  · rename_i hallow
    apply ensures_bind
    apply subscribeList_calm
    intro db₂ htables hsubs
    refine ensures_pure ⟨rfl, by rw [htables, h₁.registered hkey], ?_⟩
    apply rolls_eq_write
    · rw [htables, h₁.member hu]
    · intro x
      rw [hsubs, h₁.subscriptions, hentry]
      simp [hallow]
  · rename_i hallow
    apply ensures_bind
    apply unsubscribeList_calm
    intro db₂ htables hsubs
    refine ensures_pure ⟨rfl, by rw [htables, h₁.registered hkey], ?_⟩
    apply rolls_eq_write
    · rw [htables, h₁.member hu]
    · intro x
      rw [hsubs, h₁.subscriptions, ne_eq, hentry]
      simp [hallow]

end Lists

section Settings

variable {R : Db → Prop} {list : Text} {l : MailList} {allow : Bool}

theorem setting_reached (hp : Held db p) (hr : Reached E db₀ db) (huser : q.user = p.user)
    (hq : q.member = (Change.setting l allow).on p.member) (hlist : list = l.named q.chapter.slug)
    (hg : l = .official → p.isLeader = true) (he : E p.member (.setting l allow)) :
    Ensures calm db (q.subscription list allow)
      (fun p' db' => (Reached E db₀ db' ∧ Held db' p') ∧ p' = q) R := by
  have hpk : q.pk = p.pk := congrArg User.pk huser
  have hu : db.tables.users.find? q.pk = some q.user := by
    rw [hpk, huser]
    exact hp.account
  apply ensures_weaken (subscription_rolls hu (hpk ▸ hp.mem_keys) hlist)
  rintro p' db' ⟨rfl, hregistered, hrolls⟩
  refine ⟨⟨?_, held_of_write hu hregistered hrolls⟩, rfl⟩
  rw [hpk, hq] at hrolls
  exact hp.changed (c := .setting l allow) hg he hr hregistered hrolls

theorem allows_update (p : UserProfile) (allow : Bool) :
    UserProfile.allows { p with allowAnnounce := allow } =
        Function.update p.allows .announce allow ∧
      UserProfile.allows { p with allowOfficial := allow } =
        Function.update p.allows .official allow ∧
      UserProfile.allows { p with allowDiscuss := allow } =
        Function.update p.allows .discuss allow := by
  refine ⟨?_, ?_, ?_⟩ <;>
  · funext l
    cases l <;> simp [UserProfile.allows]

theorem manageOfficial_reached (hp : Held db p) (hr : Reached E db₀ db)
    (he : E p.member (.setting .official allow)) :
    Ensures calm db (p.manageOfficial allow)
      (fun p' db' => (Reached E db₀ db' ∧ Held db' p') ∧ p'.status = p.status) R := by
  unfold UserProfile.manageOfficial
  split
  · exact ensures_pure ⟨⟨hr, hp⟩, rfl⟩
  · rename_i hlead
    refine ensures_weaken (setting_reached (R := R) hp hr rfl ?_ rfl
      (fun _ => by simpa using hlead) he)
      fun p' db' h => ⟨h.1, by rw [h.2]⟩
    simp only [UserProfile.member, Change.on, (allows_update p allow).2.1]

theorem manageDiscuss_reached (hp : Held db p) (hr : Reached E db₀ db)
    (he : E p.member (.setting .discuss allow)) :
    Ensures calm db (p.manageDiscuss allow)
      (fun p' db' => (Reached E db₀ db' ∧ Held db' p') ∧ p'.status = p.status) R := by
  refine ensures_weaken (setting_reached (R := R) hp hr rfl ?_ rfl (fun h => by cases h) he)
    fun p' db' h => ⟨h.1, by rw [h.2]⟩
  simp only [UserProfile.member, Change.on, (allows_update p allow).2.2]

theorem manageAnnounce_reached (hp : Held db p) (hr : Reached E db₀ db)
    (he : E p.member (.setting .announce allow)) :
    Ensures calm db (p.manageAnnounce allow)
      (fun p' db' => (Reached E db₀ db' ∧ Held db' p') ∧ p'.status = p.status) R := by
  refine ensures_weaken (setting_reached (R := R) hp hr rfl ?_ rfl (fun h => by cases h) he)
    fun p' db' h => ⟨h.1, by rw [h.2]⟩
  simp only [UserProfile.member, Change.on, (allows_update p allow).1]

end Settings

section Roles

variable {R : Db → Prop}

theorem resignModeration_reached (hp : Held db p) (hr : Reached E db₀ db) :
    Ensures calm db p.resignModeration
      (fun p' db' => (Reached E db₀ db' ∧ Held db' p') ∧
        p'.user = p.user ∧ p'.member = p.member) R := by
  unfold UserProfile.resignModeration
  split
  · exact ensures_pure ⟨⟨hr, hp⟩, rfl, rfl⟩
  · apply ensures_seq (hp.save_still (R := R) (q := { p with isModerator := false })
      Still.refl rfl rfl rfl)
    intro _ db' h
    exact ensures_pure ⟨⟨h.1.reached hr, h.2⟩, rfl, rfl⟩

theorem assignLeader_reached {user : Option User} (hp : Held db p) (hr : Reached E db₀ db) :
    Ensures calm db (p.assignLeader user)
      (fun p' db' => (Reached E db₀ db' ∧ Held db' p') ∧
        p' = { p with leader := user.map User.pk }) R := by
  apply ensures_seq (hp.save_still (R := R) (q := { p with leader := user.map User.pk })
    Still.refl rfl rfl rfl)
  intro _ db' h
  exact ensures_pure ⟨⟨h.1.reached hr, h.2⟩, rfl⟩

/-- A leader who allows it is put on the leaders' list. -/
theorem becomeLeader_reached (hp : Held db p) (hr : Reached E db₀ db)
    (he : p.isLeader = false → E p.member .lead) :
    Ensures calm db p.becomeLeader
      (fun p' db' => Reached E db₀ db' ∧ Held db' p') R := by
  unfold UserProfile.becomeLeader
  cases hlead : p.isLeader with
  | true => exact ensures_pure ⟨hr, hp⟩
  | false =>
    let q : UserProfile := { p with isLeader := true, leader := none }
    have hu : db.tables.users.find? q.pk = some q.user := hp.account
    have hdone (db' : Db) (hregistered : db'.tables.registered = db.tables.registered)
        (hrolls : db'.rolls = db.rolls.write q.pk q.member (Change.lead.listing p.member)) :
        Ensures calm db' (pure q : M UserProfile)
          (fun p' db' => Reached E db₀ db' ∧ Held db' p') R :=
      ensures_pure ⟨hp.changed (c := .lead) hlead (he hlead) hr hregistered hrolls,
        held_of_write hu hregistered hrolls⟩
    apply ensures_seq (save_wrote (R := R) q)
    intro _ db₁ h₁
    dsimp only
    split
    · rename_i hallow
      apply ensures_bind
      apply subscribeList_calm
      intro db₂ htables hsubs
      apply hdone
      · rw [htables, h₁.registered hp.mem_keys]
      · refine rolls_eq_added (p := q) (P := fun l => l = .official ∧ p.allows l = true)
          (by rw [htables, h₁.member hu]) fun x => ?_
        have hadded : x ∈ db₂.subscriptions ↔
            x ∈ db₁.subscriptions ∨ x = q.member.entry .official := hsubs x
        have hallows : p.allows .official = true := hallow
        rw [hadded, h₁.subscriptions]
        simp [hallows]
    · rename_i hallow
      apply hdone
      · exact h₁.registered hp.mem_keys
      · refine rolls_eq_added (p := q) (P := fun l => l = .official ∧ p.allows l = true)
          (h₁.member hu) fun x => ?_
        have hallows : ¬p.allows .official = true := hallow
        rw [h₁.subscriptions]
        simp [hallows]

theorem becomeModerator_reached (hp : Held db p) (hr : Reached E db₀ db)
    (he : p.isLeader = false → E p.member .lead) :
    Ensures calm db p.becomeModerator (fun _ db' => Reached E db₀ db') R := by
  have hsave (p' : UserProfile) (db' : Db) (h : Reached E db₀ db' ∧ Held db' p') :
      Ensures calm db' (do
          UserProfile.save { p' with isModerator := true }
          return { p' with isModerator := true })
        (fun _ db' => Reached E db₀ db') R := by
    apply ensures_seq (h.2.save_still (R := R) (q := { p' with isModerator := true })
      Still.refl rfl rfl rfl)
    intro _ after hafter
    exact ensures_pure (hafter.1.reached h.1)
  unfold UserProfile.becomeModerator
  split
  · exact ensures_pure hr
  · dsimp only
    split
    · apply ensures_bind
      exact ensures_pure (hsave p db ⟨hr, hp⟩)
    · apply ensures_seq (becomeLeader_reached (R := R) hp hr he)
      intro p' db' h
      exact hsave p' db' h

/-- A mentee is saved as he was read, but for his mentor, on which no list depends. -/
theorem detach_still {m : UserProfile} (hs : Still db₀ db)
    (hkey : m.pk ∈ db₀.tables.profiles.rows.map UserProfile.pk)
    (hm : db₀.tables.member m.pk =
      (db₀.tables.users.find? m.pk).map fun u => UserProfile.member { m with user := u }) :
    Ensures calm db (p.detach m) (fun _ => Still db₀) (Still db₀) := by
  unfold UserProfile.detach
  apply ensures_seq (save_still (p := { m with leader := none }) hs ?_ ?_)
  · intro _ db₁ h₁
    apply ensures_bind
    apply getUser_ensures _ h₁
    intro user _
    apply ensures_seq (createPairRequest_still user p.chapter _ db₁ h₁)
    intro _ db₂ h₂
    exact ensures_pure h₂
  · have hkeys : db.tables.profiles.rows.map UserProfile.pk =
        db₀.tables.profiles.rows.map UserProfile.pk := congrArg (fun r => r.2.2.2) hs.1
    rw [hkeys]
    exact hkey
  · have hmember : db.tables.member = db₀.tables.member := congrArg Rolls.record hs.2
    have husers : db.tables.users = db₀.tables.users := Tables.users_of_registered hs.1
    rw [hmember, husers]
    exact hm

theorem member_of_row {m : UserProfile} (t : Tables) (hm : m ∈ t.profiles.rows) :
    t.member m.pk = (t.users.find? m.pk).map fun u => UserProfile.member { m with user := u } := by
  unfold Tables.member
  rw [Table.find?_of_mem hm]
  cases t.users.find? m.pk <;> rfl

theorem detachAll_still {ms : List UserProfile} (hms : ∀ m ∈ ms, m ∈ db.tables.profiles.rows) :
    Ensures calm db (ms.forM p.detach) (fun _ => Still db) (Still db) := by
  have hloop : Ensures calm db (ms.forM p.detach)
      (fun _ db' => Still db db' ∧ ∀ m ∈ ([] : List UserProfile), m ∈ db.tables.profiles.rows)
      (Still db) := by
    refine ensures_forM
      (I := fun rest db' => Still db db' ∧ ∀ m ∈ rest, m ∈ db.tables.profiles.rows)
      (fun m rest db' h => ?_) ⟨Still.refl, hms⟩
    have hm := member_of_row db.tables (h.2 m List.mem_cons_self)
    have hkey := List.mem_map_of_mem (f := UserProfile.pk) (h.2 m List.mem_cons_self)
    exact ensures_weaken (detach_still h.1 hkey hm)
      fun _ _ h' => ⟨h', fun x hx => h.2 x (List.mem_cons_of_mem _ hx)⟩
  exact ensures_weaken hloop fun _ _ h => h.1

/-- A leader is off the leaders' list, and is still to be saved as one no more. -/
def Retiring (E : Member → Change → Prop) (db₀ : Db) (p' : UserProfile) (db' : Db) : Prop :=
  ∃ db₁ q, Reached E db₀ db₁ ∧ Held db₁ q ∧ q.isLeader = true ∧ E q.member .retire ∧
    p' = { q with isLeader := false } ∧ db'.tables = db₁.tables ∧
    ∀ x, x ∈ db'.subscriptions ↔ x ∈ db₁.subscriptions ∧ x ≠ q.member.entry .official

/-- A leader is taken off the list and saved, in either order. -/
theorem retired {db₁ : Db} (hr : Reached E db₀ db₁) (hq : Held db₁ q) (hlead : q.isLeader = true)
    (he : E q.member .retire) (hregistered : db'.tables.registered = db₁.tables.registered)
    (hmember : db'.tables.member = Function.update db₁.tables.member q.pk
      (some (UserProfile.member { q with isLeader := false })))
    (hsubs : ∀ x, x ∈ db'.subscriptions ↔ x ∈ db₁.subscriptions ∧ x ≠ q.member.entry .official) :
    Reached E db₀ db' := by
  refine hq.changed (c := .retire) hlead he hr hregistered ?_
  refine rolls_eq_write (p := { q with isLeader := false }) hmember fun x => ?_
  rw [hsubs]
  simp [Change.listing, Member.entry, UserProfile.member]

theorem Retiring.save (h : Retiring E db₀ p db) :
    Ensures calm db p.save (fun _ => Reached E db₀) R := by
  obtain ⟨db₁, q, hr, hq, hlead, he, rfl, htables, hsubs⟩ := h
  have hu : db.tables.users.find? q.pk = some q.user := by
    rw [htables]
    exact hq.account
  apply ensures_weaken (save_wrote (R := R) _)
  intro _ db' h
  apply retired hr hq hlead he
  · rw [h.registered (htables ▸ hq.mem_keys), htables]
  · rw [h.member hu, htables]
    rfl
  · intro x
    rw [h.subscriptions, hsubs]

theorem resignLeadership_reached {commit : Bool} (hp : Held db p) (hr : Reached E db₀ db)
    (he : p.isLeader = true → E p.member .retire) :
    Ensures calm db (p.resignLeadership commit)
      (fun p' db' => (commit = true → Reached E db₀ db') ∧
        (commit = false → p.isLeader = true → Retiring E db₀ p' db'))
      (Reached E db₀) := by
  unfold UserProfile.resignLeadership
  apply ensures_seq (resignModeration_reached (R := Reached E db₀) hp hr)
  rintro q db₁ ⟨⟨hr₁, hq⟩, huser, hmember⟩
  have hlead : q.isLeader = p.isLeader := congrArg Member.isLeader hmember
  split
  · rename_i hnot
    refine ensures_pure ⟨fun _ => hr₁, fun _ hpl => ?_⟩
    simp [hlead, hpl] at hnot
  · rename_i hnot
    have hql : q.isLeader = true := by simpa using hnot
    have heq : E q.member .retire := by
      rw [hmember]
      exact he (hlead.symm.trans hql)
    dsimp only
    apply ensures_bind
    apply ensures_read
    apply ensures_pure
    apply ensures_then (detachAll_still fun m hm => (List.mem_filter.mp hm).1)
    · intro _ db₂ hstill
      have hr₂ := hstill.reached hr₁
      have hq₂ := hq.still hstill
      cases commit with
      | false =>
        apply ensures_bind
        apply unsubscribeList_calm
        intro db₃ htables hsubs
        exact ensures_pure ⟨nofun, fun _ _ =>
          ⟨db₂, q, hr₂, hq₂, hql, heq, rfl, htables, hsubs⟩⟩
      | true =>
        have hu : db₂.tables.users.find? q.pk = some q.user := hq₂.account
        apply ensures_seq (save_wrote (R := Reached E db₀) { q with isLeader := false })
        intro _ db₃ h₃
        apply ensures_bind
        apply unsubscribeList_calm
        intro db₄ htables hsubs
        refine ensures_pure ⟨fun _ => ?_, nofun⟩
        apply retired hr₂ hq₂ hql heq
        · rw [htables, h₃.registered hq₂.mem_keys]
        · rw [htables, h₃.member hu]
          rfl
        · intro x
          rw [hsubs, h₃.subscriptions]
          rfl
    · intro _ h
      exact h.reached hr₁

/-- Where no call fails the routes can be listed, and are all that is changed. -/
theorem dropRoutes_calm (flag : Text) :
    Ensures calm db (dropRoutes flag)
      (fun _ db' => db'.tables = db.tables ∧ db'.subscriptions = db.subscriptions) R := by
  let I : Db → Prop := fun db' =>
    db'.tables = db.tables ∧ db'.subscriptions = db.subscriptions
  apply ensures_bind
  apply ensures_call
  · intro _
    apply ensures_read
    refine ensures_forM (I := fun _ => I) (fun r rest db' h => ?_) ⟨rfl, rfl⟩
    exact ensures_quietly h fun _ => h
  · intro hdown
    cases hdown (by decide)

theorem proxyEmail_calm (email username : Text) :
    Ensures calm db (proxyEmail email username)
      (fun _ db' => db'.tables = db.tables ∧ db'.subscriptions = db.subscriptions) R := by
  apply ensures_seq (dropRoutes_calm (proxyFromFlag email))
  intro _ db' h
  exact ensures_quietly h fun _ => h

/-- A member who is approved in a chapter is put on its lists that he asks for. -/
structure Enrolled (db : Db) (p : UserProfile) (chapter : Chapter) (p' : UserProfile) (db' : Db) :
    Prop where
  profile : ∃ k, p' = { p with status := .approved, chapter := chapter, leader := k }
  tables : db'.tables = { db.tables with profiles := db.tables.profiles.save p' }
  subscriptions : ∀ x, x ∈ db'.subscriptions ↔ x ∈ db.subscriptions ∨
    ∃ l, (l ≠ .official ∧ p.allows l = true) ∧ x = p'.member.entry l

theorem mem_lists_iff {chapter : Chapter} {x : Text × Text} :
    (∃ l, (l ≠ .official ∧ p.allows l = true) ∧
      x = Member.entry { p.member with status := .approved, chapter := chapter } l) ↔
    (p.allowAnnounce = true ∧ x = (chapter.getAnnounceList, p.getEmail)) ∨
      (p.allowDiscuss = true ∧ x = (chapter.getDiscussList, p.getEmail)) := by
  constructor
  · rintro ⟨l, ⟨hl, hallow⟩, rfl⟩
    cases l with
    | announce => exact .inl ⟨hallow, rfl⟩
    | official => exact absurd rfl hl
    | discuss => exact .inr ⟨hallow, rfl⟩
  · rintro (⟨hallow, rfl⟩ | ⟨hallow, rfl⟩)
    · exact ⟨.announce, ⟨by decide, hallow⟩, rfl⟩
    · exact ⟨.discuss, ⟨by decide, hallow⟩, rfl⟩

/-- It fails only for a leader without a profile, before anything is written. -/
theorem activate_enrolled (p : UserProfile) (chapter : Chapter) (leader : User)
    (hR : db.tables.profiles.find? leader.pk = none → R db) :
    Ensures calm db (p.activate chapter leader) (Enrolled db p chapter) R := by
  let written (k : Option Nat) : Tables := { db.tables with
    profiles := db.tables.profiles.save
      { p with status := .approved, chapter := chapter, leader := k } }
  -- the table is as it was saved, and these have joined
  let I (joined : Text × Text → Prop) (k : Option Nat) (db' : Db) : Prop :=
    db'.tables = written k ∧
      ∀ x, x ∈ db'.subscriptions ↔ x ∈ db.subscriptions ∨ joined x
  let announced (x : Text × Text) : Prop :=
    p.allowAnnounce = true ∧ x = (chapter.getAnnounceList, p.getEmail)
  let discussed (x : Text × Text) : Prop :=
    p.allowDiscuss = true ∧ x = (chapter.getDiscussList, p.getEmail)
  have hstages : Ensures calm db (p.activate chapter leader)
      (fun p' db' => ∃ k,
        p' = { p with status := .approved, chapter := chapter, leader := k } ∧
          I (fun x => announced x ∨ discussed x) k db') R := by
    apply activate_stages (I fun _ => False) (I fun _ => False) (I announced) _ hR
    · intro k _
      apply ensures_weaken (save_wrote (R := R) _)
      intro _ db' h
      exact ⟨h.tables, fun x => by rw [h.subscriptions, or_false]⟩
    · intro k db' h
      apply ensures_weaken (proxyEmail_calm (R := R) p.getEmail p.user.username)
      intro _ after hafter
      obtain ⟨htables, hsubs⟩ := hafter
      exact ⟨htables.trans h.1, fun x => by rw [hsubs]; exact h.2 x⟩
    · intro k db' h
      constructor
      · intro hallow
        apply subscribeList_calm
        intro after hafter hadded
        refine ⟨hafter.trans h.1, fun x => ?_⟩
        rw [hadded, h.2]
        simp only [announced, hallow, true_and, or_false]
      · intro hallow
        refine ⟨h.1, fun x => ?_⟩
        rw [h.2]
        simp only [announced, hallow, false_and, Bool.false_eq_true]
    · intro k db' h
      constructor
      · intro hallow
        apply subscribeList_calm
        intro after hafter hadded
        refine ⟨hafter.trans h.1, fun x => ?_⟩
        rw [hadded, h.2]
        simp only [discussed, hallow, true_and, or_assoc]
      · intro hallow
        refine ⟨h.1, fun x => ?_⟩
        rw [h.2]
        simp only [discussed, hallow, false_and, or_false, Bool.false_eq_true]
  apply ensures_weaken hstages
  intro p' db' h
  obtain ⟨k, rfl, htables, hsubs⟩ := h
  refine ⟨⟨k, rfl⟩, htables, fun x => (hsubs x).trans ?_⟩
  exact or_congr_right mem_lists_iff.symm

end Roles

end HackerUnion.Petri
