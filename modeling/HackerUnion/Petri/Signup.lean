import HackerUnion.Petri.Upkeep

namespace HackerUnion.Petri

open Bash (Text text lower)
open Durable
open Durable.Handler

/-- The rows refer to rows that there are: a profile to its user, a member and an invitation to a
chapter, an invitation to its sponsor. There is the chapter that a new profile is given first. -/
structure Resolved (t : Tables) : Prop where
  first : (t.chapters.find? 1).isSome = true
  profiles : ∀ p ∈ t.profiles.rows, (t.member p.pk).isSome = true
  members : ∀ k m, t.member k = some m → m.chapter ∈ t.chapters.rows
  invitations : ∀ i ∈ t.invitations.rows, i.chapter ∈ t.chapters.rows ∧
    (t.member i.sponsor).isSome = true

variable {db db' : Db} {data : ApplicationData} {chapter : Chapter}

/-- Someone has signed up: a member is new, and nobody else has been changed. -/
structure SignedUp (db : Db) (k : Nat) (m : Member) (db' : Db) : Prop where
  fresh : db.tables.member k = none
  follower : m.isLeader = false
  rolls : db'.rolls = db.rolls.signup k m
  chapters : db'.tables.chapters = db.tables.chapters
  profiles : ∀ p ∈ db'.tables.profiles.rows, p.pk = k ∨ ∃ q ∈ db.tables.profiles.rows, q.pk = p.pk
  invitations : ∀ i ∈ db'.tables.invitations.rows,
    ∃ j ∈ db.tables.invitations.rows, j.chapter = i.chapter ∧ j.sponsor = i.sponsor

section Resolved

theorem isSome_member_iff {t : Tables} {k : Nat} : (t.member k).isSome = true ↔
    (∃ u, t.users.find? k = some u) ∧ ∃ p, t.profiles.find? k = some p := by
  unfold Tables.member
  cases t.users.find? k <;> cases t.profiles.find? k <;> simp

/-- Changes of members leave them in their chapters, and take none away. -/
theorem Resolved.reached {E : Member → Change → Prop} (h : Resolved db.tables)
    (hr : Reached E db db') : Resolved db'.tables := by
  obtain ⟨hregistered, hchanges⟩ := hr
  have hchapters : db'.tables.chapters = db.tables.chapters :=
    congrArg (fun r => r.2.1) hregistered
  have hinvitations : db'.tables.invitations = db.tables.invitations :=
    congrArg (fun r => r.2.2.1) hregistered
  have hkeys : db'.tables.profiles.rows.map UserProfile.pk =
      db.tables.profiles.rows.map UserProfile.pk := congrArg (fun r => r.2.2.2) hregistered
  have hrecord : ∀ R, Changes E db.rolls R →
      (∀ k m, R.record k = some m → m.chapter ∈ db.tables.chapters.rows) ∧
        ∀ k, (db.tables.member k).isSome = true → (R.record k).isSome = true := by
    intro R hR
    induction hR with
    | refl => exact ⟨h.members, fun _ hk => hk⟩
    | tail _ hstep ih =>
      obtain @⟨k₀, m₀, c, hm, -, -⟩ := hstep
      refine ⟨fun k m hk => ?_, fun k hk => ?_⟩
      · simp only [Rolls.write, Function.update_apply] at hk
        split at hk
        · obtain rfl := Option.some.inj hk
          have hchapter : (c.on m₀).chapter = m₀.chapter := by
            cases c <;> simp [Change.on]
          rw [hchapter]
          exact ih.1 _ _ hm
        · exact ih.1 _ _ hk
      · simp only [Rolls.write, Function.update_apply]
        split
        · simp
        · exact ih.2 k hk
  obtain ⟨hmembers, hstay⟩ := hrecord _ hchanges
  refine ⟨by rw [hchapters]; exact h.first, ?_, ?_, ?_⟩
  · intro p hp
    have hmem := List.mem_map_of_mem (f := UserProfile.pk) hp
    rw [hkeys] at hmem
    obtain ⟨q, hq, hpk⟩ := List.mem_map.mp hmem
    rw [← hpk]
    exact hstay _ (h.profiles q hq)
  · intro k m hk
    rw [hchapters]
    exact hmembers k m hk
  · intro i hi
    rw [hinvitations] at hi
    rw [hchapters]
    exact ⟨(h.invitations i hi).1, hstay _ (h.invitations i hi).2⟩

/-- So does a sign-up to a chapter that there is. -/
theorem Resolved.signedUp {k : Nat} {m : Member} (h : Resolved db.tables)
    (hs : SignedUp db k m db') (hm : m.chapter ∈ db.tables.chapters.rows) :
    Resolved db'.tables := by
  have hmember : db'.tables.member = Function.update db.tables.member k (some m) :=
    congrArg Rolls.record hs.rolls
  have hstay (j : Nat) (hj : (db.tables.member j).isSome = true) :
      (db'.tables.member j).isSome = true := by
    rw [hmember, Function.update_apply]
    split
    · simp
    · exact hj
  refine ⟨by rw [hs.chapters]; exact h.first, ?_, ?_, ?_⟩
  · intro p hp
    rcases hs.profiles p hp with hpk | ⟨q, hq, hpk⟩
    · rw [hpk, hmember]
      simp
    · rw [← hpk]
      exact hstay _ (h.profiles q hq)
  · intro j m' hj
    rw [hmember, Function.update_apply] at hj
    rw [hs.chapters]
    split at hj
    · obtain rfl := Option.some.inj hj
      exact hm
    · exact h.members j m' hj
  · intro i hi
    obtain ⟨j, hj, hchapter, hsponsor⟩ := hs.invitations i hi
    obtain ⟨hin, hsome⟩ := h.invitations j hj
    rw [hchapter] at hin
    rw [hsponsor] at hsome
    exact ⟨by rw [hs.chapters]; exact hin, hstay _ hsome⟩

end Resolved

section Save

/-- The rows of a user and his profile are written, and of nobody else. -/
theorem member_of_written {t t' : Tables} {u : User} {p : UserProfile} (hp : p.user = u)
    (husers : ∀ j, t'.users.find? j = if u.pk = j then some u else t.users.find? j)
    (hprofiles : ∀ j, t'.profiles.find? j = if u.pk = j then some p else t.profiles.find? j) :
    t'.member = Function.update t.member u.pk (some p.member) := by
  funext j
  simp only [Tables.member, Function.update_apply, husers, hprofiles]
  by_cases hj : u.pk = j
  · subst hj hp
    simp
  · have hj' : ¬j = u.pk := fun h => hj h.symm
    simp [hj, hj']

/-- A new user, with the profile that he is given first. -/
structure NewUser (db : Db) (u : User) (db' : Db) : Prop where
  fresh : db.tables.users.find? u.pk = none ∧ db.tables.profiles.find? u.pk = none
  row : ∃ first, db'.tables = { db.tables with
    users := db.tables.users.save u
    profiles := db.tables.profiles.save (AccountApplicationForm.defaultProfile u first) }
  subscriptions : db'.subscriptions = db.subscriptions

theorem newUserKey_unused (t : Tables) :
    t.users.find? (AccountApplicationForm.newUserKey t) = none := by
  refine Table.find?_eq_none_iff.mpr ?_
  intro u hu hkey
  have hlt := Table.nextKey_lt hu
  unfold AccountApplicationForm.newUserKey at hkey
  omega

theorem createUser_newUser {username : Text} {R : Db → Prop}
    (hfirst : (db.tables.chapters.find? 1).isSome = true) :
    Ensures calm db (AccountApplicationForm.createUser username) (NewUser db) R := by
  obtain ⟨first, hfirst⟩ := Option.isSome_iff_exists.mp hfirst
  have hfresh := newUserKey_fresh db.tables
  apply ensures_read
  dsimp only
  apply ensures_bind
  apply saved_calm
  rw [if_pos (by rw [hfresh]; rfl), hfirst]
  apply ensures_bind
  apply saved_calm
  exact ensures_pure ⟨⟨newUserKey_unused db.tables, hfresh⟩, ⟨first, rfl⟩, rfl⟩

/-- At most one invitation has the code that is given. -/
def Unambiguous (t : Tables) (data : ApplicationData) : Prop :=
  data.invitationCode ≠ [] →
    (t.invitations.rows.filter fun i => i.code = data.invitationCode).length ≤ 1

/-- The invitation that is found is a row, of the code that is given and for the chapter. -/
theorem invite_rows {may : Service → Bool → Prop} :
    Ensures may db (AccountApplicationForm.invite data chapter)
      (fun found db' => (db' = db ∧ Unambiguous db.tables data) ∧
        ∀ i ∈ found, i ∈ db.tables.invitations.rows ∧ i.code = data.invitationCode ∧
          i.chapter.pk = chapter.pk ∧ i.isActive = true)
      (fun db' => db' = db ∧ ¬Unambiguous db.tables data) := by
  unfold AccountApplicationForm.invite
  split
  · rename_i hcode
    exact ensures_pure ⟨⟨rfl, fun h => absurd hcode h⟩, nofun⟩
  · rename_i hcode
    apply ensures_bind
    apply ensures_read
    split
    · rename_i hfilter
      have hone : Unambiguous db.tables data := fun _ => by simp [hfilter]
      exact ensures_pure (ensures_pure ⟨⟨rfl, hone⟩, nofun⟩)
    · rename_i i hfilter
      have hone : Unambiguous db.tables data := fun _ => by simp [hfilter]
      apply ensures_pure
      have hmem : i ∈ db.tables.invitations.rows.filter
          (fun i => i.code = data.invitationCode) := by
        rw [hfilter]
        exact List.mem_singleton_self i
      obtain ⟨hrow, hmatch⟩ := List.mem_filter.mp hmem
      dsimp only
      split
      · rename_i hactive
        refine ensures_pure ⟨⟨rfl, hone⟩, fun j hj => ?_⟩
        obtain rfl := Option.some.inj hj
        exact ⟨hrow, of_decide_eq_true hmatch, by simpa using hactive⟩
      · exact ensures_pure ⟨⟨rfl, hone⟩, nofun⟩
    · rename_i hnone hsingle
      refine ensures_throw ⟨rfl, fun hone => ?_⟩
      have hle := hone hcode
      cases hrows : db.tables.invitations.rows.filter fun i => i.code = data.invitationCode with
      | nil => exact hnone hrows
      | cons i rest =>
        cases rest with
        | nil => exact hsingle i hrows
        | cons j rest =>
          rw [hrows] at hle
          simp at hle

theorem clean_unambiguous {may : Service → Bool → Prop} :
    Ensures may db (AccountApplicationForm.clean data chapter)
      (fun message db' => db' = db ∧ (message = none → Unambiguous db.tables data))
      (fun db' => db' = db) := by
  unfold AccountApplicationForm.clean
  split
  · apply ensures_then invite_rows
    · rintro found db' ⟨⟨rfl, hone⟩, -⟩
      cases found with
      | none => exact ensures_pure ⟨rfl, nofun⟩
      | some i => exact ensures_pure ⟨rfl, fun _ => hone⟩
    · rintro db' ⟨rfl, -⟩
      rfl
  · rename_i hcode
    split
    · exact ensures_pure ⟨rfl, fun _ h => absurd h hcode⟩
    · exact ensures_pure ⟨rfl, nofun⟩

/-- A new user is written but for his address, and has been put on the lists of his profile. -/
structure Entering (db : Db) (u : User) (p : UserProfile) (db' : Db) : Prop where
  users : db'.tables.users = db.tables.users.save u
  profiles : ∀ j, j ≠ u.pk → db'.tables.profiles.find? j = db.tables.profiles.find? j
  chapters : db'.tables.chapters = db.tables.chapters
  invitations : ∀ i ∈ db'.tables.invitations.rows,
    ∃ j ∈ db.tables.invitations.rows, j.chapter = i.chapter ∧ j.sponsor = i.sponsor
  subscriptions : ∀ x, x ∈ db'.subscriptions ↔ x ∈ db.subscriptions ∨
    ∃ l, (l ≠ .official ∧ p.status = .approved ∧ p.allows l = true) ∧ x = p.member.entry l

variable {u : User} {p : UserProfile}

theorem SignedUp.still {k : Nat} {m : Member} {after : Db} (h : SignedUp db k m db')
    (hs : Still db' after) : SignedUp db k m after where
  fresh := h.fresh
  follower := h.follower
  rolls := hs.2.trans h.rolls
  chapters := (congrArg (fun r => r.2.1) hs.1).trans h.chapters
  profiles := by
    have hsame : after.tables.profiles.rows.map UserProfile.pk =
      db'.tables.profiles.rows.map UserProfile.pk := congrArg (fun r => r.2.2.2) hs.1
    intro p hp
    have hmem := List.mem_map_of_mem (f := UserProfile.pk) hp
    rw [hsame] at hmem
    obtain ⟨q, hq, hpk⟩ := List.mem_map.mp hmem
    rw [← hpk]
    exact h.profiles q hq
  invitations := by
    have hsame : after.tables.invitations = db'.tables.invitations :=
      congrArg (fun r => r.2.2.1) hs.1
    rw [hsame]
    exact h.invitations

/-- Once the profile and the user are saved the sign-up is complete. -/
theorem Entering.signedUp {user : User} (h : Entering db u p db') (hp : p.user = user)
    (hkey : user.pk = u.pk) (hfresh : db.tables.users.find? u.pk = none)
    (hlead : p.isLeader = false) {after : Db}
    (htables : after.tables = { db'.tables with
      profiles := db'.tables.profiles.save p, users := db'.tables.users.save user })
    (hsubs : after.subscriptions = db'.subscriptions) : SignedUp db u.pk p.member after := by
  have hpk : p.pk = u.pk := (congrArg User.pk hp).trans hkey
  have hmember : after.tables.member = Function.update db.tables.member p.pk (some p.member) := by
    rw [hpk, ← hkey]
    apply member_of_written hp
    · intro j
      have hrow : after.tables.users = (db.tables.users.save u).save user := by
        rw [htables, ← h.users]
      rw [hrow, Table.find?_save, Table.find?_save, hkey]
      split <;> rfl
    · intro j
      have hrow : after.tables.profiles = db'.tables.profiles.save p := by rw [htables]
      rw [hrow, Table.find?_save, hpk, hkey]
      split
      · rfl
      · rename_i hj
        exact h.profiles j fun he => hj he.symm
  refine ⟨?_, hlead, ?_, ?_, ?_, ?_⟩
  · unfold Tables.member
    rw [hfresh]
    rfl
  · rw [← hpk]
    refine rolls_eq_added hmember fun x => ?_
    rw [hsubs, h.subscriptions]
    rfl
  · rw [htables]
    exact h.chapters
  · intro q hq
    rw [htables] at hq
    rcases Table.mem_save.mp hq with rfl | ⟨hq, hne⟩
    · exact .inl hpk
    · have hfind := h.profiles q.pk (hpk ▸ hne)
      rw [Table.find?_of_mem hq] at hfind
      exact .inr ⟨q, (Table.find?_eq_some_iff.mp hfind.symm).1, rfl⟩
  · rw [htables]
    exact h.invitations

end Save

section Apply

/-- Someone has signed up to the chapter, with the address that was posted. -/
def Joined (data : ApplicationData) (chapter : Chapter) (db db' : Db) : Prop :=
  ∃ k m, SignedUp db k m db' ∧ m.email = data.email ∧ m.chapter = chapter

theorem Joined.still {after : Db} (h : Joined data chapter db db') (hs : Still db' after) :
    Joined data chapter db after := by
  obtain ⟨k, m, hsigned, hm⟩ := h
  exact ⟨k, m, hsigned.still hs, hm⟩

/-- What is left once the profile is filled in: it is saved, and the address of the user, and one
who was not invited files his request. -/
theorem enter_joined (essay : Bool) {u : User} {p : UserProfile} (h : Entering db u p db')
    (hp : p.user = { u with email := data.email }) (hchapter : p.chapter = chapter)
    (hfresh : db.tables.users.find? u.pk = none) (hlead : p.isLeader = false) :
    Ensures calm db' (do
        p.save
        saved fun t => { t with users := t.users.save { u with email := data.email } }
        if essay then
          let _ ← bootstrapJoinRequest { u with email := data.email } chapter data.application)
      (fun _ => Joined data chapter db) (Joined data chapter db) := by
  apply ensures_seq (save_wrote (R := Joined data chapter db) p)
  intro _ db₁ h₁
  apply ensures_bind
  apply saved_calm
  have hjoined : Joined data chapter db { db₁ with tables := { db₁.tables with
      users := db₁.tables.users.save { u with email := data.email } } } := by
    refine ⟨u.pk, p.member, h.signedUp hp rfl hfresh hlead ?_ h₁.subscriptions, ?_, hchapter⟩
    · rw [h₁.tables]
    · exact congrArg User.email hp
  split
  · apply ensures_then (keeps_bind (file_still _ _ _) (fun _ => keeps_pure _) _ Still.refl)
    · intro _ after hafter
      exact ensures_pure (hjoined.still hafter)
    · intro after hafter
      exact hjoined.still hafter
  · exact ensures_pure hjoined

/-- The sponsor of an invitation is still found once the user has been created. -/
theorem sponsor_found {db₁ : Db} {i : Invitation} (hres : Resolved db.tables)
    (hnew : NewUser db u db₁) (hi : i ∈ db.tables.invitations.rows) :
    ∃ sponsor q, db₁.tables.users.find? i.sponsor = some sponsor ∧
      db₁.tables.profiles.find? sponsor.pk = some q := by
  obtain ⟨⟨hnouser, -⟩, ⟨first, htables⟩, -⟩ := hnew
  obtain ⟨⟨sponsor, hsponsor⟩, q, hq⟩ := isSome_member_iff.mp (hres.invitations i hi).2
  have hold : u.pk ≠ i.sponsor := by
    intro h
    rw [← h, hnouser] at hsponsor
    cases hsponsor
  have hpk : sponsor.pk = i.sponsor := (Table.find?_eq_some_iff.mp hsponsor).2
  refine ⟨sponsor, q, ?_, ?_⟩
  · rw [htables]
    exact Table.find?_save.trans ((if_neg hold).trans hsponsor)
  · rw [hpk, htables]
    exact Table.find?_save.trans ((if_neg hold).trans hq)

/-- An invitation whose sponsor is found lets somebody in, and is used up. -/
theorem invitation_enrolled {i : Invitation} {sponsor : User} {q : UserProfile} {R : Db → Prop}
    (p : UserProfile) (hsponsor : db.tables.users.find? i.sponsor = some sponsor)
    (hq : db.tables.profiles.find? sponsor.pk = some q) :
    Ensures calm db (i.activate p)
      (fun p' after =>
        (∃ k, p' = { p with status := .approved, chapter := i.chapter, leader := k }) ∧
        after.tables = { db.tables with
          profiles := db.tables.profiles.save p'
          invitations := db.tables.invitations.save { i with isActive := false } } ∧
        ∀ x, x ∈ after.subscriptions ↔ x ∈ db.subscriptions ∨
          ∃ l, (l ≠ .official ∧ p.allows l = true) ∧ x = p'.member.entry l) R := by
  apply ensures_finds (finds_getUser hsponsor)
  have hnoprofile : db.tables.profiles.find? sponsor.pk ≠ none := by
    rw [hq]
    exact Option.some_ne_none q
  apply ensures_seq (activate_enrolled p i.chapter sponsor (R := R) (absurd · hnoprofile))
  intro p' db' henrolled
  obtain ⟨hprofile, htables, hsubs⟩ := henrolled
  apply ensures_bind
  apply saved_calm
  refine ensures_pure ⟨hprofile, ?_, hsubs⟩
  rw [htables]

section NewUser

variable {db₁ : Db}

theorem NewUser.profile (h : NewUser db u db₁) :
    ∃ first, db₁.tables.profiles.find? u.pk =
      some (AccountApplicationForm.defaultProfile u first) := by
  obtain ⟨first, htables⟩ := h.row
  refine ⟨first, ?_⟩
  rw [htables]
  exact Table.find?_save_self

theorem NewUser.users (h : NewUser db u db₁) : db₁.tables.users = db.tables.users.save u := by
  obtain ⟨first, htables⟩ := h.row
  rw [htables]

theorem NewUser.chapters (h : NewUser db u db₁) : db₁.tables.chapters = db.tables.chapters := by
  obtain ⟨first, htables⟩ := h.row
  rw [htables]

theorem NewUser.posts (h : NewUser db u db₁) : db₁.tables.posts = db.tables.posts := by
  obtain ⟨first, htables⟩ := h.row
  rw [htables]

theorem NewUser.invitations (h : NewUser db u db₁) :
    db₁.tables.invitations = db.tables.invitations := by
  obtain ⟨first, htables⟩ := h.row
  rw [htables]

theorem NewUser.others (h : NewUser db u db₁) {j : Nat} (hj : j ≠ u.pk) :
    db₁.tables.profiles.find? j = db.tables.profiles.find? j := by
  obtain ⟨first, htables⟩ := h.row
  rw [htables]
  exact Table.find?_save.trans (if_neg fun he => hj he.symm)

/-- Nobody has let the new user in yet, who is on no list. -/
theorem NewUser.entering (h : NewUser db u db₁) (hpending : p.status ≠ .approved) :
    Entering db u p db₁ where
  users := h.users
  profiles := fun _ hj => h.others hj
  chapters := h.chapters
  invitations := by
    rw [h.invitations]
    exact fun i hi => ⟨i, hi, rfl, rfl⟩
  subscriptions := by
    intro x
    rw [h.subscriptions]
    simp [hpending]

/-- Once he was let in by an invitation, he is on the lists that he allows. -/
theorem NewUser.enrolled {i : Invitation} {p' : UserProfile} {after : Db} (h : NewUser db u db₁)
    (hi : i ∈ db.tables.invitations.rows) (hpk : p'.pk = u.pk) (happroved : p'.status = .approved)
    (htables : after.tables = { db₁.tables with
      profiles := db₁.tables.profiles.save p'
      invitations := db₁.tables.invitations.save { i with isActive := false } })
    (hsubs : ∀ x, x ∈ after.subscriptions ↔ x ∈ db₁.subscriptions ∨
      ∃ l, (l ≠ .official ∧ p'.allows l = true) ∧ x = p'.member.entry l) :
    Entering db u p' after where
  users := by
    rw [htables]
    exact h.users
  profiles := by
    intro j hj
    rw [htables]
    exact (Table.find?_save.trans (if_neg fun he => hj (he.symm.trans hpk))).trans (h.others hj)
  chapters := by
    rw [htables]
    exact h.chapters
  invitations := by
    intro i' hi'
    rw [htables, h.invitations] at hi'
    rcases Table.mem_save.mp hi' with rfl | ⟨hi', -⟩
    · exact ⟨i, hi, rfl, rfl⟩
    · exact ⟨i', hi', rfl, rfl⟩
  subscriptions := by
    intro x
    rw [hsubs, h.subscriptions]
    simp [happroved]

end NewUser

theorem applySave_joined (hres : Resolved db.tables) (hone : Unambiguous db.tables data)
    (hchapter : chapter ∈ db.tables.chapters.rows) :
    Ensures calm db (AccountApplicationForm.save data chapter)
      (fun _ => Joined data chapter db) (Joined data chapter db) := by
  unfold AccountApplicationForm.save
  apply ensures_seq (createUser_newUser hres.first)
  intro u db₁ hcreated
  obtain ⟨hnouser, hnoprofile⟩ := hcreated.fresh
  obtain ⟨first, hprofile⟩ := hcreated.profile
  let user : User := { u with email := data.email }
  have hrow : db₁.tables.profiles.find? user.pk =
      some (AccountApplicationForm.defaultProfile u first) := hprofile
  apply ensures_finds (finds_getProfile hrow)
  apply ensures_then invite_rows
  · intro invitation db₂ hinvite
    obtain ⟨⟨rfl, -⟩, hinvited⟩ := hinvite
    cases invitation with
    | none =>
      apply ensures_bind
      apply ensures_pure
      exact enter_joined true (hcreated.entering (by simp [AccountApplicationForm.defaultProfile]))
        rfl rfl hnouser rfl
    | some i =>
      obtain ⟨hi, -, hkey, -⟩ := hinvited i rfl
      rw [hcreated.invitations] at hi
      have hsame : i.chapter = chapter :=
        Table.eq_of_key (hres.invitations i hi).1 hchapter hkey
      obtain ⟨sponsor, q, hsponsor, hq⟩ := sponsor_found hres hcreated hi
      apply ensures_seq (invitation_enrolled _ hsponsor hq)
      intro p' after hactivated
      obtain ⟨⟨k, rfl⟩, htables, hsubs⟩ := hactivated
      exact enter_joined false (hcreated.enrolled hi rfl rfl htables hsubs) rfl hsame hnouser rfl
  · intro _ hfailed
    obtain ⟨-, hmany⟩ := hfailed
    unfold Unambiguous at hone hmany
    rw [hcreated.invitations] at hmany
    exact absurd hone hmany

/-- A sign-up leaves everything as it is, or someone has joined the chapter that was chosen. -/
theorem apply_joined (hres : Resolved db.tables) :
    Ensures calm db (apply data)
      (fun _ db' => db' = db ∨
        ∃ chapter, db.tables.chapters.find? data.chapter = some chapter ∧
          Joined data chapter db db')
      (fun db' => db' = db ∨
        ∃ chapter, db.tables.chapters.find? data.chapter = some chapter ∧
          Joined data chapter db db') := by
  apply ensures_read
  split
  · rename_i chapter _ hchapter
    apply ensures_then clean_unambiguous
    · intro message db' hclean
      obtain ⟨rfl, hone⟩ := hclean
      cases message with
      | some message => exact ensures_pure (.inl rfl)
      | none =>
        have hrow : chapter ∈ db'.tables.chapters.rows := (Table.find?_eq_some_iff.mp hchapter).1
        apply ensures_then (applySave_joined hres (hone rfl) hrow)
        · intro _ after h
          exact ensures_pure (.inr ⟨chapter, hchapter, h⟩)
        · intro after h
          exact .inr ⟨chapter, hchapter, h⟩
    · intro db' h
      exact .inl h
  · exact ensures_pure (.inl rfl)

end Apply

end HackerUnion.Petri
