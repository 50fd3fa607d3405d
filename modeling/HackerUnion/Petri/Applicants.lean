import HackerUnion.Petri.Subscribed

namespace HackerUnion.Petri

open Bash (Text text)
open Durable
open Durable.Handler

/-- A sign-up that is submitted, and what fails while it is handled. -/
structure SignUp where
  data : ApplicationData
  faults : Nat → Service → Bool

/-- The application, and the codes by which accounts have been approved. -/
structure Register where
  db : Db
  approvals : List Text

/-- The users that there were not before. -/
def newcomers (db db' : Db) : List Nat :=
  (db'.tables.users.rows.map User.pk).filter fun k => (db.tables.users.find? k).isNone

def statusOf (db : Db) (user : Nat) : Option Status :=
  (db.tables.profiles.find? user).map UserProfile.status

def pendingJoins (db : Db) (user : Nat) : List Leadership :=
  (leaderships db).filter fun l => l.request = .join && l.owner = user && l.response = .pending

namespace Register

def step (r : Register) (s : SignUp) : Register :=
  let db := (exec (apply s.data) ⟨r.db, s.faults⟩).2.db
  let approved := (newcomers r.db db).filter fun k => statusOf db k = some .approved
  { db := db
    approvals := r.approvals ++ approved.map fun _ => s.data.invitationCode }

/-- The register through sign-ups one after another. -/
def histories (r : Register) (signUps : List SignUp) : List Register :=
  Run.states (fun r s => some (r.step s)) r signUps

/-- Each sign-up meets a condition where it is submitted. -/
def EachSignUp (C : Register → SignUp → Prop) (r : Register) (signUps : List SignUp) : Prop :=
  Run.Throughout (fun r s => some (r.step s)) C r signUps

end Register

/-- Approved through an invitation that was active for the chapter that was chosen, and is not any
more. -/
structure Welcomed (data : ApplicationData) (db db' : Db) (k : Nat) : Prop where
  approved : statusOf db' k = some .approved
  invitation : ∃ i, db.tables.invitations.find? i.pk = some i ∧ i.code = data.invitationCode ∧
    i.chapter.pk = data.chapter ∧ i.isActive = true ∧
    db'.tables.invitations.find? i.pk = some { i with isActive := false }

/-- Pending, with one request to join that is pending. -/
structure Asking (db : Db) (k : Nat) : Prop where
  pending : statusOf db k = some .pending
  request : (pendingJoins db k).length = 1

/-- Nobody who has just signed up is left without an answer to come. -/
def TakenIn (r : Register) (s : SignUp) : Prop :=
  ∀ k ∈ newcomers r.db (r.step s).db,
    Welcomed s.data r.db (r.step s).db k ∨ Asking (r.step s).db k

/-- There is an essay in the form, but nothing in it. -/
def ApplicationData.Blank (data : ApplicationData) : Prop :=
  data.invitationCode = [] ∧ data.application ≠ [] ∧ strip data.application = []

/-- Nothing fails but what tells users of what is done, and the essay is not blank where the fields
are valid. -/
def SignUp.Heard (db : Db) (s : SignUp) : Prop :=
  Within calm s.faults ∧ (AccountApplicationForm.fieldErrors db s.data = [] → ¬s.data.Blank)

/-- The owners of the posts are users. -/
def Owned (t : Tables) : Prop :=
  ∀ post ∈ t.posts.rows, (t.users.find? post.bulletin.owner).isSome = true

variable {db db' : Db} {data : ApplicationData} {chapter : Chapter} {i : Invitation}

section Invitations

/-- The invitation that a code is of, where there are not two. -/
def invitationFor (is : Table Invitation Invitation.pk) (data : ApplicationData)
    (chapter : Chapter) : Option Invitation :=
  if data.invitationCode = [] then none
  else match is.rows.filter fun i => i.code = data.invitationCode with
    | [i] => if i.chapter.pk = chapter.pk && i.isActive then some i else none
    | _ => none

theorem finds_invite (hone : Unambiguous db.tables data) :
    Finds db (AccountApplicationForm.invite data chapter)
      (invitationFor db.tables.invitations data chapter) := by
  unfold AccountApplicationForm.invite invitationFor
  split
  · exact finds_pure
  · rename_i hcode
    have hle := hone hcode
    cases hrows : db.tables.invitations.rows.filter fun i => i.code = data.invitationCode with
    | nil =>
      have hfound : Finds db (AccountApplicationForm.invitationOf data.invitationCode) none := by
        apply finds_bind finds_read
        rw [hrows]
        exact finds_pure
      exact finds_bind hfound finds_pure
    | cons i rest =>
      obtain rfl : rest = [] := by
        rw [hrows] at hle
        simpa using hle
      have hfound : Finds db (AccountApplicationForm.invitationOf data.invitationCode)
          (some i) := by
        apply finds_bind finds_read
        rw [hrows]
        exact finds_pure
      exact finds_bind hfound finds_pure

theorem invitationFor_eq_some_iff (hone : Unambiguous db.tables data) :
    invitationFor db.tables.invitations data chapter = some i ↔ data.invitationCode ≠ [] ∧
      i ∈ db.tables.invitations.rows ∧ i.code = data.invitationCode ∧
        i.chapter.pk = chapter.pk ∧ i.isActive = true := by
  unfold invitationFor
  by_cases hcode : data.invitationCode = []
  · simp [hcode]
  · have hle := hone hcode
    have hmem : i ∈ db.tables.invitations.rows ∧ i.code = data.invitationCode ↔
        i ∈ db.tables.invitations.rows.filter fun i => i.code = data.invitationCode := by
      rw [List.mem_filter, decide_eq_true_eq]
    rw [if_neg hcode, ← and_assoc (a := i ∈ db.tables.invitations.rows), hmem]
    cases hrows : db.tables.invitations.rows.filter fun i => i.code = data.invitationCode with
    | nil => simp
    | cons j rest =>
      obtain rfl : rest = [] := by
        rw [hrows] at hle
        simpa using hle
      constructor
      · intro h
        dsimp only at h
        split at h
        · rename_i hactive
          obtain rfl := Option.some.inj h
          exact ⟨hcode, List.mem_singleton_self j, by simpa using hactive⟩
        · cases h
      · intro h
        obtain ⟨-, hi, hchapter, hactive⟩ := h
        obtain rfl := List.mem_singleton.mp hi
        simp [hchapter, hactive]

/-- What the form asks for besides its fields. -/
structure Accepts (t : Tables) (data : ApplicationData) (chapter : Chapter) : Prop where
  one : Unambiguous t data
  invited : data.invitationCode ≠ [] →
    (invitationFor t.invitations data chapter).isSome = true
  essay : data.invitationCode = [] → data.application ≠ []

theorem clean_accepts {may : Service → Bool → Prop} :
    Ensures may db (AccountApplicationForm.clean data chapter)
      (fun message db' => db' = db ∧ (message = none → Accepts db.tables data chapter))
      (fun db' => db' = db) := by
  unfold AccountApplicationForm.clean
  split
  · rename_i hcode
    apply ensures_then invite_rows
    · intro found db' hfound
      obtain ⟨⟨rfl, hone⟩, hrow⟩ := hfound
      cases found with
      | none => exact ensures_pure ⟨rfl, fun h => by cases h⟩
      | some i =>
        obtain ⟨hi, hmatch, hchapter, hactive⟩ := hrow i rfl
        have hfor : invitationFor db'.tables.invitations data chapter = some i :=
          (invitationFor_eq_some_iff hone).mpr ⟨hcode, hi, hmatch, hchapter, hactive⟩
        exact ensures_pure ⟨rfl, fun _ => ⟨hone, fun _ => by rw [hfor]; rfl,
          fun h => absurd h hcode⟩⟩
    · intro db' h
      exact h.1
  · rename_i hcode
    have hnone : data.invitationCode = [] := not_not.mp hcode
    split
    · rename_i hessay
      exact ensures_pure ⟨rfl, fun _ => ⟨fun h => absurd hnone h, fun h => absurd hnone h,
        fun _ => hessay⟩⟩
    · exact ensures_pure ⟨rfl, fun h => by cases h⟩

end Invitations

section File

/-- The request that is made of an essay. -/
def joinRequest (user : User) (chapter : Chapter) (essay : Text) : Leadership :=
  Kind.join.filled ⟨user, chapter⟩ { content := essay }

/-- Someone who may apply and has not, and who has something to say, files a request to join. Only
telling the leaders of it may fail. -/
theorem joinFile_stored {user : User} {p : UserProfile} {essay : Text}
    (hp : db.tables.profiles.find? user.pk = some p) (happly : p.canApply = true)
    (hfree : hasRequested db user .join = false) (hessay : strip essay ≠ []) :
    Ensures calm db (Kind.join.file ⟨user, chapter⟩ { content := essay })
      (fun _ => OnCore ((joinRequest user chapter essay).IsStored true db))
      (OnCore ((joinRequest user chapter essay).IsStored true db)) := by
  have hsome : essay ≠ [] := by
    intro hnil
    rw [hnil] at hessay
    exact hessay rfl
  have hfields : Finds db (RequestForm.fieldErrors ⟨user, chapter⟩ { content := essay }) [] := by
    apply finds_bind finds_read
    simp only [hsome, hessay, if_false, Bool.false_eq_true]
    exact finds_pure
  have hclean : Finds db (Kind.join.clean ⟨user, chapter⟩ { content := essay }) none := by
    apply finds_bind finds_read
    simp only [hfree, Bool.and_false, Bool.false_eq_true, if_false]
    apply finds_bind (finds_getProfile hp)
    have hsame : UserProfile.canApply { p with user := user } = true := happly
    rw [hsame]
    exact finds_pure
  have hsaved : Ensures calm db (Kind.join.save ⟨user, chapter⟩ { content := essay })
      (fun _ => OnCore ((joinRequest user chapter essay).IsStored true db))
      (OnCore ((joinRequest user chapter essay).IsStored true db)) := by
    apply ensures_then (Leadership.save_ensures _ true)
    · intro l after h
      exact follow_keeps _ _ after h.2
    · intro after h
      rcases h with h | ⟨hdown, -⟩
      · exact h
      · cases hdown (by decide)
  unfold Kind.file
  apply ensures_finds hfields
  apply ensures_finds hclean
  apply ensures_seq hsaved
  intro _ after h
  exact ensures_pure h

end File

section Save

/-- A new user is written, and what may have become of the invitations. -/
structure Admitting (db : Db) (u : User) (is : Table Invitation Invitation.pk) (db' : Db) :
    Prop where
  users : db'.tables.users = db.tables.users.save u
  posts : db'.tables.posts = db.tables.posts
  invitations : db'.tables.invitations = is

/-- There is one user more, with this profile. -/
structure Admitted (db : Db) (k : Nat) (p : UserProfile) (is : Table Invitation Invitation.pk)
    (db' : Db) : Prop where
  fresh : db.tables.users.find? k = none
  users : db'.tables.users.rows.map User.pk = db.tables.users.rows.map User.pk ++ [k]
  profile : db'.tables.profiles.find? k = some p
  invitations : db'.tables.invitations = is

/-- What a sign-up comes to that is accepted and not blank: the new user is approved and his
invitation is used, or he has filed a request. -/
def Admission (data : ApplicationData) (chapter : Chapter) (db db' : Db) : Prop :=
  ∃ k p,
    (∃ i, invitationFor db.tables.invitations data chapter = some i ∧ p.status = .approved ∧
      Admitted db k p (db.tables.invitations.save { i with isActive := false }) db' ∧
      db'.tables.posts = db.tables.posts) ∨
    (p.status = .pending ∧ Admitted db k p db.tables.invitations db' ∧
      ∃ l : Leadership, l.owner = k ∧ l.request = .join ∧ l.response = .pending ∧
        db'.tables.posts.rows = db.tables.posts.rows ++ [.leadership l])

variable {u : User} {p : UserProfile} {is : Table Invitation Invitation.pk}

theorem mem_keys_iff {α : Type} {key : α → Nat} {t : Table α key} {k : Nat} :
    k ∈ t.rows.map key ↔ (t.find? k).isSome = true := by
  rw [Option.isSome_iff_exists, List.mem_map]
  simp only [Table.find?_eq_some_iff]

/-- Once the profile and the user are saved, what is left is the request. -/
theorem enter_admitted {Q : Db → Prop} {rest : M Unit} (h : Admitting db u is db')
    (hp : p.user = { u with email := data.email }) (hfresh : db.tables.users.find? u.pk = none)
    (hrest : ∀ after, Admitted db u.pk p is after → after.tables.posts = db.tables.posts →
      Ensures calm after rest (fun _ => Q) Q) :
    Ensures calm db' (do
        p.save
        saved fun t => { t with users := t.users.save { u with email := data.email } }
        rest) (fun _ => Q) Q := by
  have hpk : p.pk = u.pk := by
    unfold UserProfile.pk
    rw [hp]
  apply ensures_seq (save_wrote (R := Q) p)
  intro _ db₁ h₁
  apply ensures_bind
  apply saved_calm
  have hnew : u.pk ∉ db.tables.users.rows.map User.pk := by
    rw [mem_keys_iff, hfresh]
    simp
  have hkeys : (db.tables.users.save u).rows.map User.pk =
      db.tables.users.rows.map User.pk ++ [u.pk] :=
    (Table.map_put u _).trans (if_neg hnew)
  have hmem : u.pk ∈ (db.tables.users.save u).rows.map User.pk := by
    rw [hkeys]
    exact List.mem_append_right _ (List.mem_singleton_self _)
  refine hrest _ ⟨hfresh, ?_, ?_, ?_⟩ ?_
  · rw [h₁.tables]
    dsimp only
    rw [h.users, ← hkeys]
    exact (Table.map_put ({ u with email := data.email } : User) _).trans (if_pos hmem)
  · rw [h₁.tables, ← hpk]
    exact Table.find?_save_self
  · rw [h₁.tables]
    exact h.invitations
  · rw [h₁.tables]
    exact h.posts

/-- No post is that of someone who is new. -/
theorem Owned.leaderships_fresh {k : Nat} (h : Owned db.tables)
    (hfresh : db.tables.users.find? k = none) : ∀ l ∈ leaderships db, l.owner ≠ k := by
  intro l hl howner
  obtain ⟨post, hpost, hlead⟩ := List.mem_filterMap.mp hl
  have hsome := h post hpost
  cases post with
  | other b => cases hlead
  | leadership l' =>
    obtain rfl := Option.some.inj hlead
    have howner' : (Post.leadership l').bulletin.owner = k := howner
    rw [howner', hfresh] at hsome
    cases hsome

/-- A newcomer who was not invited files his request. -/
theorem bootstrap_admission {user : User} (howned : Owned db.tables) (hpk : user.pk = u.pk)
    (hpending : p.status = .pending) (hessay : strip data.application ≠ [])
    (h : Admitted db u.pk p db.tables.invitations db')
    (hposts : db'.tables.posts = db.tables.posts) :
    Ensures calm db' (do let _ ← bootstrapJoinRequest user chapter data.application)
      (fun _ => Admission data chapter db) (Admission data chapter db) := by
  have hfree : hasRequested db' user .join = false := by
    have hsame : leaderships db' = leaderships db := by
      unfold leaderships
      rw [hposts]
    unfold hasRequested
    rw [hsame, List.any_eq_false]
    intro l hl
    have howner := howned.leaderships_fresh h.fresh l hl
    rw [← hpk] at howner
    simp [howner]
  have happly : p.canApply = true := by
    simp [UserProfile.canApply, UserProfile.hasChapter, hpending]
  have hdone (after : Db)
      (hstored : OnCore ((joinRequest user chapter data.application).IsStored true db') after) :
      Admission data chapter db after := by
    obtain ⟨htables, -⟩ := hstored
    have hnew : db'.tables.posts.nextKey ∉ db'.tables.posts.rows.map Post.pk := by
      rw [mem_keys_iff, Table.find?_nextKey]
      simp
    refine ⟨u.pk, p, Or.inr ⟨hpending, ⟨h.fresh, ?_, ?_, ?_⟩, ?_⟩⟩
    · rw [htables]
      exact h.users
    · rw [htables]
      exact h.profile
    · rw [htables]
      exact h.invitations
    · refine ⟨(joinRequest user chapter data.application).stored true db'.tables, hpk, rfl, rfl, ?_⟩
      rw [htables, ← hposts]
      exact Table.put_of_not_mem hnew
  have hprofile : db'.tables.profiles.find? user.pk = some p := hpk ▸ h.profile
  apply ensures_bind
  apply ensures_then (joinFile_stored hprofile happly hfree hessay)
  · intro reply after hstored
    exact ensures_pure (ensures_pure (hdone after hstored))
  · exact hdone

/-- A sign-up that is accepted and not blank. -/
theorem applySave_admission (hres : Resolved db.tables) (howned : Owned db.tables)
    (haccepts : Accepts db.tables data chapter) (hblank : ¬data.Blank) :
    Ensures calm db (AccountApplicationForm.save data chapter)
      (fun _ => Admission data chapter db) (Admission data chapter db) := by
  unfold AccountApplicationForm.save
  apply ensures_seq (createUser_newUser hres.first)
  intro u db₁ hcreated
  obtain ⟨hnouser, hnoprofile⟩ := hcreated.fresh
  obtain ⟨first, hprofile⟩ := hcreated.profile
  let user : User := { u with email := data.email }
  have hrow : db₁.tables.profiles.find? user.pk =
      some (AccountApplicationForm.defaultProfile u first) := hprofile
  have hone : Unambiguous db₁.tables data := by
    have hone := haccepts.one
    unfold Unambiguous at hone ⊢
    rw [hcreated.invitations]
    exact hone
  have hadmitting : Admitting db u db.tables.invitations db₁ :=
    ⟨hcreated.users, hcreated.posts, hcreated.invitations⟩
  have hfinds : Finds db₁ (AccountApplicationForm.invite data chapter)
      (invitationFor db₁.tables.invitations data chapter) := finds_invite hone
  rw [hcreated.invitations] at hfinds
  apply ensures_finds (finds_getProfile hrow)
  apply ensures_finds hfinds
  cases hfor : invitationFor db.tables.invitations data chapter with
  | none =>
    have hcode : data.invitationCode = [] := by
      by_contra hcode
      have hsome := haccepts.invited hcode
      rw [hfor] at hsome
      cases hsome
    have hessay : strip data.application ≠ [] :=
      fun hnil => hblank ⟨hcode, haccepts.essay hcode, hnil⟩
    apply ensures_bind
    apply ensures_pure
    apply enter_admitted hadmitting rfl hnouser
    intro after hafter hposts
    exact bootstrap_admission howned rfl rfl hessay hafter hposts
  | some i =>
    obtain ⟨-, hi, -, hkey, -⟩ := (invitationFor_eq_some_iff haccepts.one).mp hfor
    obtain ⟨sponsor, q, hsponsor, hq⟩ := sponsor_found hres hcreated hi
    apply ensures_seq (invitation_enrolled _ hsponsor hq)
    intro p' after hactivated
    obtain ⟨⟨k, rfl⟩, htables, -⟩ := hactivated
    have hadmitted : Admitting db u (db.tables.invitations.save { i with isActive := false })
        after := by
      refine ⟨?_, ?_, ?_⟩
      · rw [htables]
        exact hadmitting.users
      · rw [htables]
        exact hadmitting.posts
      · rw [htables, ← hcreated.invitations]
    apply enter_admitted hadmitted rfl hnouser
    intro final hafter hposts
    exact ensures_pure ⟨u.pk, _, Or.inl ⟨i, hfor, rfl, hafter, hposts⟩⟩

/-- A sign-up that is not blank leaves everything as it is, or comes to an admission to the chapter
that was chosen. -/
theorem apply_admission (hres : Resolved db.tables) (howned : Owned db.tables)
    (hblank : AccountApplicationForm.fieldErrors db data = [] → ¬data.Blank) :
    Ensures calm db (apply data)
      (fun _ db' => db' = db ∨ Unambiguous db.tables data ∧
        ∃ chapter, db.tables.chapters.find? data.chapter = some chapter ∧
          Admission data chapter db db')
      (fun db' => db' = db ∨ Unambiguous db.tables data ∧
        ∃ chapter, db.tables.chapters.find? data.chapter = some chapter ∧
          Admission data chapter db db') := by
  apply ensures_read
  split
  · rename_i chapter hvalid hchapter
    apply ensures_then clean_accepts
    · intro message db' hclean
      obtain ⟨rfl, haccepts⟩ := hclean
      cases message with
      | some message => exact ensures_pure (Or.inl rfl)
      | none =>
        have haccepts := haccepts rfl
        apply ensures_then (applySave_admission hres howned haccepts (hblank hvalid))
        · intro _ after h
          exact ensures_pure (Or.inr ⟨haccepts.one, chapter, hchapter, h⟩)
        · intro after h
          exact Or.inr ⟨haccepts.one, chapter, hchapter, h⟩
    · intro db' h
      exact Or.inl h
  · exact ensures_pure (Or.inl rfl)

end Save

namespace Register

variable {r : Register} {s : SignUp}

/-- What every sign-up relies on and leaves: the rows refer to rows, and the codes by which accounts
have been approved are each of them spent. -/
structure Kept (r : Register) : Prop where
  resolved : Resolved r.db.tables
  owned : Owned r.db.tables
  nodup : r.approvals.Nodup
  spent : ∀ code ∈ r.approvals, ∀ i ∈ r.db.tables.invitations.rows, i.code = code →
    i.isActive = false

theorem newcomers_self : newcomers db db = [] := by
  unfold newcomers
  rw [List.filter_eq_nil_iff]
  intro k hk
  rw [mem_keys_iff] at hk
  simp [Option.isSome_iff_ne_none.mp hk]

theorem newcomers_admitted {k : Nat} {p : UserProfile} {is : Table Invitation Invitation.pk}
    (h : Admitted db k p is db') : newcomers db db' = [k] := by
  have hold : (db.tables.users.rows.map User.pk).filter
      (fun k => (db.tables.users.find? k).isNone) = [] := newcomers_self
  unfold newcomers
  rw [h.users, List.filter_append, hold, List.nil_append]
  simp [h.fresh]

theorem statusOf_admitted {k : Nat} {p : UserProfile} {is : Table Invitation Invitation.pk}
    (h : Admitted db k p is db') : statusOf db' k = some p.status := by
  unfold statusOf
  rw [h.profile]
  rfl

/-- The owners of the posts stay, and the newcomer is one of them. -/
theorem owned_admitted {k : Nat} {p : UserProfile} {is : Table Invitation Invitation.pk}
    (howned : Owned db.tables) (h : Admitted db k p is db')
    (hposts : ∀ post ∈ db'.tables.posts.rows, post ∈ db.tables.posts.rows ∨
      post.bulletin.owner = k) : Owned db'.tables := by
  intro post hpost
  refine mem_keys_iff.mp ?_
  rw [h.users, List.mem_append, List.mem_singleton]
  rcases hposts post hpost with hold | hnew
  · exact Or.inl (mem_keys_iff.mpr (howned post hold))
  · exact Or.inr hnew

/-- The newcomer's request is the only one that is his. -/
theorem pendingJoins_admitted {k : Nat} {l : Leadership} (howned : Owned db.tables)
    (hfresh : db.tables.users.find? k = none) (howner : l.owner = k) (hjoin : l.request = .join)
    (hpending : l.response = .pending)
    (hposts : db'.tables.posts.rows = db.tables.posts.rows ++ [.leadership l]) :
    pendingJoins db' k = [l] := by
  have hnone : (leaderships db).filter
      (fun l => l.request = .join && l.owner = k && l.response = .pending) = [] := by
    rw [List.filter_eq_nil_iff]
    intro l' hl'
    simp [howned.leaderships_fresh hfresh l' hl']
  have hall : leaderships db' = leaderships db ++ [l] := by
    unfold leaderships
    rw [hposts, List.filterMap_append]
    rfl
  unfold pendingJoins
  rw [hall, List.filter_append, hnone, List.nil_append]
  simp [howner, hjoin, hpending]

theorem step_db : (r.step s).db = (exec (apply s.data) ⟨r.db, s.faults⟩).2.db := by
  simp only [step]

theorem step_approvals : (r.step s).approvals = r.approvals ++
    ((newcomers r.db (r.step s).db).filter fun k =>
      statusOf (r.step s).db k = some .approved).map fun _ => s.data.invitationCode := by
  rw [step_db]
  rfl

theorem resolved_step (hres : Resolved r.db.tables) (hcalm : Within calm s.faults) :
    Resolved (r.step s).db.tables := by
  have hjoined : (r.step s).db = r.db ∨
      ∃ chapter, r.db.tables.chapters.find? s.data.chapter = some chapter ∧
        Joined s.data chapter r.db (r.step s).db := by
    have hensures : Ensures calm r.db (apply s.data) _ _ := apply_joined hres
    have hexec := db_of_ensures hensures hcalm
    rw [step_db]
    exact hexec
  rcases hjoined with hsame | ⟨chapter, hchapter, k, m, hsigned, -, hplace⟩
  · rw [hsame]
    exact hres
  · refine hres.signedUp hsigned ?_
    rw [hplace]
    exact (Table.find?_eq_some_iff.mp hchapter).1

theorem approvals_step {k : Nat} (h : newcomers r.db (r.step s).db = [k]) :
    (r.step s).approvals = r.approvals ++
      if statusOf (r.step s).db k = some .approved then [s.data.invitationCode] else [] := by
  rw [step_approvals, h]
  split
  · rename_i happroved
    simp [happroved]
  · rename_i happroved
    simp [happroved]

/-- An invitation is used, and its code was not before. -/
theorem Kept.welcome {k : Nat} {p : UserProfile} (h : Kept r)
    (hres : Resolved (r.step s).db.tables) (hone : Unambiguous r.db.tables s.data)
    (hchapter : r.db.tables.chapters.find? s.data.chapter = some chapter)
    (hfor : invitationFor r.db.tables.invitations s.data chapter = some i)
    (happroved : p.status = .approved)
    (hadmitted : Admitted r.db k p
      (r.db.tables.invitations.save { i with isActive := false }) (r.step s).db)
    (hposts : (r.step s).db.tables.posts = r.db.tables.posts) :
    Kept (r.step s) ∧ TakenIn r s := by
  obtain ⟨hcode, hi, hmatch, hplace, hactive⟩ := (invitationFor_eq_some_iff hone).mp hfor
  have hstatus : statusOf (r.step s).db k = some .approved := by
    rw [statusOf_admitted hadmitted, happroved]
  have happrovals : (r.step s).approvals = r.approvals ++ [s.data.invitationCode] := by
    rw [approvals_step (newcomers_admitted hadmitted), if_pos hstatus]
  refine ⟨⟨hres, ?_, ?_, ?_⟩, ?_⟩
  · refine owned_admitted h.owned hadmitted ?_
    rw [hposts]
    intro post hpost
    exact Or.inl hpost
  · rw [happrovals]
    refine List.nodup_append.mpr ⟨h.nodup, List.nodup_singleton _, ?_⟩
    intro a ha b hb heq
    rw [List.mem_singleton] at hb
    subst hb heq
    have hspent := h.spent _ ha i hi hmatch
    rw [hactive] at hspent
    cases hspent
  · intro code hspentCode j hj hjcode
    rw [hadmitted.invitations] at hj
    rcases Table.mem_save.mp hj with rfl | ⟨hj, hne⟩
    · rfl
    · rw [happrovals, List.mem_append, List.mem_singleton] at hspentCode
      rcases hspentCode with hold | hnew
      · exact h.spent code hold j hj hjcode
      · -- there is one invitation with the code, which is `i`
        have hle := hone hcode
        have hmem (x : Invitation) (hx : x ∈ r.db.tables.invitations.rows)
            (hxcode : x.code = s.data.invitationCode) :
            x ∈ r.db.tables.invitations.rows.filter fun i => i.code = s.data.invitationCode :=
          List.mem_filter.mpr ⟨hx, decide_eq_true hxcode⟩
        have hsame : j = i := by
          have hj' := hmem j hj (hjcode.trans hnew)
          have hi' := hmem i hi hmatch
          cases hrows : r.db.tables.invitations.rows.filter
              fun i => i.code = s.data.invitationCode with
          | nil =>
            rw [hrows] at hj'
            cases hj'
          | cons x rest =>
            rw [hrows] at hle hj' hi'
            obtain rfl : rest = [] := by simpa using hle
            rw [List.mem_singleton.mp hj', List.mem_singleton.mp hi']
        exact absurd (congrArg Invitation.pk hsame) hne
  · intro k' hk'
    rw [newcomers_admitted hadmitted, List.mem_singleton] at hk'
    subst hk'
    refine Or.inl ⟨hstatus, i, Table.find?_of_mem hi, hmatch, ?_, hactive, ?_⟩
    · rw [hplace]
      exact (Table.find?_eq_some_iff.mp hchapter).2
    · rw [hadmitted.invitations]
      exact Table.find?_save_self

/-- A request is filed. -/
theorem Kept.ask {k : Nat} {p : UserProfile} {l : Leadership} (h : Kept r)
    (hres : Resolved (r.step s).db.tables) (hpending : p.status = .pending)
    (hadmitted : Admitted r.db k p r.db.tables.invitations (r.step s).db)
    (howner : l.owner = k) (hjoin : l.request = .join) (hresponse : l.response = .pending)
    (hposts : (r.step s).db.tables.posts.rows = r.db.tables.posts.rows ++ [.leadership l]) :
    Kept (r.step s) ∧ TakenIn r s := by
  have hstatus : statusOf (r.step s).db k = some .pending := by
    rw [statusOf_admitted hadmitted, hpending]
  have happrovals : (r.step s).approvals = r.approvals := by
    rw [approvals_step (newcomers_admitted hadmitted), hstatus]
    simp
  refine ⟨⟨hres, ?_, ?_, ?_⟩, ?_⟩
  · refine owned_admitted h.owned hadmitted ?_
    rw [hposts]
    intro post hpost
    rcases List.mem_append.mp hpost with hold | hnew
    · exact Or.inl hold
    · rw [List.mem_singleton.mp hnew]
      exact Or.inr howner
  · rw [happrovals]
    exact h.nodup
  · rw [happrovals, hadmitted.invitations]
    exact h.spent
  · intro k' hk'
    rw [newcomers_admitted hadmitted, List.mem_singleton] at hk'
    subst hk'
    refine Or.inr ⟨hstatus, ?_⟩
    rw [pendingJoins_admitted h.owned hadmitted.fresh howner hjoin hresponse hposts]
    rfl

theorem Kept.step (h : Kept r) (hs : s.Heard r.db) : Kept (r.step s) ∧ TakenIn r s := by
  obtain ⟨hcalm, hblank⟩ := hs
  have hres := resolved_step h.resolved hcalm
  have hadmission : (r.step s).db = r.db ∨ Unambiguous r.db.tables s.data ∧
      ∃ chapter, r.db.tables.chapters.find? s.data.chapter = some chapter ∧
        Admission s.data chapter r.db (r.step s).db := by
    have hensures : Ensures calm r.db (apply s.data) _ _ :=
      apply_admission h.resolved h.owned hblank
    have hexec := db_of_ensures hensures hcalm
    rw [step_db]
    exact hexec
  rcases hadmission with hsame | ⟨hone, chapter, hchapter, k, p, hadmission⟩
  · have hnobody : newcomers r.db (r.step s).db = [] := by
      rw [hsame]
      exact newcomers_self
    have happrovals : (r.step s).approvals = r.approvals := by
      rw [step_approvals, hnobody]
      simp
    refine ⟨⟨hres, ?_, ?_, ?_⟩, ?_⟩
    · rw [hsame]
      exact h.owned
    · rw [happrovals]
      exact h.nodup
    · rw [happrovals, hsame]
      exact h.spent
    · intro k hk
      rw [hnobody] at hk
      cases hk
  · rcases hadmission with ⟨i, hfor, happroved, hadmitted, hposts⟩ |
      ⟨hpending, hadmitted, l, howner, hjoin, hresponse, hposts⟩
    · exact h.welcome hres hone hchapter hfor happroved hadmitted hposts
    · exact h.ask hres hpending hadmitted howner hjoin hresponse hposts

/-- As long as nobody is accepted for a blank essay, everyone who signs up is approved by an
invitation or has a request that is still to be answered, and no code approves two accounts. -/
theorem histories_takenIn (db : Db) (signUps : List SignUp) (hres : Resolved db.tables)
    (howned : Owned db.tables)
    (hheard : EachSignUp (fun r s => s.Heard r.db) ⟨db, []⟩ signUps) :
    EachSignUp TakenIn ⟨db, []⟩ signUps ∧
      ∀ r ∈ histories ⟨db, []⟩ signUps, r.approvals.Nodup := by
  have hstart : Kept ⟨db, []⟩ :=
    ⟨hres, howned, List.nodup_nil, fun _ hcode => absurd hcode List.not_mem_nil⟩
  have hstep : ∀ (r : Register) (s : SignUp) (r' : Register), Kept r → s.Heard r.db →
      some (r.step s) = some r' → Kept r' := by
    intro r s r' h hs hr
    obtain rfl := Option.some.inj hr
    exact (h.step hs).1
  constructor
  · exact Run.throughout_of_invariant hstep (fun r s h hs => (h.step hs).2) hstart hheard
  · intro r hr
    exact (Run.states_invariant hstep hstart hheard r hr).nodup

section Examples

def submitted (data : ApplicationData) : SignUp := ⟨data, fun _ _ => false⟩

/-- Carl, with fifty blanks for an essay. -/
def blankCarl : SignUp := submitted { carl with application := List.replicate 50 ' ' }

theorem quietLeader_owned : Owned quietLeader.tables := by
  intro post hpost
  cases hpost

/-- He is accepted, and pending without a request. -/
theorem histories_not_takenIn :
    ¬∀ (db : Db) (signUps : List SignUp), Resolved db.tables → Owned db.tables →
      (∀ s ∈ signUps, Within calm s.faults) →
        EachSignUp TakenIn ⟨db, []⟩ signUps ∧
          ∀ r ∈ histories ⟨db, []⟩ signUps, r.approvals.Nodup := by
  intro h
  have hcalm : ∀ s ∈ [blankCarl], Within calm s.faults := by
    intro s hs
    rw [List.mem_singleton.mp hs]
    exact fun _ _ _ => rfl
  have hreceived := (h quietLeader [blankCarl] quietLeader_resolved quietLeader_owned hcalm).1.1
  have hnew : 2 ∈ newcomers quietLeader (step ⟨quietLeader, []⟩ blankCarl).db := by
    decide +kernel
  rcases hreceived 2 hnew with hwelcomed | hasking
  · have hpending : statusOf (step ⟨quietLeader, []⟩ blankCarl).db 2 ≠ some .approved := by
      decide +kernel
    exact hpending hwelcomed.approved
  · have hnone : (pendingJoins (step ⟨quietLeader, []⟩ blankCarl).db 2).length = 0 := by
      decide +kernel
    have hone := hasking.request
    rw [hnone] at hone
    cases hone

/-- The leader has invited someone. -/
def invitingLeader : Db := { quietLeader with
  tables := { quietLeader.tables with
    invitations := .ofList [⟨1, text "welcome", 1, nyc, true⟩] } }

def withCode (name code : Text) : SignUp :=
  submitted { carl with username := name, application := [], invitationCode := code }

/-- The code is given twice, and there is an essay between. -/
def threeSignUps : List SignUp :=
  [withCode (text "dave") (text "welcome"), submitted carl,
    withCode (text "eve") (text "welcome")]

theorem invitingLeader_resolved : Resolved invitingLeader.tables where
  first := by decide
  profiles := by decide
  members := quietLeader_resolved.members
  invitations := by decide

/-- It approves once. -/
theorem histories_takenIn_threeSignUps :
    (threeSignUps.foldl step ⟨invitingLeader, []⟩).approvals = [text "welcome"] ∧
      EachSignUp TakenIn ⟨invitingLeader, []⟩ threeSignUps ∧
        ∀ r ∈ histories ⟨invitingLeader, []⟩ threeSignUps, r.approvals.Nodup :=
  ⟨by decide +kernel, histories_takenIn invitingLeader threeSignUps invitingLeader_resolved
    (fun _ hpost => by cases hpost)
    ⟨⟨fun _ _ _ => rfl, fun _ h => absurd h.1 (by decide)⟩,
      fun _ _ => ⟨⟨fun _ _ _ => rfl, fun _ h => absurd h.2.2 (by decide)⟩,
        fun _ _ => ⟨⟨fun _ _ _ => rfl, fun _ h => absurd h.1 (by decide)⟩,
          fun _ _ => trivial⟩⟩⟩⟩

end Examples

end Register

end HackerUnion.Petri
