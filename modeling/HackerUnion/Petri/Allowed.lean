import HackerUnion.Petri.Refine

namespace HackerUnion.Petri

open Bash (Text text lower)
open Durable
open Durable.Handler

/-- The bulletin is a request that can still be responded to. -/
def OpenRequest (t : Tables) (bulletin : Nat) (l : Leadership) : Prop :=
  Stored t l ∧ l.pk = bulletin ∧ l.canRespond = true

/-- The leader who gives up the leadership through a form that takes it. -/
def Submission.Resigns (t : Tables) : Submission → Nat → Prop
  | resign slug user, k => user = some k ∧ ∃ p ∈ t.profiles.find? k, p.isLeader = true ∧
      ∃ c ∈ t.chapters.rows.find? (fun c => c.slug = slug), p.isMember c = true
  | settingsResign user, k => user = some k ∧ ∃ p ∈ t.profiles.find? k, p.isLeader = true
  | guide user username grant, k =>
    grant = false ∧ (∃ u ∈ t.users.rows, lower u.username = lower username ∧ u.pk = k) ∧
      ∃ p ∈ t.profiles.find? k, p.isLeader = true ∧
        ∃ j ∈ user, ∃ own ∈ t.profiles.find? j,
          own.canModerate = true ∨ (own.isLeader = true ∧ p.leader = some j)
  | _, _ => False

/-- The profile is that of the owner of a request which this view is given to respond to. -/
def AnsweredOwner (t : Tables) (bulletin : Nat) (p : UserProfile) : Prop :=
  Current t p ∧ ∃ l, OpenRequest t bulletin l ∧ l.owner = p.pk

/-- The code that is given is of an invitation that is not used. -/
def Invited (t : Tables) (data : ApplicationData) : Prop :=
  data.invitationCode ≠ [] ∧
    ∃ i ∈ t.invitations.rows, i.code = data.invitationCode ∧ i.isActive = true

/-- The writes a form may make. -/
inductive Allows (t : Tables) : Submission → Act → Prop where
  | request {kind : Kind} {slug : Text} {k : Nat} {data : RequestData} {l : Leadership}
      (hkind : l.request = kind) (howner : l.owner = k) :
      Allows t (.request kind slug (some k) data) (.file l)
  | answer {view : Kind} {slug : Text} {k bulletin : Nat} {r : Int} {l : Leadership}
      {response : Response} (h : OpenRequest t bulletin l) :
      Allows t (.response view slug (some k) bulletin r) (.answer l response (some k))
  | lead {slug : Text} {k bulletin : Nat} {r : Int} {p : UserProfile}
      (h : AnsweredOwner t bulletin p) (hr : Response.ofInt r = some .approved) :
      Allows t (.response .lead slug (some k) bulletin r) (.lead p)
  | pair {slug : Text} {k bulletin : Nat} {r : Int} {p : UserProfile}
      (h : AnsweredOwner t bulletin p) (hr : Response.ofInt r = some .approved)
      (hk : Available t k) :
      Allows t (.response .pair slug (some k) bulletin r) (.assign p (some k))
  | enroll {slug : Text} {k bulletin : Nat} {r : Int} {p : UserProfile} {leader : Option Nat}
      (h : AnsweredOwner t bulletin p) (hr : Response.ofInt r = some .approved)
      (hp : p.canApply = true) (hk : ∀ j ∈ leader, j = k ∧ Available t k) :
      Allows t (.response .join slug (some k) bulletin r) (.enroll p p.chapter leader)
  | refuse {slug : Text} {k bulletin : Nat} {r : Int} {p : UserProfile}
      (h : AnsweredOwner t bulletin p) (hr : Response.ofInt r = some .denied)
      (hp : p.canApply = true) :
      Allows t (.response .join slug (some k) bulletin r) (.refuse p)
  | endorse {slug : Text} {k bulletin : Nat} {r : Int} {p : Post} :
      Allows t (.response .promote slug (some k) bulletin r) (.touch p)
  | unmoderate {s : Submission} {p : UserProfile} (h : s.Resigns t p.pk) :
      Allows t s (.unmoderate p)
  | detach {s : Submission} {k : Nat} {m : UserProfile} (h : s.Resigns t k) :
      Allows t s (.assign m none)
  | reassign {s : Submission} {k : Nat} {l : Leadership} (h : s.Resigns t k)
      (hl : l.request = .pair) : Allows t s (.file l)
  | retire {s : Submission} {p : UserProfile} (h : s.Resigns t p.pk)
      (hp : ∃ q, t.profiles.find? p.pk = some q ∧ q.leader = p.leader) : Allows t s (.retire p)
  | abandon {user : Option Nat} {mentee : Nat} {p : UserProfile} :
      Allows t (.abandon user mentee) (.assign p none)
  | banUnmoderate {user : Option Nat} {username : Text} {p : UserProfile} :
      Allows t (.ban user username) (.unmoderate p)
  | banDetach {user : Option Nat} {username : Text} {m : UserProfile} :
      Allows t (.ban user username) (.assign m none)
  | banReassign {user : Option Nat} {username : Text} {l : Leadership} (hl : l.request = .pair) :
      Allows t (.ban user username) (.file l)
  | transfer {user : Option Nat} {mentee leader : Text} {p : UserProfile} {k : Nat}
      (hp : p.isLeader = false) : Allows t (.transfer user mentee leader) (.assign p (some k))
  | moderatorLead {user : Option Nat} {username : Text} {p : UserProfile} :
      Allows t (.moderator user username true) (.lead p)
  | moderate {user : Option Nat} {username : Text} {p : UserProfile} :
      Allows t (.moderator user username true) (.moderate p)
  | moderatorRevoke {user : Option Nat} {username : Text} {p : UserProfile} :
      Allows t (.moderator user username false) (.unmoderate p)
  | guide {user : Option Nat} {username : Text} {p : UserProfile} :
      Allows t (.guide user username true) (.lead p)
  | notice {user : Option Nat} {data : NoticeData} {p : UserProfile} :
      Allows t (.notice user data) (.settings p)
  | account {data : ApplicationData} {u : User} : Allows t (.apply data) (.account u)
  | register {data : ApplicationData} {p : UserProfile} : Allows t (.apply data) (.register p)
  | redeemed {data : ApplicationData} {p : UserProfile} {chapter : Chapter} {leader : Option Nat}
      (hfresh : t.profiles.find? p.pk = none) (hp : p.roles = (.pending, false, false, none))
      (hi : Invited t data) : Allows t (.apply data) (.enroll p chapter leader)
  | redeem {data : ApplicationData} {i : Invitation} : Allows t (.apply data) (.redeem i)
  | fill {data : ApplicationData} {p : UserProfile} : Allows t (.apply data) (.settings p)
  | bootstrap {data : ApplicationData} {l : Leadership} (hl : l.request = .join) :
      Allows t (.apply data) (.file l)
  | createPairRequest {user : User} {chapter : Chapter} {reason : Text} {l : Leadership}
      (hl : l.request = .pair) (howner : l.owner = user.pk) :
      Allows t (.createPairRequest user chapter reason) (.file l)

variable {may : Service → Bool → Prop} {E : Act → Prop} {t₀ : Tables} {db : Db} {α : Type}

/-- However the handler ends, the tables are reached by acts that are allowed. -/
def Follows (may : Service → Bool → Prop) (E : Act → Prop) (t₀ : Tables) (c : M α) (db : Db) : Prop :=
  Ensures may db c (fun _ db' => Path E t₀ db'.tables) (fun db' => Path E t₀ db'.tables)

theorem follows_pure {a : α} (hp : Path E t₀ db.tables) :
    Follows may E t₀ (pure a : M α) db := ensures_pure hp

theorem follows_throw {e : Exn} (hp : Path E t₀ db.tables) :
    Follows may E t₀ (throw e : M α) db := ensures_throw hp

/-- A part of a handler that leaves the tables reached, and the rest of it. -/
theorem follows_then {β : Type} {c : M β} {f : β → M α} {Q : β → Db → Prop}
    (h : Ensures may db c Q fun db' => Path E t₀ db'.tables)
    (hf : ∀ b db', Q b db' → Follows may E t₀ (f b) db') : Follows may E t₀ (c >>= f) db :=
  ensures_seq h hf

/-- What only reads, by what it finds. -/
theorem follows_look {β : Type} {c : M β} {f : β → M α} {Q : β → Prop}
    (h : Ensures may db c (fun b db' => db' = db ∧ Q b) (fun db' => db' = db))
    (hp : Path E t₀ db.tables) (hf : ∀ b, Q b → Follows may E t₀ (f b) db) :
    Follows may E t₀ (c >>= f) db := by
  apply ensures_then h
  · intro b db' hb
    rw [hb.1]
    exact hf b hb.2
  · intro db' hdb
    rw [hdb]
    exact hp

theorem follows_getUser {k : Nat} {f : User → M α} (hp : Path E t₀ db.tables)
    (hf : ∀ u, db.tables.users.find? k = some u → Follows may E t₀ (f u) db) :
    Follows may E t₀ (getUser k >>= f) db := by
  apply ensures_bind
  exact getUser_ensures hf hp

theorem follows_getProfile {u : User} {f : UserProfile → M α} (hp : Path E t₀ db.tables)
    (hf : ∀ p, db.tables.profiles.find? u.pk = some p →
      Follows may E t₀ (f { p with user := u }) db) :
    Follows may E t₀ (u.getProfile >>= f) db := by
  apply ensures_bind
  exact getProfile_ensures hf hp

/-- A profile that is fetched for its user is that of the row. -/
theorem current_profile {t : Tables} {u : User} {p : UserProfile}
    (h : t.profiles.find? u.pk = some p) : Current t { p with user := u } :=
  ⟨p, h, rfl⟩

section Respond

variable {view : Kind} {slug : Text} {k bulletin : Nat} {r : Int} {l : Leadership}

/-- The answer is recorded, and nothing else is written. -/
theorem mark_path {response : Response} {user : Option Nat}
    (hp : Path E t₀ db.tables) (hl : Stored db.tables l) (hopen : l.canRespond = true)
    (hr : response ≠ .pending) (hu : user.isSome = true)
    (he : ∀ l' : Leadership, l'.pk = l.pk → l'.core = l.core → E (.answer l' response user)) :
    Ensures may db (Leadership.save { l with response := response, processedBy := user })
      (fun _ db' => Path E t₀ db'.tables ∧ db'.tables.profiles = db.tables.profiles)
      (fun db' => Path E t₀ db'.tables ∧ db'.tables.profiles = db.tables.profiles) := by
  let l' : Leadership := { l with content := linkifyMentions l.chapter l.content }
  have hguard : (Act.answer l' response user).Guard db.tables := ⟨hl, hopen, hr, hu⟩
  apply ensures_mono (leadershipSave_path hp (he l' rfl rfl) hguard rfl)
  · intro _ db' h
    obtain ⟨-, htables, -, hpath⟩ := h
    refine ⟨hpath, ?_⟩
    rw [htables]
    rfl
  · intro db' h
    exact ⟨h.1, h.2.1⟩

theorem responseSave_path {request : Request} {response : Response} {valid : Bool}
    (hp : Path E t₀ db.tables) (hl : Stored db.tables l) (hopen : l.canRespond = true)
    (hr : response ≠ .pending)
    (he : ∀ (l' : Leadership) (response : Response), l'.pk = l.pk → l'.core = l.core →
      E (.answer l' response (some request.user.pk))) :
    Ensures may db (ResponseForm.save request l response valid)
      (fun r db' => (Path E t₀ db'.tables ∧ db'.tables.profiles = db.tables.profiles) ∧
        r = if valid then response else .canceled)
      (fun db' => Path E t₀ db'.tables) := by
  let I : Db → Prop := fun db' =>
    Path E t₀ db'.tables ∧ db'.tables.profiles = db.tables.profiles
  have hmark (response : Response) (hr : response ≠ .pending) : Ensures may db (Leadership.save
      { l with response := response, processedBy := some request.user.pk }) (fun _ => I) I :=
    mark_path hp hl hopen hr rfl fun l' hpk hcore => he l' response hpk hcore
  have hdone {r : Response} {c : M Leadership}
      (hc : Ensures may db c (fun _ => I) I) :
      Ensures may db (do let _ ← c; return r)
        (fun r' db' => I db' ∧ r' = r) (fun db' => Path E t₀ db'.tables) := by
    apply ensures_then hc
    · intro _ db' h
      exact ensures_pure ⟨h, rfl⟩
    · intro db' h
      exact h.1
  have hcancel : Ensures may db (l.cancel (some request.user.pk)) (fun _ => I) I :=
    hmark .canceled (by decide)
  unfold ResponseForm.save
  cases valid with
  | false => exact hdone hcancel
  | true =>
    cases response with
    | pending => exact absurd rfl hr
    | canceled => exact hdone hcancel
    | denied => exact hdone (hmark .denied hr)
    | active => exact hdone (hmark .active hr)
    | approved =>
      refine hdone (c := l.approve request.user) ?_
      apply ensures_seq (hmark .approved hr)
      intro l' db' h
      refine ensures_seq (getProfile_keeps (I := I) request.user db' h) ?_
      intro processor db'' h
      refine ensures_seq (notify_keeps (P := fun t _ => Path E t₀ t ∧
        t.profiles = db.tables.profiles) (fun _ => keeps_pure _) _ _ _ db'' h) ?_
      intro _ after h
      exact ensures_pure h

/-- What the form of the kind asks of a request, and of its owner's profile. -/
def Kind.eligible (l : Leadership) (p : UserProfile) : Kind → Bool
  | .join => p.canApply
  | .lead => !p.isLeader
  | .promote => l.related.isSome
  | .pair | .help => true

theorem valid_ensures :
    Ensures may db (ResponseForm.valid view l)
      (fun valid db' => db' = db ∧
        ∀ p, db.tables.profiles.find? l.owner = some p → valid = view.eligible l p)
      (fun db' => db' = db) := by
  apply ensures_bind
  apply getUser_ensures
  · intro u hu
    have hpk : u.pk = l.owner := (Table.find?_eq_some_iff.mp hu).2
    cases view with
    | join =>
      apply ensures_bind
      apply ensures_bind
      apply getProfile_ensures
      · intro p hp
        refine ensures_pure (ensures_pure ⟨rfl, fun q hq => ?_⟩)
        rw [hpk, hq] at hp
        cases hp
        change (if p.canApply = true then none else some _).isNone = p.canApply
        cases p.canApply <;> rfl
      · rfl
    | lead =>
      apply ensures_bind
      apply ensures_bind
      apply getProfile_ensures
      · intro p hp
        refine ensures_pure (ensures_pure ⟨rfl, fun q hq => ?_⟩)
        rw [hpk, hq] at hp
        cases hp
        change (if p.isLeader = true then some _ else none).isNone = !p.isLeader
        cases p.isLeader <;> rfl
      · rfl
    | pair => exact ensures_pure ⟨rfl, fun _ _ => rfl⟩
    | help => exact ensures_pure ⟨rfl, fun _ _ => rfl⟩
    | promote =>
      refine ensures_pure ⟨rfl, fun _ _ => ?_⟩
      change (if l.related = none then some _ else none).isNone = l.related.isSome
      cases l.related <;> rfl
  · rfl

theorem cleanResponder_ensures {request : Request} :
    Ensures may db (view.cleanResponder request)
      (fun message db' => db' = db ∧ (view = .pair → message = none →
        Available db.tables request.user.pk))
      (fun db' => db' = db) := by
  cases view with
  | pair =>
    apply ensures_bind
    apply getProfile_ensures
    · intro q hq
      apply ensures_seq (availableToLead_ensures (R := fun db' => db' = db) hq)
      intro free db' h
      obtain ⟨rfl, hfree⟩ := h
      refine ensures_pure ⟨rfl, fun _ hnone => hfree ?_⟩
      cases free with
      | true => rfl
      | false => cases hnone
    · rfl
  | join => exact ensures_pure ⟨rfl, fun h => by cases h⟩
  | lead => exact ensures_pure ⟨rfl, fun h => by cases h⟩
  | help => exact ensures_pure ⟨rfl, fun h => by cases h⟩
  | promote => exact ensures_pure ⟨rfl, fun h => by cases h⟩

theorem withBulletin_pk (b : Bulletin) (p : Post) : (p.withBulletin b).pk = b.pk := by
  cases p <;> rfl

theorem promote_path {post : Nat} {user : User} (hp : Path E t₀ db.tables)
    (he : ∀ p, E (.touch p)) : Follows may E t₀ (promote post user) db := by
  apply ensures_read
  cases hfind : db.tables.posts.find? post with
  | none => exact ensures_throw hp
  | some p =>
    dsimp only
    obtain ⟨-, hpk⟩ := Table.find?_eq_some_iff.mp hfind
    let b := { p.bulletin with promotedBy := some user.pk }.withContent
    have hguard : (Act.touch (p.withBulletin b)).Guard db.tables := by
      refine ⟨p, ?_, ?_⟩
      · rw [withBulletin_pk]
        exact (congrArg db.tables.posts.find? hpk).trans hfind
      · cases p <;> rfl
    apply ensures_bind
    apply saved_ensures
    · intro db' htables
      have hpath : Path E t₀ db'.tables := htables ▸ hp.step (he _) hguard
      exact mentioned_keeps (P := fun t _ => Path E t₀ t) _ _ db' hpath
    · exact hp

/-- What a form finds of the request it is given. -/
structure Answering (t : Tables) (bulletin k : Nat) (l : Leadership) (request : Request) :
    Prop where
  find : t.posts.find? bulletin = some (.leadership l)
  responds : l.canRespond = true
  user : request.user.pk = k

section Answering

variable {request : Request} {response : Response} {valid : Bool} {post : Post}

theorem Answering.openRequest (h : Answering db.tables bulletin k l request) :
    OpenRequest db.tables bulletin l := by
  have hpk : l.pk = bulletin := (Table.find?_eq_some_iff.mp h.find).2
  exact ⟨⟨l, hpk.symm ▸ h.find, rfl⟩, hpk, h.responds⟩

/-- The owner's profile is fetched before the answer is recorded. -/
theorem Answering.owner (h : Answering db.tables bulletin k l request) {u : User}
    {p : UserProfile} (hu : db.tables.users.find? l.owner = some u)
    (hp : db.tables.profiles.find? u.pk = some p) :
    AnsweredOwner db.tables bulletin { p with user := u } :=
  ⟨current_profile hp, l, h.openRequest, (Table.find?_eq_some_iff.mp hu).2.symm⟩

/-- The answer is recorded for each view alike. -/
theorem Answering.save (h : Answering db.tables bulletin k l request) (hr : response ≠ .pending)
    (view : Kind) (slug : Text) (r : Int) :
    Ensures may db (ResponseForm.save request l response valid)
      (fun r' db' => (Path (Allows db.tables (.response view slug (some k) bulletin r)) db.tables
          db'.tables ∧ db'.tables.profiles = db.tables.profiles) ∧
        r' = if valid then response else .canceled)
      (fun db' => Path (Allows db.tables (.response view slug (some k) bulletin r)) db.tables
        db'.tables) := by
  apply responseSave_path Path.refl h.openRequest.1 h.responds hr
  intro l' response hpk hcore
  obtain ⟨⟨l₀, hfind, hl₀⟩, hbulletin, hopen⟩ := h.openRequest
  rw [h.user]
  refine Allows.answer ⟨⟨l₀, hpk ▸ hfind, hl₀.trans hcore.symm⟩, hpk.trans hbulletin, ?_⟩
  have hresponse : l'.response = l.response := congrArg (fun c => c.2.2.1) hcore
  unfold Leadership.canRespond at *
  rw [hresponse]
  exact hopen

theorem response_of_recorded {recorded : Response}
    (h : recorded = if valid then response else .canceled) (hne : recorded ≠ .canceled) :
    valid = true ∧ response = recorded := by
  cases hv : valid with
  | false =>
    rw [hv] at h
    exact absurd h hne
  | true =>
    rw [hv] at h
    exact ⟨rfl, h.symm⟩

theorem leadSave_path (h : Answering db.tables bulletin k l request) (hne : response ≠ .pending)
    (hr : Response.ofInt r = some response) :
    Follows may (Allows db.tables (.response .lead slug (some k) bulletin r)) db.tables
      (LeadResponseForm.save request l response valid) db := by
  apply follows_getUser Path.refl
  intro u hu
  apply follows_getProfile Path.refl
  intro p hp
  have howner := h.owner hu hp
  apply follows_then (h.save hne .lead slug r)
  intro r' db' hsaved
  obtain ⟨⟨hpath, hprofiles⟩, hr'⟩ := hsaved
  dsimp only
  split
  · rename_i happroved
    obtain ⟨-, hresponse⟩ := response_of_recorded hr' (by simp [happroved])
    apply follows_then (becomeLeader_path hpath (howner.1.congr hprofiles)
      fun _ => Allows.lead howner (hresponse.trans happroved ▸ hr))
    intro _ after hafter
    exact follows_pure hafter.1.1
  · exact follows_pure hpath

theorem pairSave_path (h : Answering db.tables bulletin k l request) (hne : response ≠ .pending)
    (hr : Response.ofInt r = some response) (hfree : Available db.tables k) :
    Follows may (Allows db.tables (.response .pair slug (some k) bulletin r)) db.tables
      (PairResponseForm.save request l response valid) db := by
  apply follows_getUser Path.refl
  intro u hu
  apply follows_getProfile Path.refl
  intro p hp
  have howner := h.owner hu hp
  apply follows_then (h.save hne .pair slug r)
  intro r' db' hsaved
  obtain ⟨⟨hpath, hprofiles⟩, hr'⟩ := hsaved
  dsimp only
  split
  · rename_i happroved
    obtain ⟨-, hresponse⟩ := response_of_recorded hr' (by simp [happroved])
    have hassign : Allows db.tables (.response .pair slug (some k) bulletin r)
        (.assign { p with user := u } ((some request.user).map User.pk)) := by
      rw [Option.map_some, h.user]
      exact Allows.pair howner (hresponse.trans happroved ▸ hr) hfree
    apply follows_then (assignLeader_path hpath (howner.1.congr hprofiles) hassign ?_)
    · intro _ after hafter
      exact follows_pure hafter.1.1
    · intro responder hresponder
      cases hresponder
      rw [h.user]
      exact hfree.congr hprofiles
  · exact follows_pure hpath

theorem joinSave_path (h : Answering db.tables bulletin k l request) (hne : response ≠ .pending)
    (hr : Response.ofInt r = some response)
    (hvalid : valid = true →
      ∀ p, db.tables.profiles.find? l.owner = some p → p.canApply = true) :
    Follows may (Allows db.tables (.response .join slug (some k) bulletin r)) db.tables
      (JoinResponseForm.save request l response valid) db := by
  apply follows_getUser Path.refl
  intro u hu
  apply follows_getProfile Path.refl
  intro p hp
  have howner := h.owner hu hp
  have hkey : u.pk = l.owner := (Table.find?_eq_some_iff.mp hu).2
  have happly (hv : valid = true) : UserProfile.canApply { p with user := u } = true :=
    hvalid hv p (hkey ▸ hp)
  apply follows_then (h.save hne .join slug r)
  intro r' db' hsaved
  obtain ⟨⟨hpath, hprofiles⟩, hr'⟩ := hsaved
  have hcur := howner.1.congr hprofiles
  dsimp only
  split
  · rename_i happroved
    obtain ⟨hv, hresponse⟩ := response_of_recorded hr' (by simp [happroved])
    have henroll (leader : Option Nat)
        (hk : ∀ j ∈ leader, j = request.user.pk ∧ Available db'.tables j) :
        Allows db.tables (.response .join slug (some k) bulletin r)
          (.enroll { p with user := u } p.chapter leader) := by
      refine Allows.enroll howner (hresponse.trans happroved ▸ hr) (happly hv) ?_
      intro j hj
      obtain ⟨hjk, hfree⟩ := hk j hj
      rw [hjk, h.user] at hfree
      exact ⟨hjk.trans h.user, hfree.congr hprofiles.symm⟩
    apply follows_then (activate_path hpath hcur henroll)
    intro _ after hafter
    exact follows_pure hafter.1.1
  · split
    · rename_i hdenied
      obtain ⟨hv, hresponse⟩ := response_of_recorded hr' (by simp [hdenied])
      have hrefuse : Allows db.tables (.response .join slug (some k) bulletin r)
          (.refuse { p with user := u }) :=
        Allows.refuse howner (hresponse.trans hdenied ▸ hr) (happly hv)
      apply follows_then (denyMembership_path hpath hcur hrefuse)
      intro _ after hafter
      exact follows_pure hafter
    · exact follows_pure hpath

theorem promoteSave_path (h : Answering db.tables bulletin k l request)
    (hne : response ≠ .pending) :
    Follows may (Allows db.tables (.response .promote slug (some k) bulletin r)) db.tables
      (PromoteResponseForm.save request l response valid) db := by
  apply follows_then (h.save hne .promote slug r)
  intro r' db' hsaved
  obtain ⟨⟨hpath, -⟩, -⟩ := hsaved
  dsimp only
  split
  · cases l.related with
    | none => exact follows_throw hpath
    | some related =>
      apply follows_then (promote_path hpath fun _ => Allows.endorse)
      intro _ after hafter
      exact follows_pure hafter
  · exact follows_pure hpath

theorem helpSave_path (h : Answering db.tables bulletin k l request)
    (hne : response ≠ .pending) :
    Follows may (Allows db.tables (.response .help slug (some k) bulletin r)) db.tables
      (HelpResponseForm.save request l response valid) db :=
  ensures_weaken (h.save hne .help slug r) fun _ _ hsaved => hsaved.1.1

/-- Each view writes what its own form allows. -/
theorem saveResponse_path (h : Answering db.tables bulletin k l request)
    (hne : response ≠ .pending) (hr : Response.ofInt r = some response)
    (hvalid : view = .join → valid = true →
      ∀ p, db.tables.profiles.find? l.owner = some p → p.canApply = true)
    (hfree : view = .pair → Available db.tables k) :
    Follows may (Allows db.tables (.response view slug (some k) bulletin r)) db.tables
      (view.saveResponse request l response valid) db := by
  cases view with
  | join => exact joinSave_path h hne hr (hvalid rfl)
  | lead => exact leadSave_path h hne hr
  | pair => exact pairSave_path h hne hr (hfree rfl)
  | help => exact helpSave_path h hne
  | promote => exact promoteSave_path h hne

theorem cleanResponse_ok {response : Response}
    (h : ResponseForm.cleanResponse r = .ok response) :
    Response.ofInt r = some response ∧ response ≠ .pending := by
  unfold ResponseForm.cleanResponse at h
  split at h
  · cases h
  · cases h
  · rename_i hne hr
    cases h
    exact ⟨hr, hne⟩

theorem answer_path (hfind : db.tables.posts.find? bulletin = some post)
    (huser : request.user.pk = k) :
    Follows may (Allows db.tables (.response view slug (some k) bulletin r)) db.tables
      (view.answer request post r) db := by
  unfold Kind.answer
  split
  · exact follows_pure Path.refl
  · rename_i response hclean
    obtain ⟨hr, hne⟩ := cleanResponse_ok hclean
    cases post with
    | other b => exact follows_throw Path.refl
    | leadership l =>
      dsimp only
      split
      · exact follows_pure Path.refl
      · rename_i hopen
        have h : Answering db.tables bulletin k l request := ⟨hfind, by simpa using hopen, huser⟩
        apply follows_look valid_ensures Path.refl
        intro valid hvalid
        apply follows_look cleanResponder_ensures Path.refl
        intro message hfree
        cases message with
        | some message => exact follows_pure Path.refl
        | none =>
          have hjoin (hview : view = .join) (hv : valid = true) (p : UserProfile)
              (hp : db.tables.profiles.find? l.owner = some p) : p.canApply = true := by
            rw [hvalid p hp, hview] at hv
            exact hv
          have hsave : Follows may (Allows db.tables (.response view slug (some k) bulletin r))
              db.tables (view.saveResponse request l response valid) db :=
            saveResponse_path h hne hr hjoin fun hview => huser ▸ hfree hview rfl
          apply follows_then hsave
          intro _ after hafter
          exact follows_pure hafter

end Answering

end Respond

end HackerUnion.Petri
