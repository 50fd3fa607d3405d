import HackerUnion.Petri.Atomic
import HackerUnion.Petri.Roles

namespace HackerUnion.Petri

open Bash (Text text lower)
open Durable
open Durable.Handler

/-- A condition of a query, on a user and the profile. -/
abbrev Q := User → Option UserProfile → Bool

/-- `Q(username__iexact=...)` -/
def usernameIexact (username : Text) : Q := fun user _ => lower user.username = lower username

/-- `Q(userprofile__leader=...)` -/
def userprofileLeader (leader : User) : Q :=
  fun _ profile => profile.any fun p => p.leader = some leader.pk

namespace BanForm

/-- The query that is made in `clean_username`: non-moderators can only ban own mentees. -/
def query (request : User) (own : UserProfile) (username : Text) : Q :=
  if own.canModerate then usernameIexact username
  else fun user profile =>
    usernameIexact username user profile && userprofileLeader request user profile

/-- `clean_username`. The user is looked up by the name alone. -/
def cleanUsername (request : User) (username : Text) : M (Option User × Errors) := do
  let own ← request.getProfile
  let _ := query request own username
  match ← getUserByName username with
  | none => return (none, [(text "username", text "Invalid user.")])
  | some user => return (some user, [])

/-- `clean` -/
def clean (request : User) : M Errors := do
  if !(← request.getProfile).isLeader then
    return [(nonField, text "Only guides can ban users.")]
  return []

/-- `clean_username` is called of a name that is not empty. -/
def cleanFields (request : User) (username : Text) : M (Option User × Errors) :=
  if username = [] then return (none, [(text "username", text "This field is required.")])
  else cleanUsername request username

/-- What is in `_user` when the form has been cleaned, and the errors. -/
def fullClean (request : User) (username : Text) : M (Option User × Errors) := do
  let cleaned ← cleanFields request username
  return (cleaned.1, cleaned.2 ++ (← clean request))

/-- `save` -/
def save (user : User) : M Unit := do
  let profile ← user.getProfile
  let _ ← profile.deactivate
  return

end BanForm

/-- The form validates, and would deactivate the user. -/
def Validates (db : Db) (request : User) (username : Text) (banned : User) : Prop :=
  ∃ faults, (exec (BanForm.fullClean request username) ⟨db, faults⟩).1 = .ok (some banned, [])

/-- Whoever gets the form to validate is a leader, and a moderator or the mentor of the user it
would deactivate. -/
def Authorized (db : Db) (request : User) (username : Text) : Prop :=
  ∀ banned, Validates db request username banned →
    ∃ own, db.tables.profiles.find? request.pk = some own ∧ own.isLeader = true ∧
      (own.isModerator = true ∨ ∃ profile, db.tables.profiles.find? banned.pk = some profile ∧
        profile.leader = some request.pk)

/-- Where a leader names just one user, the user is one of those the query is for. -/
def Queried (db : Db) (request : User) (username : Text) : Prop :=
  ∀ own banned, username ≠ [] → db.tables.profiles.find? request.pk = some own →
    own.isLeader = true →
    usersNamed db username = [banned] →
    BanForm.query request own username banned (db.tables.profiles.find? banned.pk) = true

variable {db : Db} {request banned : User} {username : Text} {k : Nat}
  {faults : Nat → Service → Bool} {may : Service → Bool → Prop}

/-- The name is that of just one user, and a leader sent it. -/
structure Passes (db : Db) (request : User) (username : Text) (banned : User) : Prop where
  name : username ≠ []
  one : usersNamed db username = [banned]
  leader : ∃ own, db.tables.profiles.find? request.pk = some own ∧ own.isLeader = true

section Clean

/-- What is known of a form that was cleaned without an error. -/
def Passed (db : Db) (request : User) (username : Text) (cleaned : Option User × Errors)
    (_ : Db) : Prop :=
  cleaned.2 = [] → ∀ banned ∈ cleaned.1, Passes db request username banned

theorem cleanForm_ensures {cleaned : Option User × Errors}
    (h : cleaned.2 = [] → ∀ banned ∈ cleaned.1, username ≠ [] ∧ usersNamed db username = [banned]) :
    Ensures may db (do return (cleaned.1, cleaned.2 ++ (← BanForm.clean request)))
      (Passed db request username) fun _ => True := by
  apply ensures_bind
  apply ensures_bind
  apply getProfile_ensures _ trivial
  intro own hown
  cases hleader : own.isLeader with
  | false =>
    refine ensures_pure (ensures_pure fun hnone => ?_)
    exact absurd hnone (by simp)
  | true =>
    refine ensures_pure (ensures_pure fun hnone banned hbanned => ?_)
    obtain ⟨hne, hone⟩ := h (by simpa using hnone) banned hbanned
    exact ⟨hne, hone, own, hown, hleader⟩

theorem fullClean_ensures :
    Ensures may db (BanForm.fullClean request username) (Passed db request username)
      fun _ => True := by
  apply ensures_bind
  unfold BanForm.cleanFields
  by_cases hname : username = []
  · rw [if_pos hname]
    refine ensures_pure (cleanForm_ensures fun hnone => ?_)
    cases hnone
  · rw [if_neg hname]
    apply ensures_bind
    apply getProfile_ensures _ trivial
    intro own _
    apply ensures_bind
    apply getUserByName_cases
    · intro _
      refine ensures_pure (cleanForm_ensures fun hnone => ?_)
      cases hnone
    · intro user hone
      refine ensures_pure (cleanForm_ensures fun _ banned hbanned => ?_)
      obtain rfl := Option.some.inj hbanned
      exact ⟨hname, hone⟩
    · intro _
      trivial

theorem getUserByName_finds (h : usersNamed db username = [banned]) :
    Finds db (getUserByName username) (some banned) := by
  apply finds_bind finds_read
  have hfilter : db.tables.users.rows.filter (fun u => lower u.username = lower username) =
      [banned] := h
  rw [hfilter]
  exact finds_pure

/-- Nothing else is asked for. -/
theorem fullClean_finds (h : Passes db request username banned) :
    Finds db (BanForm.fullClean request username) (some banned, []) := by
  obtain ⟨own, hown, hleader⟩ := h.leader
  have hcleaned : Finds db (BanForm.cleanUsername request username) (some banned, []) := by
    apply finds_bind (finds_getProfile hown)
    apply finds_bind (getUserByName_finds h.one)
    exact finds_pure
  have hclean : Finds db (BanForm.clean request) [] := by
    apply finds_bind (finds_getProfile hown)
    simp only [hleader, Bool.not_true, Bool.false_eq_true, if_false]
    exact finds_pure
  have hfields : Finds db (BanForm.cleanFields request username) (some banned, []) := by
    rw [BanForm.cleanFields, if_neg h.name]
    exact hcleaned
  apply finds_bind hfields
  apply finds_bind hclean
  exact finds_pure

theorem validates_iff : Validates db request username banned ↔
    Passes db request username banned := by
  constructor
  · intro h
    obtain ⟨faults, hexec⟩ := h
    have hensures : Ensures (fun _ _ => True) db (BanForm.fullClean request username)
        (Passed db request username) fun _ => True := fullClean_ensures
    have hcleaned := hensures faults fun _ _ => trivial
    generalize exec (BanForm.fullClean request username) ⟨db, faults⟩ = out at hcleaned hexec
    obtain ⟨result, s⟩ := out
    simp only at hexec
    subst hexec
    exact hcleaned.1 rfl banned rfl
  · intro h
    exact ⟨fun _ _ => false, by rw [fullClean_finds h]⟩

end Clean

/-- The user who is looked up is one the query is for just where the requester is a moderator or
the mentor. -/
theorem query_eq_true_iff {own : UserProfile} {profile : Option UserProfile}
    (hleader : own.isLeader = true) (hname : lower banned.username = lower username) :
    BanForm.query request own username banned profile = true ↔
      own.isModerator = true ∨ ∃ p, profile = some p ∧ p.leader = some request.pk := by
  unfold BanForm.query UserProfile.canModerate
  cases hmod : own.isModerator with
  | true => simp [hleader, usernameIexact, hname]
  | false => simp [hleader, usernameIexact, hname, userprofileLeader, Option.any_eq_true]

/-- The form lets no one else ban a user just where the query that it makes would have found the
user that it looks up. -/
theorem authorized_iff : Authorized db request username ↔ Queried db request username := by
  have hiexact {banned : User} (hone : usersNamed db username = [banned]) :
      lower banned.username = lower username := by
    have hmem : banned ∈ usersNamed db username := by
      rw [hone]
      exact List.mem_singleton_self banned
    exact of_decide_eq_true (List.mem_filter.mp hmem).2
  constructor
  · intro h own banned hname hown hleader hone
    obtain ⟨own', hown', -, hrole⟩ := h banned (validates_iff.mpr ⟨hname, hone, own, hown, hleader⟩)
    rw [hown] at hown'
    injection hown' with hown'
    rw [query_eq_true_iff hleader (hiexact hone), hown']
    exact hrole
  · intro h banned hvalid
    obtain ⟨hname, hone, own, hown, hleader⟩ := validates_iff.mp hvalid
    have hquery := h own banned hname hown hleader hone
    exact ⟨own, hown, hleader, (query_eq_true_iff hleader (hiexact hone)).mp hquery⟩

theorem exec_finds {α β : Type} {c : M α} {a : α} (h : Finds db c a) (f : α → M β)
    (faults : Nat → Service → Bool) : exec (c >>= f) ⟨db, faults⟩ = exec (f a) ⟨db, faults⟩ := by
  rw [exec_bind, h faults]

/-- The view deactivates the user of a form that validates. -/
theorem ban_of_validates (hk : db.tables.users.find? k = some request)
    (h : Validates db request username banned) (faults : Nat → Service → Bool) :
    exec (ban (some k) username) ⟨db, faults⟩ =
      exec (do BanForm.save banned; return Reply.success) ⟨db, faults⟩ := by
  have hpasses := validates_iff.mp h
  obtain ⟨own, hown, hleader⟩ := hpasses.leader
  rw [ban, loginRequired, exec_finds (finds_getUser hk),
    exec_finds (getUserByName_finds hpasses.one)]
  dsimp only
  rw [exec_finds (finds_getProfile hown)]
  simp only [hleader, Bool.not_true, Bool.false_eq_true, if_false]
  unfold BanForm.save
  simp only [bind_assoc, pure_bind]

/-- A leader who is no moderator. -/
def onlyGuide : UserProfile := { member 1 (text "ann") true with isModerator := false }

def bob : UserProfile := member 2 (text "bob") false

/-- The leader, and a member without a mentor. -/
def guideAndBob : Db := { annAndBob with
  tables := { annAndBob.tables with profiles := .ofList [onlyGuide, bob] } }

/-- The leader may ban a user who is not the leader's own mentee. -/
theorem ban_not_authorized :
    ¬∀ (db : Db) (request : User) (username : Text), Authorized db request username := by
  intro h
  have hguide : guideAndBob.tables.profiles.find? onlyGuide.user.pk = some onlyGuide := by decide
  have hbob : guideAndBob.tables.profiles.find? bob.user.pk = some bob := by decide
  have hvalid : Validates guideAndBob onlyGuide.user (text "Bob") bob.user :=
    validates_iff.mpr ⟨by decide, by decide, onlyGuide, hguide, rfl⟩
  obtain ⟨own, hown, -, hrole⟩ := h _ _ _ _ hvalid
  rw [hguide] at hown
  obtain rfl := Option.some.inj hown
  rcases hrole with hmoderator | hmentor
  · cases hmoderator
  · obtain ⟨profile, hprofile, hleader⟩ := hmentor
    rw [hbob] at hprofile
    obtain rfl := Option.some.inj hprofile
    cases hleader

end HackerUnion.Petri
