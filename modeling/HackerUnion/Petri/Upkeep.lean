import HackerUnion.Petri.Rolls

namespace HackerUnion.Petri

open Bash (Text text)
open Durable
open Durable.Handler

/-- However the handler ends where no call fails, the members and lists have changed by writes that
are allowed. -/
def Turns {α : Type} (E : Member → Change → Prop) (db₀ : Db) (c : M α) (db : Db) : Prop :=
  Ensures calm db c (fun _ => Reached E db₀) (Reached E db₀)

/-- What is allowed of a user without his asking for it. -/
structure Unasked (E : Member → Change → Prop) : Prop where
  lead : ∀ m, E m .lead
  retire : ∀ m, E m .retire
  approve : ∀ m, E m .approve
  deny : ∀ m, E m .deny

variable {E : Member → Change → Prop} {db₀ db db' : Db} {p q : UserProfile} {α : Type}

section Rules

theorem turns_pure {a : α} (hr : Reached E db₀ db) : Turns E db₀ (pure a : M α) db :=
  ensures_pure hr

theorem turns_throw {e : Exn} (hr : Reached E db₀ db) : Turns E db₀ (throw e : M α) db :=
  ensures_throw hr

theorem turns_still {c : M α} (hr : Reached E db₀ db) (hc : Keeps calm (Still db) c) :
    Turns E db₀ c db := by
  apply ensures_mono (hc db Still.refl)
  · intro _ db' h
    exact h.reached hr
  · intro db' h
    exact h.reached hr

theorem turns_then {β : Type} {c : M β} {f : β → M α} {Q : β → Db → Prop}
    (h : Ensures calm db c Q (Reached E db₀)) (hf : ∀ b db', Q b db' → Turns E db₀ (f b) db') :
    Turns E db₀ (c >>= f) db :=
  ensures_seq h hf

/-- What only reads, by what it finds. -/
theorem turns_look {β : Type} {c : M β} {f : β → M α} {Q : β → Prop}
    (h : Ensures calm db c (fun b db' => db' = db ∧ Q b) (fun db' => db' = db))
    (hr : Reached E db₀ db) (hf : ∀ b, Q b → Turns E db₀ (f b) db) :
    Turns E db₀ (c >>= f) db := by
  apply ensures_then h
  · rintro b db' ⟨rfl, hb⟩
    exact hf b hb
  · rintro db' rfl
    exact hr

theorem turns_getUser {k : Nat} {f : User → M α} (hr : Reached E db₀ db)
    (hf : ∀ u, db.tables.users.find? k = some u → Turns E db₀ (f u) db) :
    Turns E db₀ (getUser k >>= f) db := by
  apply ensures_bind
  exact getUser_ensures hf hr

/-- The profile of a stored user is fetched. -/
theorem turns_getProfile {u : User} {k : Nat} {f : UserProfile → M α} (hr : Reached E db₀ db)
    (hu : db.tables.users.find? k = some u)
    (hf : ∀ row, db.tables.profiles.find? u.pk = some row → Held db { row with user := u } →
      Turns E db₀ (f { row with user := u }) db) :
    Turns E db₀ (u.getProfile >>= f) db := by
  apply ensures_bind
  exact getProfile_ensures (fun row hrow => hf row hrow (held_profile hu hrow)) hr

theorem turns_done {c : M α} {reply : Reply} (h : Turns E db₀ c db) :
    Turns E db₀ (do let _ ← c; return reply) db :=
  turns_then h fun _ _ hr => turns_pure hr

end Rules

section Respond

variable {view : Kind} {l : Leadership} {request : Request} {response : Response} {valid : Bool}

/-- An answer is recorded, and what follows is done with the profile of the owner. -/
theorem turns_respond {f : Response → M Response} (hr : Reached E db₀ db)
    (hf : ∀ r db', Still db db' → (r ≠ .canceled → valid = true ∧ response = r) →
      Turns E db₀ (f r) db') :
    Turns E db₀ (ResponseForm.save request l response valid >>= f) db := by
  apply ensures_then (responseSave_still Still.refl)
  · intro r db' h
    exact hf r db' h.1 h.2
  · intro db' h
    exact h.reached hr

theorem leadSave_turns (he : Unasked E) :
    Turns E db (LeadResponseForm.save request l response valid) db := by
  apply turns_getUser Reached.refl
  intro u hu
  apply turns_getProfile Reached.refl hu
  intro row _ hp
  apply turns_respond Reached.refl
  intro r db' hs _
  dsimp only
  split
  · apply turns_then (becomeLeader_reached (hp.still hs) (hs.reached Reached.refl)
      fun _ => he.lead _)
    intro _ after hafter
    exact turns_pure hafter.1
  · exact turns_pure (hs.reached Reached.refl)

theorem pairSave_turns : Turns E db (PairResponseForm.save request l response valid) db := by
  apply turns_getUser Reached.refl
  intro u hu
  apply turns_getProfile Reached.refl hu
  intro row _ hp
  apply turns_respond Reached.refl
  intro r db' hs _
  dsimp only
  split
  · apply turns_then (assignLeader_reached (hp.still hs) (hs.reached Reached.refl))
    intro _ after hafter
    exact turns_pure hafter.1.1
  · exact turns_pure (hs.reached Reached.refl)

/-- An applicant is approved, and put on the lists that he asks for. -/
theorem approveMembership_turns {leader : User} (he : Unasked E) (hp : Held db p)
    (hr : Reached E db₀ db) (hg : p.canApply = true) :
    Turns E db₀ (p.approveMembership leader) db := by
  apply ensures_weaken (activate_enrolled p p.chapter leader fun _ => hr)
  rintro _ db' ⟨⟨k, rfl⟩, htables, hsubs⟩
  have hguard : Change.approve.Guard p.member := by
    simpa [UserProfile.canApply, UserProfile.hasChapter, Change.Guard, UserProfile.member]
      using hg
  have hregistered : db'.tables.registered = db.tables.registered := by
    rw [htables]
    exact registered_save db.tables hp.mem_keys
  refine hp.changed (c := .approve) hguard (he.approve _) hr hregistered ?_
  refine rolls_eq_added (p := { p with status := .approved, leader := k })
    (P := fun l => l ≠ .official ∧ p.allows l = true) ?_ hsubs
  rw [htables, member_save]
  have hu : db.tables.users.find? p.pk = some p.user := hp.account
  congr 1
  exact congrArg _ hu

theorem denyMembership_turns (he : Unasked E) (hp : Held db p) (hr : Reached E db₀ db)
    (hg : p.canApply = true) : Turns E db₀ p.denyMembership db := by
  apply turns_then (save_wrote { p with status := .denied })
  intro _ db' h
  apply turns_pure
  have hguard : Change.deny.Guard p.member := by
    simpa [UserProfile.canApply, UserProfile.hasChapter, Change.Guard, UserProfile.member] using hg
  refine hp.changed (c := .deny) hguard (he.deny _) hr (h.registered hp.mem_keys) ?_
  apply rolls_eq_write (p := { p with status := .denied }) (h.member hp.account)
  intro x
  rw [h.subscriptions]
  simp [Change.listing]

theorem joinSave_turns (he : Unasked E) (hvalid : valid = true →
      ∀ p, db.tables.profiles.find? l.owner = some p → p.canApply = true) :
    Turns E db (JoinResponseForm.save request l response valid) db := by
  apply turns_getUser Reached.refl
  intro u hu
  apply turns_getProfile Reached.refl hu
  intro row hrow hp
  have hkey : u.pk = l.owner := (Table.find?_eq_some_iff.mp hu).2
  have happly (hv : valid = true) : UserProfile.canApply { row with user := u } = true :=
    hvalid hv row (hkey ▸ hrow)
  apply turns_respond Reached.refl
  intro r db' hs hr
  have hreached : Reached E db db' := hs.reached Reached.refl
  dsimp only
  split
  · rename_i happroved
    have hv := (hr (by simp [happroved])).1
    apply turns_then (approveMembership_turns he (hp.still hs) hreached (happly hv))
    intro _ after hafter
    exact turns_pure hafter
  · split
    · rename_i hdenied
      have hv := (hr (by simp [hdenied])).1
      apply turns_then (denyMembership_turns he (hp.still hs) hreached (happly hv))
      intro _ after hafter
      exact turns_pure hafter
    · exact turns_pure hreached

theorem promoteSave_turns : Turns E db (PromoteResponseForm.save request l response valid) db := by
  apply turns_respond Reached.refl
  intro r db' hs _
  have hreached : Reached E db db' := hs.reached Reached.refl
  dsimp only
  split
  · cases l.related with
    | none => exact turns_throw hreached
    | some related =>
      apply turns_then (turns_still hreached (promote_still related request.user))
      intro _ after hafter
      exact turns_pure hafter
  · exact turns_pure hreached

theorem saveResponse_turns (he : Unasked E) (hvalid : view = .join → valid = true →
      ∀ p, db.tables.profiles.find? l.owner = some p → p.canApply = true) :
    Turns E db (view.saveResponse request l response valid) db := by
  cases view with
  | join => exact joinSave_turns he (hvalid rfl)
  | lead => exact leadSave_turns he
  | pair => exact pairSave_turns
  | promote => exact promoteSave_turns
  | help =>
    apply ensures_mono (responseSave_still Still.refl)
    · intro _ db' h
      exact h.1.reached Reached.refl
    · intro db' h
      exact h.reached Reached.refl

theorem answer_turns {post : Post} {r : Int} (he : Unasked E) :
    Turns E db (view.answer request post r) db := by
  unfold Kind.answer
  split
  · exact turns_pure Reached.refl
  · cases post with
    | other b => exact turns_throw Reached.refl
    | leadership l =>
      dsimp only
      split
      · exact turns_pure Reached.refl
      · apply turns_look valid_ensures Reached.refl
        intro valid hvalid
        apply turns_look cleanResponder_ensures Reached.refl
        intro message _
        cases message with
        | some message => exact turns_pure Reached.refl
        | none =>
          apply turns_done
          apply saveResponse_turns he
          intro hview hv p hp
          rw [hvalid p hp, hview] at hv
          exact hv

end Respond

section Forms

variable {user : Option Nat}

theorem loginRequired_turns {view : User → M Reply}
    (hview : ∀ k u, user = some k → db.tables.users.find? k = some u → Turns E db (view u) db) :
    Turns E db (loginRequired user view) db := by
  cases user with
  | none => exact turns_pure Reached.refl
  | some k =>
    apply turns_getUser Reached.refl
    intro u hu
    exact hview k u rfl hu

theorem leadResign_turns {k : Nat} {u : User} (he : Unasked E)
    (hu : db.tables.users.find? k = some u) : Turns E db (leadResign u) db := by
  apply turns_getProfile Reached.refl hu
  intro row _ hp
  dsimp only
  split
  · exact turns_pure Reached.refl
  · rename_i hnot
    have hlead : row.isLeader = true := by simpa using hnot
    apply turns_then (resignLeadership_reached hp Reached.refl fun _ => he.retire _)
    intro p' db' h
    apply turns_done
    exact (h.2 rfl hlead).save

theorem settingsResign_turns (he : Unasked E) : Turns E db (settingsResign user) db :=
  loginRequired_turns fun _ _ _ hu => leadResign_turns he hu

theorem resign_turns {slug : Text} (he : Unasked E) : Turns E db (resign slug user) db :=
  chapterView_ensures Reached.refl fun _ _ _ _ hu _ _ _ => leadResign_turns he hu

theorem abandon_turns {mentee : Nat} : Turns E db (abandon user mentee) db := by
  apply loginRequired_turns
  intro k u _ _
  apply ensures_read
  dsimp only
  split
  · exact turns_pure Reached.refl
  · apply turns_getUser Reached.refl
    intro v hv
    apply turns_getProfile Reached.refl hv
    intro row _ hp
    apply turns_done
    exact ensures_weaken (assignLeader_reached hp Reached.refl) fun _ _ h => h.1.1

/-- The user that a form names is stored. -/
theorem named_of_found {username : Text} {found : Option User}
    (h : ∀ u ∈ found, u ∈ db.tables.users.rows ∧ Bash.lower u.username = Bash.lower username)
    {u : User} (hu : found = some u) : db.tables.users.find? u.pk = some u :=
  Table.find?_of_mem (h u hu).1

theorem getUserByRole_stored {username : Text} {isLeader : Bool} {R : Db → Prop} (hR : R db) :
    Ensures calm db (getUserByRole username isLeader)
      (fun found db' => db' = db ∧ ∀ u ∈ found, db.tables.users.find? u.pk = some u) R := by
  apply ensures_read
  split
  · exact ensures_pure ⟨rfl, nofun⟩
  · rename_i u hfilter
    refine ensures_pure ⟨rfl, fun v hv => ?_⟩
    have hmem : v ∈ db.tables.users.rows.filter (fun u =>
        Bash.lower u.username = Bash.lower username &&
          (db.tables.profiles.find? u.pk).any fun p => p.isLeader = isLeader) := by
      rw [hfilter]
      exact List.mem_singleton.mpr (Option.some.inj hv).symm
    exact Table.find?_of_mem (List.mem_filter.mp hmem).1
  · exact ensures_throw hR

theorem transfer_turns {mentee leader : Text} : Turns E db (transfer user mentee leader) db := by
  apply loginRequired_turns
  intro k u _ hu
  apply turns_look (getUserByRole_stored rfl) Reached.refl
  intro found hmentee
  cases found with
  | none => exact turns_pure Reached.refl
  | some m =>
    apply turns_look (getUserByRole_stored rfl) Reached.refl
    intro found hleader
    cases found with
    | none => exact turns_pure Reached.refl
    | some g =>
      apply turns_getProfile Reached.refl (hleader g rfl)
      intro row hrow _
      apply turns_look (availableToLead_ensures hrow) Reached.refl
      intro free _
      cases free with
      | false => exact turns_pure Reached.refl
      | true =>
        apply turns_getProfile Reached.refl hu
        intro own _ _
        split
        · exact turns_pure Reached.refl
        · apply turns_getProfile Reached.refl (hmentee m rfl)
          intro p _ hp
          apply turns_done
          exact ensures_weaken (assignLeader_reached hp Reached.refl) fun _ _ h => h.1.1

theorem moderator_turns {username : Text} {grant : Bool} (he : Unasked E) :
    Turns E db (moderator user username grant) db := by
  apply loginRequired_turns
  intro k u _ hu
  apply turns_look getUserByName_ensures Reached.refl
  intro found hfound
  cases found with
  | none => exact turns_pure Reached.refl
  | some named =>
    apply turns_getProfile Reached.refl hu
    intro own _ _
    dsimp only
    split
    · exact turns_pure Reached.refl
    · apply turns_getProfile Reached.refl (named_of_found hfound rfl)
      intro p _ hp
      cases grant with
      | true =>
        apply turns_done
        exact becomeModerator_reached hp Reached.refl fun _ => he.lead _
      | false =>
        apply turns_done
        exact ensures_weaken (resignModeration_reached hp Reached.refl) fun _ _ h => h.1.1

theorem guide_turns {username : Text} {grant : Bool} (he : Unasked E) :
    Turns E db (guide user username grant) db := by
  apply loginRequired_turns
  intro k u _ hu
  apply turns_getProfile Reached.refl hu
  intro own _ _
  apply turns_look getUserByName_ensures Reached.refl
  intro found hfound
  cases found with
  | none =>
    dsimp only
    split
    · exact ensures_bind (ensures_throw Reached.refl)
    · exact turns_pure Reached.refl
  | some named =>
    apply turns_getProfile Reached.refl (named_of_found hfound rfl)
    intro p _ hp
    dsimp only
    split
    · exact turns_pure Reached.refl
    · cases grant with
      | true =>
        apply turns_done
        exact ensures_weaken (becomeLeader_reached hp Reached.refl fun _ => he.lead _)
          fun _ _ h => h.1
      | false =>
        apply turns_done
        exact ensures_weaken (resignLeadership_reached hp Reached.refl fun _ => he.retire _)
          fun _ _ h => h.1 rfl

/-- What is posted of a list. -/
def NoticeData.posted (data : NoticeData) : MailList → Option Bool
  | .announce => data.announce
  | .official => data.official
  | .discuss => data.discuss

theorem setting_turns (manage : UserProfile → Bool → M UserProfile) {allow : Option Bool}
    (hmanage : ∀ a, allow = some a → Ensures calm db (manage p a)
      (fun p' db' => (Reached E db₀ db' ∧ Held db' p') ∧ p'.status = p.status) (Reached E db₀))
    (hr : Reached E db₀ db) (hp : Held db p) :
    Ensures calm db (p.setting manage allow)
      (fun p' db' => (Reached E db₀ db' ∧ Held db' p') ∧ p'.status = p.status)
      (Reached E db₀) := by
  cases allow with
  | some a => exact hmanage a rfl
  | none => exact ensures_pure ⟨⟨hr, hp⟩, rfl⟩

/-- The settings are written one after the other, and leave the user's status as it is. -/
theorem notice_turns {data : NoticeData} (he : ∀ k r m, user = some k →
      db.tables.member k = some r → m.status = r.status → ∀ l allow, data.posted l = some allow →
      E m (.setting l allow)) : Turns E db (notice user data) db := by
  apply loginRequired_turns
  intro k u huser hu
  have hk : u.pk = k := (Table.find?_eq_some_iff.mp hu).2
  dsimp only
  split
  · exact turns_pure Reached.refl
  · apply turns_getProfile Reached.refl hu
    intro row _ hp
    have hset (m : Member) (hm : m.status = row.status) (l : MailList) (allow : Bool)
        (hl : data.posted l = some allow) : E m (.setting l allow) := by
      have hmember : db.tables.member u.pk = some (UserProfile.member { row with user := u }) :=
        hp.row
      exact he k _ m huser (hk ▸ hmember) hm l allow hl
    apply turns_then (setting_turns UserProfile.manageOfficial ?_ Reached.refl hp)
    · rintro p₁ db₁ ⟨⟨hr₁, hp₁⟩, hs₁⟩
      apply turns_then (setting_turns UserProfile.manageDiscuss ?_ hr₁ hp₁)
      · rintro p₂ db₂ ⟨⟨hr₂, hp₂⟩, hs₂⟩
        apply turns_then (setting_turns UserProfile.manageAnnounce ?_ hr₂ hp₂)
        · rintro p₃ db₃ ⟨⟨hr₃, hp₃⟩, hs₃⟩
          cases data.digest with
          | none => exact turns_pure hr₃
          | some digest =>
            apply turns_then (hp₃.save_still (q := { p₃ with emailDigest := digest })
              Still.refl rfl rfl rfl)
            intro _ after hafter
            exact turns_pure (hafter.1.reached hr₃)
        · intro a ha
          exact manageAnnounce_reached hp₂ hr₂ (hset _ (hs₂.trans hs₁) .announce a ha)
      · intro a ha
        exact manageDiscuss_reached hp₁ hr₁ (hset _ hs₁ .discuss a ha)
    · intro a ha
      refine manageOfficial_reached hp Reached.refl (hset _ rfl .official a ?_)
      simp only [Option.ite_none_right_eq_some] at ha
      exact ha.2

end Forms

/-- The methods that give a role, and take it. -/
inductive RoleCall where
  | becomeLeader
  | becomeModerator
  | resignModeration
  | resignLeadership
  deriving DecidableEq

def RoleCall.method : RoleCall → UserProfile → M UserProfile
  | becomeLeader => UserProfile.becomeLeader
  | becomeModerator => UserProfile.becomeModerator
  | resignModeration => UserProfile.resignModeration
  | resignLeadership => UserProfile.resignLeadership

/-- The method is called on the profile of a user. -/
def RoleCall.handle (role : RoleCall) (user : Nat) : M Reply := do
  let profile ← (← getUser user).getProfile
  let _ ← role.method profile
  return .success

/-- A form is submitted, or a role is given or taken otherwise. -/
inductive Task where
  | form (s : Submission)
  | role (call : RoleCall) (user : Nat)
  deriving DecidableEq

def Task.handle : Task → M Reply
  | form s => s.handle
  | role call user => call.handle user

section Handle

theorem role_turns {role : RoleCall} {user : Nat} (he : Unasked E) :
    Turns E db (role.handle user) db := by
  apply turns_getUser Reached.refl
  intro u hu
  apply turns_getProfile Reached.refl hu
  intro row _ hp
  apply turns_done
  cases role with
  | becomeLeader =>
    exact ensures_weaken (becomeLeader_reached hp Reached.refl fun _ => he.lead _)
      fun _ _ h => h.1
  | becomeModerator => exact becomeModerator_reached hp Reached.refl fun _ => he.lead _
  | resignModeration =>
    exact ensures_weaken (resignModeration_reached hp Reached.refl) fun _ _ h => h.1.1
  | resignLeadership =>
    exact ensures_weaken (resignLeadership_reached hp Reached.refl fun _ => he.retire _)
      fun _ _ h => h.1 rfl

/-- A form that changes the members only by writes as they are allowed: all but the one that bans,
which never gets to its write, and that of a sign-up. -/
def Submission.Regular : Submission → Prop
  | .ban _ _ | .apply _ => False
  | _ => True

def Task.Regular : Task → Prop
  | form s => s.Regular
  | role _ _ => True

theorem requestView_turns {kind : Kind} {slug : Text} {user : Option Nat} {data : RequestData} :
    Turns E db (requestView kind slug user data) db := by
  apply chapterView_ensures Reached.refl
  intro _ request _ _ _ _ _ _
  exact turns_still Reached.refl (file_still kind request data)

theorem responseView_turns {view : Kind} {slug : Text} {user : Option Nat} {bulletin : Nat}
    {r : Int} (he : Unasked E) : Turns E db (responseView view slug user bulletin r) db := by
  apply bulletinView_ensures Reached.refl
  intro _ _ _ _
  exact answer_turns he

theorem cancel_turns {slug : Text} {user : Option Nat} {bulletin : Nat} :
    Turns E db (cancel slug user bulletin) db := by
  apply bulletinView_ensures Reached.refl
  intro _ _ _ _
  exact turns_throw Reached.refl

theorem createPairRequest_turns {user : User} {chapter : Chapter} {reason : Text} :
    Turns E db (Submission.createPairRequest user chapter reason).handle db := by
  apply turns_then (turns_still Reached.refl (createPairRequest_still user chapter reason))
  intro filed db' h
  cases filed with
  | true => exact turns_pure h
  | false => exact turns_pure h

theorem handle_turns {s : Submission} (hs : s.Regular) (he : Unasked E)
    (hset : ∀ user data, s = .notice user data → ∀ k r m, user = some k →
      db.tables.member k = some r → m.status = r.status → ∀ l allow, data.posted l = some allow →
      E m (.setting l allow)) : Turns E db s.handle db := by
  cases s with
  | request kind slug user data => exact requestView_turns
  | response view slug user bulletin r => exact responseView_turns he
  | cancel slug user bulletin => exact cancel_turns
  | resign slug user => exact resign_turns he
  | settingsResign user => exact settingsResign_turns he
  | abandon user mentee => exact abandon_turns
  | ban user username => exact hs.elim
  | transfer user mentee leader => exact transfer_turns
  | moderator user username grant => exact moderator_turns he
  | guide user username grant => exact guide_turns he
  | notice user data => exact notice_turns (hset user data rfl)
  | apply data => exact hs.elim
  | createPairRequest user chapter reason => exact createPairRequest_turns

end Handle

end HackerUnion.Petri
