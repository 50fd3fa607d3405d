import HackerUnion.Petri.Allowed

namespace HackerUnion.Petri

open Bash (Text text lower)
open Durable
open Durable.Handler

variable {may : Service → Bool → Prop} {E : Act → Prop} {t₀ : Tables} {db : Db}

section Lookups

theorem getUserByName_ensures {username : Text} :
    Ensures may db (getUserByName username)
      (fun found db' => db' = db ∧
        ∀ u ∈ found, u ∈ db.tables.users.rows ∧ lower u.username = lower username)
      (fun db' => db' = db) := by
  apply ensures_read
  split
  · exact ensures_pure ⟨rfl, fun u hu => by cases hu⟩
  · rename_i u hfilter
    refine ensures_pure ⟨rfl, ?_⟩
    intro v hv
    cases hv
    have hmem : u ∈ db.tables.users.rows.filter
        (fun u => lower u.username = lower username) := by
      rw [hfilter]
      exact List.mem_singleton_self u
    simpa using List.mem_filter.mp hmem
  · exact ensures_throw rfl

theorem getUserByRole_ensures {username : Text} {isLeader : Bool} :
    Ensures may db (getUserByRole username isLeader)
      (fun found db' => db' = db ∧ ∀ u ∈ found, ∀ p,
        db.tables.profiles.find? u.pk = some p → p.isLeader = isLeader)
      (fun db' => db' = db) := by
  apply ensures_read
  split
  · exact ensures_pure ⟨rfl, fun u hu => by cases hu⟩
  · rename_i u hfilter
    refine ensures_pure ⟨rfl, ?_⟩
    intro v hv p hp
    cases hv
    have hmem : u ∈ db.tables.users.rows.filter (fun u => lower u.username = lower username &&
        (db.tables.profiles.find? u.pk).any fun p => p.isLeader = isLeader) := by
      rw [hfilter]
      exact List.mem_singleton_self u
    have hrole := (List.mem_filter.mp hmem).2
    simpa [hp] using (Bool.and_eq_true_iff.mp hrole).2
  · exact ensures_throw rfl

end Lookups

section Wrappers

variable {slug : Text} {user : Option Nat} {P : Db → Prop}

/-- What holds before, and however the view ends, holds however the request is handled. -/
theorem chapterView_ensures {membersOnly : Bool} {view : Request → M Reply} (h : P db)
    (hview : ∀ k request p, user = some k → db.tables.users.find? k = some request.user →
      db.tables.chapters.rows.find? (fun c => c.slug = slug) = some request.chapter →
      db.tables.profiles.find? k = some p → (membersOnly = true → p.isMember request.chapter = true) →
      Ensures may db (view request) (fun _ => P) P) :
    Ensures may db (chapterView slug user membersOnly view) (fun _ => P) P := by
  apply ensures_read
  split
  · exact ensures_pure h
  · rename_i chapter hchapter
    cases user with
    | none => exact ensures_pure h
    | some k =>
      apply ensures_bind
      apply getUser_ensures _ h
      intro u hu
      apply ensures_bind
      apply getProfile_ensures _ h
      intro p hp
      have hk : u.pk = k := (Table.find?_eq_some_iff.mp hu).2
      dsimp only
      split
      · exact ensures_bind (ensures_throw h)
      · rename_i hmember
        refine hview k ⟨u, chapter⟩ p rfl hu hchapter (hk ▸ hp) ?_
        intro honly
        rw [honly, Bool.true_and, Bool.not_eq_true', Bool.not_eq_false] at hmember
        exact hmember

/-- The user may see the bulletin through a view. -/
structure Seeing (t : Tables) (slug : Text) (user : Option Nat) (bulletin : Nat)
    (leadersOnly : Bool) (k : Nat) (request : Request) (post : Post) : Prop where
  login : user = some k
  account : t.users.find? k = some request.user
  place : t.chapters.rows.find? (fun c => c.slug = slug) = some request.chapter
  found : t.posts.find? bulletin = some post
  leads : leadersOnly = true → ∃ p, t.profiles.find? k = some p ∧ p.isLeader = true
  owned : leadersOnly = true → ∃ u, t.users.find? post.bulletin.owner = some u ∧
    ∃ q, t.profiles.find? u.pk = some q

theorem bulletinView_ensures {bulletin : Nat} {leadersOnly ownerOnly : Bool}
    {view : Request → Post → M Reply} (h : P db)
    (hview : ∀ k request post, Seeing db.tables slug user bulletin leadersOnly k request post →
      Ensures may db (view request post) (fun _ => P) P) :
    Ensures may db (bulletinView slug user bulletin leadersOnly ownerOnly view) (fun _ => P) P := by
  apply chapterView_ensures h
  intro k request own huser hu hchapter hown _
  apply ensures_bind
  apply getProfile_ensures _ h
  intro p hp
  have hk : request.user.pk = k := (Table.find?_eq_some_iff.mp hu).2
  apply ensures_read
  cases hpost : db.tables.posts.find? bulletin with
  | none => exact ensures_pure h
  | some post =>
    dsimp only
    have hgate (howner : p.isLeader = true →
          ∃ u, db.tables.users.find? post.bulletin.owner = some u ∧
            ∃ q, db.tables.profiles.find? u.pk = some q) :
        Ensures may db (do
          if !UserProfile.canModerate { p with user := request.user } then
            if !decide (post.bulletin.owner = request.user.pk) && ownerOnly then
              return .forbidden
            if leadersOnly && !p.isLeader then return .forbidden
            if post.bulletin.isOfficial && !decide (post.bulletin.owner = request.user.pk) &&
                !p.isLeader then return .forbidden
          view request post) (fun _ => P) P := by
      have hgo (hlead : leadersOnly = true → p.isLeader = true) :
          Ensures may db (view request post) (fun _ => P) P :=
        hview k request post ⟨huser, hu, hchapter, hpost, fun hl => ⟨p, hk ▸ hp, hlead hl⟩,
          fun hl => howner (hlead hl)⟩
      dsimp only
      split
      · split
        · exact ensures_pure h
        · split
          · exact ensures_pure h
          · rename_i hlead
            split
            · exact ensures_pure h
            · apply hgo
              intro hl
              simpa [hl] using hlead
      · rename_i hmod
        apply hgo
        intro _
        rw [Bool.not_eq_true', Bool.not_eq_false] at hmod
        exact (Bool.and_eq_true_iff.mp hmod).1
    split
    · apply ensures_bind
      apply getUser_ensures _ h
      intro owner howner
      apply ensures_bind
      apply getProfile_ensures _ h
      intro q hq
      exact hgate fun _ => ⟨owner, howner, q, hq⟩
    · rename_i hnot
      exact hgate fun hlead => absurd hlead hnot

theorem loginRequired_path {view : User → M Reply}
    (hview : ∀ k u, user = some k → u.pk = k → Follows may E db.tables (view u) db) :
    Follows may E db.tables (loginRequired user view) db := by
  cases user with
  | none => exact follows_pure Path.refl
  | some k =>
    apply follows_getUser Path.refl
    intro u hu
    exact hview k u rfl (Table.find?_eq_some_iff.mp hu).2

end Wrappers

section Forms

variable {sub : Submission} {user : Option Nat}

/-- The rest of a form once what it did leaves the tables reached. -/
theorem follows_done {α : Type} {c : M α} {t : Tables} {reply : Reply}
    (hc : Follows may E t c db) : Follows may E t (do let _ ← c; return reply) db := by
  apply follows_then hc
  intro _ db' h
  exact follows_pure h

/-- A leader resigns: what the submission allows is what a resignation does. -/
theorem leadResign_path {u : User}
    (h : ∀ p, db.tables.profiles.find? u.pk = some p → p.isLeader = true →
      sub.Resigns db.tables u.pk) :
    Follows may (Allows db.tables sub) db.tables (leadResign u) db := by
  apply follows_getProfile Path.refl
  intro p hp
  dsimp only
  split
  · exact follows_pure Path.refl
  · rename_i hnot
    have hlead : p.isLeader = true := by simpa using hnot
    have hresigns := h p hp hlead
    apply follows_then (resignLeadership_path Path.refl (current_profile hp)
      (fun _ => Allows.unmoderate hresigns) (fun _ _ => Allows.detach hresigns)
      (fun _ _ => Allows.reassign hresigns) fun _ hcommit => by cases hcommit)
    intro p' db' hresigned
    obtain ⟨hpath, hretire⟩ := hresigned
    obtain ⟨q, rfl, hpk, hleader, hguard⟩ := hretire hlead rfl
    have hallow : Allows db.tables sub (.retire q) := by
      refine Allows.retire (hpk ▸ hresigns) ⟨p, ?_, hleader.symm⟩
      rw [hpk]
      exact hp
    apply follows_done
    exact ensures_weaken (save_path hpath hallow hguard rfl) fun _ _ hs => hs.2

theorem settingsResign_path :
    Follows may (Allows db.tables (.settingsResign user)) db.tables (settingsResign user) db := by
  apply loginRequired_path
  intro k u huser hk
  apply leadResign_path
  intro p hp hlead
  exact ⟨huser.trans (congrArg some hk.symm), p, hp, hlead⟩

theorem resign_path {slug : Text} :
    Follows may (Allows db.tables (.resign slug user)) db.tables (resign slug user) db := by
  apply chapterView_ensures Path.refl
  intro k request q huser hu hchapter hq hmember
  have hk : request.user.pk = k := (Table.find?_eq_some_iff.mp hu).2
  apply leadResign_path
  intro p hp hlead
  rw [hk, hq] at hp
  cases hp
  subst hk
  exact ⟨huser, q, hq, hlead, request.chapter, hchapter, hmember rfl⟩

theorem abandon_path {mentee : Nat} :
    Follows may (Allows db.tables (.abandon user mentee)) db.tables (abandon user mentee) db := by
  apply loginRequired_path
  intro k u huser hk
  apply ensures_read
  dsimp only
  split
  · exact follows_pure Path.refl
  · apply follows_getUser Path.refl
    intro v hv
    apply follows_getProfile Path.refl
    intro p hp
    apply follows_done
    exact ensures_weaken (assignLeader_path Path.refl (current_profile hp)
      Allows.abandon fun _ hu => by cases hu) fun _ _ h => h.1.1

theorem ban_path {username : Text} :
    Follows may (Allows db.tables (.ban user username)) db.tables (ban user username) db := by
  apply loginRequired_path
  intro k u huser hk
  apply follows_look getUserByName_ensures Path.refl
  intro found hfound
  cases found with
  | none => exact follows_pure Path.refl
  | some banned =>
    apply follows_getProfile Path.refl
    intro own hown
    dsimp only
    split
    · exact follows_pure Path.refl
    · apply follows_getProfile Path.refl
      intro p hp
      apply follows_done
      exact deactivate_path Path.refl (current_profile hp) Allows.banUnmoderate
        (fun _ => Allows.banDetach) fun _ => Allows.banReassign

theorem transfer_path {mentee leader : Text} :
    Follows may (Allows db.tables (.transfer user mentee leader)) db.tables
      (transfer user mentee leader) db := by
  apply loginRequired_path
  intro k u huser hk
  apply follows_look getUserByRole_ensures Path.refl
  intro found hmentee
  cases found with
  | none => exact follows_pure Path.refl
  | some m =>
    apply follows_look getUserByRole_ensures Path.refl
    intro found hleader
    cases found with
    | none => exact follows_pure Path.refl
    | some g =>
      apply follows_getProfile Path.refl
      intro q hq
      apply follows_look (availableToLead_ensures hq) Path.refl
      intro free hfree
      cases free with
      | false => exact follows_pure Path.refl
      | true =>
        apply follows_getProfile Path.refl
        intro own hown
        split
        · exact follows_pure Path.refl
        · apply follows_getProfile Path.refl
          intro p hp
          apply follows_done
          have hallow : Allows db.tables (.transfer user mentee leader)
              (.assign { p with user := m } ((some g).map User.pk)) :=
            Allows.transfer (hmentee m rfl p hp)
          refine ensures_weaken (assignLeader_path Path.refl (current_profile hp) hallow ?_)
            fun _ _ h => h.1.1
          intro v hv
          cases hv
          exact hfree rfl

theorem moderator_path {username : Text} {grant : Bool} :
    Follows may (Allows db.tables (.moderator user username grant)) db.tables
      (moderator user username grant) db := by
  apply loginRequired_path
  intro k u huser hk
  apply follows_look getUserByName_ensures Path.refl
  intro found hfound
  cases found with
  | none => exact follows_pure Path.refl
  | some named =>
    apply follows_getProfile Path.refl
    intro own hown
    dsimp only
    split
    · exact follows_pure Path.refl
    · apply follows_getProfile Path.refl
      intro p hp
      cases grant with
      | true =>
        apply follows_done
        exact becomeModerator_path Path.refl (current_profile hp)
          (fun _ => Allows.moderatorLead) fun _ _ => Allows.moderate
      | false =>
        apply follows_done
        exact ensures_weaken (resignModeration_path Path.refl (current_profile hp)
          fun _ => Allows.moderatorRevoke) fun _ _ h => h.1.1

theorem guide_path {username : Text} {grant : Bool} :
    Follows may (Allows db.tables (.guide user username grant)) db.tables
      (guide user username grant) db := by
  apply loginRequired_path
  intro k u huser hk
  apply follows_getProfile Path.refl
  intro own hown
  apply follows_look getUserByName_ensures Path.refl
  intro found hnamed
  cases found with
  | none =>
    dsimp only
    split
    · exact ensures_bind (ensures_throw Path.refl)
    · exact follows_pure Path.refl
  | some named =>
    apply follows_getProfile Path.refl
    intro p hp
    dsimp only
    split
    · exact follows_pure Path.refl
    · cases grant with
      | true =>
        apply follows_done
        exact ensures_weaken (becomeLeader_path Path.refl (current_profile hp)
          fun _ => Allows.guide) fun _ _ h => h.1.1
      | false =>
        rename_i hgate
        have hresigns (hlead : p.isLeader = true) :
            Submission.Resigns db.tables (.guide user username false) named.pk := by
          refine ⟨rfl, ⟨named, (hnamed named rfl).1, (hnamed named rfl).2, rfl⟩, p, hp, hlead,
            k, huser, own, hk ▸ hown, ?_⟩
          have hcan : UserProfile.canModerate { own with user := u } = own.canModerate := rfl
          rw [hcan] at hgate
          cases hm : own.canModerate with
          | true => exact Or.inl rfl
          | false => exact Or.inr (by simpa [hm, hk] using hgate)
        have hleads : UserProfile.canModerate { p with user := named } = true →
            p.isLeader = true := by
          intro hmod
          exact (Bool.and_eq_true_iff.mp hmod).1
        apply follows_done
        refine ensures_weaken (resignLeadership_path Path.refl (current_profile hp)
          (fun hmod => Allows.unmoderate (hresigns (hleads hmod)))
          (fun hlead _ => Allows.detach (hresigns hlead))
          (fun hlead _ => Allows.reassign (hresigns hlead)) ?_) fun _ _ h => h.1
        intro hlead _ q hpk hleader
        refine Allows.retire (hpk ▸ hresigns hlead) ⟨p, ?_, hleader.symm⟩
        rw [hpk]
        exact hp

end Forms

section Notice

variable {p : UserProfile} {allow : Option Bool}

theorem setting_path {manage : UserProfile → Bool → M UserProfile}
    (hmanage : ∀ allow, Ensures may db (manage p allow)
      (fun p' db' => Path E t₀ db'.tables ∧ Current db'.tables p')
      (fun db' => Path E t₀ db'.tables))
    (hp : Path E t₀ db.tables) (hcur : Current db.tables p) :
    Ensures may db (p.setting manage allow)
      (fun p' db' => Path E t₀ db'.tables ∧ Current db'.tables p')
      (fun db' => Path E t₀ db'.tables) := by
  cases allow with
  | some allow => exact hmanage allow
  | none => exact ensures_pure ⟨hp, hcur⟩

theorem manageOfficial_path (hp : Path E t₀ db.tables) (hcur : Current db.tables p)
    (he : ∀ p, E (.settings p)) (allow : Bool) :
    Ensures may db (p.manageOfficial allow)
      (fun p' db' => Path E t₀ db'.tables ∧ Current db'.tables p')
      (fun db' => Path E t₀ db'.tables) := by
  unfold UserProfile.manageOfficial
  split
  · exact ensures_pure ⟨hp, hcur⟩
  · exact ensures_weaken (subscription_path hp hcur (he _)) fun _ _ h => h.1

theorem manageDiscuss_path (hp : Path E t₀ db.tables) (hcur : Current db.tables p)
    (he : ∀ p, E (.settings p)) (allow : Bool) :
    Ensures may db (p.manageDiscuss allow)
      (fun p' db' => Path E t₀ db'.tables ∧ Current db'.tables p')
      (fun db' => Path E t₀ db'.tables) :=
  ensures_weaken (subscription_path hp hcur (he _)) fun _ _ h => h.1

theorem manageAnnounce_path (hp : Path E t₀ db.tables) (hcur : Current db.tables p)
    (he : ∀ p, E (.settings p)) (allow : Bool) :
    Ensures may db (p.manageAnnounce allow)
      (fun p' db' => Path E t₀ db'.tables ∧ Current db'.tables p')
      (fun db' => Path E t₀ db'.tables) :=
  ensures_weaken (subscription_path hp hcur (he _)) fun _ _ h => h.1

theorem notice_path {user : Option Nat} {data : NoticeData} :
    Follows may (Allows db.tables (.notice user data)) db.tables (notice user data) db := by
  apply loginRequired_path
  intro k u huser hk
  have hset (p : UserProfile) : Allows db.tables (.notice user data) (.settings p) :=
    Allows.notice
  dsimp only
  split
  · exact follows_pure Path.refl
  · apply follows_getProfile Path.refl
    intro row hrow
    apply follows_then (setting_path (manageOfficial_path Path.refl (current_profile hrow) hset)
      Path.refl (current_profile hrow))
    intro p₁ db₁ h₁
    apply follows_then (setting_path (manageDiscuss_path h₁.1 h₁.2 hset) h₁.1 h₁.2)
    intro p₂ db₂ h₂
    apply follows_then (setting_path (manageAnnounce_path h₂.1 h₂.2 hset) h₂.1 h₂.2)
    intro p₃ db₃ h₃
    cases data.digest with
    | none => exact follows_pure h₃.1
    | some digest =>
      have hcur : Current db₃.tables { p₃ with emailDigest := digest } := h₃.2
      apply follows_then (save_path h₃.1 (hset _) hcur rfl)
      intro _ after h
      exact follows_pure h.2

end Notice

section Apply

variable {data : ApplicationData} {chapter : Chapter}

/-- A new user has a key of its own, and the profile of someone who is nobody yet. -/
structure Created (data : ApplicationData) (t t' : Tables) (u : User) : Prop where
  path : Path (Allows t (.apply data)) t t'
  fresh : t.profiles.find? u.pk = none
  invitations : t'.invitations = t.invitations
  row : ∃ q, t'.profiles.find? u.pk = some q ∧ q.roles = (.pending, false, false, none)

theorem newUserKey_fresh (t : Tables) : t.profiles.find? (AccountApplicationForm.newUserKey t) = none := by
  refine Table.find?_eq_none_iff.mpr ?_
  intro p hp hkey
  have hlt := Table.nextKey_lt hp
  unfold AccountApplicationForm.newUserKey at hkey
  omega

theorem createUser_ensures {username : Text} :
    Ensures may db (AccountApplicationForm.createUser username)
      (fun u db' => Created data db.tables db'.tables u)
      (fun db' => Path (Allows db.tables (.apply data)) db.tables db'.tables) := by
  have hfresh := newUserKey_fresh db.tables
  let user : User := ⟨AccountApplicationForm.newUserKey db.tables, username, []⟩
  have haccount : Path (Allows db.tables (.apply data)) db.tables
      ((Act.account user).apply db.tables) :=
    Path.refl.step Allows.account trivial
  apply ensures_read
  dsimp only
  apply ensures_bind
  apply saved_ensures
  · intro db₁ h₁
    have hpath₁ : Path (Allows db.tables (.apply data)) db.tables db₁.tables := h₁ ▸ haccount
    have hprofiles : db₁.tables.profiles = db.tables.profiles := by rw [h₁]
    split
    · cases db.tables.chapters.find? 1 with
      | none => exact ensures_bind (ensures_throw hpath₁)
      | some first =>
        let p := AccountApplicationForm.defaultProfile user first
        have hguard : (Act.register p).Guard db₁.tables := ⟨hprofiles ▸ hfresh, rfl⟩
        apply ensures_seq (save_path (p := p) hpath₁ Allows.register hguard rfl)
        intro _ db₂ h₂
        obtain ⟨htables, hpath₂⟩ := h₂
        refine ensures_pure ⟨hpath₂, hfresh, by rw [htables, h₁]; rfl, p, ?_, rfl⟩
        rw [htables]
        exact Table.find?_save_self
    · rename_i hsome
      simp [hfresh] at hsome
  · exact Path.refl

theorem invite_ensures :
    Ensures may db (AccountApplicationForm.invite data chapter)
      (fun found db' => db' = db ∧ ∀ i ∈ found, Invited db.tables data)
      (fun db' => db' = db) := by
  have hnone {e : Option Invitation} (he : e = none) :
      Ensures may db (pure e : M (Option Invitation))
        (fun found db' => db' = db ∧ ∀ i ∈ found, Invited db.tables data)
        (fun db' => db' = db) :=
    ensures_pure ⟨rfl, fun i hi => by rw [he] at hi; cases hi⟩
  unfold AccountApplicationForm.invite
  split
  · exact hnone rfl
  · rename_i hcode
    apply ensures_bind
    apply ensures_read
    split
    · exact ensures_pure (hnone rfl)
    · rename_i i hfilter
      refine ensures_pure ?_
      dsimp only
      by_cases hactive : i.chapter.pk = chapter.pk ∧ i.isActive = true
      · refine ensures_pure ⟨rfl, fun _ _ => ⟨hcode, i, ?_⟩⟩
        have hmem : i ∈ db.tables.invitations.rows.filter
            (fun i => i.code = data.invitationCode) := by
          rw [hfilter]
          exact List.mem_singleton_self i
        obtain ⟨hrow, hi⟩ := List.mem_filter.mp hmem
        exact ⟨hrow, of_decide_eq_true hi, hactive.2⟩
      · apply hnone
        simpa using hactive
    · exact ensures_throw rfl

theorem invite_keeps {I : Db → Prop} :
    Keeps may I (AccountApplicationForm.invite data chapter) := by
  intro db hi
  apply ensures_mono invite_ensures
  · intro _ db' h
    rw [h.1]
    exact hi
  · intro db' h
    rw [h]
    exact hi

theorem clean_keeps {I : Db → Prop} :
    Keeps may I (AccountApplicationForm.clean data chapter) := by
  unfold AccountApplicationForm.clean
  split
  · apply keeps_bind invite_keeps
    intro found
    cases found with
    | none => exact keeps_pure _
    | some i => exact keeps_pure _
  · split
    · exact keeps_pure _
    · exact keeps_pure _

/-- The sponsor's chapter admits the one who is invited. -/
theorem invitation_activate_path {t : Tables} {i : Invitation} {p : UserProfile}
    (hp : Path (Allows t (.apply data)) t db.tables) (hcur : Current db.tables p)
    (hfresh : t.profiles.find? p.pk = none) (hroles : p.roles = (.pending, false, false, none))
    (hi : Invited t data) :
    Ensures may db (i.activate p)
      (fun p' db' => Path (Allows t (.apply data)) t db'.tables ∧ Current db'.tables p')
      (fun db' => Path (Allows t (.apply data)) t db'.tables) := by
  apply ensures_bind
  apply getUser_ensures
  · intro sponsor hsponsor
    apply ensures_seq (activate_path hp hcur fun _ _ => Allows.redeemed hfresh hroles hi)
    intro p' db₁ h₁
    obtain ⟨⟨hpath, hnow⟩, -⟩ := h₁
    apply ensures_bind
    apply saved_ensures
    · intro db₂ h₂
      have hredeem : Path (Allows t (.apply data)) t
          ((Act.redeem { i with isActive := false }).apply db₁.tables) :=
        hpath.step Allows.redeem trivial
      exact ensures_pure ⟨h₂ ▸ hredeem, hnow.congr (by rw [h₂])⟩
    · exact hpath
  · exact hp

theorem applySave_path :
    Follows may (Allows db.tables (.apply data)) db.tables
      (AccountApplicationForm.save data chapter) db := by
  have hbootstrap (user : User) (db₁ : Db) (invited : Bool)
      (h₁ : Path (Allows db.tables (.apply data)) db.tables db₁.tables) :
      Follows may (Allows db.tables (.apply data)) db.tables (do
        if invited then
          let _ ← bootstrapJoinRequest user chapter data.application) db₁ := by
    split
    · apply ensures_bind
      apply ensures_then (file_path h₁ fun l hl _ => Allows.bootstrap hl)
      · intro _ after h
        exact ensures_pure (ensures_pure h.1)
      · intro after h
        exact h.1
    · exact follows_pure h₁
  have hstore (user : User) (invited : Bool) (p : UserProfile) (db₁ : Db)
      (h₁ : Path (Allows db.tables (.apply data)) db.tables db₁.tables ∧ Current db₁.tables p) :
      Follows may (Allows db.tables (.apply data)) db.tables (do
        p.save
        saved fun t => { t with users := t.users.save user }
        if invited then
          let _ ← bootstrapJoinRequest user chapter data.application) db₁ := by
    apply follows_then (save_path h₁.1 Allows.fill h₁.2 rfl)
    intro _ db₂ h₂
    apply ensures_bind
    apply saved_ensures
    · intro db₃ h₃
      have haccount : Path (Allows db.tables (.apply data)) db.tables
          ((Act.account user).apply db₂.tables) :=
        h₂.2.step Allows.account trivial
      exact hbootstrap user db₃ invited (h₃ ▸ haccount)
    · exact h₂.2
  apply follows_then createUser_ensures
  intro u db₁ h₁
  obtain ⟨hpath, hfresh, hinvitations, q, hq, hroles⟩ := h₁
  apply follows_getProfile hpath
  intro row hrow
  cases hq.symm.trans hrow
  have hcur : Current db₁.tables { q with
      user := { u with email := data.email }
      displayName := strip data.displayName
      chapter := chapter } := ⟨q, hq, rfl⟩
  apply follows_look invite_ensures hpath
  intro invitation hinvited
  cases invitation with
  | none =>
    apply ensures_bind
    exact ensures_pure (hstore _ true _ _ ⟨hpath, hcur⟩)
  | some i =>
    have hi : Invited db.tables data := by
      have h := hinvited i rfl
      unfold Invited at *
      rwa [hinvitations] at h
    apply follows_then (invitation_activate_path hpath hcur hfresh hroles hi)
    intro p' db₃ h₃
    exact hstore _ false p' db₃ h₃

theorem apply_path :
    Follows may (Allows db.tables (.apply data)) db.tables (apply data) db := by
  apply ensures_read
  split
  · apply ensures_then (clean_keeps (I := fun db' => db' = db) db rfl)
    · intro message db' h
      subst h
      cases message with
      | some message => exact follows_pure Path.refl
      | none =>
        apply follows_then applySave_path
        intro _ after h
        exact follows_pure h
    · intro db' h
      rw [h]
      exact Path.refl
  · exact follows_pure Path.refl

end Apply

section Handle

variable {slug : Text} {user : Option Nat} {bulletin : Nat}

theorem requestView_path {kind : Kind} {data : RequestData} :
    Follows may (Allows db.tables (.request kind slug user data)) db.tables
      (requestView kind slug user data) db := by
  apply chapterView_ensures Path.refl
  intro k request p huser hu hchapter hp hmember
  have hk : request.user.pk = k := (Table.find?_eq_some_iff.mp hu).2
  subst huser
  apply ensures_mono (file_path Path.refl fun l hl ho => Allows.request hl (ho.trans hk))
  · intro _ db' h
    exact h.1
  · intro db' h
    exact h.1

theorem responseView_path {view : Kind} {r : Int} :
    Follows may (Allows db.tables (.response view slug user bulletin r)) db.tables
      (responseView view slug user bulletin r) db := by
  apply bulletinView_ensures Path.refl
  intro k request post hseeing
  have hk : request.user.pk = k := (Table.find?_eq_some_iff.mp hseeing.account).2
  rw [hseeing.login]
  exact answer_path hseeing.found hk

theorem cancel_path :
    Follows may (Allows db.tables (.cancel slug user bulletin)) db.tables
      (cancel slug user bulletin) db := by
  apply bulletinView_ensures Path.refl
  intro k request post hseeing
  exact follows_throw Path.refl

/-- Every write of a submission is one it allows, however the handling ends. -/
theorem handle_path (s : Submission) :
    Follows may (Allows db.tables s) db.tables s.handle db := by
  cases s with
  | request kind slug user data => exact requestView_path
  | response view slug user bulletin r => exact responseView_path
  | cancel slug user bulletin => exact cancel_path
  | resign slug user => exact resign_path
  | settingsResign user => exact settingsResign_path
  | abandon user mentee => exact abandon_path
  | ban user username => exact ban_path
  | transfer user mentee leader => exact transfer_path
  | moderator user username grant => exact moderator_path
  | guide user username grant => exact guide_path
  | notice user data => exact notice_path
  | apply data => exact apply_path
  | createPairRequest user chapter reason =>
    apply ensures_then (createPairRequest_path Path.refl fun l hl ho =>
      Allows.createPairRequest hl ho)
    · intro filed db' h
      cases filed with
      | true => exact follows_pure h.1
      | false => exact follows_pure h.1
    · intro db' h
      exact h.1

/-- The step of the application on its tables is a path of acts that the submission allows. -/
theorem step_path (db : Db) (op : Op) :
    Path (Allows db.tables op.submission) db.tables (step db op).tables := by
  let P : Db → Prop := fun db' => Path (Allows db.tables op.submission) db.tables db'.tables
  have h : Ensures (fun _ _ => True) db op.submission.handle (fun _ => P) P := handle_path _
  exact db_of_ensures h fun _ _ => trivial

end Handle

end HackerUnion.Petri
