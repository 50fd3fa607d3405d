import HackerUnion.Petri.Views
import HackerUnion.Run.Steps

namespace HackerUnion.Petri

open Bash (Text text)
open Durable
open Durable.Handler

/-- The application through submissions one after another. -/
def runs (db : Db) (ops : List Op) : List Db :=
  Run.states (fun db op => some (step db op)) db ops

/-- Each submission meets a condition where it is made. -/
def Each (C : Db → Op → Prop) (db : Db) (ops : List Op) : Prop :=
  Run.Throughout (fun db op => some (step db op)) C db ops

instance decidableEach (C : Db → Op → Prop) [∀ db op, Decidable (C db op)] (db : Db)
    (ops : List Op) : Decidable (Each C db ops) :=
  inferInstanceAs (Decidable (Run.Throughout (fun db op => some (step db op)) C db ops))

theorem runs_invariant {C : Db → Op → Prop} {I : Tables → Prop}
    (hact : ∀ (db : Db) (op : Op), I db.tables → C db op → ∀ t a, I t →
      Allows db.tables op.submission a → a.Guard t → I (a.apply t))
    {db : Db} (hi : I db.tables) {ops : List Op} (hc : Each C db ops) :
    ∀ s ∈ runs db ops, I s.tables := by
  refine Run.states_invariant (I := fun s => I s.tables) ?_ hi hc
  intro s op s' his hcs hs
  cases hs
  exact (step_path s op).invariant (hact s op his hcs) his

theorem runs_pairwise {R : Tables → Tables → Prop} (hrefl : ∀ t, R t t)
    (htrans : ∀ t t' t'', R t t' → R t' t'' → R t t'')
    (hstep : ∀ db op, R db.tables (step db op).tables) (db : Db) (ops : List Op) :
    (runs db ops).Pairwise fun s s' => R s.tables s'.tables := by
  refine (Run.states_pairwise (R := fun s s' : Db => R s.tables s'.tables) ?_ ?_ ?_ db ops).1
  · intro s
    exact hrefl s.tables
  · intro s s' s''
    exact htrans s.tables s'.tables s''.tables
  · intro s op s' hs
    cases hs
    exact hstep s op

section Rows

variable {t : Tables} {p q : UserProfile}

/-- The row a profile is that of. -/
theorem Current.row (h : Current t p) :
    ∃ r ∈ t.profiles.rows, r.pk = p.pk ∧ r.status = p.status ∧ r.isLeader = p.isLeader ∧
      r.isModerator = p.isModerator ∧ r.leader = p.leader := by
  obtain ⟨r, hr, hroles⟩ := h
  obtain ⟨hmem, hpk⟩ := Table.find?_eq_some_iff.mp hr
  simp only [UserProfile.roles, Prod.mk.injEq] at hroles
  exact ⟨r, hmem, hpk, hroles.1, hroles.2.1, hroles.2.2.1, hroles.2.2.2⟩

def Tables.withProfile (t : Tables) (q : UserProfile) : Tables :=
  { t with profiles := t.profiles.save q }

theorem apply_profiles (t : Tables) (a : Act) : (a.apply t).profiles =
    match a.profile with
    | some q => (t.withProfile q).profiles
    | none => t.profiles := by
  cases a <;> rfl

end Rows

section Graph

/-- Every mentor is a leader, and so is every moderator, and no leader has too many mentees. -/
structure MentorshipGraph (t : Tables) : Prop where
  leaders : ∀ p ∈ t.profiles.rows, ∀ k ∈ p.leader,
    (t.profiles.find? k).any UserProfile.isLeader = true
  moderators : ∀ p ∈ t.profiles.rows, p.isModerator = true → p.isLeader = true
  capacity : ∀ k, mentees t k ≤ maxMentees

variable {t s : Tables} {p q : UserProfile}

theorem MentorshipGraph.congr (h : MentorshipGraph t) (hs : s.profiles = t.profiles) :
    MentorshipGraph s := by
  refine ⟨?_, ?_, ?_⟩
  · rw [hs]
    exact h.leaders
  · rw [hs]
    exact h.moderators
  · intro k
    unfold mentees
    rw [hs]
    exact h.capacity k

/-- A profile whose mentor is a leader who has the place, and who leaves no mentee without a leader,
may be written. -/
theorem MentorshipGraph.save (h : MentorshipGraph t)
    (hmod : q.isModerator = true → q.isLeader = true)
    (hkept : q.isLeader = true ∨ ∀ m ∈ t.profiles.rows, m.leader ≠ some q.pk)
    (hleader : ∀ k ∈ q.leader, ((t.withProfile q).profiles.find? k).any UserProfile.isLeader = true)
    (hplace : ∀ k ∈ q.leader, mentees t k < maxMentees ∨
      ∃ r ∈ t.profiles.rows, r.pk = q.pk ∧ r.leader = some k) :
    MentorshipGraph (t.withProfile q) where
  leaders := by
    intro p hp k hk
    rcases Table.mem_save.mp hp with rfl | ⟨hp, hne⟩
    · exact hleader k hk
    · have hfind : (t.withProfile q).profiles.find? k =
          if q.pk = k then some q else t.profiles.find? k := Table.find?_save
      rw [hfind]
      split
      · rename_i hkey
        rcases hkept with hlead | hnone
        · exact hlead
        · exact absurd (hkey ▸ hk) (hnone p hp)
      · exact h.leaders p hp k hk
  moderators := by
    intro p hp
    rcases Table.mem_save.mp hp with rfl | ⟨hp, -⟩
    · exact hmod
    · exact h.moderators p hp
  capacity := by
    intro k
    by_cases hk : q.leader = some k
    · rcases hplace k hk with hlt | ⟨r, hr, hpk, hrk⟩
      · have hle : mentees (t.withProfile q) k ≤ mentees t k + 1 := Table.count_save_le _
        omega
      · have hle : mentees (t.withProfile q) k ≤ mentees t k := by
          apply Table.count_save_le_of
          intro _
          exact ⟨r, hr, hpk, by simpa using hrk⟩
        have hcapacity := h.capacity k
        omega
    · have hle : mentees (t.withProfile q) k ≤ mentees t k := by
        apply Table.count_save_le_of
        intro hcount
        exact absurd (of_decide_eq_true hcount) hk
      have hcapacity := h.capacity k
      omega

theorem leads_save {k : Nat} (hk : (t.profiles.find? k).any UserProfile.isLeader = true)
    (hq : q.pk = k → q.isLeader = true) :
    ((t.withProfile q).profiles.find? k).any UserProfile.isLeader = true := by
  have hfind : (t.withProfile q).profiles.find? k =
      if q.pk = k then some q else t.profiles.find? k := Table.find?_save
  rw [hfind]
  split
  · rename_i hkey
    exact hq hkey
  · exact hk

theorem leads_iff {r : UserProfile} (hr : r ∈ t.profiles.rows) :
    (t.profiles.find? r.pk).any UserProfile.isLeader = r.isLeader := by
  rw [Table.find?_of_mem hr]
  rfl

/-- A profile that stays a leader, if it was one, keeps its mentor, or loses it, or gets one who is
available. -/
theorem MentorshipGraph.update {r : UserProfile} (h : MentorshipGraph t)
    (hr : r ∈ t.profiles.rows) (hpk : r.pk = q.pk)
    (hlead : r.isLeader = true → q.isLeader = true)
    (hmod : q.isModerator = true → q.isLeader = true)
    (hleader : ∀ k ∈ q.leader, r.leader = some k ∨ Available t k) :
    MentorshipGraph (t.withProfile q) := by
  have hself {k : Nat} (hk : (t.profiles.find? k).any UserProfile.isLeader = true)
      (hkey : q.pk = k) : q.isLeader = true := by
    apply hlead
    rw [← leads_iff hr, hpk, hkey]
    exact hk
  apply h.save hmod
  · cases hq : q.isLeader with
    | true => exact Or.inl rfl
    | false =>
      refine Or.inr ?_
      intro m hm hml
      have htrue := hself (h.leaders m hm q.pk hml) rfl
      rw [hq] at htrue
      cases htrue
  · intro k hk
    have hkl : (t.profiles.find? k).any UserProfile.isLeader = true := by
      rcases hleader k hk with hrk | hfree
      · exact h.leaders r hr k hrk
      · exact hfree.1
    exact leads_save hkl (hself hkl)
  · intro k hk
    rcases hleader k hk with hrk | hfree
    · exact Or.inr ⟨r, hr, hpk, hrk⟩
    · exact Or.inl hfree.2

/-- A leader who is not his own mentor and has no mentees may retire. -/
theorem MentorshipGraph.retire (h : MentorshipGraph t) (hg : (Act.retire p).Guard t)
    (hself : p.leader ≠ some p.pk) :
    MentorshipGraph (t.withProfile { p with isLeader := false }) := by
  obtain ⟨-, hmod, hnone, hcur | ⟨hown, -⟩⟩ := hg
  · obtain ⟨r, hr, hpk, -, -, -, hrl⟩ := hcur.row
    apply h.save
    · intro hm
      rw [show p.isModerator = true from hm] at hmod
      cases hmod
    · exact Or.inr hnone
    · intro k hk
      have hrk : r.leader = some k := hrl.trans hk
      apply leads_save (h.leaders r hr k hrk)
      intro hkey
      have hpk' : p.pk = k := hkey
      rw [hpk'] at hself
      exact absurd hk hself
    · intro k hk
      exact Or.inr ⟨r, hr, hpk, hrl.trans hk⟩
  · exact absurd hown hself

theorem MentorshipGraph.register (h : MentorshipGraph t) (hg : (Act.register p).Guard t) :
    MentorshipGraph (t.withProfile p) := by
  obtain ⟨hfresh, hroles⟩ := hg
  simp only [UserProfile.roles, Prod.mk.injEq] at hroles
  obtain ⟨-, -, hmod, hleader⟩ := hroles
  apply h.save
  · intro hm
    rw [hmod] at hm
    cases hm
  · refine Or.inr ?_
    intro m hm hml
    have hlead := h.leaders m hm p.pk hml
    rw [hfresh] at hlead
    cases hlead
  · intro k hk
    rw [hleader] at hk
    cases hk
  · intro k hk
    rw [hleader] at hk
    cases hk

/-- Every act keeps the graph but for the retirement of a leader who is his own mentor. -/
theorem MentorshipGraph.act {a : Act} (h : MentorshipGraph t) (hg : a.Guard t)
    (hself : ∀ p, a = .retire p → p.leader ≠ some p.pk) : MentorshipGraph (a.apply t) := by
  cases a with
  | settings p =>
    obtain ⟨r, hr, hpk, -, hlead, hmod, hleader⟩ := Current.row hg
    have hupdate := h.update (q := p) hr hpk (fun hl => hlead ▸ hl)
      (fun hm => hlead ▸ h.moderators r hr (hmod.trans hm))
      (fun k hk => Or.inl (hleader.trans hk))
    exact hupdate.congr rfl
  | lead p =>
    obtain ⟨r, hr, hpk, -⟩ := Current.row hg.1
    have hupdate := h.update (q := { p with isLeader := true, leader := none }) hr hpk
      (fun _ => rfl) (fun _ => rfl) (fun k hk => by cases hk)
    exact hupdate.congr rfl
  | moderate p =>
    obtain ⟨r, hr, hpk, -, -, -, hleader⟩ := Current.row hg.1
    have hupdate := h.update (q := { p with isModerator := true }) hr hpk
      (fun _ => hg.2) (fun _ => hg.2) (fun k hk => Or.inl (hleader.trans hk))
    exact hupdate.congr rfl
  | unmoderate p =>
    obtain ⟨r, hr, hpk, -, hlead, -, hleader⟩ := Current.row hg
    have hupdate := h.update (q := { p with isModerator := false }) hr hpk
      (fun hl => hlead ▸ hl) (fun hm => by cases hm) (fun k hk => Or.inl (hleader.trans hk))
    exact hupdate.congr rfl
  | assign p leader =>
    obtain ⟨r, hr, hpk, -, hlead, hmod, -⟩ := Current.row hg.1
    have hupdate := h.update (q := { p with leader := leader }) hr hpk (fun hl => hlead ▸ hl)
      (fun hm => hlead ▸ h.moderators r hr (hmod.trans hm)) (fun k hk => Or.inr (hg.2 k hk))
    exact hupdate.congr rfl
  | enroll p chapter leader =>
    obtain ⟨r, hr, hpk, -, hlead, hmod, -⟩ := Current.row hg.1
    have hupdate := h.update
      (q := { p with status := .approved, chapter := chapter, leader := leader }) hr hpk
      (fun hl => hlead ▸ hl) (fun hm => hlead ▸ h.moderators r hr (hmod.trans hm))
      (fun k hk => Or.inr (hg.2 k hk))
    exact hupdate.congr rfl
  | refuse p =>
    obtain ⟨r, hr, hpk, -, hlead, hmod, hleader⟩ := Current.row hg
    have hupdate := h.update (q := { p with status := .denied }) hr hpk (fun hl => hlead ▸ hl)
      (fun hm => hlead ▸ h.moderators r hr (hmod.trans hm))
      (fun k hk => Or.inl (hleader.trans hk))
    exact hupdate.congr rfl
  | retire p => exact (h.retire hg (hself p rfl)).congr rfl
  | register p => exact (h.register hg).congr rfl
  | account u => exact h.congr rfl
  | redeem i => exact h.congr rfl
  | file l => exact h.congr rfl
  | answer l response user => exact h.congr rfl
  | touch p => exact h.congr rfl

end Graph

/-- Someone who is his own mentor resigns, or has the leadership taken. -/
def Submission.ResignsOwnMentor (t : Tables) (s : Submission) : Prop :=
  ∃ p ∈ t.profiles.rows, p.leader = some p.pk ∧ s.Resigns t p.pk

instance decidableResigns (t : Tables) : ∀ (s : Submission) (k : Nat), Decidable (s.Resigns t k)
  | .resign slug user, k =>
    inferInstanceAs (Decidable (user = some k ∧ ∃ p ∈ t.profiles.find? k, p.isLeader = true ∧
      ∃ c ∈ t.chapters.rows.find? (fun c => c.slug = slug), p.isMember c = true))
  | .settingsResign user, k =>
    inferInstanceAs (Decidable (user = some k ∧ ∃ p ∈ t.profiles.find? k, p.isLeader = true))
  | .guide user username grant, k =>
    inferInstanceAs (Decidable (grant = false ∧
      (∃ u ∈ t.users.rows, Bash.lower u.username = Bash.lower username ∧ u.pk = k) ∧
        ∃ p ∈ t.profiles.find? k, p.isLeader = true ∧
          ∃ j ∈ user, ∃ own ∈ t.profiles.find? j,
            own.canModerate = true ∨ (own.isLeader = true ∧ p.leader = some j)))
  | .request _ _ _ _, _ | .response _ _ _ _ _, _ | .cancel _ _ _, _ | .abandon _ _, _
  | .ban _ _, _ | .transfer _ _ _, _ | .moderator _ _ _, _ | .notice _ _, _ | .apply _, _
  | .createPairRequest _ _ _, _ => inferInstanceAs (Decidable False)

instance decidableResignsOwnMentor (t : Tables) (s : Submission) :
    Decidable (s.ResignsOwnMentor t) :=
  inferInstanceAs (Decidable (∃ p ∈ t.profiles.rows, p.leader = some p.pk ∧ s.Resigns t p.pk))

theorem mentorshipGraph_runs (db : Db) (ops : List Op) (h : MentorshipGraph db.tables)
    (hops : Each (fun db op => ¬op.submission.ResignsOwnMentor db.tables) db ops) :
    ∀ s ∈ runs db ops, MentorshipGraph s.tables := by
  refine runs_invariant ?_ h hops
  intro db ⟨sub, faults⟩ _ hresigns t a ht ha hg
  refine ht.act hg ?_
  intro p hp hself
  subst hp
  cases ha with
  | retire hr hrow =>
    obtain ⟨q, hq, hleader⟩ := hrow
    obtain ⟨hmem, hpk⟩ := Table.find?_eq_some_iff.mp hq
    have hpk' : q.pk = p.pk := hpk
    exact hresigns ⟨q, hmem, by rw [hleader, hpk']; exact hself, hpk' ▸ hr⟩

section Examples

def nyc : Chapter := ⟨1, text "nyc"⟩

def member (pk : Nat) (name : Text) (isLeader : Bool) : UserProfile where
  user := ⟨pk, name, name ++ text "@example.org"⟩
  emailDigest := 3
  allowDiscuss := true
  allowOfficial := true
  allowAnnounce := true
  status := .approved
  isLeader := isLeader
  isModerator := isLeader
  chapter := nyc
  leader := none
  displayName := name

/-- A chapter of a leader and a member. -/
def annAndBob : Db where
  tables := {
    users := .ofList [(member 1 (text "ann") true).user, (member 2 (text "bob") false).user]
    chapters := .ofList [nyc]
    profiles := .ofList [member 1 (text "ann") true, member 2 (text "bob") false]
    posts := .ofList []
    invitations := .ofList [] }
  notificationTypes := [⟨text "new_leadership", true, true⟩,
    ⟨text "leadership_approved", true, true⟩, ⟨text "membership_approved", true, true⟩]
  followedBy := []
  usersMentioned := []
  usersNotified := []
  subscriptions := []
  routes := []
  log := []

/-- The member asks for a mentor and to be a leader, becomes one, and answers his own request for a
mentor. -/
def ownMentor : List Op :=
  [.request .pair (text "nyc") (some 2) { content := text "please" },
    .request .lead (text "nyc") (some 2) { content := text "please" },
    .response .lead (text "nyc") (some 1) 2 2,
    .response .pair (text "nyc") (some 2) 1 2].map fun s => ⟨s, fun _ _ => false⟩

def thenResigns : Op := ⟨.resign (text "nyc") (some 2), fun _ _ => false⟩

theorem annAndBob_graph : MentorshipGraph annAndBob.tables where
  leaders := by decide
  moderators := by decide
  capacity := by
    intro k
    have hle : mentees annAndBob.tables k ≤ annAndBob.tables.profiles.rows.length :=
      List.countP_le_length
    have hlen : annAndBob.tables.profiles.rows.length = 2 := by decide
    unfold maxMentees
    omega

end Examples

/-- He who resigns as his own mentor keeps himself as a mentor. -/
theorem mentorshipGraph_not_ownMentor :
    MentorshipGraph annAndBob.tables ∧
      ¬∀ s ∈ runs annAndBob (ownMentor ++ [thenResigns]), MentorshipGraph s.tables := by
  refine ⟨annAndBob_graph, ?_⟩
  intro h
  have hlast : ∃ s ∈ runs annAndBob (ownMentor ++ [thenResigns]),
      ∃ p ∈ s.tables.profiles.rows, ∃ k ∈ p.leader,
        ¬(s.tables.profiles.find? k).any UserProfile.isLeader = true := by decide +kernel
  obtain ⟨s, hs, p, hp, k, hk, hnot⟩ := hlast
  exact hnot ((h s hs).leaders p hp k hk)

theorem mentorshipGraph_runs_ownMentor :
    MentorshipGraph (ownMentor.foldl step annAndBob).tables :=
  mentorshipGraph_runs annAndBob ownMentor annAndBob_graph (by decide +kernel) _
    (Run.foldl_mem_states step annAndBob ownMentor)

section Guides

/-- No leader has a mentor, and nobody is his own. -/
structure GuidesUnguided (t : Tables) : Prop where
  leaders : ∀ p ∈ t.profiles.rows, p.isLeader = true → p.leader = none
  own : ∀ p ∈ t.profiles.rows, p.leader ≠ some p.pk

/-- A leader who can take a mentee approves a request whose owner is a leader, where the view gives
the owner a mentor. -/
def Submission.GuidesLeader (t : Tables) : Submission → Prop
  | response view _ user bulletin r =>
    Response.ofInt r = some .approved ∧ (∃ k ∈ user, Available t k) ∧
      ∃ post ∈ t.posts.find? bulletin, ∃ l ∈ post.asLeadership, l.canRespond = true ∧
        ∃ p ∈ t.profiles.find? l.owner, p.isLeader = true ∧
          (view = .pair ∨ (view = .join ∧ p.canApply = true))
  | _ => False

instance decidableGuidesLeader (t : Tables) : ∀ s : Submission, Decidable (s.GuidesLeader t)
  | .response view _ user bulletin r =>
    inferInstanceAs (Decidable (Response.ofInt r = some .approved ∧ (∃ k ∈ user, Available t k) ∧
      ∃ post ∈ t.posts.find? bulletin, ∃ l ∈ post.asLeadership, l.canRespond = true ∧
        ∃ p ∈ t.profiles.find? l.owner, p.isLeader = true ∧
          (view = .pair ∨ (view = .join ∧ p.canApply = true))))
  | .request _ _ _ _ | .cancel _ _ _ | .resign _ _ | .settingsResign _ | .abandon _ _
  | .ban _ _ | .transfer _ _ _ | .moderator _ _ _ | .guide _ _ _ | .notice _ _ | .apply _
  | .createPairRequest _ _ _ => inferInstanceAs (Decidable False)

variable {t t₀ s : Tables} {p q : UserProfile}

theorem GuidesUnguided.congr (h : GuidesUnguided t) (hs : s.profiles = t.profiles) :
    GuidesUnguided s := by
  refine ⟨?_, ?_⟩
  · rw [hs]
    exact h.leaders
  · rw [hs]
    exact h.own

theorem GuidesUnguided.save (h : GuidesUnguided t) (hlead : q.isLeader = true → q.leader = none)
    (hown : q.leader ≠ some q.pk) : GuidesUnguided (t.withProfile q) where
  leaders := by
    intro p hp
    rcases Table.mem_save.mp hp with rfl | ⟨hp, -⟩
    · exact hlead
    · exact h.leaders p hp
  own := by
    intro p hp
    rcases Table.mem_save.mp hp with rfl | ⟨hp, -⟩
    · exact hown
    · exact h.own p hp

/-- A profile with the leader and the role of its row may be written. -/
theorem GuidesUnguided.keep (h : GuidesUnguided t) (hcur : Current t p) (hpk : q.pk = p.pk)
    (hlead : q.isLeader = p.isLeader) (hleader : q.leader = p.leader) :
    GuidesUnguided (t.withProfile q) := by
  obtain ⟨r, hr, hrpk, -, hrl, -, hrm⟩ := hcur.row
  apply h.save
  · intro hq
    rw [hleader, ← hrm]
    exact h.leaders r hr (hrl.trans (hlead.symm.trans hq))
  · rw [hleader, ← hrm, hpk, ← hrpk]
    exact h.own r hr

/-- One who is no leader may get a leader as a mentor. -/
theorem GuidesUnguided.mentor {k : Nat} (h : GuidesUnguided t) (hcur : Current t p)
    (hnot : p.isLeader = false) (hk : Available t k) (hpk : q.pk = p.pk)
    (hlead : q.isLeader = p.isLeader) (hleader : q.leader = some k) :
    GuidesUnguided (t.withProfile q) := by
  apply h.save
  · intro hq
    rw [hlead, hnot] at hq
    cases hq
  · intro hself
    obtain ⟨r, hr, hrpk, -, hrl, -⟩ := hcur.row
    have hkey : k = r.pk := by
      rw [hrpk, ← hpk]
      exact Option.some.inj (hleader.symm.trans hself)
    have htrue := leads_iff hr ▸ hkey ▸ hk.1
    rw [hrl, hnot] at htrue
    cases htrue

theorem GuidesUnguided.detach (h : GuidesUnguided t) (hleader : q.leader = none) :
    GuidesUnguided (t.withProfile q) := by
  apply h.save
  · intro _
    exact hleader
  · rw [hleader]
    exact nofun

/-- The owner of a request that is approved through such a view is no leader. -/
theorem not_leader_of_answered {view : Kind} {slug : Text} {k bulletin : Nat} {r : Int}
    (hsub : ¬Submission.GuidesLeader t₀ (.response view slug (some k) bulletin r))
    (hr : Response.ofInt r = some .approved) (hk : Available t₀ k)
    (h : AnsweredOwner t₀ bulletin p)
    (hview : view = .pair ∨ (view = .join ∧ p.canApply = true)) : p.isLeader = false := by
  cases hlead : p.isLeader with
  | false => rfl
  | true =>
    obtain ⟨⟨row, hrow, hroles⟩, l, ⟨⟨l', hfind, hcore⟩, hpk, hopen⟩, howner⟩ := h
    simp only [UserProfile.roles, Prod.mk.injEq] at hroles
    simp only [Leadership.core, Prod.mk.injEq] at hcore
    have hopen' : l'.canRespond = true := by
      unfold Leadership.canRespond at *
      rw [hcore.2.2.1]
      exact hopen
    have hfind' : t₀.profiles.find? l'.owner = some row := by
      rw [hcore.1, howner]
      exact hrow
    refine absurd ⟨hr, ⟨k, rfl, hk⟩, .leadership l', hpk ▸ hfind, l', rfl, hopen', row, hfind',
      hroles.2.1.trans hlead, ?_⟩ hsub
    rcases hview with hpair | ⟨hjoin, happly⟩
    · exact Or.inl hpair
    · refine Or.inr ⟨hjoin, ?_⟩
      unfold UserProfile.canApply at *
      rw [hroles.1]
      exact happly

theorem GuidesUnguided.act {sub : Submission} {a : Act} (h₀ : GuidesUnguided t₀)
    (h : GuidesUnguided t) (hsub : ¬sub.GuidesLeader t₀) (ha : Allows t₀ sub a) (hg : a.Guard t) :
    GuidesUnguided (a.apply t) := by
  cases a with
  | settings p => exact (h.keep hg rfl rfl rfl).congr rfl
  | lead p => exact (h.detach (q := { p with isLeader := true, leader := none }) rfl).congr rfl
  | moderate p =>
    exact (h.keep (q := { p with isModerator := true }) hg.1 rfl rfl rfl).congr rfl
  | unmoderate p =>
    exact (h.keep (q := { p with isModerator := false }) hg rfl rfl rfl).congr rfl
  | assign p leader =>
    cases leader with
    | none => exact (h.detach (q := { p with leader := none }) rfl).congr rfl
    | some k =>
      have hnot : p.isLeader = false := by
        cases ha with
        | pair howner hr hk => exact not_leader_of_answered hsub hr hk howner (Or.inl rfl)
        | transfer hp => exact hp
      have hmentor := h.mentor (q := { p with leader := some k }) hg.1 hnot (hg.2 k rfl) rfl rfl rfl
      exact hmentor.congr rfl
  | enroll p chapter leader =>
    cases leader with
    | none =>
      have hdetach := h.detach
        (q := { p with status := .approved, chapter := chapter, leader := none }) rfl
      exact hdetach.congr rfl
    | some k =>
      have hnot : p.isLeader = false := by
        cases ha with
        | enroll howner hr hp hk =>
          obtain ⟨rfl, hfree⟩ := hk k rfl
          exact not_leader_of_answered hsub hr hfree howner (Or.inr ⟨rfl, hp⟩)
        | redeemed hfresh hp hi =>
          simp only [UserProfile.roles, Prod.mk.injEq] at hp
          exact hp.2.1
      have hmentor := h.mentor
        (q := { p with status := .approved, chapter := chapter, leader := some k }) hg.1 hnot
        (hg.2 k rfl) rfl rfl rfl
      exact hmentor.congr rfl
  | refuse p => exact (h.keep (q := { p with status := .denied }) hg rfl rfl rfl).congr rfl
  | retire p =>
    cases ha with
    | retire hr hrow =>
      obtain ⟨row, hfind, hleader⟩ := hrow
      obtain ⟨hmem, hpk⟩ := Table.find?_eq_some_iff.mp hfind
      have hsave := h.save (q := { p with isLeader := false }) (fun hl => by cases hl) ?_
      · exact hsave.congr rfl
      · have hpk' : row.pk = p.pk := hpk
        have hown := h₀.own row hmem
        rw [hleader, hpk'] at hown
        exact hown
  | register p =>
    obtain ⟨-, hroles⟩ := hg
    simp only [UserProfile.roles, Prod.mk.injEq] at hroles
    exact (h.detach hroles.2.2.2).congr rfl
  | account u => exact h.congr rfl
  | redeem i => exact h.congr rfl
  | file l => exact h.congr rfl
  | answer l response user => exact h.congr rfl
  | touch p => exact h.congr rfl

theorem guidesUnguided_runs (db : Db) (ops : List Op) (h : GuidesUnguided db.tables)
    (hops : Each (fun db op => ¬op.submission.GuidesLeader db.tables) db ops) :
    ∀ s ∈ runs db ops, GuidesUnguided s.tables := by
  refine runs_invariant ?_ h hops
  intro db op h₀ hsub t a ht ha hg
  exact h₀.act ht hsub ha hg

/-- A leader who asked for a mentor before is given one, and may be so by himself. -/
theorem guidesUnguided_not_ownMentor :
    GuidesUnguided annAndBob.tables ∧ ¬∀ s ∈ runs annAndBob ownMentor, GuidesUnguided s.tables := by
  refine ⟨⟨by decide, by decide⟩, ?_⟩
  intro h
  have hlast : ∃ s ∈ runs annAndBob ownMentor, ∃ p ∈ s.tables.profiles.rows,
      p.isLeader = true ∧ p.leader ≠ none := by decide +kernel
  obtain ⟨s, hs, p, hp, hlead, hsome⟩ := hlast
  exact hsome ((h s hs).leaders p hp hlead)

theorem guidesUnguided_runs_promoted :
    GuidesUnguided ((ownMentor.take 3).foldl step annAndBob).tables :=
  guidesUnguided_runs annAndBob (ownMentor.take 3) ⟨by decide, by decide⟩ (by decide) _
    (Run.foldl_mem_states step annAndBob (ownMentor.take 3))

end Guides

end HackerUnion.Petri
