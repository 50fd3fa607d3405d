import HackerUnion.Petri.Signup
import HackerUnion.Petri.Roles

namespace HackerUnion.Petri

open Bash (Text text)
open Durable
open Durable.Handler

/-- What the application is asked to do, and what fails while it does it. -/
structure Call where
  task : Task
  faults : Nat → Service → Bool

def perform (db : Db) (c : Call) : Db := (exec c.task.handle ⟨db, c.faults⟩).2.db

/-- The application through calls one after another. -/
def histories (db : Db) (calls : List Call) : List Db :=
  Run.states (fun db c => some (perform db c)) db calls

/-- Each call meets a condition where it is made. -/
def EachCall (C : Db → Call → Prop) (db : Db) (calls : List Call) : Prop :=
  Run.Throughout (fun db c => some (perform db c)) C db calls

instance decidableEachCall (C : Db → Call → Prop) [∀ db c, Decidable (C db c)] (db : Db)
    (calls : List Call) : Decidable (EachCall C db calls) :=
  inferInstanceAs (Decidable (Run.Throughout (fun db c => some (perform db c)) C db calls))

/-- Nothing fails but what tells users of what is done. -/
def Call.Calm (c : Call) : Prop := ∀ n service, calm service (c.faults n service)

variable {E : Member → Change → Prop} {db s : Db} {c : Call} {calls : List Call}

section Steps

/-- What a call that is no sign-up does to the members and the lists. -/
theorem perform_reached (hc : c.Calm) (ht : c.task.Regular) (he : Unasked E)
    (hset : ∀ user data, c.task = .form (.notice user data) → ∀ k r m, user = some k →
      db.tables.member k = some r → m.status = r.status → ∀ l allow, data.posted l = some allow →
      E m (.setting l allow)) : Reached E db (perform db c) := by
  have hturns : Turns E db c.task.handle db := by
    obtain ⟨task, faults⟩ := c
    cases task with
    | form s => exact handle_turns ht he fun user data hs => hset user data (hs ▸ rfl)
    | role call user => exact role_turns he
  exact db_of_ensures hturns hc

/-- What a sign-up does to them. -/
theorem perform_joined {data : ApplicationData} (hc : c.Calm) (ht : c.task = .form (.apply data))
    (hres : Resolved db.tables) : perform db c = db ∨
      ∃ chapter, db.tables.chapters.find? data.chapter = some chapter ∧
        Joined data chapter db (perform db c) := by
  obtain ⟨task, faults⟩ := c
  subst ht
  have hensures : Ensures calm db (apply data) _ _ := apply_joined hres
  have hexec := db_of_ensures hensures hc
  exact hexec

/-- A call that bans a user, which leaves the lists behind where it raises. -/
def Task.Bans : Task → Prop
  | .form (.ban _ _) => True
  | _ => False

/-- A call changes members by writes that are allowed, or someone signs up. -/
theorem perform_cases (hc : c.Calm) (hban : ¬c.task.Bans) (hres : Resolved db.tables)
    (he : Unasked E) (hset : ∀ user data, c.task = .form (.notice user data) → ∀ k r m,
      user = some k → db.tables.member k = some r → m.status = r.status → ∀ l allow,
      data.posted l = some allow → E m (.setting l allow)) :
    Reached E db (perform db c) ∨ ∃ data chapter, c.task = .form (.apply data) ∧
      db.tables.chapters.find? data.chapter = some chapter ∧
      Joined data chapter db (perform db c) := by
  have hregular (ht : c.task.Regular) : Reached E db (perform db c) :=
    perform_reached hc ht he hset
  obtain ⟨task, faults⟩ := c
  cases task with
  | role call user => exact .inl (hregular trivial)
  | form sub =>
    cases sub with
    | ban user username => exact absurd trivial hban
    | apply data =>
      rcases perform_joined hc rfl hres with hsame | ⟨chapter, hchapter, hjoined⟩
      · rw [hsame]
        exact .inl Reached.refl
      · exact .inr ⟨data, chapter, rfl, hchapter, hjoined⟩
    | _ => exact .inl (hregular trivial)

theorem member_of_rows {t : Tables} {u : User} {p : UserProfile} (hu : u ∈ t.users.rows)
    (hp : p ∈ t.profiles.rows) (hk : p.pk = u.pk) :
    t.member u.pk = some (UserProfile.member { p with user := u }) := by
  unfold Tables.member
  rw [Table.find?_of_mem hu, ← hk, Table.find?_of_mem hp]
  rfl

theorem rows_of_member {t : Tables} {k : Nat} {m : Member} (h : t.member k = some m) :
    ∃ u ∈ t.users.rows, ∃ p ∈ t.profiles.rows, u.pk = k ∧ p.pk = k ∧
      m = UserProfile.member { p with user := u } := by
  obtain ⟨u, hu, h⟩ := Option.bind_eq_some_iff.mp h
  obtain ⟨p, hp, h⟩ := Option.bind_eq_some_iff.mp h
  obtain ⟨hmem, hk⟩ := Table.find?_eq_some_iff.mp hu
  obtain ⟨hrow, hkey⟩ := Table.find?_eq_some_iff.mp hp
  exact ⟨u, hmem, p, hrow, hk, hkey, (Option.some.inj h).symm⟩

end Steps

section Leaders

/-- A user's address is on the leaders' list of his chapter exactly if he is a leader who allows
it. -/
def LeadersListExact (s : Db) : Prop :=
  ∀ u ∈ s.tables.users.rows, ∀ p ∈ s.tables.profiles.rows, p.pk = u.pk →
    ((p.chapter.getOfficialList, u.email) ∈ s.subscriptions ↔
      p.isLeader = true ∧ p.allowOfficial = true)

/-- No two users have the same address. -/
def AddressesDistinct (t : Tables) : Prop :=
  ∀ u ∈ t.users.rows, ∀ v ∈ t.users.rows, u.email = v.email → u = v

instance decidableAddressesDistinct (t : Tables) : Decidable (AddressesDistinct t) :=
  inferInstanceAs (Decidable (∀ u ∈ t.users.rows, ∀ v ∈ t.users.rows, u.email = v.email → u = v))

theorem AddressesDistinct.apart (h : AddressesDistinct db.tables) : db.rolls.Apart := by
  intro j k m m' hm hm' hplace
  obtain ⟨u, hu, p, -, rfl, -, rfl⟩ := rows_of_member hm
  obtain ⟨v, hv, q, -, rfl, -, rfl⟩ := rows_of_member hm'
  have hemail : u.email = v.email := congrArg Prod.snd hplace
  rw [h u hu v hv hemail]

theorem leadersListExact_of_kept (h : s.rolls.Kept .official) (hapart : s.rolls.Apart) :
    LeadersListExact s := by
  intro u hu p hp hk
  have hsound : (s.rolls.roster .official).Sound Member.place (MailList.Due .official) := by
    intro x hx
    obtain ⟨k, m, hm, hplace, hwanted⟩ := h.sound x hx
    exact ⟨k, m, hm, hplace, hwanted, fun hl => absurd rfl hl⟩
  have hiff := h.subscribed_iff hsound hapart (member_of_rows hu hp hk)
  refine hiff.trans ⟨fun hdue => ⟨hdue.1.2 rfl, hdue.1.1⟩, fun hlead => ?_⟩
  exact ⟨⟨hlead.2, fun _ => hlead.1⟩, fun hl => absurd rfl hl⟩

theorem leadersListExact_histories (db : Db) (calls : List Call)
    (hleaders : ∀ p ∈ db.tables.profiles.rows, p.isLeader = false)
    (hempty : ∀ (c : Chapter) (email : Text), (c.getOfficialList, email) ∉ db.subscriptions)
    (haddresses : AddressesDistinct db.tables)
    (hcalls : EachCall (fun _ c => c.Calm ∧ c.task.Regular) db calls) :
    ∀ s ∈ histories db calls, LeadersListExact s := by
  have hstart : db.rolls.Kept .official := by
    refine ⟨fun x hx => absurd hx (hempty ⟨0, x.1⟩ x.2), fun k m hm _ hdue => ?_⟩
    obtain ⟨u, hu, p, hp, -, -, rfl⟩ := rows_of_member hm
    have hlead : p.isLeader = true := hdue.1.2 rfl
    rw [hleaders p hp] at hlead
    cases hlead
  intro s hs
  obtain ⟨hkept, hapart⟩ := Run.states_invariant
    (I := fun s : Db => s.rolls.Kept .official ∧ s.rolls.Apart) (fun s c s' hi hc hstep => by
      obtain rfl := Option.some.inj hstep
      have hreached : Reached (fun _ _ => True) s (perform s c) :=
        perform_reached hc.1 hc.2 ⟨fun _ => trivial, fun _ => trivial, fun _ => trivial,
          fun _ => trivial⟩ fun _ _ _ _ _ _ _ _ _ _ _ _ => trivial
      exact ⟨hi.1.changes hreached.2, hi.2.changes hreached.2⟩)
    ⟨hstart, haddresses.apart⟩ hcalls s hs
  exact leadersListExact_of_kept hkept hapart

/-- Two members of a chapter without a leader. -/
def twoMembers : Db := { annAndBob with
  tables := { annAndBob.tables with
    profiles := .ofList [member 1 (text "ann") false, member 2 (text "bob") false] } }

/-- One is made a leader and turns the list off, and the other is made a leader by him. -/
def bothLead : List Call :=
  [⟨.role .becomeModerator 1, fun _ _ => false⟩,
    ⟨.form (.notice (some 1) { official := some false }), fun _ _ => false⟩,
    ⟨.form (.guide (some 1) (text "bob") true), fun _ _ => false⟩]

theorem leadersListExact_histories_bothLead :
    LeadersListExact (bothLead.foldl perform twoMembers) :=
  leadersListExact_histories twoMembers bothLead (by decide)
    (fun c email h => by cases h) (by decide)
    (by simp [EachCall, Run.Throughout, bothLead, Call.Calm, calm, Task.Regular,
      Submission.Regular]) _
    (Run.foldl_mem_states perform twoMembers bothLead)

end Leaders

section Members

/-- A user's address is on the lists for discussion and for announcements exactly if he is approved
and allows it. -/
def MemberListsExact (s : Db) : Prop :=
  ∀ u ∈ s.tables.users.rows, ∀ p ∈ s.tables.profiles.rows, p.pk = u.pk →
    ((p.chapter.getDiscussList, u.email) ∈ s.subscriptions ↔
      p.status = .approved ∧ p.allowDiscuss = true) ∧
    ((p.chapter.getAnnounceList, u.email) ∈ s.subscriptions ↔
      p.status = .approved ∧ p.allowAnnounce = true)

/-- Only a user who is approved switches one of the lists on for himself, and nobody signs up with
an address that a user of the chapter's lists has. -/
def Task.Fair (t : Tables) : Task → Prop
  | .form (.notice user data) => data.discuss = some true ∨ data.announce = some true →
      ∀ k ∈ user, ∀ p ∈ t.profiles.find? k, p.status = .approved
  | .form (.apply data) => ∀ chapter ∈ t.chapters.find? data.chapter,
      ∀ u ∈ t.users.rows, u.email = data.email →
        ∀ p ∈ t.profiles.find? u.pk, p.chapter.slug ≠ chapter.slug
  | _ => True

instance decidableFair (t : Tables) : ∀ task : Task, Decidable (task.Fair t)
  | .form (.notice user data) =>
    inferInstanceAs (Decidable (data.discuss = some true ∨ data.announce = some true →
      ∀ k ∈ user, ∀ p ∈ t.profiles.find? k, p.status = .approved))
  | .form (.apply data) =>
    inferInstanceAs (Decidable (∀ chapter ∈ t.chapters.find? data.chapter,
      ∀ u ∈ t.users.rows, u.email = data.email →
        ∀ p ∈ t.profiles.find? u.pk, p.chapter.slug ≠ chapter.slug))
  | .form (.request _ _ _ _) | .form (.response _ _ _ _ _) | .form (.cancel _ _ _)
  | .form (.resign _ _) | .form (.settingsResign _) | .form (.abandon _ _) | .form (.ban _ _)
  | .form (.transfer _ _ _) | .form (.moderator _ _ _) | .form (.guide _ _ _)
  | .form (.createPairRequest _ _ _) | .role _ _ => inferInstanceAs (Decidable True)

def Call.Fair (s : Db) (c : Call) : Prop := c.Calm ∧ c.task.Fair s.tables

/-- No two users are on the lists of the same chapter with the same address. -/
def PlacesDistinct (t : Tables) : Prop :=
  ∀ u ∈ t.users.rows, ∀ v ∈ t.users.rows, ∀ p ∈ t.profiles.find? u.pk,
    ∀ q ∈ t.profiles.find? v.pk, u.email = v.email → p.chapter.slug = q.chapter.slug → u = v

instance decidablePlacesDistinct (t : Tables) : Decidable (PlacesDistinct t) :=
  inferInstanceAs (Decidable (∀ u ∈ t.users.rows, ∀ v ∈ t.users.rows,
    ∀ p ∈ t.profiles.find? u.pk, ∀ q ∈ t.profiles.find? v.pk, u.email = v.email →
      p.chapter.slug = q.chapter.slug → u = v))

theorem PlacesDistinct.apart (h : PlacesDistinct db.tables) : db.rolls.Apart := by
  intro j k m m' hm hm' hplace
  obtain ⟨u, hu, p, hp, rfl, hpk, rfl⟩ := rows_of_member hm
  obtain ⟨v, hv, q, hq, rfl, hqk, rfl⟩ := rows_of_member hm'
  obtain ⟨hslug, hemail⟩ := Prod.mk.inj hplace
  rw [h u hu v hv p (hpk ▸ Table.find?_of_mem hp) q (hqk ▸ Table.find?_of_mem hq) hemail hslug]

/-- What the members' lists are between calls that are fair. -/
structure Agreed (s : Db) : Prop where
  resolved : Resolved s.tables
  kept : ∀ l, l ≠ .official → s.rolls.Kept l
  due : ∀ l, l ≠ .official → (s.rolls.roster l).Sound Member.place l.Due
  apart : s.rolls.Apart

theorem Agreed.memberListsExact (h : Agreed s) : MemberListsExact s := by
  intro u hu p hp hk
  have hiff (l : MailList) (hl : l ≠ .official) :
      (l.named p.chapter.slug, u.email) ∈ s.subscriptions ↔
        p.status = .approved ∧ p.allows l = true := by
    refine ((h.kept l hl).subscribed_iff (h.due l hl) h.apart (member_of_rows hu hp hk)).trans ?_
    constructor
    · intro hdue
      exact ⟨hdue.2 hl, hdue.1.1⟩
    · intro hin
      exact ⟨⟨hin.2, fun ho => absurd ho hl⟩, fun _ => hin.1⟩
  exact ⟨hiff .discuss (by decide), hiff .announce (by decide)⟩

/-- The settings that a fair call posts are those of a user who is entitled to them. -/
theorem Call.Fair.entitled {user : Option Nat} {data : NoticeData} {k : Nat} {r m : Member}
    {l : MailList} {allow : Bool} (h : c.Fair s)
    (htask : c.task = .form (.notice user data))
    (huser : user = some k) (hr : s.tables.member k = some r) (hstatus : m.status = r.status)
    (hposted : data.posted l = some allow) : (Change.setting l allow).Entitled m := by
  intro hallow hl
  have hfair := h.2
  rw [htask] at hfair
  subst huser hallow
  obtain ⟨u, -, p, hp, -, hpk, rfl⟩ := rows_of_member hr
  refine hstatus.trans (hfair ?_ k rfl p (hpk ▸ Table.find?_of_mem hp))
  cases l with
  | announce => exact .inr hposted
  | official => exact absurd rfl hl
  | discuss => exact .inl hposted

/-- Who signs up by a fair call shares no place on the lists. -/
theorem Call.Fair.apart {data : ApplicationData} {chapter : Chapter} {m : Member} (h : c.Fair s)
    (htask : c.task = .form (.apply data))
    (hchapter : s.tables.chapters.find? data.chapter = some chapter)
    (hemail : m.email = data.email) (hm : m.chapter = chapter) {j : Nat} {m' : Member}
    (hm' : s.tables.member j = some m') : m'.place ≠ m.place := by
  intro hplace
  have hfair := h.2
  rw [htask] at hfair
  obtain ⟨u, hu, p, hp, huk, hpk, rfl⟩ := rows_of_member hm'
  obtain ⟨hslug, hemail'⟩ := Prod.mk.inj hplace
  rw [hm] at hslug
  refine hfair chapter hchapter u hu (hemail'.trans hemail) p ?_ hslug
  rw [huk, ← hpk]
  exact Table.find?_of_mem hp

theorem Agreed.perform (h : Agreed s) (hc : c.Fair s) (hban : ¬c.task.Bans) :
    Agreed (perform s c) := by
  rcases perform_cases (E := fun m c => c.Entitled m) hc.1 hban h.resolved
      ⟨fun _ => trivial, fun _ => trivial, fun _ => trivial, fun _ => trivial⟩
      (fun _ _ htask _ _ _ huser hr hstatus _ _ hposted =>
        hc.entitled htask huser hr hstatus hposted) with
    hr | ⟨data, chapter, htask, hchapter, k, m, hs, hemail, hm⟩
  · exact ⟨h.resolved.reached hr, fun l hl => (h.kept l hl).changes hr.2,
      fun l hl => Rolls.due_changes (h.due l hl) hr.2, h.apart.changes hr.2⟩
  · refine ⟨h.resolved.signedUp hs ?_, fun l hl => ?_, fun l hl => ?_, ?_⟩
    · rw [hm]
      exact (Table.find?_eq_some_iff.mp hchapter).1
    · rw [hs.rolls]
      exact (h.kept l hl).signup hs.fresh hs.follower
    · rw [hs.rolls]
      exact Rolls.due_signup (h.due l hl) hs.fresh
    · rw [hs.rolls]
      exact h.apart.write fun j m' _ hm' => hc.apart htask hchapter hemail hm hm'

/-- Nobody who is approved asks for a list, of which none has an address. -/
def NobodyListed (s : Db) : Prop :=
  s.subscriptions = [] ∧ ∀ p ∈ s.tables.profiles.rows, p.status = .approved →
    p.allowDiscuss = false ∧ p.allowAnnounce = false

theorem NobodyListed.agreed (h : NobodyListed db) (hres : Resolved db.tables)
    (hplaces : PlacesDistinct db.tables) : Agreed db := by
  obtain ⟨hempty, hnobody⟩ := h
  have hnone (l : MailList) (x : Text × Text) : x ∉ (db.rolls.roster l).entries := by
    change (l.named x.1, x.2) ∉ db.subscriptions
    simp [hempty]
  refine ⟨hres, fun l hl => ⟨fun x hx => absurd hx (hnone l x), ?_⟩,
    fun l _ x hx => absurd hx (hnone l x), hplaces.apart⟩
  intro k m hm _ hdue
  obtain ⟨u, -, p, hp, -, -, rfl⟩ := rows_of_member hm
  obtain ⟨hdiscuss, hannounce⟩ := hnobody p hp (hdue.2 hl)
  have hallow : p.allows l = true := hdue.1.1
  cases l with
  | announce => exact absurd (hannounce.symm.trans hallow) (by decide)
  | official => exact absurd rfl hl
  | discuss => exact absurd (hdiscuss.symm.trans hallow) (by decide)

theorem memberListsExact_histories (db : Db) (calls : List Call) (hres : Resolved db.tables)
    (hstart : NobodyListed db) (hplaces : PlacesDistinct db.tables)
    (hcalls : EachCall (fun s c => ¬c.task.Bans ∧ c.Fair s) db calls) :
    ∀ s ∈ histories db calls, MemberListsExact s := by
  intro s hs
  have hagreed : Agreed s := Run.states_invariant (I := Agreed) (fun s c s' hi hc hstep => by
    obtain rfl := Option.some.inj hstep
    exact hi.perform hc.2 hc.1) (hstart.agreed hres hplaces) hcalls s hs
  exact hagreed.memberListsExact

section Examples

/-- A chapter with a leader who is on no list but the leaders'. -/
def quietLeader : Db := { annAndBob with
  tables := { annAndBob.tables with
    users := .ofList [(member 1 (text "ann") true).user]
    profiles := .ofList
      [{ member 1 (text "ann") true with allowDiscuss := false, allowAnnounce := false }] } }

def carl : ApplicationData where
  username := text "carl"
  email := text "carl@example.org"
  displayName := text "Carl"
  chapter := 1
  application := text "I build things and would like to meet others who do."

def quietCall (task : Task) : Call := ⟨task, fun _ _ => false⟩

theorem quietCall_calm (task : Task) : (quietCall task).Calm := fun _ _ _ => rfl

theorem quietLeader_resolved : Resolved quietLeader.tables where
  first := by decide
  profiles := by decide
  members := by
    intro k m hm
    obtain ⟨u, -, p, hp, -, -, rfl⟩ := rows_of_member hm
    have hall : ∀ p ∈ quietLeader.tables.profiles.rows,
        p.chapter ∈ quietLeader.tables.chapters.rows := by decide
    exact hall p hp
  invitations := by decide

/-- An applicant who is pending puts himself on the list for discussion. -/
theorem memberLists_not_pending :
    ¬∀ (db : Db) (calls : List Call), Resolved db.tables → NobodyListed db →
      PlacesDistinct db.tables → EachCall (fun _ c => ¬c.task.Bans ∧ c.Calm) db calls →
      ∀ s ∈ histories db calls, MemberListsExact s := by
  intro h
  let calls : List Call := [quietCall (.form (.apply carl)),
    quietCall (.form (.notice (some 2) { discuss := some true }))]
  have hcalls : EachCall (fun _ c => ¬c.task.Bans ∧ c.Calm) quietLeader calls :=
    ⟨⟨id, quietCall_calm _⟩, fun _ _ => ⟨⟨id, quietCall_calm _⟩, fun _ _ => trivial⟩⟩
  have hexact := h quietLeader calls quietLeader_resolved ⟨by decide, by decide⟩ (by decide) hcalls
    _ (Run.foldl_mem_states perform quietLeader calls)
  have hlisted : ∃ u ∈ (calls.foldl perform quietLeader).tables.users.rows,
      ∃ p ∈ (calls.foldl perform quietLeader).tables.profiles.rows, p.pk = u.pk ∧
        (p.chapter.getDiscussList, u.email) ∈ (calls.foldl perform quietLeader).subscriptions ∧
        p.status ≠ .approved := by decide +kernel
  obtain ⟨u, hu, p, hp, hk, hin, hnot⟩ := hlisted
  exact hnot ((hexact u hu p hp hk).1.mp hin).1

/-- An applicant is approved. -/
def carlJoins : List Call :=
  [quietCall (.form (.apply carl)),
    quietCall (.form (.response .join (text "nyc") (some 1) 1 2))]

theorem memberListsExact_histories_carlJoins :
    MemberListsExact (carlJoins.foldl perform quietLeader) :=
  memberListsExact_histories quietLeader carlJoins quietLeader_resolved
    ⟨by decide, by decide⟩ (by decide)
    ⟨⟨id, quietCall_calm _, by decide⟩,
      fun _ _ => ⟨⟨id, quietCall_calm _, trivial⟩, fun _ _ => trivial⟩⟩ _
    (Run.foldl_mem_states perform quietLeader carlJoins)

end Examples

end Members

end HackerUnion.Petri
