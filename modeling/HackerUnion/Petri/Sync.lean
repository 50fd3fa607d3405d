import Mathlib.Data.List.Dedup
import HackerUnion.Petri.Subscribed

namespace HackerUnion.Petri

open Bash (Text text)
open Durable
open Durable.Handler

/-- `CHAPTER_PREFIX` -/
def chapterPrefix : Text := text "[chapter]"

/-- `drop_lists` of all lists. One that cannot be dropped is passed over. -/
def dropLists : M Unit := do
  call .mailgun .attributeError
  let lists := ((← read).subscriptions.map Prod.fst).dedup
  lists.forM fun list => quietly .mailgun fun db =>
    { db with subscriptions := db.subscriptions.filter fun x => x.1 ≠ list }

def createRoute (r : Route) : M Unit :=
  quietly .mailgun fun db => { db with routes := db.routes ++ [r] }

/-- `_route_url` -/
def routeUrl (view : Text) (chapter : Chapter) : Text :=
  text "http://www.hackerunion.org/mail/" ++ view ++ text "?chapter=" ++ decimal chapter.pk

def chapterRoutes (chapter : Chapter) : List Route :=
  [⟨chapter.getDiscussList, routeUrl (text "discuss") chapter,
      chapterPrefix ++ text " " ++ chapter.slug ++ text " discussion list"⟩,
    ⟨chapter.getOfficialList, routeUrl (text "official") chapter,
      chapterPrefix ++ text " " ++ chapter.slug ++ text " official list"⟩]

def createChapterRoutes (chapter : Chapter) : M Unit := (chapterRoutes chapter).forM createRoute

/-- `create_list`: of a list there is here who is subscribed to it, and to a new one nobody is. -/
def createList (_ : Text) : M Unit := quietly .mailgun id

def createChapterLists (chapter : Chapter) : M Unit := do
  createList chapter.getAnnounceList
  createList chapter.getOfficialList
  createList chapter.getDiscussList

def subscribeIf (allow : Bool) (list email : Text) : M Unit :=
  if allow then subscribeList list email else return

/-- A profile is subscribed to what it allows, whatever its status. -/
def syncProfile (chapter : Chapter) (profile : UserProfile) : M Unit := do
  let user ← getUser profile.pk
  subscribeIf profile.allowAnnounce chapter.getAnnounceList user.email
  subscribeIf profile.allowDiscuss chapter.getDiscussList user.email
  subscribeIf (profile.allowOfficial && profile.isLeader) chapter.getOfficialList user.email

def syncChapter (chapter : Chapter) : M Unit := do
  createChapterLists chapter
  createChapterRoutes chapter
  let profiles := (← read).tables.profiles.rows.filter fun p => p.chapter.pk = chapter.pk
  profiles.forM (syncProfile chapter)

/-- `sync_lists` -/
def syncLists : M Unit := do
  dropLists
  dropRoutes chapterPrefix
  (← read).tables.chapters.rows.forM syncChapter

variable {db s : Db} {R : Db → Prop} {A B : Text × Text → Prop}

section Adds

/-- Where no call fails these subscriptions are added, and the tables are as before. -/
def Adds (A : Text × Text → Prop) (c : M Unit) (db : Db) : Prop :=
  ∀ R : Db → Prop, Ensures calm db c (fun _ db' => db'.tables = db.tables ∧
    ∀ x, x ∈ db'.subscriptions ↔ x ∈ db.subscriptions ∨ A x) R

theorem adds_congr {c : M Unit} (h : Adds A c db) (hab : ∀ x, A x ↔ B x) : Adds B c db := by
  obtain rfl : A = B := funext fun x => propext (hab x)
  exact h

theorem adds_none : Adds (fun _ => False) (pure () : M Unit) db :=
  fun _ => ensures_pure ⟨rfl, fun _ => (or_false _).symm ▸ Iff.rfl⟩

theorem adds_bind {c d : M Unit} (hc : Adds A c db)
    (hd : ∀ db' : Db, db'.tables = db.tables → Adds B d db') :
    Adds (fun x => A x ∨ B x) (c >>= fun _ => d) db := by
  intro R
  apply ensures_seq (hc R)
  rintro _ db₁ ⟨htables, hsubs⟩
  apply ensures_weaken (hd db₁ htables R)
  rintro _ db₂ ⟨htables₂, hsubs₂⟩
  refine ⟨htables₂.trans htables, fun x => ?_⟩
  rw [hsubs₂, hsubs, or_assoc]

theorem adds_quietly {f : Db → Db} (hf : ∀ db, (f db).tables = db.tables ∧
      (f db).subscriptions = db.subscriptions) :
    Adds (fun _ => False) (quietly .mailgun f : M Unit) db := by
  intro R
  apply ensures_quietly
  · refine ⟨(hf db).1, fun x => ?_⟩
    rw [(hf db).2, or_false]
  · intro hdown
    cases hdown (by decide)

theorem adds_subscribeIf (allow : Bool) (list email : Text) :
    Adds (fun x => allow = true ∧ x = (list, email)) (subscribeIf allow list email) db := by
  intro R
  unfold subscribeIf
  cases allow with
  | true =>
    apply subscribeList_calm
    intro db' htables hsubs
    refine ⟨htables, fun x => ?_⟩
    rw [hsubs]
    simp
  | false => exact ensures_pure ⟨rfl, fun x => by simp⟩

theorem adds_forM {β : Type} {A : β → Text × Text → Prop} {f : β → M Unit} {xs : List β}
    (hround : ∀ b ∈ xs, ∀ db' : Db, db'.tables = db.tables → Adds (A b) (f b) db') :
    Adds (fun x => ∃ b ∈ xs, A b x) (xs.forM f) db := by
  induction xs generalizing db with
  | nil => exact adds_congr adds_none (by simp)
  | cons b bs ih =>
    have hrest : Adds (fun x => A b x ∨ ∃ b ∈ bs, A b x) (f b >>= fun _ => bs.forM f) db := by
      refine adds_bind (hround b List.mem_cons_self db rfl) fun db' htables => ih ?_
      intro c hc db'' h
      exact hround c (List.mem_cons_of_mem _ hc) db'' (h.trans htables)
    exact adds_congr hrest (by simp)

end Adds

section Sync

theorem dropLists_calm : Ensures calm db dropLists
    (fun _ db' => db'.tables = db.tables ∧ db'.subscriptions = []) R := by
  let I : List Text → Db → Prop := fun rest db' =>
    db'.tables = db.tables ∧ ∀ x ∈ db'.subscriptions, x.1 ∈ rest
  have hround (list : Text) (rest : List Text) (db' : Db) (h : I (list :: rest) db') :
      Ensures calm db' (quietly .mailgun fun db =>
        { db with subscriptions := db.subscriptions.filter fun x => x.1 ≠ list } : M Unit)
        (fun _ => I rest) R := by
    apply ensures_quietly
    · refine ⟨h.1, fun x hx => ?_⟩
      obtain ⟨hmem, hne⟩ := List.mem_filter.mp hx
      rcases List.mem_cons.mp (h.2 x hmem) with hlist | hrest
      · exact absurd hlist (of_decide_eq_true hne)
      · exact hrest
    · intro hdown
      cases hdown (by decide)
  apply ensures_bind
  apply ensures_call
  · intro _
    apply ensures_read
    refine ensures_weaken (ensures_forM hround ⟨rfl, fun x hx => ?_⟩) ?_
    · rw [List.mem_dedup]
      exact List.mem_map_of_mem hx
    · rintro _ db' ⟨htables, hnone⟩
      refine ⟨htables, List.eq_nil_iff_forall_not_mem.mpr fun x hx => ?_⟩
      cases hnone x hx
  · intro hdown
    cases hdown (by decide)

theorem adds_dropRoutes {contains : Text} : Adds (fun _ => False) (dropRoutes contains) db := by
  intro R
  apply ensures_weaken (dropRoutes_calm contains)
  rintro _ db' ⟨htables, hsubs⟩
  exact ⟨htables, fun x => by rw [hsubs, or_false]⟩

theorem adds_createChapter {chapter : Chapter} {c : M Unit}
    (hc : ∀ db' : Db, db'.tables = db.tables → Adds A c db') :
    Adds A (do
      createChapterLists chapter
      createChapterRoutes chapter
      c) db := by
  have hlist (list : Text) (db' : Db) : Adds (fun _ => False) (createList list) db' :=
    adds_quietly fun _ => ⟨rfl, rfl⟩
  have hroute (r : Route) (db' : Db) : Adds (fun _ => False) (createRoute r) db' :=
    adds_quietly fun _ => ⟨rfl, rfl⟩
  have hlists (db' : Db) : Adds (fun _ => False) (createChapterLists chapter) db' :=
    adds_congr (adds_bind (hlist _ db') fun _ _ => adds_bind (hlist _ _) fun _ _ => hlist _ _)
      (by simp)
  have hroutes (db' : Db) : Adds (fun _ => False) (createChapterRoutes chapter) db' :=
    adds_congr (adds_forM fun r _ db'' _ => hroute r db'') (by simp)
  refine adds_congr (adds_bind (hlists db) fun db₁ h₁ => adds_bind (hroutes db₁) fun db₂ h₂ =>
    hc db₂ (h₂.trans h₁)) (by simp)

/-- What a profile is subscribed to when the lists are made anew. -/
def Synced (t : Tables) (chapter : Chapter) (p : UserProfile) (x : Text × Text) : Prop :=
  ∃ u, t.users.find? p.pk = some u ∧
    ((p.allowAnnounce = true ∧ x = (chapter.getAnnounceList, u.email)) ∨
      (p.allowDiscuss = true ∧ x = (chapter.getDiscussList, u.email)) ∨
      ((p.allowOfficial && p.isLeader) = true ∧ x = (chapter.getOfficialList, u.email)))

theorem adds_syncProfile {chapter : Chapter} {p : UserProfile}
    (hu : (db.tables.users.find? p.pk).isSome = true) :
    Adds (Synced db.tables chapter p) (syncProfile chapter p) db := by
  obtain ⟨u, hu⟩ := Option.isSome_iff_exists.mp hu
  have hlists : Adds _ (do
      subscribeIf p.allowAnnounce chapter.getAnnounceList u.email
      subscribeIf p.allowDiscuss chapter.getDiscussList u.email
      subscribeIf (p.allowOfficial && p.isLeader) chapter.getOfficialList u.email) db :=
    adds_bind (adds_subscribeIf _ _ _) fun _ _ =>
      adds_bind (adds_subscribeIf _ _ _) fun _ _ => adds_subscribeIf _ _ _
  intro R
  apply ensures_finds (finds_getUser hu)
  refine adds_congr hlists (fun x => ?_) R
  simp [Synced, hu]

theorem adds_syncChapter {chapter : Chapter}
    (hu : ∀ p ∈ db.tables.profiles.rows, (db.tables.users.find? p.pk).isSome = true) :
    Adds (fun x => ∃ p ∈ db.tables.profiles.rows, p.chapter.pk = chapter.pk ∧
      Synced db.tables chapter p x) (syncChapter chapter) db := by
  refine adds_createChapter fun db₁ h₁ R => ?_
  apply ensures_read
  have hloop : Adds (fun x => ∃ p ∈ db₁.tables.profiles.rows.filter
      (fun p => p.chapter.pk = chapter.pk), Synced db₁.tables chapter p x) _ db₁ :=
    adds_forM (f := syncProfile chapter) fun p hp db₂ h₂ => by
      have hrow : p ∈ db.tables.profiles.rows := h₁ ▸ (List.mem_filter.mp hp).1
      rw [← h₂]
      apply adds_syncProfile
      rw [h₂, h₁]
      exact hu p hrow
  refine adds_congr hloop (fun x => ?_) R
  rw [h₁]
  simp [and_assoc]

theorem syncLists_calm
    (hu : ∀ p ∈ db.tables.profiles.rows, (db.tables.users.find? p.pk).isSome = true) :
    Ensures calm db syncLists (fun _ db' => db'.tables = db.tables ∧
      ∀ x, x ∈ db'.subscriptions ↔ ∃ chapter ∈ db.tables.chapters.rows,
        ∃ p ∈ db.tables.profiles.rows, p.chapter.pk = chapter.pk ∧
          Synced db.tables chapter p x) R := by
  apply ensures_seq (dropLists_calm (R := R))
  rintro _ db₁ ⟨h₁, hempty⟩
  have hadds : Adds (fun x => ∃ chapter ∈ db.tables.chapters.rows,
      ∃ p ∈ db.tables.profiles.rows, p.chapter.pk = chapter.pk ∧
        Synced db.tables chapter p x) (do
      dropRoutes chapterPrefix
      (← read).tables.chapters.rows.forM syncChapter) db₁ := by
    refine adds_congr (adds_bind adds_dropRoutes fun db₂ h₂ R => ?_)
      fun x => (false_or _).to_iff
    apply ensures_read
    have htables₂ : db₂.tables = db.tables := h₂.trans h₁
    have hloop : Adds (fun x => ∃ chapter ∈ db.tables.chapters.rows,
        ∃ p ∈ db.tables.profiles.rows, p.chapter.pk = chapter.pk ∧
          Synced db.tables chapter p x) (db₂.tables.chapters.rows.forM syncChapter) db₂ := by
      rw [htables₂]
      refine adds_forM fun chapter _ db₃ h₃ => ?_
      have htables₃ : db₃.tables = db.tables := h₃.trans htables₂
      rw [← htables₃]
      apply adds_syncChapter
      rw [htables₃]
      exact hu
    exact hloop R
  apply ensures_weaken (hadds R)
  rintro _ db' ⟨htables, hsubs⟩
  refine ⟨htables.trans h₁, fun x => ?_⟩
  rw [hsubs, hempty]
  simp

end Sync

section Rebuild

/-- The subscriptions of members who ask for them, with what the lists are made of anew. -/
theorem synced_iff (hres : Resolved s.tables) {x : Text × Text} :
    (∃ chapter ∈ s.tables.chapters.rows, ∃ p ∈ s.tables.profiles.rows,
      p.chapter.pk = chapter.pk ∧ Synced s.tables chapter p x) ↔
      ∃ k m l, s.tables.member k = some m ∧ MailList.Wanted l m ∧ x = m.entry l := by
  constructor
  · rintro ⟨chapter, hchapter, p, hp, hpk, u, hu, hlist⟩
    have hm : s.tables.member p.pk = some (UserProfile.member { p with user := u }) := by
      simp [Tables.member, hu, Table.find?_of_mem hp]
    have hsame : p.chapter = chapter :=
      Table.eq_of_key (hres.members _ _ hm) hchapter hpk
    subst hsame
    rcases hlist with ⟨hallow, rfl⟩ | ⟨hallow, rfl⟩ | ⟨hallow, rfl⟩
    · exact ⟨_, _, .announce, hm, ⟨hallow, fun h => by cases h⟩, rfl⟩
    · exact ⟨_, _, .discuss, hm, ⟨hallow, fun h => by cases h⟩, rfl⟩
    · obtain ⟨hofficial, hlead⟩ := Bool.and_eq_true_iff.mp hallow
      exact ⟨_, _, .official, hm, ⟨hofficial, fun _ => hlead⟩, rfl⟩
  · rintro ⟨k, m, l, hm, ⟨hallow, hlead⟩, rfl⟩
    have hchapter := hres.members k m hm
    obtain ⟨u, hu, p, hp, rfl, hpk, rfl⟩ := rows_of_member hm
    refine ⟨p.chapter, hchapter, p, hp, rfl, u, hpk ▸ Table.find?_of_mem hu, ?_⟩
    cases l with
    | announce => exact .inl ⟨hallow, rfl⟩
    | discuss => exact .inr (.inl ⟨hallow, rfl⟩)
    | official => exact .inr (.inr ⟨Bool.and_eq_true_iff.mpr ⟨hallow, hlead rfl⟩, rfl⟩)

/-- The lists are as they would be made anew if and only if nobody is missing who asks for one. -/
theorem subscriptions_eq_synced_iff (hnamed : s.rolls.Named) (hkept : ∀ l, s.rolls.Kept l) :
    (∀ x, (∃ k m l, s.tables.member k = some m ∧ MailList.Wanted l m ∧ x = m.entry l) ↔
        x ∈ s.subscriptions) ↔
      ∀ k m l, s.tables.member k = some m → MailList.Wanted l m →
        m.entry l ∈ s.subscriptions := by
  constructor
  · intro hsame k m l hm hwanted
    exact (hsame _).mp ⟨k, m, l, hm, hwanted, rfl⟩
  · intro hall x
    have hrebuilt (l : MailList) :
        (s.rolls.roster l).entries = (s.rolls.roster l).rebuilt Member.place l.Wanted :=
      (Roster.entries_eq_rebuilt_iff (hkept l).sound).mpr fun k m hm hwanted =>
        hall k m l hm hwanted
    constructor
    · rintro ⟨k, m, l, hm, hwanted, rfl⟩
      exact hall k m l hm hwanted
    · intro hx
      obtain ⟨l, slug, hname⟩ := hnamed x hx
      have hentry : (slug, x.2) ∈ (s.rolls.roster l).entries := by
        change (l.named slug, x.2) ∈ s.subscriptions
        rwa [← hname]
      rw [hrebuilt] at hentry
      obtain ⟨k, m, hm, hwanted, hplace⟩ := hentry
      obtain ⟨hslug, hemail⟩ := Prod.mk.inj hplace
      refine ⟨k, m, l, hm, hwanted, ?_⟩
      rw [Member.entry, hslug, hemail, ← hname]

/-- What a profile asks to be subscribed to. -/
def UserProfile.asks (p : UserProfile) : MailList → Bool
  | .announce => p.allowAnnounce
  | .official => p.allowOfficial && p.isLeader
  | .discuss => p.allowDiscuss

theorem wanted_member_iff {p : UserProfile} {l : MailList} :
    l.Wanted p.member ↔ p.asks l = true := by
  cases l with
  | announce => exact ⟨fun h => h.1, fun h => ⟨h, fun hl => by cases hl⟩⟩
  | discuss => exact ⟨fun h => h.1, fun h => ⟨h, fun hl => by cases hl⟩⟩
  | official =>
    refine ⟨fun h => Bool.and_eq_true_iff.mpr ⟨h.1, h.2 rfl⟩, fun h => ?_⟩
    obtain ⟨hallow, hlead⟩ := Bool.and_eq_true_iff.mp h
    exact ⟨hallow, fun _ => hlead⟩

/-- Another user is on the lists of the same chapter with the same address. -/
def SharesPlace (t : Tables) (u : User) (p : UserProfile) : Prop :=
  ∃ v ∈ t.users.rows, ∃ q ∈ t.profiles.rows, q.pk = v.pk ∧ v.pk ≠ u.pk ∧ v.email = u.email ∧
    q.chapter.slug = p.chapter.slug

/-- Whoever asks for a list of members without being approved, or for any list with an address that
he shares, is on it. -/
def Settled (s : Db) : Prop :=
  ∀ u ∈ s.tables.users.rows, ∀ p ∈ s.tables.profiles.rows, p.pk = u.pk → ∀ l, p.asks l = true →
    (l ≠ .official ∧ p.status ≠ .approved) ∨ SharesPlace s.tables u p →
      (l.named p.chapter.slug, u.email) ∈ s.subscriptions

theorem alone_of_not_shares {u : User} {p : UserProfile} {l : MailList}
    (hu : u ∈ s.tables.users.rows) (hp : p ∈ s.tables.profiles.rows) (hk : p.pk = u.pk)
    (h : ¬SharesPlace s.tables u p) : (s.rolls.roster l).Alone Member.place u.pk := by
  intro j m m' hm hm' hplace
  obtain rfl := Option.some.inj ((member_of_rows hu hp hk).symm.trans hm)
  obtain ⟨v, hv, q, hq, rfl, hqk, rfl⟩ := rows_of_member hm'
  obtain ⟨hslug, hemail⟩ := Prod.mk.inj hplace
  by_contra hne
  exact h ⟨v, hv, q, hq, hqk, hne, hemail, hslug⟩

theorem settled_iff (hkept : ∀ l, s.rolls.Kept l) : Settled s ↔
    ∀ k m l, s.tables.member k = some m → MailList.Wanted l m →
      m.entry l ∈ s.subscriptions := by
  constructor
  · intro hsettled k m l hm hwanted
    obtain ⟨u, hu, p, hp, hk, hpk, rfl⟩ := rows_of_member hm
    have hkey : p.pk = u.pk := hpk.trans hk.symm
    have hasks : p.asks l = true := wanted_member_iff.mp hwanted
    by_cases hstranger : (l ≠ .official ∧ p.status ≠ .approved) ∨ SharesPlace s.tables u p
    · exact hsettled u hu p hp hkey l hasks hstranger
    · simp only [not_or, not_and, not_not] at hstranger
      subst hk
      exact (hkept l).complete _ _ hm (alone_of_not_shares hu hp hkey hstranger.2)
        ⟨hwanted, hstranger.1⟩
  · intro hall u hu p hp hk l hasks _
    exact hall u.pk _ l (member_of_rows hu hp hk)
      (wanted_member_iff (p := { p with user := u }).mpr hasks)

/-- Nobody asks for a list to which he is entitled, and there are no subscriptions. -/
def NobodyDue (s : Db) : Prop :=
  s.subscriptions = [] ∧ ∀ p ∈ s.tables.profiles.rows,
    (p.status = .approved → p.allowDiscuss = false ∧ p.allowAnnounce = false) ∧
    (p.isLeader = true → p.allowOfficial = false)

/-- What the lists are between calls. -/
structure Upkept (s : Db) : Prop where
  resolved : Resolved s.tables
  named : s.rolls.Named
  kept : ∀ l, s.rolls.Kept l

theorem NobodyDue.upkept (h : NobodyDue db) (hres : Resolved db.tables) : Upkept db := by
  obtain ⟨hempty, hnobody⟩ := h
  have hnone (x : Text × Text) : x ∉ db.subscriptions := by simp [hempty]
  refine ⟨hres, fun x hx => absurd hx (hnone x), fun l => ⟨fun x hx => absurd hx (hnone _), ?_⟩⟩
  intro k m hm _ hdue
  obtain ⟨u, -, p, hp, -, -, rfl⟩ := rows_of_member hm
  have hallow : p.allows l = true := hdue.1.1
  cases l with
  | announce =>
    have hoff := ((hnobody p hp).1 (hdue.2 (by decide))).2
    exact absurd (hoff.symm.trans hallow) (by decide)
  | official =>
    have hoff := (hnobody p hp).2 (hdue.1.2 rfl)
    exact absurd (hoff.symm.trans hallow) (by decide)
  | discuss =>
    have hoff := ((hnobody p hp).1 (hdue.2 (by decide))).1
    exact absurd (hoff.symm.trans hallow) (by decide)

theorem Upkept.perform {c : Call} (h : Upkept s) (hc : c.Calm) (hban : ¬c.task.Bans) :
    Upkept (perform s c) := by
  rcases perform_cases (E := fun _ _ => True) hc hban h.resolved
      ⟨fun _ => trivial, fun _ => trivial, fun _ => trivial, fun _ => trivial⟩
      (fun _ _ _ _ _ _ _ _ _ _ _ _ => trivial) with
    hr | ⟨data, chapter, -, hchapter, k, m, hs, -, hm⟩
  · exact ⟨h.resolved.reached hr, h.named.changes hr.2, fun l => (h.kept l).changes hr.2⟩
  · refine ⟨h.resolved.signedUp hs ?_, ?_, fun l => ?_⟩
    · rw [hm]
      exact (Table.find?_eq_some_iff.mp hchapter).1
    · rw [hs.rolls]
      exact h.named.write
    · rw [hs.rolls]
      exact (h.kept l).signup hs.fresh hs.follower

/-- The lists are the same after they have been made anew if and only if nobody asks for one of them
whom the application has left out of it. -/
theorem syncLists_same_iff (db : Db) (calls : List Call) (hres : Resolved db.tables)
    (hstart : NobodyDue db) (hcalls : EachCall (fun _ c => ¬c.task.Bans ∧ c.Calm) db calls) :
    ∀ s ∈ histories db calls, ∀ faults, Within calm faults →
      ((∀ x, x ∈ (exec syncLists ⟨s, faults⟩).2.db.subscriptions ↔ x ∈ s.subscriptions) ↔
        Settled s) := by
  intro s hs faults hfaults
  have hupkept : Upkept s := Run.states_invariant (I := Upkept) (fun s c s' hi hc hstep => by
    obtain rfl := Option.some.inj hstep
    exact hi.perform hc.2 hc.1) (hstart.upkept hres) hcalls s hs
  have husers : ∀ p ∈ s.tables.profiles.rows, (s.tables.users.find? p.pk).isSome = true := by
    intro p hp
    obtain ⟨⟨u, hu⟩, -⟩ := isSome_member_iff.mp (hupkept.resolved.profiles p hp)
    simp [hu]
  have hsynced : ∀ x, x ∈ (exec syncLists ⟨s, faults⟩).2.db.subscriptions ↔
      ∃ k m l, s.tables.member k = some m ∧ MailList.Wanted l m ∧ x = m.entry l := by
    have hcalm := syncLists_calm (R := fun db' => ∀ x, x ∈ db'.subscriptions ↔
      ∃ k m l, s.tables.member k = some m ∧ MailList.Wanted l m ∧ x = m.entry l) husers
    refine db_of_ensures (ensures_weaken hcalm fun _ db' h x => ?_) hfaults
    rw [h.2, synced_iff hupkept.resolved]
  rw [settled_iff hupkept.kept, ← subscriptions_eq_synced_iff hupkept.named hupkept.kept]
  exact forall_congr' fun x => by rw [hsynced]

section Examples

/-- A chapter with a leader who is on no list. -/
def silentLeader : Db := { annAndBob with
  tables := { annAndBob.tables with
    users := .ofList [(member 1 (text "ann") true).user]
    profiles := .ofList [{ member 1 (text "ann") true with
      allowDiscuss := false, allowAnnounce := false, allowOfficial := false }] } }

theorem silentLeader_resolved : Resolved silentLeader.tables where
  first := by decide
  profiles := by decide
  members := by
    intro k m hm
    obtain ⟨u, -, p, hp, -, -, rfl⟩ := rows_of_member hm
    have hall : ∀ p ∈ silentLeader.tables.profiles.rows,
        p.chapter ∈ silentLeader.tables.chapters.rows := by decide
    exact hall p hp
  invitations := by decide

/-- An applicant who has not been approved is put on the lists. -/
theorem syncLists_not_same :
    ¬∀ (db : Db) (calls : List Call), Resolved db.tables → NobodyDue db →
      EachCall (fun _ c => ¬c.task.Bans ∧ c.Calm) db calls → ∀ s ∈ histories db calls,
        ∀ faults, Within calm faults →
          ∀ x, x ∈ (exec syncLists ⟨s, faults⟩).2.db.subscriptions ↔ x ∈ s.subscriptions := by
  intro h
  let calls : List Call := [quietCall (.form (.apply carl))]
  have hsame := h silentLeader calls silentLeader_resolved ⟨by decide, by decide⟩
    ⟨⟨id, quietCall_calm _⟩, fun _ _ => trivial⟩ _
    (Run.foldl_mem_states perform silentLeader calls) (fun _ _ => false) fun _ _ _ => rfl
  have hadded : ∃ x ∈ (exec syncLists
      ⟨calls.foldl perform silentLeader, fun _ _ => false⟩).2.db.subscriptions,
        x ∉ (calls.foldl perform silentLeader).subscriptions := by decide +kernel
  obtain ⟨x, hin, hnot⟩ := hadded
  exact hnot ((hsame x).mp hin)

/-- After he is approved he was on them before. -/
theorem syncLists_same_iff_carlJoins :
    (∀ x, x ∈ (exec syncLists
        ⟨carlJoins.foldl perform silentLeader, fun _ _ => false⟩).2.db.subscriptions ↔
      x ∈ (carlJoins.foldl perform silentLeader).subscriptions) ↔
    Settled (carlJoins.foldl perform silentLeader) :=
  syncLists_same_iff silentLeader carlJoins silentLeader_resolved ⟨by decide, by decide⟩
    ⟨⟨id, quietCall_calm _⟩, fun _ _ => ⟨⟨id, quietCall_calm _⟩, fun _ _ => trivial⟩⟩ _
    (Run.foldl_mem_states perform silentLeader carlJoins) (fun _ _ => false) fun _ _ _ => rfl

end Examples

end Rebuild

end HackerUnion.Petri
