import HackerUnion.Petri.Roles

namespace HackerUnion.Petri

open Bash (Text text lower)
open Durable
open Durable.Handler

/-- The owner has what the approval of a request through a view gives, by a user's answer. -/
def Received (view : Kind) (user : Option Nat) (l : Leadership) (before : Tables) (t : Tables)
    (subscriptions : List (Text × Text)) : Prop :=
  match view with
  | .join => ∃ u p p', before.users.find? l.owner = some u ∧
      before.profiles.find? l.owner = some p ∧ t.profiles.find? l.owner = some p' ∧
      p'.status = .approved ∧ p'.chapter = p.chapter ∧
      p'.leader = user.filter (fun k => Available before k) ∧
      (p.allowAnnounce = true → (p.chapter.getAnnounceList, u.email) ∈ subscriptions) ∧
      (p.allowDiscuss = true → (p.chapter.getDiscussList, u.email) ∈ subscriptions)
  | .lead => ∃ u p', before.users.find? l.owner = some u ∧
      t.profiles.find? l.owner = some p' ∧ p'.isLeader = true ∧ p'.leader = none ∧
      (p'.allowOfficial = true → (p'.chapter.getOfficialList, u.email) ∈ subscriptions)
  | .pair => ∃ p', t.profiles.find? l.owner = some p' ∧ p'.leader = user
  | .promote => ∃ related post, l.related = some related ∧ t.posts.find? related = some post ∧
      post.bulletin.promotedBy = user
  | .help => True

/-- The whole effect of a response has happened. -/
def Happened (view : Kind) (user : Option Nat) (l : Leadership) (before : Tables)
    (response : Response) (t : Tables) (subscriptions : List (Text × Text)) : Prop :=
  match response with
  | .approved => Received view user l before t subscriptions
  | .denied =>
    view = .join → ∃ p', t.profiles.find? l.owner = some p' ∧ p'.status = .denied
  | _ => True

/-- The request is open and nothing else has happened, or it is closed and the whole effect of what
it was answered has. -/
def AllOrNothing (view : Kind) (user : Option Nat) (bulletin : Nat) (l : Leadership)
    (before after : Db) : Prop :=
  ∃ l', after.tables.posts.find? bulletin = some (.leadership l') ∧
    ((l'.canRespond = true ∧ after.tables.profiles = before.tables.profiles ∧
        after.subscriptions = before.subscriptions ∧
        ∀ pk, pk ≠ bulletin → after.tables.posts.find? pk = before.tables.posts.find? pk) ∨
      (l'.canRespond = false ∧
        Happened view user l before.tables l'.response after.tables after.subscriptions))

/-- The user may answer the request through the view. -/
def Accepted (t : Tables) (view : Kind) (slug : Text) (user : Option Nat) (l : Leadership) : Prop :=
  (∃ c, t.chapters.rows.find? (fun c => c.slug = slug) = some c) ∧
    (∃ k ∈ user, (t.users.find? k).isSome = true ∧
      (t.profiles.find? k).any UserProfile.isLeader = true ∧
      (view = .pair → mentees t k < maxMentees)) ∧
    (t.users.find? l.owner).isSome = true ∧ (t.profiles.find? l.owner).isSome = true

def usersNamed (db : Db) (name : Text) : List User :=
  db.tables.users.rows.filter fun u => lower u.username = lower name

/-- Saving the request tells nobody of a mention: each name is of one user at most, and every user
mentioned has been told. -/
def QuietMentions (db : Db) (l : Leadership) : Prop :=
  (∀ name ∈ getMentions l.content, (usersNamed db name).length ≤ 1) ∧
    ∀ k, ((l.pk, k) ∈ db.usersMentioned ∨
      ∃ name ∈ getMentions l.content, ∃ u ∈ usersNamed db name, u.pk = k) →
      (l.pk, k) ∈ db.usersNotified

/-- If the response is taken, and is not turned into a cancellation: what it approves is there
already, or it denies without effect or without a notification. -/
def Settles (db : Db) (view : Kind) (slug : Text) (user : Option Nat) (l : Leadership) (r : Int) :
    Prop :=
  Accepted db.tables view slug user l →
    ∀ response, ResponseForm.cleanResponse r = .ok response →
    ∀ p, db.tables.profiles.find? l.owner = some p → view.eligible l p = true →
      (response = .approved → Received view user l db.tables db.tables db.subscriptions) ∧
      (response = .denied → view = .join → QuietMentions db l)

variable {may : Service → Bool → Prop} {db : Db} {view : Kind} {slug : Text} {user : Option Nat}
  {bulletin : Nat} {l : Leadership} {r : Int} {request : Request} {response : Response}

section Marked

/-- The request is stored with this answer, and nothing else is changed but what was sent. -/
def Marked (l : Leadership) (response : Response) (k : Nat) (db db' : Db) : Prop :=
  OnCore (Leadership.IsStored { l with response := response, processedBy := some k } false db) db'

def marked (l : Leadership) (response : Response) (k : Nat) : Leadership :=
  { l with
    response := response
    processedBy := some k
    content := linkifyMentions l.chapter l.content }

theorem marked_posts {k : Nat} {db' : Db} (h : Marked l response k db db') (pk : Nat) :
    db'.tables.posts.find? pk =
      if l.pk = pk then some (.leadership (marked l response k))
      else db.tables.posts.find? pk := by
  rw [h.1]
  exact Table.find?_save

theorem marked_profiles {k : Nat} {db' : Db} (h : Marked l response k db db') :
    db'.tables.profiles = db.tables.profiles := by
  rw [h.1]
  rfl

/-- An answer that is recorded gives nobody anything. -/
theorem received_of_marked {k : Nat} {db' : Db} (h : Marked l response k db db')
    (hfind : db.tables.posts.find? l.pk = some (.leadership l)) :
    Received view user l db.tables db'.tables db'.subscriptions ↔
      Received view user l db.tables db.tables db.subscriptions := by
  have hprofiles := marked_profiles h
  cases view with
  | join | lead | pair =>
    unfold Received
    rw [hprofiles, h.2]
  | help => exact Iff.rfl
  | promote =>
    unfold Received
    apply exists_congr
    intro related
    have hpost : (∃ post, db'.tables.posts.find? related = some post ∧
        post.bulletin.promotedBy = user) ↔
        ∃ post, db.tables.posts.find? related = some post ∧ post.bulletin.promotedBy = user := by
      rw [marked_posts h]
      split
      · rename_i hkey
        rw [← hkey, hfind]
        constructor
        · rintro ⟨post, hpost, huser⟩
          cases hpost
          exact ⟨_, rfl, huser⟩
        · rintro ⟨post, hpost, huser⟩
          cases hpost
          exact ⟨_, rfl, huser⟩
      · exact Iff.rfl
    constructor
    · rintro ⟨post, hrelated, hpost'⟩
      obtain ⟨post', h'⟩ := hpost.mp ⟨post, hpost'⟩
      exact ⟨post', hrelated, h'⟩
    · rintro ⟨post, hrelated, hpost'⟩
      obtain ⟨post', h'⟩ := hpost.mpr ⟨post, hpost'⟩
      exact ⟨post', hrelated, h'⟩

theorem happened_of_marked {k : Nat} {db' : Db} (h : Marked l response k db db')
    (hfind : db.tables.posts.find? l.pk = some (.leadership l)) :
    Happened view user l db.tables response db'.tables db'.subscriptions ↔
      Happened view user l db.tables response db.tables db.subscriptions := by
  cases response with
  | approved => exact received_of_marked h hfind
  | denied =>
    unfold Happened
    rw [marked_profiles h]
  | pending | active | canceled => exact Iff.rfl

/-- Where only the answer is recorded, all has happened if it stays open or has no effect. -/
theorem allOrNothing_of_marked {k : Nat} {db' : Db} (h : Marked l response k db db')
    (hfind : db.tables.posts.find? bulletin = some (.leadership l)) (hne : response ≠ .pending) :
    AllOrNothing view user bulletin l db db' ↔
      (response = .active ∨ Happened view user l db.tables response db.tables db.subscriptions) := by
  have hpk : l.pk = bulletin := (Table.find?_eq_some_iff.mp hfind).2
  have hrow : db'.tables.posts.find? bulletin = some (.leadership (marked l response k)) := by
    rw [marked_posts h, if_pos hpk]
  have hhappened : Happened view user l db.tables response db'.tables db'.subscriptions ↔
      Happened view user l db.tables response db.tables db.subscriptions :=
    happened_of_marked h (hpk ▸ hfind)
  have hopen : (marked l response k).canRespond = decide (response = .active) := by
    unfold Leadership.canRespond marked
    simp [hne]
  constructor
  · rintro ⟨l', hl', hopen' | ⟨-, heffect⟩⟩
    · cases hrow.symm.trans hl'
      rw [hopen] at hopen'
      exact Or.inl (of_decide_eq_true hopen'.1)
    · cases hrow.symm.trans hl'
      exact Or.inr (hhappened.mp heffect)
  · intro hcase
    refine ⟨_, hrow, ?_⟩
    rw [hopen]
    by_cases hactive : response = .active
    · refine Or.inl ⟨decide_eq_true hactive, marked_profiles h, h.2, ?_⟩
      intro pk hne'
      rw [marked_posts h, if_neg]
      rw [hpk]
      exact fun heq => hne' heq.symm
    · refine Or.inr ⟨decide_eq_false hactive, hhappened.mpr ?_⟩
      rcases hcase with hact | heffect
      · exact absurd hact hactive
      · exact heffect

end Marked

section Mentions

variable {P : Tables → List (Text × Text) → Prop} {b : Bulletin} {names : List Text}

theorem untold_eq_nil_iff : b.untold db = [] ↔
    ∀ k, (b.pk, k) ∈ db.usersMentioned → (b.pk, k) ∈ db.usersNotified := by
  unfold Bulletin.untold
  rw [List.map_eq_nil_iff, List.filter_eq_nil_iff]
  constructor
  · intro h k hk
    simpa using h (b.pk, k) hk
  · intro h m hm
    obtain ⟨pk, k⟩ := m
    simp only [Bool.and_eq_true, decide_eq_true_eq, not_and, not_not]
    intro hpk
    subst hpk
    exact h k hm

/-- A notification is not sent where none can be stored. -/
theorem notify_down {R : Db → Prop} (hdown : ¬may .notifications false) (hr : R db) (type : Text)
    (users : List Nat) (entries : List (Text × Text)) (each : Nat → M Unit) :
    Ensures may db (notify type users entries each) (fun _ _ => False) R := by
  apply ensures_bind
  apply ensures_call
  · intro hup
    exact absurd hup hdown
  · intro _
    exact hr

theorem getUserByName_cases {name : Text} {Q : Option User → Db → Prop} {R : Db → Prop}
    (hnone : usersNamed db name = [] → Q none db)
    (hsome : ∀ u, usersNamed db name = [u] → Q (some u) db)
    (hmany : 2 ≤ (usersNamed db name).length → R db) :
    Ensures may db (getUserByName name) Q R := by
  apply ensures_read
  split
  · rename_i hfilter
    exact ensures_pure (hnone hfilter)
  · rename_i u hfilter
    exact ensures_pure (hsome u hfilter)
  · rename_i hnil hsingle
    apply ensures_throw
    apply hmany
    change 2 ≤ (db.tables.users.rows.filter fun u => lower u.username = lower name).length
    generalize db.tables.users.rows.filter _ = xs at *
    match xs with
    | [] => exact absurd rfl hnil
    | [u] => exact absurd rfl (hsingle u)
    | _ :: _ :: _ => simp

/-- A user who is mentioned is noted, among those who were. -/
theorem mem_noted {ms : List (Nat × Nat)} {m n : Nat × Nat} :
    m ∈ (if n ∈ ms then ms else ms ++ [n]) ↔ m ∈ ms ∨ m = n := by
  split
  · rename_i hn
    constructor
    · exact Or.inl
    · rintro (hm | rfl)
      · exact hm
      · exact hn
  · simp

/-- What the loop over the names of a text keeps where the mentions are quiet. -/
structure QuietLoop (P : Tables → List (Text × Text) → Prop) (pk : Nat) (db : Db)
    (rest : List Text) (db' : Db) : Prop where
  core : P db'.tables db'.subscriptions
  users : db'.tables.users = db.tables.users
  notified : db'.usersNotified = db.usersNotified
  named : ∀ name ∈ rest, (usersNamed db name).length ≤ 1 ∧
    ∀ u ∈ usersNamed db name, (pk, u.pk) ∈ db.usersNotified
  told : ∀ k, (pk, k) ∈ db'.usersMentioned → (pk, k) ∈ db.usersNotified

theorem usersNamed_congr {db' : Db} (h : db'.tables.users = db.tables.users) (name : Text) :
    usersNamed db' name = usersNamed db name := by
  unfold usersNamed
  rw [h]

theorem mentioned_quiet {R : Db → Prop} (hup : ¬may .database true)
    (h : QuietLoop P b.pk db names db) :
    Ensures may db (b.mentioned names) (fun _ => OnCore P) R := by
  apply ensures_seq (ensures_forM (I := QuietLoop P b.pk db) (R := R) ?_ h)
  · intro _ db' hdone
    unfold Bulletin.createMentionNotifications
    apply ensures_read
    have hnil : b.untold db' = [] := untold_eq_nil_iff.mpr fun k hk => by
      rw [hdone.notified]
      exact hdone.told k hk
    rw [if_pos hnil]
    exact ensures_pure hdone.core
  · intro name rest db' hloop
    obtain ⟨hlen, htold⟩ := hloop.named name List.mem_cons_self
    have hrest (x : Text) (hx : x ∈ rest) := hloop.named x (List.mem_cons_of_mem name hx)
    have hnamed := usersNamed_congr hloop.users name
    apply ensures_bind
    apply getUserByName_cases
    · intro _
      exact ensures_pure ⟨hloop.core, hloop.users, hloop.notified, hrest, hloop.told⟩
    · intro u hu
      apply ensures_store
      · refine ⟨hloop.core, hloop.users, hloop.notified, hrest, ?_⟩
        intro k hk
        rcases mem_noted.mp hk with hk | hk
        · exact hloop.told k hk
        · obtain ⟨-, rfl⟩ := Prod.mk.inj hk
          apply htold
          rw [← hnamed, hu]
          exact List.mem_singleton_self u
      · intro hdown
        exact absurd hdown hup
    · intro hmany
      rw [hnamed] at hmany
      omega

/-- Someone is still to be told, or a name is still to be found to be of several users. -/
structure NoisyLoop (P : Tables → List (Text × Text) → Prop) (pk : Nat) (db : Db)
    (rest : List Text) (db' : Db) : Prop where
  core : P db'.tables db'.subscriptions
  users : db'.tables.users = db.tables.users
  notified : db'.usersNotified = db.usersNotified
  noisy : (∃ name ∈ rest, 2 ≤ (usersNamed db name).length) ∨
    ∃ k, (pk, k) ∉ db.usersNotified ∧ ((pk, k) ∈ db'.usersMentioned ∨
      ∃ name ∈ rest, ∃ u ∈ usersNamed db name, u.pk = k)

theorem mentioned_noisy (hdown : ¬may .notifications false) (hup : ¬may .database true)
    (h : NoisyLoop P b.pk db names db) :
    Ensures may db (b.mentioned names) (fun _ _ => False) (OnCore P) := by
  apply ensures_seq (ensures_forM (I := NoisyLoop P b.pk db) (R := OnCore P) ?_ h)
  · intro _ db' hdone
    unfold Bulletin.createMentionNotifications
    apply ensures_read
    have hsome : b.untold db' ≠ [] := by
      intro hnil
      rcases hdone.noisy with ⟨name, hname, -⟩ | ⟨k, hk, hk' | ⟨name, hname, -⟩⟩
      · cases hname
      · have htold := untold_eq_nil_iff.mp hnil k hk'
        rw [hdone.notified] at htold
        exact hk htold
      · cases hname
    rw [if_neg hsome]
    exact notify_down hdown hdone.core _ _ _ _
  · intro name rest db' hloop
    have hnamed := usersNamed_congr hloop.users name
    apply ensures_bind
    apply getUserByName_cases
    · intro hnil
      rw [hnamed] at hnil
      refine ensures_pure ⟨hloop.core, hloop.users, hloop.notified, ?_⟩
      rcases hloop.noisy with ⟨x, hx, hlen⟩ | ⟨k, hk, hk' | ⟨x, hx, u, hu, huk⟩⟩
      · rcases List.mem_cons.mp hx with rfl | hx
        · rw [hnil] at hlen
          cases hlen
        · exact Or.inl ⟨x, hx, hlen⟩
      · exact Or.inr ⟨k, hk, Or.inl hk'⟩
      · rcases List.mem_cons.mp hx with rfl | hx
        · rw [hnil] at hu
          cases hu
        · exact Or.inr ⟨k, hk, Or.inr ⟨x, hx, u, hu, huk⟩⟩
    · intro v hv
      rw [hnamed] at hv
      apply ensures_store
      · refine ⟨hloop.core, hloop.users, hloop.notified, ?_⟩
        rcases hloop.noisy with ⟨x, hx, hlen⟩ | ⟨k, hk, hk' | ⟨x, hx, u, hu, huk⟩⟩
        · rcases List.mem_cons.mp hx with rfl | hx
          · rw [hv] at hlen
            simp at hlen
          · exact Or.inl ⟨x, hx, hlen⟩
        · exact Or.inr ⟨k, hk, Or.inl (mem_noted.mpr (Or.inl hk'))⟩
        · rcases List.mem_cons.mp hx with rfl | hx
          · rw [hv] at hu
            cases List.mem_singleton.mp hu
            exact Or.inr ⟨k, hk, Or.inl (mem_noted.mpr (Or.inr (by rw [huk])))⟩
          · exact Or.inr ⟨k, hk, Or.inr ⟨x, hx, u, hu, huk⟩⟩
      · intro hd
        exact absurd hd hup
    · intro _
      exact hloop.core

end Mentions

section Record

variable {k : Nat} {valid : Bool} {R : Db → Prop}

/-- What a request that is not turned down is answered. -/
def recorded (response : Response) (valid : Bool) : Response :=
  if valid then response else .canceled

theorem save_marked (hup : ¬may .database true) :
    Ensures may db (Leadership.save { l with response := response, processedBy := some k })
      (fun _ db' => Marked l response k db db') (fun db' => Marked l response k db db') := by
  apply ensures_mono (Leadership.save_ensures _ _)
  · intro _ db' h
    exact h.2
  · intro db' h
    rcases h with hmarked | ⟨hdown, -⟩
    · exact hmarked
    · exact absurd hdown hup

theorem save_quiet (hup : ¬may .database true) (hquiet : QuietMentions db l) :
    Ensures may db (Leadership.save { l with response := response, processedBy := some k })
      (fun _ db' => Marked l response k db db') R := by
  obtain ⟨hlen, htold⟩ := hquiet
  unfold Leadership.save
  apply ensures_read
  apply ensures_bind
  apply ensures_store
  · apply ensures_seq (mentioned_quiet (P := fun t s =>
        Leadership.IsStored { l with response := response, processedBy := some k } false db t s)
      (R := R) hup ?_)
    · intro _ db' h
      exact ensures_pure h
    · refine ⟨⟨rfl, rfl⟩, rfl, rfl, ?_, ?_⟩
      · intro name hname
        exact ⟨hlen name hname, fun u hu => htold u.pk (Or.inr ⟨name, hname, u, hu, rfl⟩)⟩
      · intro k hk
        exact htold k (Or.inl hk)
  · intro hdown
    exact absurd hdown hup

theorem save_noisy (hup : ¬may .database true) (hdown : ¬may .notifications false)
    (hnoisy : ¬QuietMentions db l) :
    Ensures may db (Leadership.save { l with response := response, processedBy := some k })
      (fun _ _ => False) (fun db' => Marked l response k db db') := by
  unfold Leadership.save
  apply ensures_read
  apply ensures_bind
  apply ensures_store
  · apply ensures_seq (mentioned_noisy (P := fun t s =>
        Leadership.IsStored { l with response := response, processedBy := some k } false db t s)
      hdown hup ?_)
    · intro _ db' h
      exact h.elim
    · refine ⟨⟨rfl, rfl⟩, rfl, rfl, ?_⟩
      by_contra hnot
      rw [not_or] at hnot
      refine hnoisy ⟨?_, ?_⟩
      · intro name hname
        by_contra hlen
        refine hnot.1 ⟨name, hname, ?_⟩
        change 2 ≤ (usersNamed db name).length
        omega
      · intro k hk
        by_contra htold
        exact hnot.2 ⟨k, htold, hk⟩
  · intro hd
    exact absurd hd hup

/-- The approval is stored before it is told. -/
theorem approve_down (hup : ¬may .database true) (hdown : ¬may .notifications false) :
    Ensures may db (l.approve request.user) (fun _ _ => False)
      (fun db' => Marked l .approved request.user.pk db db') := by
  apply ensures_seq (save_marked hup)
  intro l' db' h
  apply ensures_seq (getProfile_keeps (I := fun db' => Marked l .approved request.user.pk db db')
    request.user db' h)
  intro processor db'' h
  exact ensures_seq (notify_down hdown h _ _ _ _) fun _ _ h => h.elim

theorem responseSave_marked (hup : ¬may .database true) (hne : recorded response valid ≠ .pending) :
    Ensures may db (ResponseForm.save request l response valid)
      (fun r' db' => r' = recorded response valid ∧
        Marked l (recorded response valid) request.user.pk db db')
      (fun db' => Marked l (recorded response valid) request.user.pk db db') := by
  have hdone {response' : Response} {c : M Leadership}
      (hc : Ensures may db c (fun _ db' => Marked l response' request.user.pk db db')
        (fun db' => Marked l response' request.user.pk db db')) :
      Ensures may db (do let _ ← c; return response')
        (fun r' db' => r' = response' ∧ Marked l response' request.user.pk db db')
        (fun db' => Marked l response' request.user.pk db db') := by
    apply ensures_seq hc
    intro _ db' h
    exact ensures_pure ⟨rfl, h⟩
  unfold ResponseForm.save
  change recorded response valid ≠ .pending at hne
  cases valid with
  | false => exact hdone (c := l.cancel (some request.user.pk)) (save_marked hup)
  | true =>
    cases response with
    | pending => exact absurd rfl hne
    | canceled => exact hdone (c := l.cancel (some request.user.pk)) (save_marked hup)
    | denied => exact hdone (c := l.deny request.user) (save_marked hup)
    | active => exact hdone (c := l.activate request.user) (save_marked hup)
    | approved =>
      refine hdone (c := l.approve request.user) ?_
      let I : Db → Prop := fun db' => Marked l .approved request.user.pk db db'
      apply ensures_seq (save_marked hup)
      intro l' db' h
      refine ensures_seq (getProfile_keeps (I := I) request.user db' h) ?_
      intro processor db'' h
      refine ensures_seq (notify_keeps (P := fun t s => Leadership.IsStored
        { l with response := .approved, processedBy := some request.user.pk } false db t s)
        (fun _ => keeps_pure _) _ _ _ db'' h) ?_
      intro _ after h
      exact ensures_pure h

theorem approve_raises (hup : ¬may .database true) (hdown : ¬may .notifications false) :
    Ensures may db (ResponseForm.save request l .approved true) (fun _ _ => False)
      (fun db' => Marked l .approved request.user.pk db db') := by
  apply ensures_seq (approve_down hup hdown)
  intro _ db' h
  exact h.elim

theorem deny_raises (hup : ¬may .database true) (hdown : ¬may .notifications false)
    (hnoisy : ¬QuietMentions db l) :
    Ensures may db (ResponseForm.save request l .denied true) (fun _ _ => False)
      (fun db' => Marked l .denied request.user.pk db db') := by
  apply ensures_seq (save_noisy hup hdown hnoisy)
  intro _ db' h
  exact h.elim

/-- Where the answer is recorded and nothing more is done, for want of a notification. -/
theorem saveResponse_raises {owner : User} {p : UserProfile}
    (howner : db.tables.users.find? l.owner = some owner)
    (hp : db.tables.profiles.find? owner.pk = some p)
    (hsave : Ensures may db (ResponseForm.save request l response valid) (fun _ _ => False) R) :
    Ensures may db (view.saveResponse request l response valid) (fun _ _ => False) R := by
  have hfalse {β : Type} {c : M Response} {f : Response → M β} {Q : β → Db → Prop}
      (hc : Ensures may db c (fun _ _ => False) R) : Ensures may db (c >>= f) Q R :=
    ensures_seq hc fun _ _ h => h.elim
  cases view with
  | help => exact hsave
  | promote => exact hfalse hsave
  | join | lead | pair =>
    apply ensures_finds (finds_getUser howner)
    apply ensures_finds (finds_getProfile hp)
    exact hfalse hsave

end Record

section Settle

variable {k : Nat} {valid : Bool}

/-- What is known where a response that settles is saved. -/
structure Settling (db : Db) (view : Kind) (bulletin : Nat) (l : Leadership) (response : Response)
    (valid : Bool) (request : Request) : Prop where
  find : db.tables.posts.find? bulletin = some (.leadership l)
  responds : l.canRespond = true
  known : response ≠ .pending
  judged : ∀ p, db.tables.profiles.find? l.owner = some p → valid = view.eligible l p
  approved : ∀ p, db.tables.profiles.find? l.owner = some p → valid = true →
    response = .approved →
    Received view (some request.user.pk) l db.tables db.tables db.subscriptions
  denied : ∀ p, db.tables.profiles.find? l.owner = some p → valid = true →
    response = .denied → view = .join → QuietMentions db l

theorem allOrNothing_self (hfind : db.tables.posts.find? bulletin = some (.leadership l))
    (hopen : l.canRespond = true) : AllOrNothing view user bulletin l db db :=
  ⟨l, hfind, Or.inl ⟨hopen, rfl, rfl, fun _ _ => rfl⟩⟩

theorem recorded_ne_pending (h : response ≠ .pending) : recorded response valid ≠ .pending := by
  cases valid with
  | false => exact nofun
  | true => exact h

theorem of_recorded (h : recorded response valid ≠ .canceled) :
    valid = true ∧ recorded response valid = response := by
  cases valid with
  | false => exact absurd rfl h
  | true => exact ⟨rfl, rfl⟩

/-- An answer that is recorded settles the request, but for a denial through the join view. -/
theorem Settling.marked (h : Settling db view bulletin l response valid request) {p : UserProfile}
    (hp : db.tables.profiles.find? l.owner = some p)
    (hnot : recorded response valid = .denied → view ≠ .join) {db' : Db}
    (hmarked : Marked l (recorded response valid) request.user.pk db db') :
    AllOrNothing view (some request.user.pk) bulletin l db db' := by
  refine (allOrNothing_of_marked hmarked h.find (recorded_ne_pending h.known)).mpr ?_
  by_cases hcanceled : recorded response valid = .canceled
  · rw [hcanceled]
    exact Or.inr trivial
  · obtain ⟨hvalid, heq⟩ := of_recorded hcanceled
    rw [heq] at hnot ⊢
    cases hr : response with
    | pending => exact absurd hr h.known
    | active => exact Or.inl rfl
    | approved => exact Or.inr (h.approved p hp hvalid hr)
    | denied => exact Or.inr fun hview => absurd hview (hnot hr)
    | canceled => exact Or.inr trivial

/-- Where the save of an answer ends early, the request is settled all the same. -/
theorem Settling.saved (h : Settling db view bulletin l response valid request) {p : UserProfile}
    (hp : db.tables.profiles.find? l.owner = some p)
    (hnot : recorded response valid = .denied → view ≠ .join) (hup : ¬may .database true) :
    Ensures may db (ResponseForm.save request l response valid)
      (fun r' db₁ => r' = recorded response valid ∧
        Marked l (recorded response valid) request.user.pk db db₁)
      (AllOrNothing view (some request.user.pk) bulletin l db) := by
  apply ensures_raise (responseSave_marked hup (recorded_ne_pending h.known))
  intro _ hmarked
  exact h.marked hp hnot hmarked

variable {owner : User} {p : UserProfile}

/-- The request is marked, and the profile of its owner is written after that. -/
theorem marked_then_saved {response : Response} {q : UserProfile} {db₁ db₂ : Db}
    (hmarked : Marked l response request.user.pk db db₁)
    (hfind : db.tables.posts.find? bulletin = some (.leadership l))
    (htables : db₂.tables = { db₁.tables with profiles := db₁.tables.profiles.save q })
    (hclosed : response = .approved ∨ response = .denied)
    (hhappened : Happened view (some request.user.pk) l db.tables response db₂.tables
      db₂.subscriptions) :
    AllOrNothing view (some request.user.pk) bulletin l db db₂ := by
  have hpk : l.pk = bulletin := (Table.find?_eq_some_iff.mp hfind).2
  have hrow : db₂.tables.posts.find? bulletin =
      some (.leadership (marked l response request.user.pk)) := by
    rw [htables]
    change db₁.tables.posts.find? bulletin = _
    rw [marked_posts hmarked, if_pos hpk]
  refine ⟨_, hrow, Or.inr ⟨?_, hhappened⟩⟩
  rcases hclosed with rfl | rfl <;> rfl

/-- A mentor that the owner has is assigned again. -/
theorem pair_settles (hup : ¬may .database true)
    (h : Settling db .pair bulletin l response valid request)
    (howner : db.tables.users.find? l.owner = some owner)
    (hp : db.tables.profiles.find? l.owner = some p) :
    Ensures may db (PairResponseForm.save request l response valid)
      (fun _ => AllOrNothing .pair (some request.user.pk) bulletin l db)
      (AllOrNothing .pair (some request.user.pk) bulletin l db) := by
  have hpk : owner.pk = l.owner := (Table.find?_eq_some_iff.mp howner).2
  apply ensures_finds (finds_getUser howner)
  apply ensures_finds (finds_getProfile (hpk.symm ▸ hp))
  apply ensures_seq (h.saved hp (fun _ => nofun) hup)
  intro r' db₁ hr'
  obtain ⟨rfl, hmarked⟩ := hr'
  have hsettled := h.marked hp (fun _ => nofun) hmarked
  dsimp only
  split
  · rename_i happroved
    apply ensures_bind
    apply ensures_bind
    apply ensures_store
    · rw [happroved] at hmarked
      refine ensures_pure (ensures_pure (marked_then_saved hmarked h.find rfl (Or.inl rfl) ?_))
      refine ⟨_, Table.find?_eq_some_iff.mpr ⟨Table.mem_save.mpr (Or.inl rfl), hpk⟩, rfl⟩
    · intro hd
      exact absurd hd hup
  · exact ensures_pure hsettled

/-- One who is no leader has not received the leadership. -/
theorem lead_settles (hup : ¬may .database true)
    (h : Settling db .lead bulletin l response valid request)
    (howner : db.tables.users.find? l.owner = some owner)
    (hp : db.tables.profiles.find? l.owner = some p) :
    Ensures may db (LeadResponseForm.save request l response valid)
      (fun _ => AllOrNothing .lead (some request.user.pk) bulletin l db)
      (AllOrNothing .lead (some request.user.pk) bulletin l db) := by
  have hpk : owner.pk = l.owner := (Table.find?_eq_some_iff.mp howner).2
  apply ensures_finds (finds_getUser howner)
  apply ensures_finds (finds_getProfile (hpk.symm ▸ hp))
  apply ensures_seq (h.saved hp (fun _ => nofun) hup)
  intro r' db₁ hr'
  obtain ⟨rfl, hmarked⟩ := hr'
  dsimp only
  split
  · rename_i happroved
    have hne : recorded response valid ≠ .canceled := by simp [happroved]
    obtain ⟨hvalid, heq⟩ := of_recorded hne
    obtain ⟨_, p', -, hp', hlead, -⟩ := h.approved p hp hvalid (heq.symm.trans happroved)
    cases hp.symm.trans hp'
    have hjudged := h.judged p hp
    rw [hvalid] at hjudged
    simp [Kind.eligible, hlead] at hjudged
  · exact ensures_pure (h.marked hp (fun _ => nofun) hmarked)

theorem help_settles (hup : ¬may .database true)
    (h : Settling db .help bulletin l response valid request)
    (hp : db.tables.profiles.find? l.owner = some p) :
    Ensures may db (HelpResponseForm.save request l response valid)
      (fun _ => AllOrNothing .help (some request.user.pk) bulletin l db)
      (AllOrNothing .help (some request.user.pk) bulletin l db) := by
  apply ensures_weaken (h.saved hp (fun _ => nofun) hup)
  intro r' db₁ hr'
  exact h.marked hp (fun _ => nofun) hr'.2

/-- A denial is stored, and then the profile of the owner. -/
theorem join_settles (hup : ¬may .database true)
    (h : Settling db .join bulletin l response valid request)
    (howner : db.tables.users.find? l.owner = some owner)
    (hp : db.tables.profiles.find? l.owner = some p) :
    Ensures may db (JoinResponseForm.save request l response valid)
      (fun _ => AllOrNothing .join (some request.user.pk) bulletin l db)
      (AllOrNothing .join (some request.user.pk) bulletin l db) := by
  have hpk : owner.pk = l.owner := (Table.find?_eq_some_iff.mp howner).2
  apply ensures_finds (finds_getUser howner)
  apply ensures_finds (finds_getProfile (hpk.symm ▸ hp))
  by_cases hdenied : recorded response valid = .denied
  · have hne : recorded response valid ≠ .canceled := by simp [hdenied]
    obtain ⟨hvalid, heq⟩ := of_recorded hne
    have hresponse : response = .denied := heq.symm.trans hdenied
    have hquiet := h.denied p hp hvalid hresponse rfl
    subst hresponse hvalid
    have hsave : Ensures may db (ResponseForm.save request l .denied true)
        (fun r' db₁ => r' = .denied ∧ Marked l .denied request.user.pk db db₁)
        (fun _ => False) := by
      apply ensures_seq (save_quiet hup hquiet)
      intro _ db₁ hmarked
      exact ensures_pure ⟨rfl, hmarked⟩
    apply ensures_then hsave
    · intro r' db₁ hr'
      obtain ⟨rfl, hmarked⟩ := hr'
      apply ensures_bind
      apply ensures_bind
      apply ensures_store
      · refine ensures_pure (ensures_pure (marked_then_saved hmarked h.find rfl (Or.inr rfl) ?_))
        intro _
        exact ⟨_, Table.find?_eq_some_iff.mpr ⟨Table.mem_save.mpr (Or.inl rfl), hpk⟩, rfl⟩
      · intro hd
        exact absurd hd hup
    · intro _ hfalse
      exact hfalse.elim
  · apply ensures_seq (h.saved hp (fun hd => absurd hd hdenied) hup)
    intro r' db₁ hr'
    obtain ⟨rfl, hmarked⟩ := hr'
    dsimp only
    split
    · rename_i happroved
      have hne : recorded response valid ≠ .canceled := by simp [happroved]
      obtain ⟨hvalid, heq⟩ := of_recorded hne
      obtain ⟨_, _, p', -, -, hp', hstatus, -⟩ :=
        h.approved p hp hvalid (heq.symm.trans happroved)
      cases hp.symm.trans hp'
      have hjudged := h.judged p hp
      rw [hvalid] at hjudged
      simp [Kind.eligible, UserProfile.canApply, hstatus] at hjudged
    · exact ensures_pure (h.marked hp (fun hd => absurd hd hdenied) hmarked)

/-- An endorsement that is stored is not lost where it cannot be told. -/
theorem promote_keeps_settled {related : Nat} (hup : ¬may .database true) {db₁ : Db}
    (hmarked : Marked l .approved request.user.pk db db₁)
    (hfind : db.tables.posts.find? bulletin = some (.leadership l))
    (hrelated : l.related = some related)
    (hsettled : AllOrNothing .promote (some request.user.pk) bulletin l db db₁) :
    Ensures may db₁ (promote related request.user)
      (fun _ => AllOrNothing .promote (some request.user.pk) bulletin l db)
      (AllOrNothing .promote (some request.user.pk) bulletin l db) := by
  have hpk : l.pk = bulletin := (Table.find?_eq_some_iff.mp hfind).2
  apply ensures_read
  cases hpost : db₁.tables.posts.find? related with
  | none => exact ensures_throw hsettled
  | some post =>
    dsimp only
    have hkey : post.pk = related := (Table.find?_eq_some_iff.mp hpost).2
    let b := { post.bulletin with promotedBy := some request.user.pk }.withContent
    let db₂ : Db := { db₁ with tables := db₁.tables.withPost (post.withBulletin b) }
    have hnew (pk : Nat) : db₂.tables.posts.find? pk =
        if related = pk then some (post.withBulletin b) else db₁.tables.posts.find? pk := by
      have hsave : db₂.tables.posts.find? pk =
          if (post.withBulletin b).pk = pk then some (post.withBulletin b)
          else db₁.tables.posts.find? pk := Table.find?_save
      have hb : b.pk = related := hkey
      rw [hsave, withBulletin_pk, hb]
    have hafter : AllOrNothing .promote (some request.user.pk) bulletin l db db₂ := by
      have hreceived : Received .promote (some request.user.pk) l db.tables db₂.tables
          db₂.subscriptions := by
        refine ⟨related, post.withBulletin b, hrelated, by rw [hnew, if_pos rfl], ?_⟩
        cases post <;> rfl
      have hrow := marked_posts hmarked bulletin
      rw [if_pos hpk] at hrow
      by_cases hown : related = bulletin
      · rw [hown, hrow] at hpost
        cases hpost
        refine ⟨{ marked l .approved request.user.pk with toBulletin := b }, ?_, Or.inr ⟨rfl, ?_⟩⟩
        · rw [hnew, if_pos hown]
          rfl
        · exact hreceived
      · refine ⟨marked l .approved request.user.pk, ?_, Or.inr ⟨rfl, hreceived⟩⟩
        rw [hnew, if_neg hown, hrow]
    apply ensures_bind
    apply ensures_store
    · exact mentioned_keeps (P := fun t s => AllOrNothing .promote (some request.user.pk) bulletin l
        db { db₁ with tables := t, subscriptions := s }) _ _ db₂ hafter
    · intro hd
      exact absurd hd hup

/-- A post that the user has endorsed is endorsed again. -/
theorem promote_settles (hup : ¬may .database true)
    (h : Settling db .promote bulletin l response valid request)
    (hp : db.tables.profiles.find? l.owner = some p) :
    Ensures may db (PromoteResponseForm.save request l response valid)
      (fun _ => AllOrNothing .promote (some request.user.pk) bulletin l db)
      (AllOrNothing .promote (some request.user.pk) bulletin l db) := by
  apply ensures_seq (h.saved hp (fun _ => nofun) hup)
  intro r' db₁ hr'
  obtain ⟨rfl, hmarked⟩ := hr'
  have hsettled := h.marked hp (fun _ => nofun) hmarked
  dsimp only
  split
  · rename_i happroved
    cases hrelated : l.related with
    | none => exact ensures_throw hsettled
    | some related =>
      dsimp only
      have hpromote : Ensures may db₁ (promote related request.user)
          (fun _ => AllOrNothing .promote (some request.user.pk) bulletin l db)
          (AllOrNothing .promote (some request.user.pk) bulletin l db) := by
        rw [happroved] at hmarked
        exact promote_keeps_settled hup hmarked h.find hrelated hsettled
      apply ensures_seq hpromote
      intro _ db₂ h₂
      exact ensures_pure h₂
  · exact ensures_pure hsettled

theorem saveResponse_settles (hup : ¬may .database true)
    (h : Settling db view bulletin l response valid request)
    (howner : db.tables.users.find? l.owner = some owner)
    (hp : db.tables.profiles.find? l.owner = some p) :
    Ensures may db (view.saveResponse request l response valid)
      (fun _ => AllOrNothing view (some request.user.pk) bulletin l db)
      (AllOrNothing view (some request.user.pk) bulletin l db) := by
  cases view with
  | join => exact join_settles hup h howner hp
  | lead => exact lead_settles hup h howner hp
  | pair => exact pair_settles hup h howner hp
  | help => exact help_settles hup h hp
  | promote => exact promote_settles hup h hp

/-- A response that settles leaves all or nothing, whatever is not told. -/
theorem responseView_settles (hup : ¬may .database true)
    (hfind : db.tables.posts.find? bulletin = some (.leadership l)) (hopen : l.canRespond = true)
    (h : Settles db view slug user l r) :
    Ensures may db (responseView view slug user bulletin r)
      (fun _ => AllOrNothing view user bulletin l db) (AllOrNothing view user bulletin l db) := by
  have hself : AllOrNothing view user bulletin l db db := allOrNothing_self hfind hopen
  apply bulletinView_ensures hself
  intro k request post hseeing
  cases hfind.symm.trans hseeing.found
  have hk : request.user.pk = k := (Table.find?_eq_some_iff.mp hseeing.account).2
  obtain ⟨owner, howner, p, hp⟩ := hseeing.owned rfl
  change db.tables.users.find? l.owner = some owner at howner
  obtain ⟨own, hown, hlead⟩ := hseeing.leads rfl
  have hpk : owner.pk = l.owner := (Table.find?_eq_some_iff.mp howner).2
  rw [hpk] at hp
  unfold Kind.answer
  split
  · exact ensures_pure hself
  · rename_i response hclean
    dsimp only
    split
    · exact ensures_pure hself
    · apply ensures_then valid_ensures
      · intro valid db' hvalid
        obtain ⟨rfl, hjudged⟩ := hvalid
        apply ensures_then cleanResponder_ensures
        · intro message db' hmessage
          obtain ⟨rfl, hfree⟩ := hmessage
          cases message with
          | some message => exact ensures_pure hself
          | none =>
            have haccepted : Accepted db'.tables view slug user l := by
              refine ⟨⟨_, hseeing.place⟩, ⟨k, hseeing.login, ?_, ?_, ?_⟩, ?_, ?_⟩
              · rw [hseeing.account]
                rfl
              · rw [hown]
                exact hlead
              · intro hview
                exact hk ▸ (hfree hview rfl).2
              · rw [howner]
                rfl
              · rw [hp]
                rfl
            have hsettles := h haccepted response hclean p hp
            have huser : user = some request.user.pk := hseeing.login.trans (congrArg some hk.symm)
            have hset : Settling db' view bulletin l response valid request := by
              refine ⟨hfind, hopen, (cleanResponse_ok hclean).2, hjudged, ?_, ?_⟩
              · intro q hq hvalid hr
                cases hp.symm.trans hq
                rw [← huser]
                exact (hsettles ((hjudged p hp).symm.trans hvalid)).1 hr
              · intro q hq hvalid hr hview
                cases hp.symm.trans hq
                exact (hsettles ((hjudged p hp).symm.trans hvalid)).2 hr hview
            rw [huser]
            apply ensures_seq (saveResponse_settles hup hset howner hp)
            intro _ after hafter
            exact ensures_pure hafter
        · intro db' hdb
          rw [hdb]
          exact hself
      · intro db' hdb
        rw [hdb]
        exact hself

end Settle

section Reach

variable {owner : User} {p : UserProfile} {P : Db → Prop}

theorem finds_valid (howner : db.tables.users.find? l.owner = some owner)
    (hp : db.tables.profiles.find? l.owner = some p) :
    Finds db (ResponseForm.valid view l) (view.eligible l p) := by
  have hpk : owner.pk = l.owner := (Table.find?_eq_some_iff.mp howner).2
  apply finds_bind (finds_getUser howner)
  have hvalidate (message : Option Text) (h : Finds db (view.validate owner l.related) message)
      (heq : message.isNone = view.eligible l p) :
      Finds db (do return (← view.validate owner l.related).isNone) (view.eligible l p) := by
    apply finds_bind h
    rw [heq]
    exact finds_pure
  have hprofile := finds_getProfile (hpk.symm ▸ hp)
  cases view with
  | join =>
    refine hvalidate _ (finds_bind hprofile finds_pure) ?_
    change (if p.canApply = true then none else some _).isNone = p.canApply
    cases p.canApply <;> rfl
  | lead =>
    refine hvalidate _ (finds_bind hprofile finds_pure) ?_
    change (if p.isLeader = true then some _ else none).isNone = !p.isLeader
    cases p.isLeader <;> rfl
  | pair => exact hvalidate none finds_pure rfl
  | help => exact hvalidate none finds_pure rfl
  | promote =>
    refine hvalidate _ finds_pure ?_
    change (if l.related = none then some _ else none).isNone = l.related.isSome
    cases l.related <;> rfl

theorem finds_cleanResponder {own : UserProfile}
    (hown : db.tables.profiles.find? request.user.pk = some own) (hlead : own.isLeader = true)
    (hplace : view = .pair → mentees db.tables request.user.pk < maxMentees) :
    Finds db (view.cleanResponder request) none := by
  cases view with
  | pair =>
    apply finds_bind (finds_getProfile hown)
    apply finds_bind (b := true)
    · apply finds_bind (finds_getMentees _)
      have hfree : (own.isLeader && decide ((db.tables.profiles.rows.filter fun m =>
          m.leader = some request.user.pk).length < maxMentees)) = true := by
        rw [hlead, Bool.true_and, decide_eq_true_eq, ← List.countP_eq_length_filter]
        exact hplace rfl
      change Finds db (pure (own.isLeader && decide ((db.tables.profiles.rows.filter fun m =>
          m.leader = some request.user.pk).length < maxMentees)) : M Bool) true
      rw [hfree]
      exact finds_pure
    · exact finds_pure
  | join => exact finds_pure
  | lead => exact finds_pure
  | help => exact finds_pure
  | promote => exact finds_pure

/-- A response that is accepted gets as far as it is saved. -/
theorem responseView_reaches (h : Accepted db.tables view slug user l)
    (hfind : db.tables.posts.find? bulletin = some (.leadership l)) (hopen : l.canRespond = true)
    (hclean : ResponseForm.cleanResponse r = .ok response)
    (hp : db.tables.profiles.find? l.owner = some p)
    (hsave : ∀ request owner, user = some request.user.pk →
      db.tables.users.find? l.owner = some owner → db.tables.profiles.find? owner.pk = some p →
      Ensures may db (view.saveResponse request l response (view.eligible l p)) (fun _ _ => False)
        P) :
    Ensures may db (responseView view slug user bulletin r) (fun _ => P) P := by
  obtain ⟨⟨chapter, hchapter⟩, ⟨k, huser, hk, hlead, hplace⟩, howner, -⟩ := h
  obtain ⟨u, hu⟩ := Option.isSome_iff_exists.mp hk
  obtain ⟨owner, howner⟩ := Option.isSome_iff_exists.mp howner
  have hupk : u.pk = k := (Table.find?_eq_some_iff.mp hu).2
  have hpk : owner.pk = l.owner := (Table.find?_eq_some_iff.mp howner).2
  cases hown : db.tables.profiles.find? k with
  | none =>
    rw [hown] at hlead
    cases hlead
  | some own =>
    rw [hown] at hlead
    change own.isLeader = true at hlead
    have hown' : db.tables.profiles.find? u.pk = some own := hupk.symm ▸ hown
    have hp' : db.tables.profiles.find? owner.pk = some p := hpk.symm ▸ hp
    cases huser
    have hanswer : Ensures may db (view.answer ⟨u, chapter⟩ (.leadership l) r) (fun _ => P) P := by
      unfold Kind.answer
      rw [hclean]
      dsimp only
      rw [if_neg (by simp [hopen])]
      apply ensures_finds (finds_valid howner hp)
      apply ensures_finds (finds_cleanResponder hown' hlead (hupk.symm ▸ hplace))
      have hraise := hsave ⟨u, chapter⟩ owner (congrArg some hupk.symm) howner hp'
      exact ensures_seq hraise fun _ _ hfalse => hfalse.elim
    apply ensures_read
    rw [hchapter]
    apply ensures_finds (finds_getUser hu)
    apply ensures_finds (finds_getProfile hown')
    apply ensures_finds (finds_getProfile hown')
    apply ensures_read
    rw [hfind]
    dsimp only
    rw [if_pos hlead]
    apply ensures_finds (finds_getUser howner)
    apply ensures_finds (finds_getProfile hp')
    split
    · split
      · rename_i hfalse
        simp at hfalse
      · split
        · rename_i hfalse
          simp [hlead] at hfalse
        · split
          · rename_i hfalse
            simp [hlead] at hfalse
          · exact hanswer
    · exact hanswer

end Reach

/-- Whatever is not told of an answer, all of its effect has happened or none, exactly if the answer
settles. -/
theorem response_allOrNothing_iff (db : Db) (view : Kind) (slug : Text) (user : Option Nat)
    (bulletin : Nat) (l : Leadership) (r : Int)
    (hfind : db.tables.posts.find? bulletin = some (.leadership l)) (hopen : l.canRespond = true) :
    (∀ faults : Nat → Service → Bool,
      (∀ n s, faults n s = true → s = .notifications ∨ s = .mail) →
        AllOrNothing view user bulletin l db
          (step db ⟨.response view slug user bulletin r, faults⟩)) ↔
      Settles db view slug user l r := by
  constructor
  · intro hall haccepted response hclean p hp heligible
    have hne := (cleanResponse_ok hclean).2
    let may : Service → Bool → Prop := fun s b => b = decide (s = .notifications)
    have hup : ¬may .database true := by simp [may]
    have hdown : ¬may .notifications false := by simp [may]
    have hend (hraise : ∀ request owner, user = some request.user.pk →
          db.tables.users.find? l.owner = some owner →
          db.tables.profiles.find? owner.pk = some p →
          Ensures may db (ResponseForm.save request l response true) (fun _ _ => False)
            (fun db' => Marked l response request.user.pk db db')) :
        response = .active ∨
          Happened view user l db.tables response db.tables db.subscriptions := by
      have hreach : Ensures may db (responseView view slug user bulletin r)
          (fun _ db' => ∃ k, Marked l response k db db') (fun db' => ∃ k, Marked l response k db db') := by
        apply responseView_reaches haccepted hfind hopen hclean hp
        intro request owner huser howner hp'
        rw [heligible]
        apply ensures_raise (saveResponse_raises howner hp' (hraise request owner huser howner hp'))
        intro db' h
        exact ⟨_, h⟩
      have hw : Within may (fun _ s => decide (s = .notifications)) := fun _ _ => rfl
      obtain ⟨k, hmarked⟩ := db_of_ensures (P := fun db' => ∃ k, Marked l response k db db') hreach hw
      have hgood := hall (fun _ s => decide (s = .notifications))
        fun _ s hs => Or.inl (of_decide_eq_true hs)
      exact (allOrNothing_of_marked hmarked hfind hne).mp hgood
    constructor
    · rintro rfl
      rcases hend (fun _ _ _ _ _ => approve_raises hup hdown) with hactive | hreceived
      · cases hactive
      · exact hreceived
    · rintro rfl rfl
      by_contra hnoisy
      rcases hend (fun _ _ _ _ _ => deny_raises hup hdown hnoisy) with hactive | hdenied
      · cases hactive
      · obtain ⟨p', hp', hstatus⟩ := hdenied rfl
        cases hp.symm.trans hp'
        simp [Kind.eligible, UserProfile.canApply, hstatus] at heligible
  · intro h faults hfaults
    let may : Service → Bool → Prop := fun s b => b = true → s = .notifications ∨ s = .mail
    have hup : ¬may .database true := by simp [may]
    have hsettles : Ensures may db (responseView view slug user bulletin r)
        (fun _ => AllOrNothing view user bulletin l db) (AllOrNothing view user bulletin l db) :=
      responseView_settles hup hfind hopen h
    exact db_of_ensures hsettles hfaults

/-- A request to be a leader. -/
def bobsRequest : Leadership where
  pk := 1
  title := text "bob wants to become a leader."
  content := text "please"
  owner := 2
  promotedBy := none
  related := none
  chapter := nyc
  isOfficial := true
  isGlobal := false
  request := .lead
  response := .pending
  processedBy := none

def bobAsks : Db :=
  { annAndBob with tables := { annAndBob.tables with posts := .ofList [.leadership bobsRequest] } }

/-- The leader approves while no notification can be stored. -/
def approvedUntold : Op where
  submission := .response .lead (text "nyc") (some 1) 1 2
  faults _ s := s = .notifications

/-- The request is left approved, and its owner is no leader. -/
theorem response_not_allOrNothing :
    bobAsks.tables.posts.find? 1 = some (.leadership bobsRequest) ∧
      bobsRequest.canRespond = true ∧
      (∀ n s, approvedUntold.faults n s = true → s = .notifications ∨ s = .mail) ∧
      ¬AllOrNothing .lead (some 1) 1 bobsRequest bobAsks (step bobAsks approvedUntold) := by
  refine ⟨by decide, by decide, fun _ s hs => Or.inl (of_decide_eq_true hs), ?_⟩
  have hresponse : (((step bobAsks approvedUntold).tables.posts.find? 1).bind
      Post.asLeadership).map Leadership.response = some .approved := by decide
  have hlead : ((step bobAsks approvedUntold).tables.profiles.find? 2).any
      UserProfile.isLeader = false := by decide
  rintro ⟨l', hl', hcase⟩
  rw [hl'] at hresponse
  have happroved : l'.response = .approved := Option.some.inj hresponse
  rcases hcase with ⟨hopen, -⟩ | ⟨-, hhappened⟩
  · simp [Leadership.canRespond, happroved] at hopen
  · rw [happroved] at hhappened
    obtain ⟨_, p', -, hp', hl, -⟩ := hhappened
    change (step bobAsks approvedUntold).tables.profiles.find? 2 = some p' at hp'
    rw [hp'] at hlead
    rw [Option.any_some, hl] at hlead
    cases hlead

theorem response_allOrNothing_bobsRequest :
    (∀ faults : Nat → Service → Bool,
      (∀ n s, faults n s = true → s = .notifications ∨ s = .mail) →
        AllOrNothing .lead (some 1) 1 bobsRequest bobAsks
          (step bobAsks ⟨.response .lead (text "nyc") (some 1) 1 3, faults⟩)) ↔
      Settles bobAsks .lead (text "nyc") (some 1) bobsRequest 3 :=
  response_allOrNothing_iff bobAsks .lead (text "nyc") (some 1) 1 bobsRequest 3 (by decide)
    (by decide)

end HackerUnion.Petri
