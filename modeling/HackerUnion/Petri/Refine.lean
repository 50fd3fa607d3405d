import HackerUnion.Petri.Acts

namespace HackerUnion.Petri

open Bash (Text text)
open Durable
open Durable.Handler

variable {may : Service → Bool → Prop} {E : Act → Prop} {t₀ : Tables} {db : Db} {α : Type}

/-- What keeps the tables as they are keeps what is known of them. -/
theorem ensures_quiet {c : M α} {Q : α → Db → Prop} {R : Db → Prop} {s : Tables}
    (hc : Keeps may (OnCore fun t _ => t = s) c) (hs : db.tables = s)
    (hq : ∀ a db', db'.tables = s → Q a db') (hr : ∀ db', db'.tables = s → R db') :
    Ensures may db c Q R :=
  ensures_mono (hc db hs) hq hr

theorem ensures_quiet_then {β : Type} {c : M β} {f : β → M α} {Q : α → Db → Prop} {R : Db → Prop}
    {s : Tables} (hc : Keeps may (OnCore fun t _ => t = s) c) (hs : db.tables = s)
    (hq : ∀ b db', db'.tables = s → Ensures may db' (f b) Q R)
    (hr : ∀ db', db'.tables = s → R db') : Ensures may db (c >>= f) Q R :=
  ensures_then (hc db hs) hq hr

section Writes

theorem saved_ensures {f : Tables → Tables} {Q : Unit → Db → Prop} {R : Db → Prop}
    (hok : ∀ db', db'.tables = f db.tables → Q () db') (hfail : R db) :
    Ensures may db (saved f) Q R := by
  apply ensures_store
  · exact hok _ rfl
  · intro _
    exact hfail

/-- A profile is written by an act that is allowed. -/
theorem save_path {a : Act} {p : UserProfile} (hp : Path E t₀ db.tables) (he : E a)
    (hg : a.Guard db.tables)
    (hw : a.apply db.tables = { db.tables with profiles := db.tables.profiles.save p }) :
    Ensures may db p.save
      (fun _ db' => db'.tables = a.apply db.tables ∧ Path E t₀ db'.tables)
      (fun db' => Path E t₀ db'.tables) := by
  apply saved_ensures
  · intro db' htables
    rw [← hw] at htables
    refine ⟨htables, ?_⟩
    rw [htables]
    exact hp.step he hg
  · exact hp

/-- A request is stored by an act that is allowed, before its notifications are sent. -/
theorem leadershipSave_path {a : Act} {l : Leadership} {created : Bool}
    (hp : Path E t₀ db.tables) (he : E a) (hg : a.Guard db.tables)
    (hw : a.apply db.tables =
      db.tables.withPost (.leadership (l.stored created db.tables))) :
    Ensures may db (l.save created)
      (fun l' db' => l' = l.stored created db.tables ∧ db'.tables = a.apply db.tables ∧
        db'.subscriptions = db.subscriptions ∧ Path E t₀ db'.tables)
      (fun db' => Path E t₀ db'.tables ∧ db'.tables.profiles = db.tables.profiles ∧
        db'.subscriptions = db.subscriptions) := by
  have hprofiles : (a.apply db.tables).profiles = db.tables.profiles := by
    rw [hw]
    rfl
  apply ensures_mono (Leadership.save_ensures l created)
  · intro l' db' h
    obtain ⟨hl, htables, hsubs⟩ := h
    rw [← hw] at htables
    refine ⟨hl, htables, hsubs, ?_⟩
    rw [htables]
    exact hp.step he hg
  · intro db' h
    rcases h with ⟨htables, hsubs⟩ | ⟨-, htables, hsubs⟩
    · rw [← hw] at htables
      rw [htables]
      exact ⟨hp.step he hg, hprofiles, hsubs⟩
    · rw [htables]
      exact ⟨hp, rfl, hsubs⟩

end Writes

section File

theorem validate_keeps {I : Db → Prop} (kind : Kind) (user : User) (related : Option Nat) :
    Keeps may I (kind.validate user related) := by
  cases kind with
  | join => exact keeps_bind (getProfile_keeps user) fun _ => keeps_pure _
  | lead => exact keeps_bind (getProfile_keeps user) fun _ => keeps_pure _
  | pair => exact keeps_pure _
  | help => exact keeps_pure _
  | promote => exact keeps_pure _

theorem fieldErrors_keeps {I : Db → Prop} (request : Request) (data : RequestData) :
    Keeps may I (RequestForm.fieldErrors request data) := by
  unfold RequestForm.fieldErrors
  refine keeps_bind keeps_read fun db => ?_
  dsimp only
  split
  · refine keeps_bind (getProfile_keeps _) fun _ => ?_
    exact keeps_bind (keeps_pure _) fun _ => keeps_pure _
  · exact keeps_bind (keeps_pure _) fun _ => keeps_pure _

/-- A form that is clean is of a kind that may be asked for again, or was not asked for. -/
theorem requestForm_clean_ensures (kind : Kind) (request : Request) (data : RequestData) :
    Ensures may db (RequestForm.clean kind request data)
      (fun r db' => db' = db ∧ (r = none → kind.allowMultiple = false →
        hasRequested db request.user kind = false))
      (fun db' => db' = db) := by
  unfold RequestForm.clean
  apply ensures_read
  split
  · exact ensures_pure ⟨rfl, fun hr => by cases hr⟩
  · rename_i hfree
    apply ensures_weaken (validate_keeps (I := fun db' => db' = db) kind request.user data.related
      db rfl)
    intro r db' hdb
    refine ⟨hdb, fun _ hkind => ?_⟩
    simpa [hkind] using hfree

theorem clean_ensures (kind : Kind) (request : Request) (data : RequestData) :
    Ensures may db (kind.clean request data)
      (fun r db' => db' = db ∧ (r = none → kind.allowMultiple = false →
        hasRequested db request.user kind = false))
      (fun db' => db' = db) := by
  cases kind with
  | join => exact requestForm_clean_ensures .join request data
  | lead => exact requestForm_clean_ensures .lead request data
  | help => exact requestForm_clean_ensures .help request data
  | pair =>
    apply ensures_seq (requestForm_clean_ensures .pair request data)
    intro r db' h
    obtain ⟨rfl, hfree⟩ := h
    cases r with
    | some message => exact ensures_pure ⟨rfl, hfree⟩
    | none =>
      apply ensures_bind
      apply getProfile_ensures
      · intro p _
        exact ensures_pure ⟨rfl, fun _ => hfree rfl⟩
      · rfl
  | promote =>
    apply ensures_seq (requestForm_clean_ensures .promote request data)
    intro r db' h
    obtain ⟨rfl, hfree⟩ := h
    have hdone {r : Option Text} : Ensures may db' (pure r : M (Option Text))
        (fun r db'' => db'' = db' ∧ (r = none → Kind.promote.allowMultiple = false →
          hasRequested db' request.user .promote = false)) (fun db'' => db'' = db') :=
      ensures_pure ⟨rfl, fun _ hkind => by cases hkind⟩
    cases r with
    | some message => exact hdone
    | none =>
      dsimp only
      split
      · exact hdone
      · apply ensures_read
        split
        · exact hdone
        · exact hdone

theorem not_pending_of_free {user : User} {kind : Kind}
    (h : hasRequested db user kind = false) {l : Leadership}
    (hl : .leadership l ∈ db.tables.posts.rows) (hkind : l.request = kind)
    (howner : l.owner = user.pk) : l.response ≠ .pending := by
  intro hpending
  have hmem : l ∈ leaderships db := List.mem_filterMap.mpr ⟨_, hl, rfl⟩
  have htrue : hasRequested db user kind = true :=
    List.any_eq_true.mpr ⟨l, hmem, by simp [hkind, howner, hpending]⟩
  rw [h] at htrue
  cases htrue

theorem kindSave_path {kind : Kind} {request : Request} {data : RequestData}
    (hp : Path E t₀ db.tables)
    (he : ∀ l : Leadership, l.request = kind → l.owner = request.user.pk → E (.file l))
    (hfree : kind.allowMultiple = false → hasRequested db request.user kind = false) :
    Ensures may db (kind.save request data)
      (fun _ db' => Path E t₀ db'.tables ∧ db'.tables.profiles = db.tables.profiles ∧
        db'.subscriptions = db.subscriptions)
      (fun db' => Path E t₀ db'.tables ∧ db'.tables.profiles = db.tables.profiles ∧
        db'.subscriptions = db.subscriptions) := by
  unfold Kind.save
  split
  · exact ensures_bind (ensures_throw ⟨hp, rfl, rfl⟩)
  · dsimp only
    let l := kind.filled request data
    have hguard : (Act.file (l.stored true db.tables)).Guard db.tables := by
      refine ⟨Table.find?_nextKey, rfl, rfl, ?_⟩
      intro hmultiple l' hl' hkind howner
      exact not_pending_of_free (hfree hmultiple) hl' hkind howner
    apply ensures_seq (leadershipSave_path hp (he _ rfl rfl) hguard rfl)
    intro l' db' h
    obtain ⟨rfl, htables, hsubs, hpath⟩ := h
    have hprofiles : db'.tables.profiles = db.tables.profiles := by
      rw [htables]
      rfl
    exact follow_keeps (P := fun t subscriptions => Path E t₀ t ∧
      t.profiles = db.tables.profiles ∧ subscriptions = db.subscriptions) _ _ db'
      ⟨hpath, hprofiles, hsubs⟩

/-- A request of the kind and of the user is stored, or none is. -/
theorem file_path {kind : Kind} {request : Request} {data : RequestData}
    (hp : Path E t₀ db.tables)
    (he : ∀ l : Leadership, l.request = kind → l.owner = request.user.pk → E (.file l)) :
    Ensures may db (kind.file request data)
      (fun _ db' => Path E t₀ db'.tables ∧ db'.tables.profiles = db.tables.profiles ∧
        db'.subscriptions = db.subscriptions)
      (fun db' => Path E t₀ db'.tables ∧ db'.tables.profiles = db.tables.profiles ∧
        db'.subscriptions = db.subscriptions) := by
  unfold Kind.file
  dsimp only
  apply ensures_then (fieldErrors_keeps (I := fun db' => db' = db) request data.bound db rfl)
  · intro errors db' hdb
    subst hdb
    split
    · apply ensures_then (clean_ensures kind request data.bound)
      · intro r db'' h
        obtain ⟨rfl, hfree⟩ := h
        cases r with
        | some message => exact ensures_pure ⟨hp, rfl, rfl⟩
        | none =>
          dsimp only
          apply ensures_seq (kindSave_path hp he (hfree rfl))
          intro _ after h
          exact ensures_pure h
      · intro db'' h
        rw [h]
        exact ⟨hp, rfl, rfl⟩
    · exact ensures_pure ⟨hp, rfl, rfl⟩
  · intro db' hdb
    rw [hdb]
    exact ⟨hp, rfl, rfl⟩

end File

section Roles

variable {p : UserProfile}

theorem current_save {t : Tables} {p : UserProfile} (hp : t.profiles = t₀.profiles.save p) :
    Current t p :=
  ⟨p, by rw [hp]; exact Table.find?_save_self, rfl⟩

theorem createPairRequest_path {user : User} {chapter : Chapter} {reason : Text}
    (hp : Path E t₀ db.tables)
    (he : ∀ l : Leadership, l.request = .pair → l.owner = user.pk → E (.file l)) :
    Ensures may db (createPairRequest user chapter reason)
      (fun _ db' => Path E t₀ db'.tables ∧ db'.tables.profiles = db.tables.profiles ∧
        db'.subscriptions = db.subscriptions)
      (fun db' => Path E t₀ db'.tables ∧ db'.tables.profiles = db.tables.profiles ∧
        db'.subscriptions = db.subscriptions) := by
  apply ensures_seq (file_path hp he)
  intro _ db' h
  exact ensures_pure h

theorem resignModeration_path (hp : Path E t₀ db.tables) (hcur : Current db.tables p)
    (he : p.canModerate = true → E (.unmoderate p)) :
    Ensures may db p.resignModeration
      (fun p' db' => (Path E t₀ db'.tables ∧ Current db'.tables p') ∧
        p' = if p.canModerate then { p with isModerator := false } else p)
      (fun db' => Path E t₀ db'.tables) := by
  unfold UserProfile.resignModeration
  cases hmod : p.canModerate with
  | false => exact ensures_pure ⟨⟨hp, hcur⟩, rfl⟩
  | true =>
    apply ensures_seq (save_path hp (he hmod) hcur rfl)
    intro _ db' h
    obtain ⟨htables, hpath⟩ := h
    refine ensures_pure ⟨⟨hpath, ?_⟩, rfl⟩
    rw [htables]
    exact current_save rfl

theorem becomeLeader_path (hp : Path E t₀ db.tables) (hcur : Current db.tables p)
    (he : p.isLeader = false → E (.lead p)) :
    Ensures may db p.becomeLeader
      (fun p' db' => (Path E t₀ db'.tables ∧ Current db'.tables p') ∧
        p'.isLeader = true ∧ p'.pk = p.pk)
      (fun db' => Path E t₀ db'.tables) := by
  unfold UserProfile.becomeLeader
  cases hlead : p.isLeader with
  | true => exact ensures_pure ⟨⟨hp, hcur⟩, hlead, rfl⟩
  | false =>
    apply ensures_seq (save_path hp (he hlead) ⟨hcur, hlead⟩ rfl)
    intro _ db' h
    obtain ⟨htables, hpath⟩ := h
    have hnow : Current db'.tables { p with isLeader := true, leader := none } := by
      rw [htables]
      exact current_save rfl
    have hdone (after : Db) (h : after.tables = db'.tables) :
        Ensures may after
          (pure { p with isLeader := true, leader := none } : M UserProfile)
          (fun p' db' => (Path E t₀ db'.tables ∧ Current db'.tables p') ∧
            p'.isLeader = true ∧ p'.pk = p.pk)
          (fun db' => Path E t₀ db'.tables) :=
      ensures_pure ⟨⟨h ▸ hpath, h ▸ hnow⟩, rfl, rfl⟩
    dsimp only
    split
    · apply ensures_quiet_then (subscribeList_keeps (fun _ _ _ h => h) _ _) rfl
      · intro _ after h
        exact hdone after h
      · intro after h
        rw [h]
        exact hpath
    · exact hdone db' rfl

theorem becomeModerator_path (hp : Path E t₀ db.tables) (hcur : Current db.tables p)
    (hlead : p.isLeader = false → E (.lead p))
    (hmod : ∀ p' : UserProfile, p'.pk = p.pk → E (.moderate p')) :
    Ensures may db p.becomeModerator (fun _ db' => Path E t₀ db'.tables)
      (fun db' => Path E t₀ db'.tables) := by
  have hsave (p' : UserProfile) (db' : Db)
      (h : (Path E t₀ db'.tables ∧ Current db'.tables p') ∧ p'.isLeader = true ∧ p'.pk = p.pk) :
      Ensures may db' (do
          UserProfile.save { p' with isModerator := true }
          return { p' with isModerator := true })
        (fun _ db' => Path E t₀ db'.tables) (fun db' => Path E t₀ db'.tables) := by
    obtain ⟨⟨hpath, hnow⟩, hlead', hpk⟩ := h
    apply ensures_seq (save_path hpath (hmod p' hpk) ⟨hnow, hlead'⟩ rfl)
    intro _ after h
    exact ensures_pure h.2
  unfold UserProfile.becomeModerator
  split
  · exact ensures_pure hp
  · dsimp only
    split
    · rename_i hl
      apply ensures_bind
      exact ensures_pure (hsave p db ⟨⟨hp, hcur⟩, hl, rfl⟩)
    · apply ensures_seq (becomeLeader_path hp hcur hlead)
      intro p' db' h
      exact hsave p' db' h

theorem assignLeader_path {user : Option User} (hp : Path E t₀ db.tables)
    (hcur : Current db.tables p) (he : E (.assign p (user.map User.pk)))
    (hfree : ∀ u ∈ user, Available db.tables u.pk) :
    Ensures may db (p.assignLeader user)
      (fun p' db' => (Path E t₀ db'.tables ∧ Current db'.tables p') ∧
        p' = { p with leader := user.map User.pk })
      (fun db' => Path E t₀ db'.tables) := by
  have hguard : (Act.assign p (user.map User.pk)).Guard db.tables := by
    refine ⟨hcur, ?_⟩
    intro k hk
    obtain ⟨u, hu, rfl⟩ := Option.map_eq_some_iff.mp hk
    exact hfree u hu
  apply ensures_seq (save_path hp he hguard rfl)
  intro _ db' h
  obtain ⟨htables, hpath⟩ := h
  refine ensures_pure ⟨⟨hpath, ?_⟩, rfl⟩
  rw [htables]
  exact current_save rfl

/-- While a leader resigns and these mentees are still to be detached: the leader's row is as it
was read, but for its mentor if that was the leader. -/
structure Resigning (E : Act → Prop) (t₀ : Tables) (p : UserProfile) (rest : List UserProfile)
    (db : Db) : Prop where
  path : Path E t₀ db.tables
  rows : ∀ m ∈ rest, m ∈ db.tables.profiles.rows
  nodup : (rest.map UserProfile.pk).Nodup
  led : ∀ m ∈ rest, m.leader = some p.pk
  mentees : ∀ m ∈ db.tables.profiles.rows, m.leader = some p.pk → m ∈ rest
  own : Current db.tables p ∨
    (p.leader = some p.pk ∧ Current db.tables { p with leader := none })

theorem Resigning.congr {rest : List UserProfile} {after : Db}
    (h : Resigning E t₀ p rest db) (hpath : Path E t₀ after.tables)
    (hprofiles : after.tables.profiles = db.tables.profiles) : Resigning E t₀ p rest after where
  path := hpath
  rows := by
    rw [hprofiles]
    exact h.rows
  nodup := h.nodup
  led := h.led
  mentees := by
    rw [hprofiles]
    exact h.mentees
  own := by
    rcases h.own with hcur | ⟨hself, hcur⟩
    · exact Or.inl (hcur.congr hprofiles)
    · exact Or.inr ⟨hself, hcur.congr hprofiles⟩

theorem Resigning.detached {m : UserProfile} {rest : List UserProfile} {after : Db}
    (h : Resigning E t₀ p (m :: rest) db) (hpath : Path E t₀ after.tables)
    (htables : after.tables = (Act.assign m none).apply db.tables) :
    Resigning E t₀ p rest after := by
  have hprofiles : after.tables.profiles = db.tables.profiles.save { m with leader := none } := by
    rw [htables]
    rfl
  have hm : m ∈ db.tables.profiles.rows := h.rows m List.mem_cons_self
  have hled : m.leader = some p.pk := h.led m List.mem_cons_self
  obtain ⟨hfresh, hnodup⟩ := List.nodup_cons.mp h.nodup
  refine ⟨hpath, ?_, hnodup, fun x hx => h.led x (List.mem_cons_of_mem _ hx), ?_, ?_⟩
  · intro x hx
    rw [hprofiles, Table.mem_save]
    refine Or.inr ⟨h.rows x (List.mem_cons_of_mem _ hx), ?_⟩
    intro hkey
    exact hfresh (List.mem_map.mpr ⟨x, hx, hkey⟩)
  · intro x hx hxl
    rw [hprofiles, Table.mem_save] at hx
    rcases hx with rfl | ⟨hx, hkey⟩
    · cases hxl
    · rcases List.mem_cons.mp (h.mentees x hx hxl) with rfl | hrest
      · exact absurd rfl hkey
      · exact hrest
  · have hfind (k : Nat) : after.tables.profiles.find? k =
        if m.pk = k then some { m with leader := none } else db.tables.profiles.find? k := by
      rw [hprofiles, Table.find?_save]
      rfl
    by_cases hkey : m.pk = p.pk
    · -- the leader is among the mentees, and the row read for the loop is the leader's
      have hrow : db.tables.profiles.find? p.pk = some m := hkey ▸ Table.find?_of_mem hm
      rcases h.own with ⟨q, hq, hroles⟩ | ⟨-, q, hq, hroles⟩
      · obtain rfl : m = q := Option.some.inj (hrow.symm.trans hq)
        have hself : p.leader = some p.pk := by
          have hleader : m.leader = p.leader := congrArg (fun r => r.2.2.2) hroles
          rw [← hleader, hled]
        refine Or.inr ⟨hself, { m with leader := none }, ?_, ?_⟩
        · exact (hfind p.pk).trans (if_pos hkey)
        · simp only [UserProfile.roles, Prod.mk.injEq] at hroles ⊢
          exact ⟨hroles.1, hroles.2.1, hroles.2.2.1, trivial⟩
      · obtain rfl : m = q := Option.some.inj (hrow.symm.trans hq)
        have hleader : m.leader = none := congrArg (fun r => r.2.2.2) hroles
        rw [hled] at hleader
        cases hleader
    · rcases h.own with ⟨q, hq, hroles⟩ | ⟨hself, q, hq, hroles⟩
      · exact Or.inl ⟨q, by rw [hfind, if_neg hkey, hq], hroles⟩
      · exact Or.inr ⟨hself, q, (hfind p.pk).trans ((if_neg hkey).trans hq), hroles⟩

theorem detach_path {m : UserProfile} {rest : List UserProfile}
    (h : Resigning E t₀ p (m :: rest) db) (hassign : E (.assign m none))
    (hfile : ∀ l : Leadership, l.request = .pair → E (.file l)) :
    Ensures may db (p.detach m) (fun _ => Resigning E t₀ p rest)
      (fun db' => Path E t₀ db'.tables) := by
  have hguard : (Act.assign m none).Guard db.tables :=
    ⟨current_of_mem (h.rows m List.mem_cons_self), fun k hk => by cases hk⟩
  unfold UserProfile.detach
  apply ensures_seq (save_path h.path hassign hguard rfl)
  intro _ db' hsaved
  obtain ⟨htables, hpath⟩ := hsaved
  have hnext := h.detached hpath htables
  apply ensures_bind
  apply getUser_ensures
  · intro user _
    apply ensures_then (createPairRequest_path hpath fun l hl _ => hfile l hl)
    · intro _ after hafter
      exact ensures_pure (hnext.congr hafter.1 hafter.2.1)
    · intro after hafter
      exact hafter.1
  · exact hpath

/-- A leader whose mentees are detached may retire. -/
theorem Resigning.guard (h : Resigning E t₀ p [] db) (hlead : p.isLeader = true)
    (hmod : p.isModerator = false) : (Act.retire p).Guard db.tables := by
  refine ⟨hlead, hmod, ?_, h.own⟩
  intro m hm hml
  cases h.mentees m hm hml

/-- What is left of a profile that resigned: it is saved, or may be. -/
def Resigned (E : Act → Prop) (t₀ : Tables) (commit : Bool) (p p' : UserProfile) (db : Db) :
    Prop :=
  Path E t₀ db.tables ∧ (p.isLeader = true → commit = false →
    ∃ q, p' = { q with isLeader := false } ∧ q.pk = p.pk ∧ q.leader = p.leader ∧
      (Act.retire q).Guard db.tables)

theorem resignLeadership_path {commit : Bool} (hp : Path E t₀ db.tables)
    (hcur : Current db.tables p) (hunmod : p.canModerate = true → E (.unmoderate p))
    (hassign : p.isLeader = true → ∀ m, E (.assign m none))
    (hfile : p.isLeader = true → ∀ l : Leadership, l.request = .pair → E (.file l))
    (hretire : p.isLeader = true → commit = true → ∀ q : UserProfile, q.pk = p.pk →
      q.leader = p.leader → E (.retire q)) :
    Ensures may db (p.resignLeadership commit) (Resigned E t₀ commit p)
      (fun db' => Path E t₀ db'.tables) := by
  unfold UserProfile.resignLeadership
  apply ensures_seq (resignModeration_path hp hcur hunmod)
  intro q db' hmod
  obtain ⟨⟨hpath, hnow⟩, hq⟩ := hmod
  have hlead : q.isLeader = p.isLeader := by
    rw [hq]
    split <;> rfl
  have hpk : q.pk = p.pk := by
    rw [hq]
    split <;> rfl
  have hleader : q.leader = p.leader := by
    rw [hq]
    split <;> rfl
  have hunder : p.isLeader = true → q.isModerator = false := by
    intro hpl
    rw [hq]
    cases hm : p.isModerator <;> simp [UserProfile.canModerate, hpl, hm]
  split
  · rename_i hnot
    refine ensures_pure ⟨hpath, ?_⟩
    intro hpl
    simp [hlead, hpl] at hnot
  · rename_i hnot
    have hpl : p.isLeader = true := by simpa [hlead] using hnot
    dsimp only
    apply ensures_bind
    apply ensures_read
    apply ensures_pure
    have hstart : Resigning E t₀ q
        (db'.tables.profiles.rows.filter fun m => m.leader = some q.pk) db' := by
      refine ⟨hpath, ?_, ?_, ?_, ?_, Or.inl hnow⟩
      · intro m hm
        exact (List.mem_filter.mp hm).1
      · exact (List.filter_sublist.map _).nodup db'.tables.profiles.nodup
      · intro m hm
        simpa using (List.mem_filter.mp hm).2
      · intro m hm hml
        exact List.mem_filter.mpr ⟨hm, by simpa using hml⟩
    have hloop : Ensures may db' _ _ _ := ensures_forM (I := Resigning E t₀ q)
      (R := fun db' => Path E t₀ db'.tables) (f := q.detach)
      (fun m rest db hr => detach_path hr (hassign hpl m) (hfile hpl)) hstart
    apply ensures_seq hloop
    intro _ after hdone
    have hguard := hdone.guard (hlead.trans hpl) (hunder hpl)
    cases commit with
    | false =>
      apply ensures_quiet_then (unsubscribeList_keeps (fun _ _ _ h => h) _ _) rfl
      · intro _ last hlast
        refine ensures_pure ⟨hlast ▸ hdone.path, fun _ _ => ⟨q, rfl, hpk, hleader, ?_⟩⟩
        exact hlast ▸ hguard
      · intro last hlast
        exact hlast ▸ hdone.path
    | true =>
      apply ensures_seq (save_path hdone.path (hretire hpl rfl q hpk hleader) hguard rfl)
      intro _ saved hsaved
      apply ensures_quiet_then (unsubscribeList_keeps (fun _ _ _ h => h) _ _) rfl
      · intro _ last hlast
        exact ensures_pure ⟨hlast ▸ hsaved.2, fun _ h => by cases h⟩
      · intro last hlast
        exact hlast ▸ hsaved.2

theorem Available.congr {s t : Tables} {k : Nat} (h : Available s k)
    (hst : t.profiles = s.profiles) : Available t k := by
  unfold Available mentees at *
  rwa [hst]

theorem availableToLead_ensures {u : User} {q : UserProfile} {R : Db → Prop}
    (hq : db.tables.profiles.find? u.pk = some q) :
    Ensures may db (UserProfile.availableToLead { q with user := u })
      (fun free db' => db' = db ∧ (free = true → Available db.tables u.pk)) R := by
  apply ensures_bind
  apply ensures_read
  apply ensures_pure
  refine ensures_pure ⟨rfl, ?_⟩
  intro hfree
  obtain ⟨hlead, hcount⟩ := Bool.and_eq_true_iff.mp hfree
  refine ⟨by simpa [hq] using hlead, ?_⟩
  unfold mentees Table.count
  rw [List.countP_eq_length_filter]
  exact of_decide_eq_true hcount

/-- Approving a member in order: the profile is saved, under the leader only if that one is free to
lead, then the mail is routed and the lists are joined that are allowed. -/
theorem activate_stages {chapter : Chapter} {leader : User} {R : Db → Prop}
    (saved proxied announced done : Option Nat → Db → Prop)
    (hleader : db.tables.profiles.find? leader.pk = none → R db)
    (hsave : ∀ k : Option Nat, (∀ j ∈ k, j = leader.pk ∧ Available db.tables j) →
      Ensures may db
        (UserProfile.save { p with status := .approved, chapter := chapter, leader := k })
        (fun _ => saved k) R)
    (hproxy : ∀ k db', saved k db' →
      Ensures may db' (proxyEmail p.getEmail p.user.username) (fun _ => proxied k) R)
    (hannounce : ∀ k db', proxied k db' →
      (p.allowAnnounce = true → Ensures may db' (subscribeList chapter.getAnnounceList p.getEmail)
        (fun _ => announced k) R) ∧ (p.allowAnnounce = false → announced k db'))
    (hdiscuss : ∀ k db', announced k db' →
      (p.allowDiscuss = true → Ensures may db' (subscribeList chapter.getDiscussList p.getEmail)
        (fun _ => done k) R) ∧ (p.allowDiscuss = false → done k db')) :
    Ensures may db (p.activate chapter leader)
      (fun p' db' => ∃ k,
        p' = { p with status := .approved, chapter := chapter, leader := k } ∧ done k db') R := by
  have hlast (k : Option Nat) (db' : Db) (h : announced k db') : Ensures may db' (do
        if p.allowDiscuss then subscribeList chapter.getDiscussList p.getEmail
        return { p with status := .approved, chapter := chapter, leader := k })
      (fun p' db' => ∃ k,
        p' = { p with status := .approved, chapter := chapter, leader := k } ∧ done k db') R := by
    dsimp only
    split
    · next hallow =>
      apply ensures_seq ((hdiscuss k db' h).1 hallow)
      intro _ after hafter
      exact ensures_pure ⟨k, rfl, hafter⟩
    · next hallow =>
      exact ensures_pure ⟨k, rfl, (hdiscuss k db' h).2 (Bool.eq_false_iff.mpr hallow)⟩
  have hlists (k : Option Nat) (db' : Db) (h : saved k db') : Ensures may db' (do
        proxyEmail p.getEmail p.user.username
        if p.allowAnnounce then subscribeList chapter.getAnnounceList p.getEmail
        if p.allowDiscuss then subscribeList chapter.getDiscussList p.getEmail
        return { p with status := .approved, chapter := chapter, leader := k })
      (fun p' db' => ∃ k,
        p' = { p with status := .approved, chapter := chapter, leader := k } ∧ done k db') R := by
    apply ensures_seq (hproxy k db' h)
    intro _ db₁ h₁
    dsimp only
    split
    · next hallow =>
      apply ensures_seq ((hannounce k db₁ h₁).1 hallow)
      intro _ db₂ h₂
      exact hlast k db₂ h₂
    · next hallow =>
      exact hlast k db₁ ((hannounce k db₁ h₁).2 (Bool.eq_false_iff.mpr hallow))
  have hwrite (k : Option User) (hk : ∀ u ∈ k, u.pk = leader.pk ∧ Available db.tables u.pk) :
      Ensures may db (UserProfile.assignLeader { p with status := .approved, chapter := chapter } k)
        (fun p' db' =>
          p' = { p with status := .approved, chapter := chapter, leader := k.map User.pk } ∧
          saved (k.map User.pk) db') R := by
    have hkey : ∀ j ∈ k.map User.pk, j = leader.pk ∧ Available db.tables j := by
      intro j hj
      obtain ⟨u, hu, rfl⟩ := Option.map_eq_some_iff.mp hj
      exact hk u hu
    apply ensures_seq (hsave _ hkey)
    intro _ db' h
    exact ensures_pure ⟨rfl, h⟩
  unfold UserProfile.activate
  dsimp only
  apply ensures_bind
  apply ensures_read
  cases hq : db.tables.profiles.find? leader.pk with
  | none => exact ensures_throw (hleader hq)
  | some q =>
    apply ensures_pure
    apply ensures_seq (availableToLead_ensures (R := R) hq)
    intro free db' hfree
    obtain ⟨rfl, hfree⟩ := hfree
    cases free with
    | true =>
      apply ensures_seq (hwrite (some leader) ?_)
      · intro p' after h
        obtain ⟨rfl, h⟩ := h
        exact hlists _ after h
      · intro u hu
        cases hu
        exact ⟨rfl, hfree rfl⟩
    | false =>
      apply ensures_seq (hwrite none fun u hu => by cases hu)
      intro p' after h
      obtain ⟨rfl, h⟩ := h
      exact hlists _ after h

theorem activate_path {chapter : Chapter} {leader : User} (hp : Path E t₀ db.tables)
    (hcur : Current db.tables p)
    (he : ∀ k : Option Nat, (∀ j ∈ k, j = leader.pk ∧ Available db.tables j) →
      E (.enroll p chapter k)) :
    Ensures may db (p.activate chapter leader)
      (fun p' db' => (Path E t₀ db'.tables ∧ Current db'.tables p') ∧ p'.pk = p.pk)
      (fun db' => Path E t₀ db'.tables) := by
  -- once the profile is saved, the tables stay as they are
  let I : Option Nat → Db → Prop := fun k db' => Path E t₀ db'.tables ∧
    Current db'.tables { p with status := .approved, chapter := chapter, leader := k }
  have hquiet {c : M Unit} (k : Option Nat) (db' : Db)
      (hc : Keeps may (OnCore fun t _ => t = db'.tables) c) (h : I k db') :
      Ensures may db' c (fun _ => I k) (fun db' => Path E t₀ db'.tables) := by
    apply ensures_quiet hc rfl
    · intro _ after hafter
      change Path E t₀ after.tables ∧ Current after.tables _
      rw [hafter]
      exact h
    · intro after hafter
      rw [hafter]
      exact h.1
  have hstages : Ensures may db (p.activate chapter leader)
      (fun p' db' => ∃ k,
        p' = { p with status := .approved, chapter := chapter, leader := k } ∧ I k db')
      (fun db' => Path E t₀ db'.tables) := by
    apply activate_stages I I I I
    · intro _
      exact hp
    · intro k hk
      apply ensures_weaken (save_path hp (he k hk) ⟨hcur, fun j hj => (hk j hj).2⟩ rfl)
      intro _ db' h
      obtain ⟨htables, hpath⟩ := h
      refine ⟨hpath, ?_⟩
      rw [htables]
      exact current_save rfl
    · intro k db' h
      exact hquiet k db' (proxyEmail_keeps _ _) h
    · intro k db' h
      exact ⟨fun _ => hquiet k db' (subscribeList_keeps (fun _ _ _ h => h) _ _) h, fun _ => h⟩
    · intro k db' h
      exact ⟨fun _ => hquiet k db' (subscribeList_keeps (fun _ _ _ h => h) _ _) h, fun _ => h⟩
  apply ensures_weaken hstages
  intro p' db' h
  obtain ⟨k, rfl, h⟩ := h
  exact ⟨h, rfl⟩

theorem denyMembership_path (hp : Path E t₀ db.tables) (hcur : Current db.tables p)
    (he : E (.refuse p)) :
    Ensures may db p.denyMembership (fun _ db' => Path E t₀ db'.tables)
      (fun db' => Path E t₀ db'.tables) := by
  apply ensures_seq (save_path hp he hcur rfl)
  intro _ db' h
  exact ensures_pure h.2

/-- A setting of a list is saved first. -/
theorem subscription_path {list : Text} {allow : Bool} (hp : Path E t₀ db.tables)
    (hcur : Current db.tables p) (he : E (.settings p)) :
    Ensures may db (p.subscription list allow)
      (fun p' db' => (Path E t₀ db'.tables ∧ Current db'.tables p') ∧ p' = p)
      (fun db' => Path E t₀ db'.tables) := by
  apply ensures_seq (save_path hp he hcur rfl)
  intro _ db' h
  obtain ⟨htables, hpath⟩ := h
  have hnow : Current db'.tables p := by
    rw [htables]
    exact current_save rfl
  have hdone (after : Db) (hs : after.tables = db'.tables) :
      Ensures may after (pure p : M UserProfile)
        (fun p' db' => (Path E t₀ db'.tables ∧ Current db'.tables p') ∧ p' = p)
        (fun db' => Path E t₀ db'.tables) :=
    ensures_pure ⟨⟨hs ▸ hpath, hs ▸ hnow⟩, rfl⟩
  have hfailed (after : Db) (hs : after.tables = db'.tables) : Path E t₀ after.tables :=
    hs ▸ hpath
  dsimp only
  split
  · exact ensures_quiet_then (subscribeList_keeps (fun _ _ _ h => h) _ _) rfl
      (fun _ => hdone) hfailed
  · exact ensures_quiet_then (unsubscribeList_keeps (fun _ _ _ h => h) _ _) rfl
      (fun _ => hdone) hfailed

/-- A deactivation never gets to its own write. -/
theorem deactivate_path (hp : Path E t₀ db.tables) (hcur : Current db.tables p)
    (hunmod : E (.unmoderate p)) (hassign : ∀ m, E (.assign m none))
    (hfile : ∀ l : Leadership, l.request = .pair → E (.file l)) :
    Ensures may db p.deactivate (fun _ db' => Path E t₀ db'.tables)
      (fun db' => Path E t₀ db'.tables) := by
  have hfailed {t : Tables} (ht : Path E t₀ t) (after : Db) (hs : after.tables = t) :
      Path E t₀ after.tables := hs ▸ ht
  apply ensures_quiet_then (unsubscribeList_keeps (fun _ _ _ h => h) _ _) rfl
  · intro _ db₁ hs₁
    apply ensures_quiet_then (unsubscribeList_keeps (fun _ _ _ h => h) _ _) hs₁
    · intro _ db₂ hs₂
      apply ensures_seq (resignLeadership_path (hs₂ ▸ hp) (hs₂ ▸ hcur) (fun _ => hunmod)
        (fun _ => hassign) (fun _ => hfile) fun _ h => by cases h)
      intro p' db₃ h
      exact ensures_bind (ensures_throw h.1)
    · exact hfailed hp
  · exact hfailed hp

end Roles

end HackerUnion.Petri
