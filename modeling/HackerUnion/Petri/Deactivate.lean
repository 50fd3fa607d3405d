import HackerUnion.Petri.Roles

namespace HackerUnion.Petri

open Bash (Text text)
open Durable
open Durable.Handler

/-- The user is inactive, and has no role, mentor, mentee, chapter or subscription. -/
def Cleared (p : UserProfile) (db : Db) : Prop :=
  (∃ q, db.tables.profiles.find? p.pk = some q ∧ q.status = .inactive ∧ q.isLeader = false ∧
    q.isModerator = false ∧ q.leader = none ∧ q.hasChapter = false) ∧
  (∀ m ∈ db.tables.profiles.rows, m.leader ≠ some p.pk) ∧
  ∀ list, (list, p.getEmail) ∉ db.subscriptions

/-- It completes with the user cleared, or it raises with the users and the lists as they were. -/
def DeactivatesWhole (p : UserProfile) (db : Db) (faults : Nat → Service → Bool) : Prop :=
  match exec p.deactivate ⟨db, faults⟩ with
  | (.ok _, s) => Cleared p s.db
  | (.error _, s) =>
    s.db.tables.profiles = db.tables.profiles ∧ s.db.subscriptions = db.subscriptions

/-- There is nothing to take from the user before the chapter. -/
def NothingToTake (p : UserProfile) (db : Db) : Prop :=
  (p.chapter.getAnnounceList, p.getEmail) ∉ db.subscriptions ∧
    (p.chapter.getDiscussList, p.getEmail) ∉ db.subscriptions ∧
    (p.isLeader = true → p.isModerator = false ∧
      (∀ m ∈ db.tables.profiles.rows, m.leader ≠ some p.pk) ∧
      (p.chapter.getOfficialList, p.getEmail) ∉ db.subscriptions)

variable {may : Service → Bool → Prop} {db : Db} {p : UserProfile}

section Nothing

theorem unsubscribe_nothing {list email : Text} (h : (list, email) ∉ db.subscriptions)
    {R : Db → Prop} :
    Ensures may db (unsubscribeList list email) (fun _ db' => db' = db) R := by
  have hfilter : db.subscriptions.filter (· ≠ (list, email)) = db.subscriptions := by
    rw [List.filter_eq_self]
    intro x hx
    refine decide_eq_true ?_
    rintro rfl
    exact h hx
  apply ensures_quietly
  · change { db with subscriptions := db.subscriptions.filter (· ≠ (list, email)) } = db
    rw [hfilter]
  · intro _
    rfl

theorem resignLeadership_nothing (hmod : p.canModerate = false)
    (h : p.isLeader = true → (∀ m ∈ db.tables.profiles.rows, m.leader ≠ some p.pk) ∧
      (p.chapter.getOfficialList, p.getEmail) ∉ db.subscriptions) {R : Db → Prop} :
    Ensures may db (p.resignLeadership false) (fun _ db' => db' = db) R := by
  have hresign : Finds db p.resignModeration p := by
    unfold UserProfile.resignModeration
    rw [hmod]
    exact finds_pure
  apply ensures_finds hresign
  cases hlead : p.isLeader with
  | false => exact ensures_pure rfl
  | true =>
    obtain ⟨hnone, hofficial⟩ := h hlead
    have hmentees : (db.tables.profiles.rows.filter fun m => m.leader = some p.pk) = [] := by
      rw [List.filter_eq_nil_iff]
      intro m hm
      simpa using hnone m hm
    apply ensures_finds (finds_getMentees _)
    change Ensures may db ((db.tables.profiles.rows.filter fun m =>
      m.leader = some p.pk).forM (UserProfile.detach { p with isLeader := false }) >>= _) _ _
    rw [hmentees]
    apply ensures_bind
    apply ensures_pure
    apply ensures_seq (unsubscribe_nothing hofficial (R := R))
    intro _ db' hdb
    exact ensures_pure hdb

theorem deactivate_nothing (h : NothingToTake p db) :
    Ensures may db p.deactivate (fun _ _ => False) (fun db' => db' = db) := by
  obtain ⟨hannounce, hdiscuss, hlead⟩ := h
  have hmod : p.canModerate = false := by
    unfold UserProfile.canModerate
    cases hl : p.isLeader with
    | false => rfl
    | true => exact (hlead hl).1
  apply ensures_seq (unsubscribe_nothing hannounce (R := fun db' => db' = db))
  intro _ db₁ h₁
  subst h₁
  apply ensures_seq (unsubscribe_nothing hdiscuss (R := fun db' => db' = db₁))
  intro _ db₂ h₂
  subst h₂
  apply ensures_seq (resignLeadership_nothing hmod (fun hl => (hlead hl).2)
    (R := fun db' => db' = db₂))
  intro p' db₃ h₃
  exact ensures_bind (ensures_throw h₃)

end Nothing

section Detach

variable {k : Nat} {φ : UserProfile → Prop}

/-- The user's row has a property. -/
def RowHas (k : Nat) (φ : UserProfile → Prop) (db : Db) : Prop :=
  ∃ q, db.tables.profiles.find? k = some q ∧ φ q

theorem rowHas_saved {q : UserProfile} {db' : Db} (h : RowHas k φ db)
    (hq : q.pk = k → φ q) (hprofiles : db'.tables.profiles = db.tables.profiles.save q) :
    RowHas k φ db' := by
  obtain ⟨r, hr, hφ⟩ := h
  unfold RowHas
  rw [hprofiles, Table.find?_save]
  split
  · rename_i hkey
    exact ⟨q, rfl, hq hkey⟩
  · exact ⟨r, hr, hφ⟩

/-- Detaching mentees writes no mentor and nothing else to their rows. -/
theorem detach_rowHas {m : UserProfile} (h : RowHas k φ db)
    (hm : m.pk = k → φ { m with leader := none }) :
    Ensures may db (p.detach m) (fun _ => RowHas k φ) (RowHas k φ) := by
  apply ensures_bind
  apply saved_ensures
  · intro db₁ h₁
    have hrow : RowHas k φ db₁ := rowHas_saved h hm (by rw [h₁])
    apply ensures_bind
    apply getUser_ensures _ hrow
    intro user _
    have hafter {db₂ : Db} (hprofiles : db₂.tables.profiles = db₁.tables.profiles) :
        RowHas k φ db₂ := by
      unfold RowHas
      rwa [hprofiles]
    apply ensures_then (createPairRequest_path (E := fun _ => True) Path.refl fun _ _ _ => trivial)
    · intro _ db₂ h₂
      exact ensures_pure (hafter h₂.2.1)
    · intro db₂ h₂
      exact hafter h₂.2.1
  · exact h

/-- The first mentee has no mentor any more, once detached. -/
theorem detach_first {m : UserProfile} (hup : ∀ s, ¬may s true) :
    Ensures may db (p.detach m) (fun _ => RowHas m.pk fun q => q.leader = none)
      (RowHas m.pk fun q => q.leader = none) := by
  apply ensures_bind
  apply ensures_store
  · let db₁ : Db := { db with tables :=
      { db.tables with profiles := db.tables.profiles.save { m with leader := none } } }
    have hrow : RowHas m.pk (fun q => q.leader = none) db₁ := by
      refine ⟨{ m with leader := none }, Table.find?_eq_some_iff.mpr ⟨?_, rfl⟩, rfl⟩
      exact Table.mem_save.mpr (Or.inl rfl)
    apply ensures_bind
    apply getUser_ensures _ hrow
    intro user _
    have hafter {db₂ : Db} (hprofiles : db₂.tables.profiles = db₁.tables.profiles) :
        RowHas m.pk (fun q => q.leader = none) db₂ := by
      unfold RowHas
      rwa [hprofiles]
    apply ensures_then (createPairRequest_path (E := fun _ => True) Path.refl
      fun _ _ _ => trivial)
    · intro _ db₂ h₂
      exact ensures_pure (hafter h₂.2.1)
    · intro db₂ h₂
      exact hafter h₂.2.1
  · intro hd
    exact absurd hd (hup _)

theorem detachAll_rowHas {rest : List UserProfile} (h : RowHas k φ db)
    (hrest : ∀ m ∈ rest, m.pk = k → φ { m with leader := none }) :
    Ensures may db (rest.forM p.detach) (fun _ => RowHas k φ) (RowHas k φ) := by
  let I : List UserProfile → Db → Prop := fun rest db =>
    RowHas k φ db ∧ ∀ m ∈ rest, m.pk = k → φ { m with leader := none }
  have hround (m : UserProfile) (rest : List UserProfile) (db : Db) (hi : I (m :: rest) db) :
      Ensures may db (p.detach m) (fun _ => I rest) (RowHas k φ) := by
    apply ensures_weaken (detach_rowHas hi.1 (hi.2 m List.mem_cons_self))
    intro _ db' hrow
    exact ⟨hrow, fun x hx => hi.2 x (List.mem_cons_of_mem m hx)⟩
  apply ensures_weaken (ensures_forM hround ⟨h, hrest⟩)
  intro _ db' hi
  exact hi.1

end Detach

section Take

variable {row : UserProfile} {x : Text × Text}

def Unsubscribed (x : Text × Text) : Db → Prop := OnCore fun _ subscriptions => x ∉ subscriptions

theorem unsubscribe_removes (hup : ∀ s, ¬may s true) {list email : Text} {R : Db → Prop} :
    Ensures may db (unsubscribeList list email) (fun _ => Unsubscribed (list, email)) R := by
  apply ensures_quietly
  · intro hmem
    have hne := (List.mem_filter.mp hmem).2
    exact of_decide_eq_true hne rfl
  · intro hd
    exact absurd hd (hup _)

theorem unsubscribe_unsubscribed (list email : Text) :
    Keeps may (Unsubscribed x) (unsubscribeList list email) := by
  apply keeps_quietly
  intro db h hmem
  exact h (List.mem_filter.mp hmem).1

theorem detach_unsubscribed (m : UserProfile) : Keeps may (Unsubscribed x) (p.detach m) := by
  have hsave : Keeps may (Unsubscribed x) (UserProfile.save { m with leader := none }) :=
    keeps_store fun _ h => h
  apply keeps_bind hsave
  intro _
  apply keeps_bind (getUser_keeps _)
  intro user
  apply keeps_bind _ fun _ => keeps_pure _
  intro db h
  have hafter {db' : Db} (hsubs : db'.subscriptions = db.subscriptions) : Unsubscribed x db' := by
    unfold Unsubscribed OnCore
    rwa [hsubs]
  apply ensures_mono (createPairRequest_path (E := fun _ => True) Path.refl fun _ _ _ => trivial)
  · intro _ db' h'
    exact hafter h'.2.2
  · intro db' h'
    exact hafter h'.2.2

theorem resignLeadership_unsubscribed : Keeps may (Unsubscribed x) (p.resignLeadership false) := by
  apply keeps_bind
  · unfold UserProfile.resignModeration
    split
    · exact keeps_pure _
    · exact keeps_bind (keeps_store fun _ h => h) fun _ => keeps_pure _
  · intro q
    split
    · exact keeps_pure _
    · apply keeps_bind (keeps_bind keeps_read fun _ => keeps_pure _)
      intro mentees
      apply keeps_bind (keeps_forM detach_unsubscribed)
      intro _
      exact keeps_bind (unsubscribe_unsubscribed _ _) fun _ => keeps_pure _

/-- What is written of a row before the chapter is taken stays. -/
theorem unsubscribe_rowHas {k : Nat} {φ : UserProfile → Prop} (list email : Text) :
    Keeps may (RowHas k φ) (unsubscribeList list email) :=
  unsubscribeList_keeps (P := fun t _ => ∃ q, t.profiles.find? k = some q ∧ φ q)
    (fun _ _ _ h => h) list email

theorem resignLeadership_moderator (hup : ∀ s, ¬may s true) (hlead : p.isLeader = true)
    (hmod : p.isModerator = true) :
    Ensures may db (p.resignLeadership false)
      (fun _ => RowHas p.pk fun q => q.isModerator = false)
      (RowHas p.pk fun q => q.isModerator = false) := by
  have hcan : p.canModerate = true := by simp [UserProfile.canModerate, hlead, hmod]
  let q : UserProfile := { p with isModerator := false }
  have hresign {R : Db → Prop} : Ensures may db p.resignModeration
      (fun p' db₁ => p' = q ∧ db₁.tables.profiles = db.tables.profiles.save q) R := by
    unfold UserProfile.resignModeration
    rw [hcan]
    apply ensures_bind
    apply ensures_store
    · exact ensures_pure ⟨rfl, rfl⟩
    · intro hd
      exact absurd hd (hup _)
  apply ensures_seq hresign
  intro p' db₁ h₁
  obtain ⟨rfl, hprofiles⟩ := h₁
  have hq : q ∈ db₁.tables.profiles.rows := by
    rw [hprofiles]
    exact Table.mem_save.mpr (Or.inl rfl)
  have hrow : RowHas p.pk (fun q => q.isModerator = false) db₁ :=
    ⟨q, Table.find?_of_mem hq, rfl⟩
  rw [if_neg (by simp [q, hlead])]
  apply ensures_finds (finds_getMentees _)
  apply ensures_seq (detachAll_rowHas hrow ?_)
  · intro _ db₂ h₂
    apply ensures_seq (unsubscribe_rowHas _ _ db₂ h₂)
    intro _ db₃ h₃
    exact ensures_pure h₃
  · intro m hm hkey
    have hmem : m ∈ db₁.tables.profiles.rows := (List.mem_filter.mp hm).1
    have heq : m = q := Table.eq_of_key hmem hq hkey
    rw [heq]

theorem finds_resignModeration (hmod : p.isModerator = false) :
    Finds db p.resignModeration p := by
  unfold UserProfile.resignModeration
  rw [show p.canModerate = false by simp [UserProfile.canModerate, hmod]]
  exact finds_pure

theorem resignLeadership_mentee (hup : ∀ s, ¬may s true) (hlead : p.isLeader = true)
    (hmod : p.isModerator = false) {m : UserProfile} {rest : List UserProfile}
    (hmentees : (db.tables.profiles.rows.filter fun m => m.leader = some p.pk) = m :: rest) :
    Ensures may db (p.resignLeadership false)
      (fun _ => RowHas m.pk fun q => q.leader = none)
      (RowHas m.pk fun q => q.leader = none) := by
  apply ensures_finds (finds_resignModeration hmod)
  rw [if_neg (by simp [hlead])]
  apply ensures_finds (finds_getMentees _)
  change Ensures may db ((db.tables.profiles.rows.filter fun m =>
    m.leader = some p.pk).forM (UserProfile.detach { p with isLeader := false }) >>= _) _ _
  rw [hmentees]
  have hloop : Ensures may db ((m :: rest).forM (UserProfile.detach { p with isLeader := false }))
      (fun _ => RowHas m.pk fun q => q.leader = none) (RowHas m.pk fun q => q.leader = none) := by
    apply ensures_seq (detach_first hup)
    intro _ db₁ h₁
    exact detachAll_rowHas h₁ fun _ _ _ => rfl
  apply ensures_seq hloop
  intro _ db₂ h₂
  apply ensures_seq (unsubscribe_rowHas _ _ db₂ h₂)
  intro _ db₃ h₃
  exact ensures_pure h₃

theorem resignLeadership_official (hup : ∀ s, ¬may s true) (hlead : p.isLeader = true)
    (hmod : p.isModerator = false)
    (hmentees : (db.tables.profiles.rows.filter fun m => m.leader = some p.pk) = []) {R : Db → Prop} :
    Ensures may db (p.resignLeadership false)
      (fun _ => Unsubscribed (p.chapter.getOfficialList, p.getEmail)) R := by
  apply ensures_finds (finds_resignModeration hmod)
  rw [if_neg (by simp [hlead])]
  apply ensures_finds (finds_getMentees _)
  change Ensures may db ((db.tables.profiles.rows.filter fun m =>
    m.leader = some p.pk).forM (UserProfile.detach { p with isLeader := false }) >>= _) _ _
  rw [hmentees]
  apply ensures_bind
  apply ensures_pure
  apply ensures_seq (unsubscribe_removes hup)
  intro _ db₁ h₁
  exact ensures_pure h₁

end Take

section Whole

variable {row : UserProfile}

/-- The users and the lists are not as they were. -/
def Taken (db db' : Db) : Prop :=
  ¬(db'.tables.profiles = db.tables.profiles ∧ db'.subscriptions = db.subscriptions)

theorem taken_of_unsubscribed {x : Text × Text} {db' : Db} (hx : x ∈ db.subscriptions)
    (h : Unsubscribed x db') : Taken db db' := by
  intro hsame
  unfold Unsubscribed OnCore at h
  rw [hsame.2] at h
  exact h hx

theorem taken_of_rowHas {φ : UserProfile → Prop} {db' : Db}
    (hrow : db.tables.profiles.find? row.pk = some row) (hφ : ¬φ row) (h : RowHas row.pk φ db') :
    Taken db db' := by
  intro hsame
  obtain ⟨q, hq, hφq⟩ := h
  rw [hsame.1, hrow] at hq
  cases hq
  exact hφ hφq

/-- The lists are left first, and the roles given up after that. -/
theorem deactivate_ensures {P : Db → Prop}
    (hannounce : Ensures may db (unsubscribeList p.chapter.getAnnounceList p.getEmail)
      (fun _ db₁ => Ensures may db₁ (unsubscribeList p.chapter.getDiscussList p.getEmail)
        (fun _ db₂ => Ensures may db₂ (p.resignLeadership false) (fun _ => P) P) P) P) :
    Ensures may db p.deactivate (fun _ _ => False) P := by
  apply ensures_seq hannounce
  intro _ db₁ h₁
  apply ensures_seq h₁
  intro _ db₂ h₂
  apply ensures_seq h₂
  intro p' db₃ h₃
  exact ensures_bind (ensures_throw h₃)

/-- What the two lists keep, and what giving up the roles does from there. -/
theorem deactivate_roles {P : Db → Prop}
    (h : ∀ db', db'.tables = db.tables → Ensures may db' (p.resignLeadership false) (fun _ => P) P)
    (hup : ∀ s, ¬may s true) : Ensures may db p.deactivate (fun _ _ => False) P := by
  have hleaves (list email : Text) (db₁ : Db) (h₁ : db₁.tables = db.tables)
      {Q : Unit → Db → Prop} (hq : ∀ db₂, db₂.tables = db.tables → Q () db₂) :
      Ensures may db₁ (unsubscribeList list email) Q P := by
    apply ensures_quietly
    · exact hq _ h₁
    · intro hd
      exact absurd hd (hup _)
  apply deactivate_ensures
  apply hleaves _ _ db rfl
  intro db₁ h₁
  apply hleaves _ _ db₁ h₁
  exact h

theorem deactivate_takes (hup : ∀ s, ¬may s true)
    (hrow : db.tables.profiles.find? p.pk = some row) (hp : p = { row with user := p.user })
    (hsome : ¬NothingToTake p db) :
    Ensures may db p.deactivate (fun _ _ => False) (Taken db) := by
  have hpk : row.pk = p.pk := (Table.find?_eq_some_iff.mp hrow).2
  by_cases hannounce : (p.chapter.getAnnounceList, p.getEmail) ∈ db.subscriptions
  · apply ensures_raise (deactivate_ensures
      (P := Unsubscribed (p.chapter.getAnnounceList, p.getEmail)) ?_)
    · intro db' h
      exact taken_of_unsubscribed hannounce h
    · apply ensures_weaken (ensures_never (unsubscribe_removes hup))
      intro _ db₁ h₁
      apply ensures_weaken (unsubscribe_unsubscribed _ _ db₁ h₁)
      intro _ db₂ h₂
      exact resignLeadership_unsubscribed db₂ h₂
  · by_cases hdiscuss : (p.chapter.getDiscussList, p.getEmail) ∈ db.subscriptions
    · apply ensures_raise (deactivate_ensures
        (P := Unsubscribed (p.chapter.getDiscussList, p.getEmail)) ?_)
      · intro db' h
        exact taken_of_unsubscribed hdiscuss h
      · apply ensures_quietly
        · apply ensures_weaken (ensures_never (unsubscribe_removes hup))
          intro _ db₂ h₂
          exact resignLeadership_unsubscribed db₂ h₂
        · intro hd
          exact absurd hd (hup _)
    · have hlead : p.isLeader = true := by
        by_contra hnot
        exact hsome ⟨hannounce, hdiscuss, fun hl => absurd hl hnot⟩
      cases hmod : p.isModerator with
      | true =>
        apply ensures_raise (deactivate_roles
          (fun db' _ => resignLeadership_moderator hup hlead hmod) hup)
        intro db' h
        rw [← hpk] at hrow h
        refine taken_of_rowHas hrow ?_ h
        rw [hp] at hmod
        simpa using hmod
      | false =>
        cases hmentees : db.tables.profiles.rows.filter fun m => m.leader = some p.pk with
        | cons m rest =>
          have hm : m ∈ db.tables.profiles.rows.filter fun m => m.leader = some p.pk := by
            rw [hmentees]
            exact List.mem_cons_self
          obtain ⟨hmem, hled⟩ := List.mem_filter.mp hm
          apply ensures_raise (deactivate_roles (P := RowHas m.pk fun q => q.leader = none)
            (fun db' hs => resignLeadership_mentee hup hlead hmod
              (by rw [hs]; exact hmentees)) hup)
          intro db' h
          refine taken_of_rowHas (Table.find?_of_mem hmem) ?_ h
          rw [of_decide_eq_true hled]
          exact nofun
        | nil =>
          have hofficial : (p.chapter.getOfficialList, p.getEmail) ∈ db.subscriptions := by
            by_contra hnot
            refine hsome ⟨hannounce, hdiscuss, fun _ => ⟨hmod, ?_, hnot⟩⟩
            intro m hm hled
            rw [List.filter_eq_nil_iff] at hmentees
            exact hmentees m hm (decide_eq_true hled)
          apply ensures_raise (deactivate_roles
            (P := Unsubscribed (p.chapter.getOfficialList, p.getEmail))
            (fun db' hs => resignLeadership_official hup hlead hmod
              (by rw [hs]; exact hmentees)) hup)
          intro db' h
          exact taken_of_unsubscribed hofficial h

/-- A deactivation leaves the users and the lists as they were exactly if there is nothing to take,
for it never gets past the chapter. -/
theorem deactivatesWhole_iff (p row : UserProfile) (db : Db)
    (hrow : db.tables.profiles.find? p.pk = some row) (hp : p = { row with user := p.user }) :
    (∀ faults, DeactivatesWhole p db faults) ↔ NothingToTake p db := by
  constructor
  · intro hall
    by_contra hsome
    let may : Service → Bool → Prop := fun _ b => b = false
    have htakes : Ensures may db p.deactivate (fun _ _ => False) (Taken db) :=
      deactivate_takes (fun _ hd => by cases hd) hrow hp hsome
    have hends := htakes (fun _ _ => false) fun _ _ => rfl
    have hwhole := hall fun _ _ => false
    unfold DeactivatesWhole at hwhole
    generalize exec p.deactivate ⟨db, fun _ _ => false⟩ = out at hends hwhole
    obtain ⟨r, s⟩ := out
    cases r with
    | ok p' => exact hends.1
    | error e => exact hends hwhole
  · intro h faults
    have hkeeps : Ensures (fun _ _ => True) db p.deactivate (fun _ _ => False)
        (fun db' => db' = db) := deactivate_nothing h
    have hnothing := hkeeps faults fun _ _ => trivial
    unfold DeactivatesWhole
    generalize exec p.deactivate ⟨db, faults⟩ = out at hnothing
    obtain ⟨r, s⟩ := out
    cases r with
    | ok p' => exact hnothing.1.elim
    | error e =>
      change s.db = db at hnothing
      change s.db.tables.profiles = db.tables.profiles ∧ s.db.subscriptions = db.subscriptions
      rw [hnothing]
      exact ⟨rfl, rfl⟩

end Whole

/-- The leader of the chapter is left without her role, and with all the rest. -/
theorem deactivate_not_whole :
    annAndBob.tables.profiles.find? 1 = some (member 1 (text "ann") true) ∧
      ¬DeactivatesWhole (member 1 (text "ann") true) annAndBob fun _ _ => false := by
  refine ⟨by decide, ?_⟩
  let start : Site Service Db := ⟨annAndBob, fun _ _ => false⟩
  have hraises : (exec (member 1 (text "ann") true).deactivate start).1.isOk = false := by decide
  have hrow : ((exec (member 1 (text "ann") true).deactivate start).2.db.tables.profiles.find? 1).any
      UserProfile.isModerator = false := by decide
  have hbefore : (annAndBob.tables.profiles.find? 1).any UserProfile.isModerator = true := by decide
  intro h
  unfold DeactivatesWhole at h
  change match exec (member 1 (text "ann") true).deactivate start with
    | (.ok _, s) => Cleared (member 1 (text "ann") true) s.db
    | (.error _, s) => s.db.tables.profiles = annAndBob.tables.profiles ∧
      s.db.subscriptions = annAndBob.subscriptions at h
  generalize exec (member 1 (text "ann") true).deactivate start = out at h hraises hrow
  obtain ⟨r, s⟩ := out
  cases r with
  | ok p => cases hraises
  | error e =>
    change s.db.tables.profiles = _ ∧ _ at h
    change (s.db.tables.profiles.find? 1).any UserProfile.isModerator = false at hrow
    rw [h.1, hbefore] at hrow
    cases hrow

theorem deactivatesWhole_bob :
    (∀ faults, DeactivatesWhole (member 2 (text "bob") false) annAndBob faults) ↔
      NothingToTake (member 2 (text "bob") false) annAndBob :=
  deactivatesWhole_iff (member 2 (text "bob") false) (member 2 (text "bob") false) annAndBob
    (by decide) rfl

end HackerUnion.Petri
