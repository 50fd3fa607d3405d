import HackerUnion.Petri.Roles

namespace HackerUnion.Petri

open Bash (Text text)
open Durable
open Durable.Handler

variable {t t₀ : Tables} {a : Act} {sub : Submission} {p q : UserProfile} {k : Nat}

theorem apply_find? (t : Tables) (a : Act) (k : Nat) : (a.apply t).profiles.find? k =
    match a.profile with
    | some q => if q.pk = k then some q else t.profiles.find? k
    | none => t.profiles.find? k := by
  rw [apply_profiles]
  cases a.profile with
  | none => rfl
  | some q => exact Table.find?_save

section Posts

theorem apply_post? (t : Tables) (a : Act) (k : Nat) : (a.apply t).posts.find? k =
    match a.post with
    | some p => if p.pk = k then some p else t.posts.find? k
    | none => t.posts.find? k := by
  cases a <;> first | rfl | exact Table.find?_save

/-- From a request to what it is later: it is as it was, or it was open and has been responded to. -/
def Leadership.Moves (l l' : Leadership) : Prop :=
  (l'.response = l.response ∧ l'.processedBy = l.processedBy) ∨
    (l.canRespond = true ∧ l'.response ≠ .pending)

theorem Leadership.Moves.trans {l l' l'' : Leadership} (h : l.Moves l') (h' : l'.Moves l'') :
    l.Moves l'' := by
  rcases h with ⟨hr, hp⟩ | ⟨hopen, hne⟩
  · rcases h' with ⟨hr', hp'⟩ | ⟨hopen', hne'⟩
    · exact Or.inl ⟨hr'.trans hr, hp'.trans hp⟩
    · refine Or.inr ⟨?_, hne'⟩
      unfold Leadership.canRespond at *
      rwa [← hr]
  · rcases h' with ⟨hr', hp'⟩ | ⟨-, hne'⟩
    · exact Or.inr ⟨hopen, hr' ▸ hne⟩
    · exact Or.inr ⟨hopen, hne'⟩

/-- A request stays, that of the same user and of the same kind. -/
def Lasts (t t' : Tables) : Prop :=
  ∀ k l, t.posts.find? k = some (.leadership l) →
    ∃ l', t'.posts.find? k = some (.leadership l') ∧ l'.owner = l.owner ∧
      l'.request = l.request ∧ l.Moves l'

theorem Lasts.refl (t : Tables) : Lasts t t := fun _ l h => ⟨l, h, rfl, rfl, Or.inl ⟨rfl, rfl⟩⟩

theorem Lasts.trans {t t' t'' : Tables} (h : Lasts t t') (h' : Lasts t' t'') : Lasts t t'' := by
  intro k l hl
  obtain ⟨l', hl', howner, hkind, hmoves⟩ := h k l hl
  obtain ⟨l'', hl'', howner', hkind', hmoves'⟩ := h' k l' hl'
  exact ⟨l'', hl'', howner'.trans howner, hkind'.trans hkind, hmoves.trans hmoves'⟩

theorem core_eq {l l' : Leadership} (h : l'.core = l.core) :
    l'.owner = l.owner ∧ l'.request = l.request ∧ l'.response = l.response ∧
      l'.processedBy = l.processedBy := by
  simpa only [Leadership.core, Prod.mk.injEq] using h

theorem lasts_act (hg : a.Guard t) : Lasts t (a.apply t) := by
  intro k l hl
  rw [apply_post?]
  have hkeep : ∃ l', t.posts.find? k = some (.leadership l') ∧ l'.owner = l.owner ∧
      l'.request = l.request ∧ l.Moves l' := Lasts.refl t k l hl
  cases a with
  | file l₀ =>
    dsimp only [Act.post]
    split
    · rename_i hkey
      rw [← hkey] at hl
      cases hg.1.symm.trans hl
    · exact hkeep
  | answer l₀ response user =>
    dsimp only [Act.post]
    split
    · rename_i hkey
      obtain ⟨⟨l', hfind, hcore⟩, hopen, hne, -⟩ := hg
      rw [← hkey] at hl
      cases hfind.symm.trans hl
      obtain ⟨howner, hkind, hresponse, -⟩ := core_eq hcore
      refine ⟨_, rfl, howner.symm, hkind.symm, Or.inr ⟨?_, hne⟩⟩
      unfold Leadership.canRespond at *
      rwa [hresponse]
    · exact hkeep
  | touch p =>
    dsimp only [Act.post]
    split
    · rename_i hkey
      obtain ⟨p', hfind, hcore⟩ := hg
      rw [← hkey] at hl
      cases hfind.symm.trans hl
      cases p with
      | other b => cases hcore
      | leadership l' =>
        obtain ⟨howner, hkind, hresponse, hprocessed⟩ := core_eq (Option.some.inj hcore)
        exact ⟨l', rfl, howner.symm, hkind.symm, Or.inl ⟨hresponse.symm, hprocessed.symm⟩⟩
    · exact hkeep
  | settings _ | lead _ | moderate _ | unmoderate _ | assign _ _ | retire _ | enroll _ _ _
  | refuse _ | register _ | account _ | redeem _ => exact hkeep

theorem lasts_step (db : Db) (op : Op) : Lasts db.tables (step db op).tables := by
  refine (step_path db op).invariant (I := Lasts db.tables) ?_ (Lasts.refl _)
  intro t a ht _ hg
  exact ht.trans (lasts_act hg)

/-- No user has two requests pending of a kind that may not be asked for again. -/
def OnePending (t : Tables) : Prop :=
  ∀ l l', .leadership l ∈ t.posts.rows → .leadership l' ∈ t.posts.rows →
    l.request.allowMultiple = false → l'.request = l.request → l'.owner = l.owner →
    l.response = .pending → l'.response = .pending → l' = l

/-- A post with the core of the one in its place adds no request that is pending. -/
theorem OnePending.congr {t' : Tables} (h : OnePending t)
    (hrows : ∀ l, .leadership l ∈ t'.posts.rows → l.response = .pending →
      ∃ l', .leadership l' ∈ t.posts.rows ∧ l'.pk = l.pk ∧ l'.core = l.core) :
    OnePending t' := by
  intro l l' hl hl' hkind hrequest howner hpending hpending'
  obtain ⟨m, hm, hpk, hcore⟩ := hrows l hl hpending
  obtain ⟨m', hm', hpk', hcore'⟩ := hrows l' hl' hpending'
  obtain ⟨ho, hr, hresponse, -⟩ := core_eq hcore
  obtain ⟨ho', hr', hresponse', -⟩ := core_eq hcore'
  have heq : m' = m := h m m' hm hm' (hr ▸ hkind) (by rw [hr', hr, hrequest])
    (by rw [ho', ho, howner]) (hresponse.trans hpending) (hresponse'.trans hpending')
  have hkey : l'.pk = l.pk := by rw [← hpk', heq, hpk]
  have hpost : Post.leadership l' = Post.leadership l := Table.eq_of_key hl' hl hkey
  exact Post.leadership.inj hpost

theorem OnePending.act (h : OnePending t) (hg : a.Guard t) : OnePending (a.apply t) := by
  cases a with
  | file l₀ =>
    obtain ⟨hfresh, -, -, hfree⟩ := hg
    have hnew (l : Leadership) (hl : .leadership l ∈ (t.posts.save (.leadership l₀)).rows) :
        l = l₀ ∨ .leadership l ∈ t.posts.rows := by
      rcases Table.mem_save.mp hl with heq | ⟨hl, -⟩
      · exact Or.inl (Post.leadership.inj heq)
      · exact Or.inr hl
    intro l l' hl hl' hkind hrequest howner hpending hpending'
    rcases hnew l hl with rfl | hold
    · rcases hnew l' hl' with rfl | hold'
      · rfl
      · exact absurd hpending' (hfree hkind l' hold' hrequest howner)
    · rcases hnew l' hl' with rfl | hold'
      · exact absurd hpending (hfree (hrequest ▸ hkind) l hold hrequest.symm howner.symm)
      · exact h l l' hold hold' hkind hrequest howner hpending hpending'
  | answer l₀ response user =>
    apply h.congr
    intro l hl hpending
    rcases Table.mem_save.mp hl with heq | ⟨hl, -⟩
    · cases heq
      exact absurd hpending hg.2.2.1
    · exact ⟨l, hl, rfl, rfl⟩
  | touch p =>
    apply h.congr
    intro l hl hpending
    rcases Table.mem_save.mp hl with heq | ⟨hl, -⟩
    · obtain ⟨p', hfind, hcore⟩ := hg
      obtain ⟨hmem, hpk⟩ := Table.find?_eq_some_iff.mp hfind
      cases p' with
      | other b =>
        rw [← heq] at hcore
        cases hcore
      | leadership l' =>
        rw [← heq] at hcore hpk
        exact ⟨l', hmem, hpk, Option.some.inj hcore⟩
    · exact ⟨l, hl, rfl, rfl⟩
  | settings _ | lead _ | moderate _ | unmoderate _ | assign _ _ | retire _ | enroll _ _ _
  | refuse _ | register _ | account _ | redeem _ => exact h

/-- Whatever comes later, a request that was responded to for good stays as it is, one that is open
is at most responded to, and no user has two pending of a kind. -/
theorem requests_lifecycle (db : Db) (ops : List Op) (h : OnePending db.tables) :
    (runs db ops).Pairwise (fun s s' => ∀ k l, s.tables.posts.find? k = some (.leadership l) →
      ∃ l', s'.tables.posts.find? k = some (.leadership l') ∧ l'.owner = l.owner ∧
        l'.request = l.request ∧
        ((l'.response = l.response ∧ l'.processedBy = l.processedBy) ∨
          ((l.response = .pending ∨ l.response = .active) ∧
            (l'.response = .active ∨ l'.response = .approved ∨ l'.response = .denied ∨
              l'.response = .canceled)))) ∧
    ∀ s ∈ runs db ops, ∀ l l', .leadership l ∈ s.tables.posts.rows →
      .leadership l' ∈ s.tables.posts.rows → l.request ∈ [Kind.join, Kind.lead, Kind.pair] →
      l'.request = l.request → l'.owner = l.owner → l.response = .pending →
      l'.response = .pending → l' = l := by
  constructor
  · have hpairs := runs_pairwise Lasts.refl (fun _ _ _ => Lasts.trans) lasts_step db ops
    refine hpairs.imp ?_
    intro s s' hlasts k l hl
    obtain ⟨l', hl', howner, hkind, hmoves⟩ := hlasts k l hl
    refine ⟨l', hl', howner, hkind, ?_⟩
    rcases hmoves with hsame | ⟨hopen, hne⟩
    · exact Or.inl hsame
    · refine Or.inr ⟨by simpa [Leadership.canRespond] using hopen, ?_⟩
      cases hr : l'.response with
      | pending => exact absurd hr hne
      | active => exact Or.inl rfl
      | approved => exact Or.inr (Or.inl rfl)
      | denied => exact Or.inr (Or.inr (Or.inl rfl))
      | canceled => exact Or.inr (Or.inr (Or.inr rfl))
  · have hall := runs_invariant (C := fun _ _ => True) (I := OnePending)
      (fun _ _ _ _ _ _ ht _ hg => ht.act hg) h (Run.throughout_of_forall (fun _ _ => trivial) db ops)
    intro s hs l l' hl hl' hkind
    refine hall s hs l l' hl hl' ?_
    simp only [List.mem_cons, List.not_mem_nil, or_false] at hkind
    rcases hkind with hk | hk | hk <;> rw [hk] <;> rfl

theorem requests_lifecycle_ownMentor :
    (runs annAndBob ownMentor).Pairwise (fun s s' => ∀ k l,
      s.tables.posts.find? k = some (.leadership l) →
        ∃ l', s'.tables.posts.find? k = some (.leadership l') ∧ l'.owner = l.owner ∧
          l'.request = l.request ∧
          ((l'.response = l.response ∧ l'.processedBy = l.processedBy) ∨
            ((l.response = .pending ∨ l.response = .active) ∧
              (l'.response = .active ∨ l'.response = .approved ∨ l'.response = .denied ∨
                l'.response = .canceled)))) :=
  (requests_lifecycle annAndBob ownMentor (by
    intro l l' hl
    have hnil : annAndBob.tables.posts.rows = [] := by decide
    rw [hnil] at hl
    cases hl)).1

end Posts

section Status

/-- The row an act is about, which has the status that it was read with. -/
theorem status_of_guard {r : UserProfile} (hg : a.Guard t) (ha : a.subject = some p)
    (hr : t.profiles.find? p.pk = some r) : r.status = p.status := by
  have hcur (q : UserProfile) (hpk : q.pk = p.pk) (hq : q.status = p.status)
      (h : Current t q) : r.status = p.status := by
    obtain ⟨r', hr', hroles⟩ := h
    rw [hpk, hr] at hr'
    cases hr'
    exact (congrArg (fun c => c.1) hroles).trans hq
  cases a with
  | settings q | unmoderate q | refuse q =>
    cases ha
    exact hcur _ rfl rfl hg
  | lead q | moderate q | assign q leader | enroll q chapter leader =>
    cases ha
    exact hcur _ rfl rfl hg.1
  | retire q =>
    cases ha
    rcases hg.2.2.2 with h | ⟨-, h⟩
    · exact hcur _ rfl rfl h
    · exact hcur { p with leader := none } rfl rfl h
  | register q =>
    cases ha
    cases hg.1.symm.trans hr
  | account _ | redeem _ | file _ | answer _ _ _ | touch _ => cases ha

/-- An act is about a profile that has a row, or a new one. -/
theorem row_of_guard (hg : a.Guard t) (ha : a.subject = some p) :
    (∃ r, t.profiles.find? p.pk = some r) ∨ p.roles = (.pending, false, false, none) := by
  have hcur (q : UserProfile) (hpk : q.pk = p.pk) (h : Current t q) :
      ∃ r, t.profiles.find? p.pk = some r := by
    obtain ⟨r, hr, -⟩ := h
    exact ⟨r, hpk ▸ hr⟩
  cases a with
  | settings q | unmoderate q | refuse q =>
    cases ha
    exact Or.inl (hcur _ rfl hg)
  | lead q | moderate q | assign q leader | enroll q chapter leader =>
    cases ha
    exact Or.inl (hcur _ rfl hg.1)
  | retire q =>
    cases ha
    rcases hg.2.2.2 with h | ⟨-, h⟩
    · exact Or.inl (hcur _ rfl h)
    · exact Or.inl (hcur { p with leader := none } rfl h)
  | register q =>
    cases ha
    exact Or.inr hg.2
  | account _ | redeem _ | file _ | answer _ _ _ | touch _ => cases ha

theorem profile_pk (ha : a.profile = some q) : ∃ p, a.subject = some p ∧ p.pk = q.pk := by
  cases a with
  | settings p | lead p | moderate p | unmoderate p | assign p leader | retire p
  | enroll p chapter leader | refuse p | register p =>
    cases ha
    exact ⟨_, rfl, rfl⟩
  | account _ | redeem _ | file _ | answer _ _ _ | touch _ => cases ha

/-- The decision on a membership that an act is. -/
def Act.decides : Act → Bool
  | enroll _ _ _ | refuse _ => true
  | _ => false

theorem status_of_profile (ha : a.profile = some q) (hp : a.subject = some p)
    (hdecides : a.decides = false) : q.status = p.status := by
  cases a with
  | settings _ | lead _ | moderate _ | unmoderate _ | assign _ _ | retire _ | register _ =>
    cases ha
    cases hp
    rfl
  | enroll _ _ _ | refuse _ => cases hdecides
  | account _ | redeem _ | file _ | answer _ _ _ | touch _ => cases ha

/-- Only one who can apply is decided on. -/
theorem canApply_of_decides (ha : Allows t₀ sub a) (hp : a.subject = some p)
    (hdecides : a.decides = true) : p.canApply = true := by
  cases ha with
  | enroll _ _ happly _ =>
    cases hp
    exact happly
  | refuse _ _ happly =>
    cases hp
    exact happly
  | redeemed _ hroles _ =>
    cases hp
    simp only [UserProfile.roles, Prod.mk.injEq] at hroles
    simp [UserProfile.canApply, UserProfile.hasChapter, hroles.1]
  | _ => cases hdecides

/-- A decision on a membership lasts. -/
def Decided (t t' : Tables) : Prop :=
  ∀ k p, t.profiles.find? k = some p → ∃ p', t'.profiles.find? k = some p' ∧
    (p.status = .approved ∨ p.status = .denied → p'.status = p.status)

theorem Decided.refl (t : Tables) : Decided t t := fun _ p h => ⟨p, h, fun _ => rfl⟩

theorem Decided.trans {t t' t'' : Tables} (h : Decided t t') (h' : Decided t' t'') :
    Decided t t'' := by
  intro k p hp
  obtain ⟨p', hp', hstatus⟩ := h k p hp
  obtain ⟨p'', hp'', hstatus'⟩ := h' k p' hp'
  refine ⟨p'', hp'', ?_⟩
  intro hdecided
  have heq := hstatus hdecided
  exact (hstatus' (heq.symm ▸ hdecided)).trans heq

theorem decided_act (ha : Allows t₀ sub a) (hg : a.Guard t) : Decided t (a.apply t) := by
  intro k r hr
  rw [apply_find?]
  cases hq : a.profile with
  | none => exact ⟨r, hr, fun _ => rfl⟩
  | some q =>
    dsimp only
    split
    · rename_i hkey
      obtain ⟨p, hp, hpk⟩ := profile_pk hq
      have hrow : r.status = p.status := status_of_guard hg hp (hpk ▸ hkey ▸ hr)
      refine ⟨q, rfl, ?_⟩
      intro hdecided
      cases hd : a.decides with
      | false => rw [status_of_profile hq hp hd, hrow]
      | true =>
        have happly := canApply_of_decides ha hp hd
        rw [hrow] at hdecided
        rcases hdecided with h | h <;>
          simp [UserProfile.canApply, h] at happly
    · exact ⟨r, hr, fun _ => rfl⟩

theorem decided_step (db : Db) (op : Op) : Decided db.tables (step db op).tables := by
  refine (step_path db op).invariant (I := Decided db.tables) ?_ (Decided.refl _)
  intro t a ht ha hg
  exact ht.trans (decided_act ha hg)

/-- The submission answers an open request of the user through one of these views. -/
def Submission.Answers (t : Tables) (s : Submission) (views : List Kind) (k : Nat) : Prop :=
  ∃ view ∈ views, ∃ slug user bulletin r, s = .response view slug user bulletin r ∧
    ∃ l, t.posts.find? bulletin = some (.leadership l) ∧ l.canRespond = true ∧ l.owner = k

theorem answers_of_owner {view : Kind} {views : List Kind} {slug : Text} {user : Option Nat}
    {bulletin : Nat} {r : Int} (hview : view ∈ views) (h : AnsweredOwner t bulletin p) :
    Submission.Answers t (.response view slug user bulletin r) views p.pk := by
  obtain ⟨-, l, ⟨⟨l', hfind, hcore⟩, hpk, hopen⟩, howner⟩ := h
  obtain ⟨ho, -, hresponse, -⟩ := core_eq hcore
  refine ⟨view, hview, slug, user, bulletin, r, rfl, l', hpk ▸ hfind, ?_, ho.trans howner⟩
  unfold Leadership.canRespond at *
  rwa [hresponse]

/-- The submission is a sign-up with an invitation that is not used. -/
def Submission.Redeems (t : Tables) (s : Submission) : Prop :=
  ∃ data, s = .apply data ∧ Invited t data

/-- Where a decided membership comes from. -/
def StatusFrom (t₀ : Tables) (sub : Submission) (t : Tables) : Prop :=
  ∀ k p, t.profiles.find? k = some p → p.status = .approved ∨ p.status = .denied →
    (∃ r, t₀.profiles.find? k = some r ∧ r.status = p.status) ∨
      sub.Answers t₀ [.join] k ∨ (sub.Redeems t₀ ∧ t₀.profiles.find? k = none)

theorem statusFrom_act (h : StatusFrom t₀ sub t) (ha : Allows t₀ sub a) (hg : a.Guard t) :
    StatusFrom t₀ sub (a.apply t) := by
  intro k q hq hdecided
  rw [apply_find?] at hq
  cases hw : a.profile with
  | none =>
    rw [hw] at hq
    exact h k q hq hdecided
  | some q' =>
    rw [hw] at hq
    dsimp only at hq
    split at hq
    · rename_i hkey
      cases hq
      obtain ⟨p, hp, hpk⟩ := profile_pk hw
      have hpk' : p.pk = k := hpk.trans hkey
      cases hd : a.decides with
      | false =>
        have hstatus := status_of_profile hw hp hd
        rcases row_of_guard hg hp with ⟨r, hfind⟩ | hnew
        · have hrow : r.status = p.status := status_of_guard hg hp hfind
          have hfrom := h k r (hpk' ▸ hfind) (by rw [hrow, ← hstatus]; exact hdecided)
          rwa [hrow, ← hstatus] at hfrom
        · have hpending : q.status = .pending := hstatus.trans (congrArg (fun c => c.1) hnew)
          simp [hpending] at hdecided
      | true =>
        cases ha with
        | enroll howner _ _ _ =>
          cases hp
          exact Or.inr (Or.inl (hpk' ▸ answers_of_owner (by simp) howner))
        | refuse howner _ _ =>
          cases hp
          exact Or.inr (Or.inl (hpk' ▸ answers_of_owner (by simp) howner))
        | redeemed hfresh _ hi =>
          cases hp
          exact Or.inr (Or.inr ⟨⟨_, rfl, hi⟩, hpk' ▸ hfresh⟩)
        | _ => cases hd
    · exact h k q hq hdecided

theorem statusFrom_step (db : Db) (op : Op) :
    StatusFrom db.tables op.submission (step db op).tables := by
  refine (step_path db op).invariant (I := StatusFrom db.tables op.submission) ?_ ?_
  · intro t a ht ha hg
    exact statusFrom_act ht ha hg
  · intro k p hp _
    exact Or.inl ⟨p, hp, rfl⟩

/-- A membership that is decided stays so, and it is decided by an answer through the join view to
an open request of the user, or for a new user by an invitation. -/
theorem membership_status (db : Db) (ops : List Op) :
    (runs db ops).Pairwise (fun s s' => ∀ k p, s.tables.profiles.find? k = some p →
      ∃ p', s'.tables.profiles.find? k = some p' ∧
        (p.status = .approved ∨ p.status = .denied → p'.status = p.status)) ∧
    ∀ s ∈ runs db ops, ∀ op k p', (step s op).tables.profiles.find? k = some p' →
      p'.status = .approved ∨ p'.status = .denied →
      (∀ p, s.tables.profiles.find? k = some p → p.status = .pending) →
      op.submission.Answers s.tables [.join] k ∨
        (op.submission.Redeems s.tables ∧ s.tables.profiles.find? k = none) := by
  constructor
  · exact runs_pairwise Decided.refl (fun _ _ _ => Decided.trans) decided_step db ops
  · intro s _ op k p' hp' hdecided hpending
    rcases statusFrom_step s op k p' hp' hdecided with ⟨r, hr, hstatus⟩ | hcause
    · rw [← hstatus, hpending r hr] at hdecided
      rcases hdecided with h | h <;> cases h
    · exact hcause

end Status

section Responses

/-- What a user has after a response that the user did not have before comes from an answer through
the view it is given by. -/
structure GivenFrom (t₀ : Tables) (sub : Submission) (t : Tables) : Prop where
  leader : ∀ k p, t.profiles.find? k = some p → p.isLeader = true →
    (∃ r, t₀.profiles.find? k = some r ∧ r.isLeader = true) ∨ sub.Answers t₀ [.lead] k
  mentor : ∀ k p j, t.profiles.find? k = some p → p.leader = some j →
    (∃ r, t₀.profiles.find? k = some r ∧ r.leader = some j) ∨ sub.Answers t₀ [.pair, .join] k

def Submission.IsResponse : Submission → Prop
  | response _ _ _ _ _ => True
  | _ => False

theorem GivenFrom.save (h : GivenFrom t₀ sub t) (hw : a.profile = some q) (hcur : Current t p)
    (hpk : q.pk = p.pk) (hlead : q.isLeader = true → p.isLeader = true ∨ sub.Answers t₀ [.lead] p.pk)
    (hmentor : ∀ j, q.leader = some j → p.leader = some j ∨ sub.Answers t₀ [.pair, .join] p.pk) :
    GivenFrom t₀ sub (a.apply t) := by
  have hprofiles (k : Nat) : (a.apply t).profiles.find? k =
      if q.pk = k then some q else t.profiles.find? k := by
    rw [apply_find?, hw]
  obtain ⟨r, hr, hroles⟩ := hcur
  simp only [UserProfile.roles, Prod.mk.injEq] at hroles
  constructor
  · intro k x hx hxl
    rw [hprofiles] at hx
    split at hx
    · rename_i hkey
      cases hx
      rw [hpk] at hkey
      subst hkey
      rcases hlead hxl with hp | hans
      · exact h.leader p.pk r hr (hroles.2.1.trans hp)
      · exact Or.inr hans
    · exact h.leader k x hx hxl
  · intro k x j hx hxl
    rw [hprofiles] at hx
    split at hx
    · rename_i hkey
      cases hx
      rw [hpk] at hkey
      subst hkey
      rcases hmentor j hxl with hp | hans
      · exact h.mentor p.pk r j hr (hroles.2.2.2.trans hp)
      · exact Or.inr hans
    · exact h.mentor k x j hx hxl

theorem givenFrom_act (h : GivenFrom t₀ sub t) (hsub : sub.IsResponse) (ha : Allows t₀ sub a)
    (hg : a.Guard t) : GivenFrom t₀ sub (a.apply t) := by
  cases ha with
  | answer _ => exact ⟨h.leader, h.mentor⟩
  | endorse => exact ⟨h.leader, h.mentor⟩
  | lead howner _ =>
    refine h.save rfl hg.1 rfl ?_ ?_
    · intro _
      exact Or.inr (answers_of_owner (by simp) howner)
    · intro j hj
      cases hj
  | pair howner _ _ =>
    refine h.save rfl hg.1 rfl Or.inl ?_
    intro j _
    exact Or.inr (answers_of_owner (by simp) howner)
  | enroll howner _ _ _ =>
    refine h.save rfl hg.1 rfl Or.inl ?_
    intro j _
    exact Or.inr (answers_of_owner (by simp) howner)
  | refuse howner _ _ =>
    refine h.save rfl hg rfl Or.inl ?_
    intro j hj
    exact Or.inl hj
  | unmoderate hr | detach hr | reassign hr _ | retire hr _ =>
    cases sub with
    | response _ _ _ _ _ => cases hr
    | _ => cases hsub
  | _ => cases hsub

theorem givenFrom_step (db : Db) (op : Op) (hsub : op.submission.IsResponse) :
    GivenFrom db.tables op.submission (step db op).tables := by
  refine (step_path db op).invariant (I := GivenFrom db.tables op.submission) ?_ ?_
  · intro t a ht ha hg
    exact givenFrom_act ht hsub ha hg
  · exact ⟨fun k p hp hl => Or.inl ⟨p, hp, hl⟩, fun k p j hp hj => Or.inl ⟨p, hp, hj⟩⟩

/-- Between two states a user becomes a leader. -/
def BecomesLeader (t t' : Tables) (k : Nat) : Prop :=
  ∃ p', t'.profiles.find? k = some p' ∧ p'.isLeader = true ∧
    ∀ p, t.profiles.find? k = some p → p.isLeader = false

/-- Between two states a user is given a mentor. -/
def IsGivenMentor (t t' : Tables) (k : Nat) : Prop :=
  ∃ p' j, t'.profiles.find? k = some p' ∧ p'.leader = some j ∧
    ∀ p, t.profiles.find? k = some p → p.leader ≠ some j

/-- Between two states a user's membership is approved or denied. -/
def IsDecidedOn (t t' : Tables) (k : Nat) : Prop :=
  ∃ p', t'.profiles.find? k = some p' ∧ (p'.status = .approved ∨ p'.status = .denied) ∧
    ∀ p, t.profiles.find? k = some p → p.status ≠ p'.status

theorem response_effects (db : Db) (ops : List Op) :
    ∀ s ∈ runs db ops, ∀ op, op.submission.IsResponse → ∀ k,
      (BecomesLeader s.tables (step s op).tables k →
        op.submission.Answers s.tables [.lead] k) ∧
      (IsGivenMentor s.tables (step s op).tables k →
        op.submission.Answers s.tables [.pair, .join] k) ∧
      (IsDecidedOn s.tables (step s op).tables k →
        op.submission.Answers s.tables [.join] k) := by
  intro s _ op hsub k
  have hgiven := givenFrom_step s op hsub
  refine ⟨?_, ?_, ?_⟩
  · intro h
    obtain ⟨p', hp', hlead, hnot⟩ := h
    rcases hgiven.leader k p' hp' hlead with ⟨r, hr, hrl⟩ | hans
    · rw [hnot r hr] at hrl
      cases hrl
    · exact hans
  · intro h
    obtain ⟨p', j, hp', hleader, hnot⟩ := h
    rcases hgiven.mentor k p' j hp' hleader with ⟨r, hr, hrl⟩ | hans
    · exact absurd hrl (hnot r hr)
    · exact hans
  · intro h
    obtain ⟨p', hp', hdecided, hnot⟩ := h
    rcases statusFrom_step s op k p' hp' hdecided with ⟨r, hr, hstatus⟩ | hans | ⟨hredeems, -⟩
    · exact absurd hstatus (hnot r hr)
    · exact hans
    · obtain ⟨data, hdata, -⟩ := hredeems
      rw [hdata] at hsub
      cases hsub

/-- Someone signs up with an essay. -/
def carlApplies : Op where
  submission := .apply {
    username := text "carl"
    email := text "carl@example.org"
    displayName := text "Carl"
    chapter := 1
    application := text "I build things and would like to meet others who do." }
  faults := fun _ _ => false

/-- The request to join is approved. -/
def annApproves : Op := ⟨.response .join (text "nyc") (some 1) 1 2, fun _ _ => false⟩

theorem isGivenMentor_of {t t' : Tables} {j k : Nat}
    (hafter : (t'.profiles.find? k).bind UserProfile.leader = some j)
    (hbefore : (t.profiles.find? k).bind UserProfile.leader = none) : IsGivenMentor t t' k := by
  obtain ⟨p', hp', hleader⟩ := Option.bind_eq_some_iff.mp hafter
  refine ⟨p', j, hp', hleader, ?_⟩
  intro p hp hsome
  rw [hp, Option.bind_some, hsome] at hbefore
  cases hbefore

/-- The leader who approves of the applicant becomes his mentor. -/
theorem carl_isGivenMentor :
    IsGivenMentor (step annAndBob carlApplies).tables
      (step (step annAndBob carlApplies) annApproves).tables 3 :=
  isGivenMentor_of (j := 1) (by decide +kernel) (by decide +kernel)

theorem step_mem_runs (db : Db) (op : Op) : step db op ∈ runs db [op] := by
  simp [runs, Run.states]

/-- The approval of a request to join gives a mentor. -/
theorem response_effects_not_join :
    ¬∀ (db : Db) (ops : List Op), ∀ s ∈ runs db ops, ∀ op, op.submission.IsResponse → ∀ k,
      IsGivenMentor s.tables (step s op).tables k →
        ∃ view slug user bulletin r, op.submission = .response view slug user bulletin r ∧
          ∃ l, s.tables.posts.find? bulletin = some (.leadership l) ∧ l.canRespond = true ∧
            l.owner = k ∧ l.request = .pair := by
  intro h
  let s := step annAndBob carlApplies
  have hkind : ((s.tables.posts.find? 1).bind Post.asLeadership).map Leadership.request =
      some .join := by decide +kernel
  obtain ⟨view, slug, user, bulletin, r, hsub, l, hl, -, -, hpair⟩ :=
    h annAndBob [carlApplies] s (step_mem_runs _ _) annApproves trivial 3 carl_isGivenMentor
  cases hsub
  rw [hl] at hkind
  have hjoin : l.request = .join := Option.some.inj hkind
  rw [hpair] at hjoin
  cases hjoin

theorem response_effects_carl :
    annApproves.submission.Answers (step annAndBob carlApplies).tables [.pair, .join] 3 :=
  (response_effects annAndBob [carlApplies] (step annAndBob carlApplies) (step_mem_runs _ _)
    annApproves trivial 3).2.1 carl_isGivenMentor

end Responses

end HackerUnion.Petri
