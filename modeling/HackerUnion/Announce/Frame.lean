import HackerUnion.Announce.Request
import HackerUnion.Announce.Dispatch

namespace HackerUnion.Announce

open Js

variable {F D : Type}

/-- Everything but the users' records, the message and the dirty flag is the same. -/
structure Frame (s s' : Scope F D) : Prop where
  announcements : s'.db.announcements = s.db.announcements
  spool : s'.db.spool = s.db.spool
  tokens : s'.db.tokens = s.db.tokens
  user : s'.user = s.user
  ok : s'.ok = s.ok
  issued : s'.issued = s.issued
  rounds : s'.rounds = s.rounds
  outbox : s'.outbox = s.outbox

namespace Frame

variable {s s' s'' : Scope F D}

theorem refl (s : Scope F D) : Frame s s := ⟨rfl, rfl, rfl, rfl, rfl, rfl, rfl, rfl⟩

theorem trans (h : Frame s s') (h' : Frame s' s'') : Frame s s'' where
  announcements := h'.announcements.trans h.announcements
  spool := h'.spool.trans h.spool
  tokens := h'.tokens.trans h.tokens
  user := h'.user.trans h.user
  ok := h'.ok.trans h.ok
  issued := h'.issued.trans h.issued
  rounds := h'.rounds.trans h.rounds
  outbox := h'.outbox.trans h.outbox

theorem withMsg (h : Frame s s') (msg : String) : Frame s { s' with msg := msg } :=
  ⟨h.announcements, h.spool, h.tokens, h.user, h.ok, h.issued, h.rounds, h.outbox⟩

end Frame

section Records

variable (s : Scope F D) (user : String)

theorem putRecord_frame (p : Profile F) : Frame s (putRecord s user p) := by
  unfold putRecord
  split <;> exact ⟨rfl, rfl, rfl, rfl, rfl, rfl, rfl, rfl⟩

theorem putRecord_dirty (p : Profile F) : (putRecord s user p).dirty = s.dirty := by
  unfold putRecord
  split <;> rfl

theorem putRecord_msg (p : Profile F) : (putRecord s user p).msg = s.msg := by
  unfold putRecord
  split <;> rfl

theorem setReputation_frame (r : Reputation F) : Frame s (setReputation s user r) := by
  unfold setReputation
  split <;> exact putRecord_frame _ _ _

theorem setReputation_dirty (r : Reputation F) : (setReputation s user r).dirty = s.dirty := by
  unfold setReputation
  split <;> exact putRecord_dirty _ _ _

theorem setProfile_frame : Frame s (setProfile s user) := by
  unfold setProfile
  split <;> exact ⟨rfl, rfl, rfl, rfl, rfl, rfl, rfl, rfl⟩

theorem unsetProfile_frame : Frame s (unsetProfile s user) :=
  ⟨rfl, rfl, rfl, rfl, rfl, rfl, rfl, rfl⟩

variable [Number F]

theorem getProfile_frame : Frame s (getProfile s user) := by
  unfold getProfile
  refine Frame.trans ?_ (putRecord_frame _ _ _)
  split <;> exact ⟨rfl, rfl, rfl, rfl, rfl, rfl, rfl, rfl⟩

theorem getProfile_dirty : (getProfile s user).dirty = s.dirty := by
  unfold getProfile
  rw [putRecord_dirty]
  split <;> rfl

theorem getProfile_msg : (getProfile s user).msg = s.msg := by
  unfold getProfile
  rw [putRecord_msg]
  split <;> rfl

theorem renderPage_frame : Frame s (renderPage s).1 := getProfile_frame s s.user

theorem finish_frame : Frame s (finish s) := by
  unfold finish
  split
  · exact renderPage_frame s
  · exact Frame.refl s

theorem finish_dirty : (finish s).dirty = s.dirty := by
  unfold finish
  split
  · exact getProfile_dirty s s.user
  · rfl

theorem finish_msg : (finish s).msg = s.msg := by
  unfold finish
  split
  · exact getProfile_msg s s.user
  · rfl

theorem handleVote_frame (good : Bool) : Frame s (handleVote s user good) := by
  have h := (getProfile_frame s user).trans
    (setReputation_frame (getProfile s user) user ((reputation (getProfile s user) user).vote good))
  exact h.withMsg _

theorem handleVote_dirty (good : Bool) : (handleVote s user good).dirty = s.dirty := by
  have h := (setReputation_dirty (getProfile s user) user
    ((reputation (getProfile s user) user).vote good)).trans (getProfile_dirty s user)
  exact h

theorem handleSaveTopics_frame {qs : Form} {s' : Scope F D} (h : handleSaveTopics s qs = some s') :
    Frame s s' := by
  have hp (t : Option (List String)) :
      Frame s (setTopics (getProfile s s.user) (getProfile s s.user).user t) :=
    (getProfile_frame s s.user).trans (putRecord_frame _ _ _)
  simp only [handleSaveTopics, Option.bind_eq_bind, Option.bind_eq_some_iff] at h
  obtain ⟨text, -, h⟩ := h
  split at h
  · cases h
    exact (hp none).withMsg _
  · split at h
    · cases h
    · cases h
      exact ((hp _).trans (unsetProfile_frame _ _)).withMsg _

end Records

theorem rejection_congr [Number F] {s s' : Scope F D} (h : Frame s s') (now : Int)
    (topics : Option (List String)) (subject message : String) :
    rejection s' now topics subject message = rejection s now topics subject message := by
  simp only [rejection, lastAnnounce, h.announcements, h.user]

/-- A form whose announcement is turned down leaves the database untouched but for the requester's
record, and not marked for writing. -/
structure Rejected (s s' : Scope F D) : Prop where
  frame : Frame s s'
  dirty : s'.dirty = s.dirty

/-- An accepted one adds an announcement and a task for it, and nothing else to the two lists. -/
structure Accepted (req : Request) (s s' : Scope F D) : Prop where
  appended : ∃ (a : Announcement) (score : F),
    a.id = s.db.announcements.length ∧ a.timestamp = some req.stamp ∧ a.user = s.user ∧
    s'.db.announcements = s.db.announcements ++ [a] ∧
    s'.db.spool = s.db.spool ++ [⟨a.id, ttl, none, score, some [a.user]⟩]
  tokens : s'.db.tokens = s.db.tokens
  user : s'.user = s.user
  ok : s'.ok = s.ok
  outbox : s'.outbox = s.outbox
  dirty : s'.dirty = true

/-- What `handleAnnounce` takes from the form; without one of these it throws. -/
structure Form.Reads (qs : Form) (topics : Option (List String)) (subject message : String) :
    Prop where
  topics : qs.topics.string.map getTopics = some topics
  subject : qs.subject.string.map trim = some subject
  message : qs.message.string.map trim = some message

/-- A topics, subject or message field is missing, or given several times, which is no string. -/
def Form.Lacks (qs : Form) : Prop :=
  qs.topics.string = none ∨ qs.subject.string = none ∨ qs.message.string = none

/-- It throws only for want of a field. -/
theorem handleAnnounce_none [Number F] {req : Request} {s : Scope F D} {qs : Form}
    (h : handleAnnounce req s qs = none) : qs.Lacks := by
  unfold Form.Lacks
  cases ht : qs.topics.string with
  | none => exact Or.inl rfl
  | some topics =>
    cases hs : qs.subject.string with
    | none => exact Or.inr (Or.inl rfl)
    | some subject =>
      cases hm : qs.message.string with
      | none => exact Or.inr (Or.inr rfl)
      | some message =>
        -- with all three it ends in a rejection or in a queued message
        simp only [handleAnnounce, ht, hs, hm, Option.map_some, Option.bind_eq_bind,
          Option.bind_some] at h
        split at h <;> cases h

theorem handleAnnounce_spec [Number F] {req : Request} {s s' : Scope F D} {qs : Form}
    (h : handleAnnounce req s qs = some s') :
    ∃ topics subject message, qs.Reads topics subject message ∧
      ((rejection s req.now topics subject message = some s'.msg ∧ Rejected s s') ∨
        (rejection s req.now topics subject message = none ∧ s'.msg = "Message queued!" ∧
          Accepted req s s')) := by
  have hp := getProfile_frame s s.user
  have hd := getProfile_dirty s s.user
  simp only [handleAnnounce, Option.bind_eq_bind, Option.bind_eq_some_iff] at h
  obtain ⟨topics, ht, subject, hs, message, hm, h⟩ := h
  refine ⟨topics, subject, message, ⟨ht, hs, hm⟩, ?_⟩
  have hrej (c : Compose) : rejection { getProfile s s.user with compose := c } req.now topics
      subject message = rejection s req.now topics subject message :=
    rejection_congr (hp.trans ⟨rfl, rfl, rfl, rfl, rfl, rfl, rfl, rfl⟩) req.now topics subject
      message
  rw [hrej] at h
  cases hr : rejection s req.now topics subject message with
  | some msg =>
    rw [hr] at h
    cases h
    exact Or.inl ⟨rfl, hp.trans ⟨rfl, rfl, rfl, rfl, rfl, rfl, rfl, rfl⟩, hd⟩
  | none =>
    rw [hr] at h
    cases h
    refine Or.inr ⟨rfl, rfl, ⟨_, _, ?_, ?_, ?_, congrArg (· ++ [_]) hp.announcements,
      congrArg (· ++ [_]) hp.spool⟩, hp.tokens, hp.user, hp.ok, hp.outbox, rfl⟩
    · exact congrArg List.length hp.announcements
    · rfl
    · exact hp.user

/-- However it ends, the requester has a record. -/
theorem handleAnnounce_users [Number F] {req : Request} {s s' : Scope F D} {qs : Form}
    (h : handleAnnounce req s qs = some s') : s'.db.users = (getProfile s s.user).db.users := by
  simp only [handleAnnounce, Option.bind_eq_bind, Option.bind_eq_some_iff] at h
  obtain ⟨topics, -, subject, -, message, -, h⟩ := h
  split at h
  · cases h
    rfl
  · cases h
    rfl

theorem Accepted.frame {req : Request} {s s' s'' : Scope F D} (h : Accepted req s s')
    (hf : Frame s' s'') (hd : s''.dirty = s'.dirty) : Accepted req s s'' := by
  obtain ⟨a, score, hid, htime, huser, ha, hs⟩ := h.appended
  exact ⟨⟨a, score, hid, htime, huser, hf.announcements.trans ha, hf.spool.trans hs⟩,
    hf.tokens.trans h.tokens, hf.user.trans h.user, hf.ok.trans h.ok, hf.outbox.trans h.outbox,
    hd.trans h.dirty⟩

/-- A POST that reaches the branch for `task`. -/
structure Request.Posts (req : Request) (task : String) (qs : Form) : Prop where
  token : req.token.truthy = false
  user : req.user ≠ "guest"
  post : req.post = true
  body : req.body = .ok qs
  task : qs.task = .text task

section Main

variable [Number F] [DecidableEq D] {sha1 : String → D}

/-- The token is used up, and a vote is counted when it stands for one. -/
theorem handleToken_cases {s s' : Scope F D} {token : Field}
    (h : handleToken sha1 s token = some s') :
    ∃ text, token = .text text ∧
      ((∃ user action good, s.db.tokens.get (sha1 text) = some ⟨some user, some action⟩ ∧
          user ≠ "" ∧ lower action = (if good then "good" else "bad") ∧
          s' = handleVote (popToken sha1 s text).1 user good) ∨
        ((∀ user action, s.db.tokens.get (sha1 text) = some ⟨some user, some action⟩ →
            user ≠ "" → action ≠ "" → lower action ≠ "good" ∧ lower action ≠ "bad") ∧
          ∃ msg, s' = { (popToken sha1 s text).1 with msg := msg })) := by
  obtain ⟨text, htext, h⟩ := Option.bind_eq_some_iff.mp h
  refine ⟨text, by cases token <;> simp_all [Field.string], ?_⟩
  have hget : (popToken sha1 s text).2 = s.db.tokens.get (sha1 text) := rfl
  dsimp only at h
  rw [hget] at h
  split at h
  · rename_i user action hg
    have only {P : String → String → Prop} (hp : P user action) (user' action' : String)
        (hg' : s.db.tokens.get (sha1 text) = some ⟨some user', some action'⟩) :
        P user' action' := by
      rw [hg] at hg'
      cases hg'
      exact hp
    split at h
    · rename_i hempty
      refine Or.inr ⟨only ?_, _, (Option.some.inj h).symm⟩
      intro hu ha
      simp [hu, ha] at hempty
    · rename_i hempty
      have hu : user ≠ "" := by
        rintro rfl
        simp at hempty
      split at h
      · exact Or.inl ⟨user, action, true, hg, hu, ‹_›, (Option.some.inj h).symm⟩
      · split at h
        · exact Or.inl ⟨user, action, false, hg, hu, ‹_›, (Option.some.inj h).symm⟩
        · exact Or.inr ⟨only (fun _ _ => ⟨‹_›, ‹_›⟩), _, (Option.some.inj h).symm⟩
  · rename_i hne
    exact Or.inr ⟨fun user action hg => absurd hg (hne user action), _, (Option.some.inj h).symm⟩

theorem Request.main_cases {req : Request} {db : Database F D} {s : Scope F D}
    (h : req.main sha1 db = some s) :
    ∃ s₁, s = finish s₁ ∧
      (handleToken sha1 (getScope db req.user) req.token = some s₁ ∨
        (∃ qs, req.Posts "save_topics" qs ∧ handleSaveTopics (getScope db req.user) qs = some s₁) ∨
        (∃ qs, req.Posts "announce" qs ∧ handleAnnounce req (getScope db req.user) qs = some s₁) ∨
        ∃ msg, s₁ = { getScope db req.user with msg := msg }) := by
  obtain ⟨s₁, hm, rfl⟩ := Option.map_eq_some_iff.mp h
  clear h
  refine ⟨s₁, rfl, ?_⟩
  split at hm
  · exact Or.inl hm
  · rename_i htoken
    split at hm
    · rename_i hpost
      have hpost : req.user ≠ "guest" ∧ req.post = true := by simpa using hpost
      have posts (task : String) {qs : Form} (hb : req.body = .ok qs) (ht : qs.task = .text task) :
          req.Posts task qs := ⟨by simpa using htoken, hpost.1, hpost.2, hb, ht⟩
      unfold handlePost at hm
      split at hm
      · exact Or.inr (Or.inr (Or.inr ⟨_, (Option.some.inj hm).symm⟩))
      · split at hm
        · exact Or.inr (Or.inl ⟨_, posts _ ‹_› ‹_›, hm⟩)
        · exact Or.inr (Or.inr (Or.inl ⟨_, posts _ ‹_› ‹_›, hm⟩))
        · cases hm
    · exact Or.inr (Or.inr (Or.inr ⟨"", (Option.some.inj hm).symm⟩))

variable (sha1) in
theorem Request.main_announce {req : Request} {qs : Form} (h : req.Posts "announce" qs)
    (db : Database F D) :
    req.main sha1 db = (handleAnnounce req (getScope db req.user) qs).map finish := by
  simp [Request.main, handlePost, h.token, h.user, h.post, h.body, h.task]

/-- Only an accepted announcement changes the two lists, and no request sends e-mails. -/
theorem Request.main_lists {req : Request} {db : Database F D} {s : Scope F D}
    (h : req.main sha1 db = some s) :
    s.outbox = [] ∧ ((s.db.announcements = db.announcements ∧ s.db.spool = db.spool) ∨
      Accepted req (getScope db req.user) s) := by
  obtain ⟨s₁, rfl, hc⟩ := Request.main_cases h
  have hf := finish_frame s₁
  have same {s₀ : Scope F D} (h : Frame s₀ s₁) (ha : s₀.db.announcements = db.announcements)
      (hs : s₀.db.spool = db.spool) (ho : s₀.outbox = []) :
      (finish s₁).outbox = [] ∧ (((finish s₁).db.announcements = db.announcements ∧
        (finish s₁).db.spool = db.spool) ∨ Accepted req (getScope db req.user) (finish s₁)) := by
    have hf := h.trans hf
    exact ⟨hf.outbox.trans ho, Or.inl ⟨hf.announcements.trans ha, hf.spool.trans hs⟩⟩
  rcases hc with hc | ⟨qs, -, hc⟩ | ⟨qs, -, hc⟩ | ⟨msg, rfl⟩
  · obtain ⟨text, -, ⟨user, action, good, -, -, -, rfl⟩ | ⟨-, msg, rfl⟩⟩ := handleToken_cases hc
    · exact same (handleVote_frame (popToken sha1 (getScope db req.user) text).1 user good) rfl
        rfl rfl
    · exact same (Frame.refl _) rfl rfl rfl
  · exact same (handleSaveTopics_frame _ hc) rfl rfl rfl
  · obtain ⟨topics, subject, message, -, ⟨-, hr⟩ | ⟨-, -, ha⟩⟩ := handleAnnounce_spec hc
    · exact same hr.frame rfl rfl rfl
    · exact ⟨hf.outbox.trans ha.outbox, Or.inr (ha.frame hf (finish_dirty s₁))⟩
  · exact same (Frame.refl _) rfl rfl rfl

end Main

end HackerUnion.Announce
