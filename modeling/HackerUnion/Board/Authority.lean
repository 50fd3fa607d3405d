import HackerUnion.Board.Loop

namespace HackerUnion.Board

open Bash (Text text)
open Durable
open Durable.Handler
open Petri (Chapter UserProfile strip)

/-- There is something that the user can post on the web by which there is one comment more,
whatever fails. -/
def CanComment (db : Db) (u : Account) (b : Bulletin) : Prop :=
  ∃ slug data, ∀ faults, db.ledger.made
    (exec (addComment (some u.pk) slug b.pk data) ⟨db, faults⟩).2.db.ledger =
      [.comment db.comments.next]

/-- Whether a user is a leader. -/
def isLeader (db : Db) (user : Nat) : Bool := (db.profiles.find? user).any UserProfile.isLeader

/-- What the web asks of a user who wants to comment on a bulletin: that his account be active, that
some chapter be the only one with its slug, that the owner of the bulletin have a profile where a
leader is to be compared with it, and that an official bulletin be his own unless he is a leader. -/
structure Admitted (db : Db) (u : Account) (b : Bulletin) : Prop where
  active : u.isActive = true
  chapter : ∃ slug, (db.chapters.rows.filter fun c => c.slug = slug).length = 1
  owner : isLeader db u.pk = true → (db.profiles.find? b.owner).isSome = true
  official : b.isOfficial = true → b.owner = u.pk ∨ isLeader db u.pk = true

variable {db : Db} {u : Account} {b : Bulletin} {p : UserProfile} {d : MailData} {chapter : Chapter}

theorem canComment_iff_makes : CanComment db u b ↔
    ∃ slug data request content,
      addCommentChecked db (some u.pk) slug b.pk data = .ok (request, content) := by
  constructor
  · intro h
    obtain ⟨slug, data, h⟩ := h
    refine ⟨slug, data, ?_⟩
    cases hchecked : addCommentChecked db (some u.pk) slug b.pk data with
    | ok checked => exact ⟨checked.1, checked.2, rfl⟩
    | error reply =>
      have hnothing : (Submission.comment (some u.pk) slug b.pk data).makes db = none := by
        simp only [Submission.makes, hchecked]
      have hmade := (World.outcome_cases (World.submit_outcome
        (.comment (some u.pk) slug b.pk data) (fun _ _ => false) db)
          fun _ => Submission.makes_upcoming).2
      rw [hnothing] at hmade
      have hone := h fun _ _ => false
      exact absurd (hone.symm.trans hmade.1) (by simp)
  · intro h
    obtain ⟨slug, data, request, content, hchecked⟩ := h
    refine ⟨slug, data, fun faults => ?_⟩
    have hcomment : (Submission.comment (some u.pk) slug b.pk data).makes db =
        some (.comment db.comments.next) := by
      simp only [Submission.makes, hchecked]
    have hmade := (World.outcome_cases (World.submit_outcome
      (.comment (some u.pk) slug b.pk data) faults db) fun _ => Submission.makes_upcoming).2
    rw [hcomment] at hmade
    exact hmade.1

/-- Nothing else is asked of someone who has a profile and of a bulletin that is there. -/
theorem canComment_iff (hu : db.users.find? u.pk = some u) (hp : db.profiles.find? u.pk = some p)
    (hb : db.bulletins.find? b.pk = some b) : CanComment db u b ↔ Admitted db u b := by
  have hleader : isLeader db u.pk = p.isLeader := by simp [isLeader, hp]
  rw [canComment_iff_makes]
  constructor
  · intro h
    obtain ⟨slug, data, request, content, hchecked⟩ := h
    obtain ⟨hchapter, hfound, isMentee, hmentee, hentitled⟩ :=
      bulletinView_eq_ok_iff.mp (addCommentChecked_eq_ok_iff.mp hchecked).1
    obtain ⟨hslug, hsession, hactive, hprofile, -⟩ := chapterView_eq_ok_iff.mp hchapter
    have huser : request.user = u := by
      have hsame := session_eq_ok_iff.mp hsession
      rw [Option.bind_some, hu] at hsame
      exact (Option.some.inj hsame).symm
    have hbulletin : request.bulletin = b := by
      rw [hb] at hfound
      exact (Option.some.inj hfound).symm
    have hrole : request.profile.isLeader = p.isLeader := by
      obtain ⟨q, hq, heq⟩ := getProfile_eq_ok_iff.mp hprofile
      rw [huser, hp] at hq
      obtain rfl := Option.some.inj hq
      rw [heq]
    rw [huser] at hactive
    rw [hbulletin] at hmentee
    constructor
    · exact hactive
    · exact ⟨slug, by rw [getChapter_eq_ok_iff.mp hslug]; rfl⟩
    · intro hlead
      rw [hleader, ← hrole] at hlead
      exact hasMentee_isOk_iff.mp ⟨isMentee, hmentee⟩ hlead
    · intro hofficial
      rw [hleader]
      rcases hentitled with hmoderate | ⟨hentitled, -⟩
      · right
        rw [← hrole]
        simp only [UserProfile.canModerate, Bool.and_eq_true] at hmoderate
        exact hmoderate.1
      · rw [hbulletin, huser, hrole] at hentitled
        exact hentitled hofficial
  · intro h
    obtain ⟨slug, hslug⟩ := h.chapter
    obtain ⟨chapter, hchapter⟩ := List.length_eq_one_iff.mp hslug
    let profile : UserProfile := { p with user := u.toUser }
    have hmentee : ∃ isMentee, hasMentee db profile b.owner = .ok isMentee := by
      refine hasMentee_isOk_iff.mpr fun hlead => h.owner ?_
      rw [hleader]
      exact hlead
    obtain ⟨isMentee, hmentee⟩ := hmentee
    refine ⟨slug, { content := text "yes" }, ⟨⟨u, profile, chapter⟩, b⟩, text "yes", ?_⟩
    rw [addCommentChecked_eq_ok_iff, bulletinView_eq_ok_iff, chapterView_eq_ok_iff]
    refine ⟨⟨⟨getChapter_eq_ok_iff.mpr hchapter, ?_, h.active, ?_, ?_⟩, hb, isMentee, hmentee, ?_⟩,
      commentForm_clean_eq_ok_iff.mpr ⟨rfl, by decide, by decide⟩⟩
    · rw [session_eq_ok_iff, Option.bind_some]
      exact hu
    · exact getProfile_eq_ok_iff.mpr ⟨p, hp, rfl⟩
    · intro hmember
      cases hmember
    · right
      refine ⟨?_, fun hnever => by cases hnever⟩
      intro hofficial
      have hallowed := h.official hofficial
      rwa [hleader] at hallowed

/-- The sender is a user with a profile, and the bulletin is one that is there. -/
theorem MailForm.clean_found {official : Bool}
    (h : (listForm official).clean db d = .ok (u, chapter)) :
    db.users.find? u.pk = some u ∧ ∃ p, db.profiles.find? u.pk = some p := by
  have hmembers : ((listForm official).membersOnly || (listForm official).leadersOnly) = true := by
    cases official with
    | true => rfl
    | false => rfl
  obtain ⟨-, -, -, -, hhead, -⟩ := clean_eq_ok_iff.mp h
  have hmem : u ∈ (listForm official).users db d := List.mem_of_head? hhead
  obtain ⟨hrow, hfilter⟩ := List.mem_filter.mp hmem
  refine ⟨Table.find?_eq_some_iff.mpr ⟨hrow, rfl⟩, ?_⟩
  cases hp : db.profiles.find? u.pk with
  | some p => exact ⟨p, rfl⟩
  | none =>
    rw [hp, hmembers] at hfilter
    simp at hfilter

theorem MailData.getReplyBulletin_found (h : d.getReplyBulletin db = some b) :
    db.bulletins.find? b.pk = some b := by
  unfold MailData.getReplyBulletin at h
  split at h
  · exact Serial.find?_of_mem (List.mem_of_find?_eq_some h)
  · cases h

/-- A sender whose mail is accepted and becomes a comment on a bulletin could have commented on it
on the web if and only if he is admitted there. -/
theorem mailedComment_canComment_iff (db : Db) (official : Bool) (d : MailData) (u : Account)
    (chapter : Chapter) (b : Bulletin)
    (haccepted : (listForm official).clean db d = .ok (u, chapter))
    (hreply : d.getReplyBulletin db = some b) :
    CanComment db u b ↔ Admitted db u b := by
  obtain ⟨hu, p, hp⟩ := MailForm.clean_found haccepted
  exact canComment_iff hu hp (MailData.getReplyBulletin_found hreply)

/-- The list of the leaders takes mail of leaders only. -/
theorem official_isLeader (h : (listForm true).clean db d = .ok (u, chapter)) :
    isLeader db u.pk = true := by
  obtain ⟨-, -, -, -, hhead, -⟩ := clean_eq_ok_iff.mp h
  have hmem : u ∈ (listForm true).users db d := List.mem_of_head? hhead
  obtain ⟨-, hfilter⟩ := List.mem_filter.mp hmem
  have hleaders : (listForm true).leadersOnly = true := rfl
  simp only [hleaders, Bool.not_true, Bool.false_or, Bool.and_eq_true] at hfilter
  exact hfilter.1.1

section Examples

/-- A talk of the leader that is only for leaders. -/
def leadersTalk : Bulletin where
  pk := 1
  actualType := .talk
  title := text "leaders"
  content := text "for leaders"
  owner := 1
  related := none
  chapter := Petri.nyc
  isOfficial := true
  isGlobal := false
  threadId := some (text "thread")
  isGenerated := false
  moderatedBy := none

def leadersBoard : Db := { emptyBoard with bulletins := .ofList [leadersTalk] }

/-- It is accepted, though he is not let comment on the web. -/
theorem mailedComment_not_canComment :
    ¬∀ (db : Db) (official : Bool) (d : MailData) (u : Account) (chapter : Chapter) (b : Bulletin),
      (listForm official).clean db d = .ok (u, chapter) → d.getReplyBulletin db = some b →
        CanComment db u b := by
  intro h
  have hclean : (listForm false).clean leadersBoard bobsReply = .ok (bobAccount, Petri.nyc) := by
    decide +kernel
  have hreply : bobsReply.getReplyBulletin leadersBoard = some leadersTalk := by decide +kernel
  have hcan := h leadersBoard false bobsReply bobAccount Petri.nyc leadersTalk hclean hreply
  obtain ⟨hbob, p, hp⟩ := MailForm.clean_found hclean
  have hadmitted := (canComment_iff hbob hp (MailData.getReplyBulletin_found hreply)).mp hcan
  have hrefused : ¬(leadersTalk.owner = bobAccount.pk ∨
      isLeader leadersBoard bobAccount.pk = true) := by decide +kernel
  exact hrefused (hadmitted.official rfl)

/-- On a talk that is for all he could have. -/
theorem mailedComment_canComment_iff_openTalk :
    CanComment { leadersBoard with bulletins := .ofList [{ leadersTalk with isOfficial := false }] }
        bobAccount { leadersTalk with isOfficial := false } ↔
      Admitted
        { leadersBoard with bulletins := .ofList [{ leadersTalk with isOfficial := false }] }
        bobAccount { leadersTalk with isOfficial := false } :=
  mailedComment_canComment_iff _ false bobsReply bobAccount Petri.nyc _ (by decide +kernel)
    (by decide +kernel)

end Examples

end HackerUnion.Board
