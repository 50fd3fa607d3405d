import HackerUnion.Board.Access
import HackerUnion.Board.Made

namespace HackerUnion.Board

open Bash (Text text)
open Durable
open Durable.Handler

/-- The ledger when the next item of its kind is entered. -/
def Ledger.enter (l : Ledger) : Item → Ledger
  | .bulletin _ => l.enterBulletin
  | .comment _ => l.enterComment

/-- Nothing is new, and nothing was mailed. -/
structure Lost (l l' : Ledger) : Prop where
  bulletins : l'.bulletins ⊆ l.bulletins
  nextBulletin : l'.nextBulletin = l.nextBulletin
  comments : l'.comments ⊆ l.comments
  nextComment : l'.nextComment = l.nextComment
  sent : l'.sent = l.sent
  people : l'.people = l.people

/-- What there is after something was submitted: the item it makes, and perhaps a mail about it, or
else nothing new. -/
def Outcome (l : Ledger) (P : Prop) (made : Option Item) (may : Prop) (db : Db) : Prop :=
  match made with
  | some item => Mailed (l.enter item) P item may db
  | none => ∃ l', Lost l l' ∧ At l' P db

namespace Submission

/-- What is made of a post that is accepted: what is submitted passes the view, the form is valid,
and it is no deletion. -/
def makes (db : Db) : Submission → Option Item
  | .post posting user slug data =>
    match addBulletinChecked posting db user slug data with
    | .ok (_, data) => if data.delete then none else some (.bulletin db.bulletins.next)
    | .error _ => none
  | .comment user slug bulletin data =>
    match addCommentChecked db user slug bulletin data with
    | .ok _ => some (.comment db.comments.next)
    | .error _ => none
  | _ => none

/-- Whether a deletion that is accepted takes this away. -/
def removes (db : Db) (item : Item) : Submission → Bool
  | .edit posting user slug bulletin data =>
    match editBulletinChecked posting db user slug bulletin data with
    | .ok (request, data) => data.delete && item.doomed db request.bulletin.pk
    | .error _ => false
  | .deleteComment user slug bulletin pk =>
    match commentView db user slug bulletin pk with
    | .ok c => item = .comment c.pk
    | .error _ => false
  | _ => false

end Submission

/-- What is made of a mail that is accepted. -/
def MailData.makes (db : Db) (official : Bool) (d : MailData) : Option Item :=
  match (listForm official).clean db d with
  | .ok _ =>
    match d.getReplyBulletin db with
    | some _ => some (.comment db.comments.next)
    | none => some (.bulletin db.bulletins.next)
  | .error _ => none

/-- What a notification refers to, as the listing looks it up. -/
def Refers (db : Db) (n : Nat) : Item → Prop
  | .bulletin k => ∃ v, getNDVal db n (text "bulletin") = some v ∧ int v = .ok k
  | .comment k => (getNDVal db n (text "bulletin")).isSome = true ∧
    ∃ w, getNDVal db n (text "comment") = some w ∧ int w = .ok k

/-- Nothing is taken away that somebody is still to read about. -/
def Submission.Spares (db : Db) (s : Submission) : Prop :=
  ∀ n, Pending db n → ∀ item, Refers db n.pk item → s.removes db item = false

variable {db : Db} {l : Ledger} {P may : Prop} {b : Bulletin} {c : Comment} {item : Item}

section Lost

theorem Lost.refl : Lost l l where
  bulletins := List.Subset.refl _
  nextBulletin := rfl
  comments := List.Subset.refl _
  nextComment := rfl
  sent := rfl
  people := rfl

theorem At.outcome (h : At l P db) : Outcome l P none may db := ⟨l, Lost.refl, h⟩

/-- After some things are gone, the notifications are readable that do not refer to them. -/
theorem Readable.remove {db' : Db} (h : Readable db) (hn : db'.notifications = db.notifications)
    (hr : db'.recipients = db.recipients) (he : db'.entries = db.entries)
    (hb : ∀ n, Pending db n → ∀ k ∈ db.ledger.bulletins, Refers db n.pk (.bulletin k) →
      k ∈ db'.ledger.bulletins)
    (hc : ∀ n, Pending db n → ∀ k ∈ db.ledger.comments, Refers db n.pk (.comment k) →
      k ∈ db'.ledger.comments) : Readable db' := by
  refine h.of_resolves hn hr he fun n hpending hresolves v hv => ?_
  obtain ⟨⟨k, hk, hint⟩, hcomment⟩ := hresolves v hv
  refine ⟨⟨k, hb n hpending k hk ⟨v, hv, hint⟩, hint⟩, ?_⟩
  intro w hw
  obtain ⟨j, hj, hint⟩ := hcomment w hw
  exact ⟨j, hc n hpending j hj ⟨by rw [hv]; rfl, w, hw, hint⟩, hint⟩

theorem mem_ledger_bulletins {k : Nat} :
    k ∈ db.ledger.bulletins ↔ ∃ b, db.bulletins.find? k = some b := by
  constructor
  · intro h
    obtain ⟨b, hb, rfl⟩ := List.mem_map.mp h
    exact ⟨b, Serial.find?_of_mem hb⟩
  · intro h
    obtain ⟨b, hb⟩ := h
    obtain ⟨hmem, hpk⟩ := Serial.find?_eq_some_iff.mp hb
    exact List.mem_map.mpr ⟨b, hmem, hpk⟩

theorem mem_ledger_comments {k : Nat} :
    k ∈ db.ledger.comments ↔ ∃ c, db.comments.find? k = some c := by
  constructor
  · intro h
    obtain ⟨c, hc, rfl⟩ := List.mem_map.mp h
    exact ⟨c, Serial.find?_of_mem hc⟩
  · intro h
    obtain ⟨c, hc⟩ := h
    obtain ⟨hmem, hpk⟩ := Serial.find?_eq_some_iff.mp hc
    exact List.mem_map.mpr ⟨c, hmem, hpk⟩

/-- A comment is deleted, about which nobody is still to read. -/
theorem Comment.delete_ensures (may : Prop) (h : At l P db) (hspare : P → ∀ n, Pending db n →
      ¬Refers db n.pk (.comment c.pk)) {R : Db → Prop} :
    Ensures anyhow db c.delete (fun _ => Outcome l P none may) R := by
  apply ensures_write
  obtain ⟨rfl, hreadable⟩ := h
  refine ⟨_, ?_, rfl, fun hp => (hreadable hp).remove rfl rfl rfl ?_ ?_⟩
  · exact {
      bulletins := List.Subset.refl _
      nextBulletin := rfl
      comments := (List.filter_sublist.map Comment.pk).subset
      nextComment := rfl
      sent := rfl
      people := rfl }
  · intro _ _ _ hk _
    exact hk
  · intro n hn k hk href
    obtain ⟨x, hx⟩ := mem_ledger_comments.mp hk
    obtain ⟨hmem, hpk⟩ := Serial.find?_eq_some_iff.mp hx
    refine List.mem_map.mpr ⟨x, Serial.mem_remove.mpr ⟨hmem, ?_⟩, hpk⟩
    rw [decide_eq_false_iff_not]
    intro heq
    exact hspare hp n hn (heq ▸ hpk ▸ href)

/-- So is a bulletin, with all that goes with it. -/
theorem Bulletin.delete_ensures (may : Prop) (h : At l P db) (hspare : P → ∀ n, Pending db n →
      ∀ item, Refers db n.pk item → item.doomed db b.pk = false) {R : Db → Prop} :
    Ensures anyhow db b.delete (fun _ => Outcome l P none may) R := by
  apply ensures_write
  obtain ⟨rfl, hreadable⟩ := h
  refine ⟨_, ?_, rfl, fun hp => (hreadable hp).remove rfl rfl rfl ?_ ?_⟩
  · exact {
      bulletins := (List.filter_sublist.map Bulletin.pk).subset
      nextBulletin := rfl
      comments := (List.filter_sublist.map Comment.pk).subset
      nextComment := rfl
      sent := rfl
      people := rfl }
  · intro n hn k hk href
    obtain ⟨x, hx⟩ := mem_ledger_bulletins.mp hk
    obtain ⟨hmem, hpk⟩ := Serial.find?_eq_some_iff.mp hx
    have hkept := hspare hp n hn _ href
    refine List.mem_map.mpr ⟨x, Serial.mem_remove.mpr ⟨hmem, ?_⟩, hpk⟩
    rw [← hpk] at hkept
    exact hkept
  · intro n hn k hk href
    obtain ⟨x, hx⟩ := mem_ledger_comments.mp hk
    obtain ⟨hmem, hpk⟩ := Serial.find?_eq_some_iff.mp hx
    have hkept := hspare hp n hn _ href
    refine List.mem_map.mpr ⟨x, Serial.mem_remove.mpr ⟨hmem, ?_⟩, hpk⟩
    simpa only [Item.doomed, hx, Option.any_some] using hkept

/-- A notification that is read is not one that somebody is still to read. -/
theorem At.markRead (h : At l P db) (pk : Nat) : At l P (markRead pk db) := by
  unfold Board.markRead
  cases hfind : db.notifications.find? pk with
  | none => exact h
  | some n =>
    obtain ⟨rfl, hreadable⟩ := h
    obtain ⟨hmem, hpk⟩ := Serial.find?_eq_some_iff.mp hfind
    refine ⟨rfl, fun hp => ⟨?_, ?_⟩⟩
    · have hnext : (db.notifications.save { n with status := .read }).next =
          db.notifications.next :=
        Serial.next_save_of_find? (x := n) (Serial.find?_of_mem hmem)
      dsimp only
      rw [hnext]
      exact (hreadable hp).fresh
    · intro m hm
      obtain ⟨hm, hunread, haddressed⟩ := hm
      rcases Serial.mem_save.mp hm with rfl | ⟨hm, -⟩
      · cases hunread
      · exact (hreadable hp).live m ⟨hm, hunread, haddressed⟩

end Lost

section Handle

variable {user : Option Nat} {slug : Text} {k : Nat}

theorem addBulletin_outcome {posting : Posting} {data : BulletinData} (h : At l P db) :
    Ensures anyhow db (addBulletin posting user slug data)
      (fun _ => Outcome l P ((Submission.post posting user slug data).makes db) True)
      (Outcome l P ((Submission.post posting user slug data).makes db) True) := by
  have hnext : db.bulletins.next = l.nextBulletin := by
    rw [← h.1]
    rfl
  apply ensures_read
  simp only [Submission.makes]
  cases addBulletinChecked posting db user slug data with
  | error reply => exact ensures_pure h.outcome
  | ok checked =>
    obtain ⟨request, data'⟩ := checked
    dsimp only
    unfold BulletinForm.saveNew
    cases data'.delete with
    | true => exact ensures_throw h.outcome
    | false =>
      simp only [Bool.false_eq_true, if_false, hnext]
      apply ensures_bind
      apply ensures_then (Bulletin.create_ensures h)
      · intro b db₁ h₁
        obtain ⟨-, h₁⟩ := h₁
        have hfollowed : Keeps anyhow
            (Mailed l.enterBulletin P l.upcomingBulletin True) (b.follow request.user.pk) :=
          mailed_keeps fun s => Bulletin.follow_quiet _
        apply ensures_seq (hfollowed db₁ (h₁.mono fun _ => trivial))
        intro _ db₂ h₂
        exact ensures_pure (ensures_pure h₂)
      · intro _ h'
        exact h'.mono fun _ => trivial

theorem editBulletin_outcome {posting : Posting} {data : BulletinData} (h : At l P db)
    (hspare : P → (Submission.edit posting user slug k data).Spares db) :
    Ensures anyhow db (editBulletin posting user slug k data)
      (fun _ => Outcome l P none True) (Outcome l P none True) := by
  apply ensures_read
  cases hchecked : editBulletinChecked posting db user slug k data with
  | error reply => exact ensures_pure h.outcome
  | ok checked =>
    obtain ⟨request, data'⟩ := checked
    have hfound := editBulletinChecked_found hchecked
    have hpk : (BulletinForm.filled request data').pk = request.bulletin.pk := rfl
    dsimp only
    unfold BulletinForm.saveOld
    cases hdelete : data'.delete with
    | true =>
      have hspare' : P → ∀ n, Pending db n → ∀ item, Refers db n.pk item →
          item.doomed db (BulletinForm.filled request data').pk = false := by
        intro hp n hn item href
        have hkept := hspare hp n hn item href
        rw [hpk]
        simpa only [Submission.removes, hchecked, hdelete, Bool.true_and] using hkept
      apply ensures_then (Bulletin.delete_ensures True h hspare' (R := fun _ => False))
      · intro _ _ h'
        exact ensures_pure h'
      · intro _ h'
        exact h'.elim
    | false =>
      have hmem : (BulletinForm.filled request data').pk ∈ l.bulletins := by
        rw [hpk, ← h.1]
        exact mem_ledger_bulletins.mpr ⟨_, (Serial.find?_eq_some_iff.mp hfound).2 ▸ hfound⟩
      have hsaved : Quiet l P (do
          (BulletinForm.filled request data').update
          (BulletinForm.filled request data').follow request.user.pk) :=
        keeps_bind (Bulletin.update_quiet hmem) fun _ => Bulletin.follow_quiet _
      apply ensures_then (hsaved db h)
      · intro _ _ h'
        exact ensures_pure h'.outcome
      · intro _ h'
        exact h'.outcome

theorem addComment_outcome {data : CommentData} (h : At l P db) :
    Ensures anyhow db (addComment user slug k data)
      (fun _ => Outcome l P ((Submission.comment user slug k data).makes db) True)
      (Outcome l P ((Submission.comment user slug k data).makes db) True) := by
  have hnext : db.comments.next = l.nextComment := by
    rw [← h.1]
    rfl
  apply ensures_read
  simp only [Submission.makes]
  cases hchecked : addCommentChecked db user slug k data with
  | error reply => exact ensures_pure h.outcome
  | ok checked =>
    obtain ⟨request, content⟩ := checked
    have hfound := (bulletinView_eq_ok_iff.mp (addCommentChecked_eq_ok_iff.mp hchecked).1).2.1
    have hmem : request.bulletin.pk ∈ l.bulletins := by
      rw [← h.1]
      exact mem_ledger_bulletins.mpr ⟨_, (Serial.find?_eq_some_iff.mp hfound).2 ▸ hfound⟩
    dsimp only
    rw [hnext]
    apply ensures_then (Comment.create_ensures hmem h)
    · intro c db₁ h₁
      exact ensures_pure (h₁.2.mono fun _ => trivial)
    · intro _ h'
      exact h'.mono fun _ => trivial

theorem deleteComment_outcome {j : Nat} (h : At l P db)
    (hspare : P → (Submission.deleteComment user slug k j).Spares db) :
    Ensures anyhow db (deleteComment user slug k j)
      (fun _ => Outcome l P none True) (Outcome l P none True) := by
  apply ensures_read
  cases hview : commentView db user slug k j with
  | error reply => exact ensures_pure h.outcome
  | ok c =>
    have hspare' : P → ∀ n, Pending db n → ¬Refers db n.pk (.comment c.pk) := by
      intro hp n hn href
      have hkept := hspare hp n hn _ href
      simp [Submission.removes, hview] at hkept
    apply ensures_then (Comment.delete_ensures True h hspare' (R := fun _ => False))
    · intro _ _ h'
      exact ensures_pure h'
    · intro _ h'
      exact h'.elim

theorem followBulletin_outcome (h : At l P db) :
    Ensures anyhow db (followBulletin user slug k)
      (fun _ => Outcome l P none True) (Outcome l P none True) := by
  apply ensures_read
  cases bulletinView false db user slug k with
  | error reply => exact ensures_pure h.outcome
  | ok request =>
    dsimp only
    split
    · apply ensures_then (Bulletin.unfollow_quiet _ db h)
      · intro _ _ h'
        exact ensures_pure h'.outcome
      · intro _ h'
        exact h'.outcome
    · apply ensures_then (Bulletin.follow_quiet _ db h)
      · intro _ _ h'
        exact ensures_pure h'.outcome
      · intro _ h'
        exact h'.outcome

theorem readNotification_outcome {data : ReadData} (h : At l P db) :
    Ensures anyhow db (readNotification user data)
      (fun _ => Outcome l P none True) (Outcome l P none True) := by
  apply ensures_read
  cases session db user with
  | error reply => exact ensures_pure h.outcome
  | ok account =>
    dsimp only
    split
    · exact ensures_throw h.outcome
    · exact ensures_throw h.outcome
    · exact ensures_throw h.outcome
    · apply ensures_bind
      apply ensures_write
      exact ensures_pure (h.markRead _).outcome

/-- What is submitted makes what it makes and nothing else, whatever fails; where it takes nothing
away that somebody is still to read about, the notifications stay readable. -/
theorem Submission.handle_outcome (s : Submission) (h : At l P db) (hspare : P → s.Spares db) :
    Ensures anyhow db s.handle (fun _ => Outcome l P (s.makes db) True)
      (Outcome l P (s.makes db) True) := by
  cases s with
  | post posting user slug data => exact addBulletin_outcome h
  | edit posting user slug bulletin data => exact editBulletin_outcome h hspare
  | comment user slug bulletin data => exact addComment_outcome h
  | deleteComment user slug bulletin comment => exact deleteComment_outcome h hspare
  | follow user slug bulletin => exact followBulletin_outcome h
  | read user data => exact readNotification_outcome h

/-- A mail that is accepted makes what it makes, and nothing is mailed for it. -/
theorem receiveMail_outcome {official : Bool} {d : MailData} (h : At l P db) :
    Ensures anyhow db (receiveMail official d)
      (fun _ => Outcome l P (d.makes db official) False)
      (Outcome l P (d.makes db official) False) := by
  have hbulletins : db.bulletins.next = l.nextBulletin := by
    rw [← h.1]
    rfl
  have hcomments : db.comments.next = l.nextComment := by
    rw [← h.1]
    rfl
  apply ensures_read
  unfold MailData.makes
  cases hclean : (listForm official).clean db d with
  | error reply => exact ensures_pure h.outcome
  | ok cleaned =>
    obtain ⟨account, chapter⟩ := cleaned
    dsimp only
    apply ensures_bind
    apply ensures_read
    cases hreply : d.getReplyBulletin db with
    | none =>
      dsimp only
      rw [hbulletins]
      apply ensures_then (Bulletin.create_ensures h)
      · intro b db₁ h₁
        exact ensures_pure (ensures_pure (h₁.2.mono fun hcan => by cases hcan))
      · intro _ h'
        exact h'.mono fun hcan => by cases hcan
    | some b =>
      have hmem : b.pk ∈ l.bulletins := by
        rw [← h.1]
        unfold MailData.getReplyBulletin at hreply
        split at hreply
        · exact List.mem_map.mpr ⟨b, List.mem_of_find?_eq_some hreply, rfl⟩
        · cases hreply
      dsimp only
      rw [hcomments]
      apply ensures_then (Comment.create_ensures hmem h)
      · intro c db₁ h₁
        exact ensures_pure (ensures_pure (h₁.2.mono fun hcan => by cases hcan))
      · intro _ h'
        exact h'.mono fun hcan => by cases hcan

end Handle

end HackerUnion.Board
