import HackerUnion.Board.Views

namespace HackerUnion.Board

open Bash (Text text)
open Durable
open Petri (Chapter UserProfile strip)

variable {db : Db} {user : Option Nat} {slug : Text} {k : Nat}

section Checks

variable {ε α β : Type}

theorem bind_eq_ok_iff {x : Except ε α} {f : α → Except ε β} {b : β} :
    (x >>= f) = .ok b ↔ ∃ a, x = .ok a ∧ f a = .ok b := by
  cases x with
  | error e => simp [bind, Except.bind]
  | ok a => simp [bind, Except.bind]

theorem session_eq_ok_iff {account : Account} :
    session db user = .ok account ↔ user.bind db.users.find? = some account := by
  unfold session
  split
  · rename_i h
    simp [h]
  · rename_i h
    simp [h]

theorem getProfile_eq_ok_iff {account : Account} {profile : UserProfile} :
    account.getProfile db = .ok profile ↔
      ∃ p, db.profiles.find? account.pk = some p ∧ profile = { p with user := account.toUser } := by
  unfold Account.getProfile
  split
  · rename_i p h
    simp [h, eq_comm]
  · rename_i h
    simp [h]

/-- The slug is that of one chapter alone. -/
theorem getChapter_eq_ok_iff {chapter : Chapter} :
    getChapter db slug = .ok chapter ↔
      (db.chapters.rows.filter fun c => c.slug = slug) = [chapter] := by
  unfold getChapter
  split
  · rename_i h
    simp [h]
  · rename_i c h
    simp [h]
  · rename_i hnil hone
    simpa using hone chapter

theorem hasMentee_isOk_iff {p : UserProfile} :
    (∃ isMentee, hasMentee db p k = .ok isMentee) ↔
      (p.isLeader = true → (db.profiles.find? k).isSome = true) := by
  unfold hasMentee
  cases p.isLeader with
  | false => simp
  | true =>
    cases db.profiles.find? k with
    | none => simp
    | some q => simp

/-- The user is logged in and active, and has a profile. -/
theorem chapterView_eq_ok_iff {membersOnly : Bool} {request : Request} :
    chapterView membersOnly db user slug = .ok request ↔
      getChapter db slug = .ok request.chapter ∧ session db user = .ok request.user ∧
        request.user.isActive = true ∧ request.user.getProfile db = .ok request.profile ∧
        (membersOnly = true → request.profile.isMember request.chapter = true) := by
  unfold chapterView
  rw [bind_eq_ok_iff]
  constructor
  · intro h
    obtain ⟨chapter, hchapter, h⟩ := h
    rw [bind_eq_ok_iff] at h
    obtain ⟨account, haccount, h⟩ := h
    dsimp only at h
    split at h
    · cases h
    · rename_i hactive
      rw [bind_eq_ok_iff] at h
      obtain ⟨profile, hprofile, h⟩ := h
      split at h
      · cases h
      · rename_i hmember
        obtain rfl := Except.ok.inj h
        exact ⟨hchapter, haccount, by simpa using hactive, hprofile, by simpa using hmember⟩
  · intro h
    obtain ⟨hchapter, haccount, hactive, hprofile, hmember⟩ := h
    refine ⟨request.chapter, hchapter, ?_⟩
    rw [bind_eq_ok_iff]
    refine ⟨request.user, haccount, ?_⟩
    dsimp only
    rw [if_neg (by simp [hactive]), bind_eq_ok_iff]
    refine ⟨request.profile, hprofile, ?_⟩
    rw [if_neg (by simpa using hmember)]
    rfl

/-- What a view asks of the roles of a user who wants a bulletin: nothing of a moderator, and of any
other that an official bulletin be his own unless he is a leader, and where the view is only for the
owner or his leader that he be that. -/
def Entitled (leaderOrOwner : Bool) (request : BulletinRequest) (isMentee : Bool) : Prop :=
  request.profile.canModerate = true ∨
    ((request.bulletin.isOfficial = true →
        request.bulletin.owner = request.user.pk ∨ request.profile.isLeader = true) ∧
      (leaderOrOwner = true → request.bulletin.owner = request.user.pk ∨ isMentee = true))

theorem bulletinView_eq_ok_iff {leaderOrOwner : Bool} {request : BulletinRequest} :
    bulletinView leaderOrOwner db user slug k = .ok request ↔
      chapterView false db user slug = .ok request.toRequest ∧
        db.bulletins.find? k = some request.bulletin ∧
        ∃ isMentee, hasMentee db request.profile request.bulletin.owner = .ok isMentee ∧
          Entitled leaderOrOwner request isMentee := by
  unfold bulletinView
  rw [bind_eq_ok_iff]
  constructor
  · intro h
    obtain ⟨r, hr, h⟩ := h
    cases hfind : db.bulletins.find? k with
    | none =>
      rw [hfind] at h
      cases h
    | some b =>
      rw [hfind] at h
      dsimp only at h
      rw [bind_eq_ok_iff] at h
      obtain ⟨isMentee, hmentee, h⟩ := h
      split at h
      · rename_i hmoderate
        split at h
        · cases h
        · rename_i hofficial
          split at h
          · cases h
          · rename_i howner
            obtain rfl := Except.ok.inj h
            refine ⟨hr, rfl, isMentee, hmentee, Or.inr ⟨?_, ?_⟩⟩
            · simpa [imp_iff_not_or, or_assoc] using hofficial
            · simpa [imp_iff_not_or, or_assoc] using howner
      · rename_i hmoderate
        obtain rfl := Except.ok.inj h
        exact ⟨hr, rfl, isMentee, hmentee, Or.inl (by simpa using hmoderate)⟩
  · intro h
    obtain ⟨hr, hfind, isMentee, hmentee, hentitled⟩ := h
    refine ⟨request.toRequest, hr, ?_⟩
    rw [hfind]
    dsimp only
    rw [bind_eq_ok_iff]
    refine ⟨isMentee, hmentee, ?_⟩
    split
    · rename_i hmoderate
      rcases hentitled with hcan | ⟨hofficial, howner⟩
      · simp [hcan] at hmoderate
      · rw [if_neg (by simpa [imp_iff_not_or, or_assoc] using hofficial),
          if_neg (by simpa [imp_iff_not_or, or_assoc] using howner)]
        rfl
    · rfl

end Checks

section Forms

/-- The form of a comment is valid where something is left of its content. One by which a comment
should be deleted has none. -/
theorem commentForm_clean_eq_ok_iff {data : CommentData} {content : Text} :
    CommentForm.clean data = .ok content ↔
      data.delete = false ∧ strip data.content ≠ [] ∧ content = strip data.content := by
  have hnil : strip [] = [] := rfl
  unfold CommentForm.clean CommentData.bound
  obtain ⟨posted, delete⟩ := data
  cases delete with
  | true => simp [hnil]
  | false =>
    by_cases hempty : posted = []
    · simp [hempty, hnil]
    · by_cases hblank : strip posted = []
      · simp [hempty, hblank]
      · simp [hempty, hblank, eq_comm]

theorem addCommentChecked_eq_ok_iff {data : CommentData} {request : BulletinRequest}
    {content : Text} :
    addCommentChecked db user slug k data = .ok (request, content) ↔
      bulletinView false db user slug k = .ok request ∧ CommentForm.clean data = .ok content := by
  unfold addCommentChecked
  rw [bind_eq_ok_iff]
  constructor
  · intro h
    obtain ⟨r, hr, h⟩ := h
    rw [bind_eq_ok_iff] at h
    obtain ⟨t, ht, h⟩ := h
    cases h
    exact ⟨hr, ht⟩
  · intro h
    obtain ⟨hr, ht⟩ := h
    refine ⟨request, hr, ?_⟩
    rw [bind_eq_ok_iff]
    exact ⟨content, ht, rfl⟩

theorem editBulletinChecked_found {posting : Posting} {data data' : BulletinData}
    {request : BulletinRequest}
    (h : editBulletinChecked posting db user slug k data = .ok (request, data')) :
    db.bulletins.find? k = some request.bulletin := by
  unfold editBulletinChecked at h
  rw [bind_eq_ok_iff] at h
  obtain ⟨r, hr, h⟩ := h
  rw [bind_eq_ok_iff] at h
  obtain ⟨d, -, h⟩ := h
  cases h
  exact (bulletinView_eq_ok_iff.mp hr).2.1

end Forms

section Mail

/-- A mail is accepted from the first user who may have sent it. -/
theorem clean_eq_ok_iff {form : MailForm} {d : MailData} {account : Account} {chapter : Chapter} :
    form.clean db d = .ok (account, chapter) ↔
      d.fieldErrors db = [] ∧
        (form.ignoreInternal = true → d.getHeader internalEmailHeader = []) ∧
        (form.requireId = true → d.isReply = true ∨ d.messageId ≠ []) ∧
        d.chapter.bind db.chapters.find? = some chapter ∧
        (form.users db d).head? = some account ∧ d.getBestContent ≠ [] := by
  unfold MailForm.clean
  constructor
  · intro h
    dsimp only at h
    split at h
    · cases h
    · rename_i hfields
      split at h
      · cases h
      · rename_i hinternal
        split at h
        · cases h
        · rename_i hid
          cases hchapter : d.chapter.bind db.chapters.find? with
          | none =>
            rw [hchapter] at h
            dsimp only at h
            split at h
            · cases h
            · cases h
          | some c =>
            rw [hchapter] at h
            dsimp only at h
            cases husers : form.users db d with
            | nil =>
              rw [husers] at h
              cases h
            | cons u us =>
              rw [husers] at h
              dsimp only at h
              split at h
              · cases h
              · rename_i hcontent
                cases h
                refine ⟨by simpa using hfields, ?_, ?_, rfl, rfl, hcontent⟩
                · simpa [imp_iff_not_or] using hinternal
                · simpa [imp_iff_not_or, or_assoc] using hid
  · intro h
    obtain ⟨hfields, hinternal, hid, hchapter, hhead, hcontent⟩ := h
    dsimp only
    rw [if_neg (by simp [hfields]), if_neg (by simpa [imp_iff_not_or] using hinternal),
      if_neg (by simpa [imp_iff_not_or, or_assoc] using hid), hchapter]
    cases husers : form.users db d with
    | nil =>
      rw [husers] at hhead
      cases hhead
    | cons u us =>
      rw [husers] at hhead
      cases hhead
      dsimp only
      rw [if_neg hcontent]
      rfl

end Mail

end HackerUnion.Board
