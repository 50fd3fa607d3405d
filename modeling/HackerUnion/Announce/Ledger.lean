import HackerUnion.Announce.Records
import HackerUnion.Announce.Queue
import HackerUnion.Announce.Runs

namespace HackerUnion.Announce

open Js

variable {F D : Type}

def Token.belongsTo (user : String) (t : Token) : Bool := t.user = some user

/-- How many tokens for the user's announcements can be redeemed. -/
def live (db : Database F D) (user : String) : Nat := db.tokens.count (Token.belongsTo user)

def Token.WellFormed (t : Token) : Prop :=
  t.user.isSome = true ∧ (t.action = some "good" ∨ t.action = some "bad")

/-- The hashes of the new tokens differ from each other and from those in the table. -/
def Fresh [DecidableEq D] (sha1 : String → D) (tokens : Obj D Token) (issued : List String) : Prop :=
  (issued.map sha1).Nodup ∧ ∀ token ∈ issued, tokens.get (sha1 token) = none

instance [DecidableEq D] (sha1 : String → D) (tokens : Obj D Token) (issued : List String) :
    Decidable (Fresh sha1 tokens issued) :=
  inferInstanceAs (Decidable (_ ∧ _))

section Issued

variable [DecidableEq D] {sha1 : String → D}

/-- The table after `s.issued` were added to `tokens`, `k` of them for `user`. -/
structure Issued (sha1 : String → D) (tokens : Obj D Token) (user : String) (k : Nat)
    (s : Scope F D) : Prop where
  get : ∀ h, h ∉ s.issued.map sha1 → s.db.tokens.get h = tokens.get h
  le : live s.db user ≤ tokens.count (Token.belongsTo user) + k
  eq : Fresh sha1 tokens s.issued → live s.db user = tokens.count (Token.belongsTo user) + k
  all : tokens.All Token.WellFormed → s.db.tokens.All Token.WellFormed

namespace Issued

variable {tokens : Obj D Token} {user : String} {k : Nat} {s s' : Scope F D}

theorem congr (h : Issued sha1 tokens user k s) (ht : s'.db.tokens = s.db.tokens)
    (hi : s'.issued = s.issued) : Issued sha1 tokens user k s' := by
  refine ⟨?_, ?_, ?_, ?_⟩
  · rw [ht, hi]; exact h.get
  · rw [live, ht]; exact h.le
  · rw [live, ht, hi]; exact h.eq
  · rw [ht]; exact h.all

theorem setToken (h : Issued sha1 tokens user k s) (random : Nat → String) (author action : String)
    (ha : action = "good" ∨ action = "bad") :
    Issued sha1 tokens user (k + if author = user then 1 else 0)
      (setToken sha1 random s author action).1 := by
  have hone : (Token.belongsTo user ⟨some author, some action⟩).toNat =
      if author = user then 1 else 0 := by
    by_cases hu : author = user <;> simp [Token.belongsTo, hu]
  refine ⟨?_, ?_, ?_, ?_⟩
  · intro x hx
    have hx : x ∉ s.issued.map sha1 ∧ x ≠ sha1 (random s.issued.length) := by
      simpa [Announce.setToken, not_or] using hx
    exact (s.db.tokens.get_set_ne _ hx.2).trans (h.get x hx.1)
  · have hle := Obj.count_set_le (o := s.db.tokens) (k := sha1 (random s.issued.length))
      (v := ⟨some author, some action⟩) (Token.belongsTo user)
    have hold := h.le
    rw [hone] at hle
    show (s.db.tokens.set _ _).count _ ≤ _
    unfold live at hold
    omega
  · intro hfresh
    obtain ⟨hnodup, hnone⟩ := hfresh
    have hnodup : (s.issued.map sha1 ++ [sha1 (random s.issued.length)]).Nodup := by
      simpa [Announce.setToken] using hnodup
    have hnone : ∀ token ∈ s.issued ++ [random s.issued.length], tokens.get (sha1 token) = none :=
      hnone
    have hnew : sha1 (random s.issued.length) ∉ s.issued.map sha1 := by
      intro hin
      exact (List.nodup_append.mp hnodup).2.2 _ hin _ (List.mem_singleton_self _) rfl
    have hget : s.db.tokens.get (sha1 (random s.issued.length)) = none :=
      (h.get _ hnew).trans (hnone _ (by simp))
    have hold := h.eq ⟨(List.nodup_append.mp hnodup).1,
      fun token ht => hnone token (List.mem_append_left _ ht)⟩
    have hset := Obj.count_set (v := (⟨some author, some action⟩ : Token)) (Token.belongsTo user)
      hget
    rw [hone] at hset
    show (s.db.tokens.set _ _).count _ = _
    unfold live at hold
    omega
  · intro hall
    refine Obj.all_set (h.all hall) ?_ _
    exact ⟨rfl, ha.imp (congrArg some) (congrArg some)⟩

/-- Each e-mail carries two tokens for the author. -/
theorem broadcast (run : Dispatch) (a : Announcement) (rcpt : List String)
    (sent : Scope F D × List Mail) (h : Issued sha1 tokens user k sent.1) :
    Issued sha1 tokens user (k + if a.user = user then 2 * rcpt.length else 0)
      (rcpt.foldl (broadcastTo sha1 run a) sent).1 := by
  induction rcpt generalizing sent k with
  | nil => simpa using h
  | cons u rcpt ih =>
    have hgood := h.setToken run.random a.user "good" (Or.inl rfl)
    have hbad := hgood.setToken run.random a.user "bad" (Or.inr rfl)
    have hrest := ih (broadcastTo sha1 run a sent u) hbad
    have hk : k + (if a.user = user then 2 * (u :: rcpt).length else 0) =
        k + (if a.user = user then 1 else 0) + (if a.user = user then 1 else 0) +
          if a.user = user then 2 * rcpt.length else 0 := by
      split
      · rw [List.length_cons]
        omega
      · rfl
    rw [hk]
    exact hrest

end Issued

end Issued

section Dispatch

variable [Number F] [DecidableEq D] {sha1 : String → D} {run : Dispatch}

omit [DecidableEq D] in
theorem addTotal_frame (s : Scope F D) (user : String) (n : Nat) : Frame s (addTotal s user n) :=
  (setReputation_frame s user { reputation s user with total := (reputation s user).total + n }).trans
    (setProfile_frame _ user)

variable (sha1 run) in
theorem broadcast_tokens (a : Announcement) (s : Scope F D) (rcpt : List String) :
    (broadcast sha1 run a s rcpt).db.tokens =
        (rcpt.foldl (broadcastTo sha1 run a) (s, [])).1.db.tokens ∧
      (broadcast sha1 run a s rcpt).issued =
        (rcpt.foldl (broadcastTo sha1 run a) (s, [])).1.issued := by
  have hf := addTotal_frame (rcpt.foldl (broadcastTo sha1 run a) (s, [])).1 a.user rcpt.length
  exact ⟨hf.tokens, hf.issued⟩

/-- What holds between the rounds of a dispatch run that loaded `db` and has sent `n` e-mails for
`user`'s announcements. -/
structure Counted (sha1 : String → D) (db : Database F D) (user : String) (n : Nat)
    (s : Scope F D) : Prop where
  clean : Clean s
  announcements : s.db.announcements = db.announcements
  kept : Kept s.db user
  reputation : reputationOf s.db user =
    { reputationOf db user with total := (reputationOf db user).total + n }
  issued : Issued sha1 db.tokens user (2 * n) s

namespace Counted

variable {db : Database F D} {user : String} {n : Nat} {s s' : Scope F D}

theorem getProfile (h : Counted sha1 db user n s) {v : String} (hv : v ≠ "__proto__") :
    Counted sha1 db user n (getProfile s v) := by
  have hf := getProfile_frame s v
  exact ⟨getProfile_clean h.clean hv, hf.announcements.trans h.announcements, getProfile_kept h.kept,
    (getProfile_reputationOf s v user).trans h.reputation, h.issued.congr hf.tokens hf.issued⟩

private theorem targetUsers_fold (topics : List String) (users : List String)
    (acc : Scope F D × List String) (h : Counted sha1 db user n acc.1)
    (hp : "__proto__" ∉ users) :
    Counted sha1 db user n (users.foldl
      (fun (scope, found) user =>
        let scope := Announce.getProfile scope user
        (scope, if targets (topicsOf scope user) topics then found ++ [user] else found))
      acc).1 := by
  induction users generalizing acc with
  | nil => exact h
  | cons v users ih =>
    simp only [List.mem_cons, not_or] at hp
    exact ih _ (h.getProfile (Ne.symm hp.1)) hp.2

theorem prepareTask (h : Counted sha1 db user n s) (hp : "__proto__" ∉ run.passwd) (t : Task F)
    {a : Announcement} (ha : a.user ≠ "__proto__") :
    Counted sha1 db user n (prepareTask run s t a).1 ∧ Ready (prepareTask run s t a).1 a.user := by
  have ht : Counted sha1 db user n (targetUsers s run.passwd a.topics).1 :=
    targetUsers_fold a.topics run.passwd (s, []) h hp
  exact ⟨ht.getProfile ha, getProfile_ready ht.clean a.user⟩

variable (run) in
/-- A broadcast adds to the author's total and nobody else's. -/
theorem broadcast (h : Counted sha1 db user n s) {a : Announcement} (hr : Ready s a.user)
    (ha : a.user ≠ "__proto__") (rcpt : List String) :
    Counted sha1 db user (n + if a.user = user then rcpt.length else 0)
      (broadcast sha1 run a s rcpt) := by
  obtain ⟨hann, -, husers, hbuiltins, -, -, -⟩ := broadcastTo_fold sha1 run a rcpt (s, [])
  have hissued := h.issued.broadcast run a rcpt (s, [])
  generalize hs₁ : (rcpt.foldl (broadcastTo sha1 run a) (s, [])).1 = s₁ at *
  have hhas (v : String) : s₁.db.users.has v = s.db.users.has v := by rw [husers]
  have hrec : record s₁ a.user = record s a.user := by
    unfold record
    rw [husers, hbuiltins]
  have hready : Ready s₁ a.user := by
    unfold Ready
    rw [hrec, hhas]
    exact hr
  have hclean : Clean s₁ := by
    unfold Clean
    rw [hbuiltins]
    exact h.clean
  have hframe := addTotal_frame s₁ a.user rcpt.length
  have heq : Announce.broadcast sha1 run a s rcpt =
      { addTotal s₁ a.user rcpt.length with
        outbox := (Announce.broadcast sha1 run a s rcpt).outbox } := by
    rw [← hs₁]
    rfl
  have hrep := addTotal_reputationOf (v := user) hready rcpt.length
  rw [heq]
  refine ⟨addTotal_clean hclean hready ha _, (hframe.announcements.trans hann).trans h.announcements,
    ?_, hrep.trans ?_, ?_⟩
  · exact h.kept.imp_left (fun hk => (addTotal_has hready _).trans ((hhas user).trans hk))
  · rw [reputationOf_congr husers, reputationOf_congr husers]
    split
    · rename_i hu
      rw [if_pos hu.1.symm, ← hu.1, h.reputation, Nat.add_assoc]
    · rename_i hu
      have hne : a.user ≠ user := by
        rintro rfl
        exact hu ⟨rfl, (hhas a.user).trans (h.kept.elim id hr.2)⟩
      rw [if_neg hne, h.reputation, Nat.add_zero]
  · have hk : 2 * (n + if a.user = user then rcpt.length else 0) =
        2 * n + if a.user = user then 2 * rcpt.length else 0 := by
      split <;> omega
    rw [hk]
    exact hissued.congr hframe.tokens hframe.issued

theorem round (h : Counted sha1 db user n s) (hp : "__proto__" ∉ run.passwd)
    (hauthor : ∀ a ∈ db.announcements, a.user ≠ "__proto__") {t t' : Task F}
    (hc : handleTask sha1 run s t (db.announcements.find? (fun a => a.id = t.id)) =
      some (s', t')) (i : Nat) :
    ∃ m, Counted sha1 db user m { s' with db := { s'.db with spool := s'.db.spool.set i t' } } := by
  cases ha : db.announcements.find? (fun a => a.id = t.id) with
  | none =>
    rw [ha] at hc
    cases hc
  | some a =>
    rw [ha] at hc
    have hne := hauthor a (List.mem_of_find?_eq_some ha)
    obtain ⟨hprep, hready⟩ := h.prepareTask hp t hne
    obtain ⟨-, -, ⟨users, -, -, k, rfl⟩ | ⟨-, k, rfl⟩⟩ := handleTask_cases hc
    · have hb := hprep.broadcast run hready hne (Announce.prepareTask run s t a).2
      exact ⟨_, hb.clean, hb.announcements, hb.kept, hb.reputation, hb.issued.congr rfl rfl⟩
    · exact ⟨n, hprep.clean, hprep.announcements, hprep.kept, hprep.reputation,
        hprep.issued.congr rfl rfl⟩

end Counted

theorem Dispatch.main_counted {db : Database F D} {user : String} {s : Scope F D}
    (hp : "__proto__" ∉ run.passwd) (hauthor : ∀ a ∈ db.announcements, a.user ≠ "__proto__")
    (hk : Kept db user) (hm : Dispatch.main sha1 run db = some s) :
    ∃ n, Counted sha1 db user n s := by
  refine Dispatch.main_invariant (I := fun s => ∃ n, Counted sha1 db user n s) ?_ ?_ ?_ hm
  · exact ⟨0, rfl, rfl, hk, rfl, fun _ _ => rfl, le_refl _, fun _ => rfl, fun h => h⟩
  · intro s i t hcounted _ _
    obtain ⟨n, hs⟩ := hcounted
    exact ⟨n, hs.clean, hs.announcements, hs.kept, hs.reputation, hs.issued.congr rfl rfl⟩
  · intro s i t s' t' hcounted _ _ hc
    obtain ⟨n, hs⟩ := hcounted
    exact hs.round hp hauthor hc i

/-- The table a dispatch run leaves is the one it found with its own tokens added. -/
theorem Dispatch.main_issued {db : Database F D} {s : Scope F D} (user : String)
    (hm : Dispatch.main sha1 run db = some s) : ∃ k, Issued sha1 db.tokens user k s := by
  refine Dispatch.main_invariant (I := fun s => ∃ k, Issued sha1 db.tokens user k s) ?_ ?_ ?_ hm
  · exact ⟨0, fun _ _ => rfl, le_refl _, fun _ => rfl, fun h => h⟩
  · intro s i t hissued _ _
    obtain ⟨k, hs⟩ := hissued
    exact ⟨k, hs.congr rfl rfl⟩
  · intro s i t s' t' hissued _ _ hc
    obtain ⟨k, hs⟩ := hissued
    cases ha : db.announcements.find? (fun a => a.id = t.id) with
    | none =>
      rw [ha] at hc
      cases hc
    | some a =>
      rw [ha] at hc
      have hf := prepareTask_frame run s t a
      have hprep := hs.congr hf.tokens hf.issued
      obtain ⟨-, -, ⟨users, -, -, m, rfl⟩ | ⟨-, m, rfl⟩⟩ := handleTask_cases hc
      · obtain ⟨ht, hi⟩ := broadcast_tokens sha1 run a (prepareTask run s t a).1
          (prepareTask run s t a).2
        exact ⟨_, (hprep.broadcast run a (prepareTask run s t a).2 (_, [])).congr ht hi⟩
      · exact ⟨k, hprep.congr rfl rfl⟩

end Dispatch

section Request

variable [Number F]

theorem Reputation.vote_count (r : Reputation F) (good : Bool) :
    (r.vote good).good + (r.vote good).bad = r.good + r.bad + 1 := by
  cases good
  · simp only [Reputation.vote, Bool.toNat_false, Bool.not_false, Bool.toNat_true]
    omega
  · simp only [Reputation.vote, Bool.toNat_false, Bool.not_true, Bool.toNat_true]
    omega

theorem Reputation.vote_total (r : Reputation F) (good : Bool) :
    (r.vote good).total = r.total := rfl

theorem Reputation.vote_score (r : Reputation F) (good : Bool) :
    (r.vote good).score = confidence (r.vote good).good (r.vote good).bad := rfl

theorem handleVote_reputationOf {s : Scope F D} (hc : Clean s) (user : String) (good : Bool) :
    (∀ v, v ≠ user → reputationOf (handleVote s user good).db v = reputationOf s.db v) ∧
    (Kept s.db user → reputationOf (handleVote s user good).db user =
      (reputationOf s.db user).vote good) := by
  have hready := getProfile_ready hc user
  have hset (v : String) := setReputation_reputationOf (v := v) hready.1
    ((reputation (getProfile s user) user).vote good)
  refine ⟨?_, ?_⟩
  · intro v hv
    have hv' := hset v
    rw [if_neg (fun h => hv h.1), getProfile_reputationOf] at hv'
    exact hv'
  · intro hk
    have hh := getProfile_has hc hk
    have hu' := hset user
    rw [if_pos ⟨rfl, hh⟩] at hu'
    refine hu'.trans ?_
    rw [reputation_of_has hh hready.1, getProfile_reputationOf]

theorem finish_reputationOf (s : Scope F D) (v : String) :
    reputationOf (finish s).db v = reputationOf s.db v := by
  unfold finish
  split
  · exact getProfile_reputationOf s s.user v
  · rfl

theorem finish_has {s : Scope F D} {v : String} (h : s.db.users.has v = true) :
    (finish s).db.users.has v = true := by
  unfold finish
  split
  · exact getProfile_has_of_has h
  · exact h

theorem handleVote_has {s : Scope F D} {v : String} (h : s.db.users.has v = true) (user : String)
    (good : Bool) : (handleVote s user good).db.users.has v = true := by
  have hp : (getProfile s user).db.users.has v = true := getProfile_has_of_has h
  show (setReputation (getProfile s user) user _).db.users.has v = true
  unfold setReputation
  split
  · exact (putRecord_has _ _ _ v).trans hp
  · exact (putRecord_has _ _ _ v).trans hp

section Topics

variable {s s' : Scope F D} {qs : Form}

/-- The form is one whose topics get saved. -/
def Form.Saves (qs : Form) : Prop := (qs.topics.string.bind getTopics).isSome = true

theorem recordText_setTopics (s : Scope F D) (topics : Option (List String)) :
    recordText (setTopics (getProfile s s.user) s.user topics) s.user = recordText s s.user := by
  have hput := putRecord_has (getProfile s s.user) s.user
    { record (getProfile s s.user) s.user with topics := some topics } s.user
  cases hi : inherited.contains s.user with
  | false => simp only [recordText, hi, Bool.not_false, Bool.or_true, Bool.true_or, if_true]
  | true =>
    have hget : (getProfile s s.user).db.users.has s.user = s.db.users.has s.user :=
      getProfile_has_inherited hi
    unfold recordText
    rw [show (setTopics (getProfile s s.user) s.user topics).db.users.has s.user = _ from hput, hget]

theorem setTopics_user (s : Scope F D) (topics : Option (List String)) :
    (setTopics (getProfile s s.user) s.user topics).user = s.user :=
  (putRecord_frame _ _ _).user.trans (getProfile_frame s s.user).user

theorem setTopics_reputationOf (topics : Option (List String)) (v : String) :
    reputationOf (setTopics (getProfile s s.user) s.user topics).db v = reputationOf s.db v := by
  have hput := putRecord_reputationOf (getProfile s s.user) s.user
    { record (getProfile s s.user) s.user with topics := some topics } v
  refine hput.trans ?_
  rw [← getProfile_reputationOf s s.user v]
  split
  · rename_i h
    rw [h.1, reputationOf, record_of_has h.2]
    rfl
  · rfl

theorem setTopics_has (topics : Option (List String)) {v : String}
    (h : s.db.users.has v = true) :
    (setTopics (getProfile s s.user) s.user topics).db.users.has v = true :=
  (putRecord_has _ _ _ v).trans (getProfile_has_of_has h)

/-- Saving topics erases what is stored under the record's text, and nothing else. -/
theorem handleSaveTopics_reputationOf (h : handleSaveTopics s qs = some s') :
    ∃ erased : Option String, (∀ name, erased = some name → qs.Saves ∧ name = recordText s s.user) ∧
      ∀ v, erased ≠ some v → reputationOf s'.db v = reputationOf s.db v ∧
        (s.db.users.has v = true → s'.db.users.has v = true) := by
  obtain ⟨text, htext, h⟩ := Option.bind_eq_some_iff.mp h
  have huser := (getProfile_frame s s.user).user
  dsimp only at h
  rw [huser] at h
  split at h
  · cases h
    refine ⟨none, by simp, fun v _ => ⟨?_, ?_⟩⟩
    · exact setTopics_reputationOf none v
    · exact setTopics_has none
  · rename_i topics ht
    rw [setTopics_user, recordText_setTopics] at h
    split at h
    · cases h
    · cases h
      refine ⟨some (recordText s s.user), ?_, ?_⟩
      · intro name hname
        cases hname
        refine ⟨?_, rfl⟩
        rw [Form.Saves, htext, Option.bind_some, ht]
        rfl
      · intro v hv
        have hne : v ≠ recordText s s.user := by
          rintro rfl
          exact hv rfl
        have hget := (setTopics (getProfile s s.user) s.user (some topics)).db.users.get_erase_ne hne
        refine ⟨?_, ?_⟩
        · refine Eq.trans ?_ (setTopics_reputationOf (some topics) v)
          exact congrArg (fun p => (Option.bind p Profile.reputation).getD Reputation.zero) hget
        · intro hh
          have hown := setTopics_has (some topics) hh
          exact (congrArg Option.isSome hget).trans hown

end Topics

section Main

variable [DecidableEq D] {sha1 : String → D}

/-- A token request takes the token out of the table, and counts the vote it stands for. -/
structure TokenUsed (sha1 : String → D) (db : Database F D) (text : String)
    (db' : Database F D) : Prop where
  tokens : db'.tokens = db.tokens.erase (sha1 text)
  has : ∀ v, db.users.has v = true → db'.users.has v = true
  vote :
    (∃ user action good, db.tokens.get (sha1 text) = some ⟨some user, some action⟩ ∧ user ≠ "" ∧
        lower action = (if good then "good" else "bad") ∧
        (∀ v, v ≠ user → reputationOf db' v = reputationOf db v) ∧
        (Kept db user → reputationOf db' user = (reputationOf db user).vote good)) ∨
      ((∀ user action, db.tokens.get (sha1 text) = some ⟨some user, some action⟩ →
          user ≠ "" → action ≠ "" → lower action ≠ "good" ∧ lower action ≠ "bad") ∧
        ∀ v, reputationOf db' v = reputationOf db v)

/-- Any other request leaves tokens and reputations alone, but for an erased record. -/
structure Untouched (db db' : Database F D) (erased : Option String) : Prop where
  tokens : db'.tokens = db.tokens
  records : ∀ v, erased ≠ some v → reputationOf db' v = reputationOf db v ∧
    (db.users.has v = true → db'.users.has v = true)

theorem handleToken_used {s s' : Scope F D} (hc : Clean s) {token : Field}
    (h : handleToken sha1 s token = some s') :
    ∃ text, token = .text text ∧ TokenUsed sha1 s.db text s'.db := by
  obtain ⟨text, htext, ⟨user, action, good, hg, hu, hl, rfl⟩ | ⟨hno, msg, rfl⟩⟩ :=
    handleToken_cases h
  · have hpop : Clean (popToken sha1 s text).1 := hc
    have hvote := handleVote_reputationOf hpop user good
    have hf := handleVote_frame (popToken sha1 s text).1 user good
    exact ⟨text, htext, hf.tokens, fun v hh => handleVote_has (s := (popToken sha1 s text).1) hh user
      good, Or.inl ⟨user, action, good, hg, hu, hl, hvote.1, hvote.2⟩⟩
  · exact ⟨text, htext, rfl, fun v hh => hh, Or.inr ⟨hno, fun v => rfl⟩⟩

theorem TokenUsed.finish {db : Database F D} {text : String} {s : Scope F D}
    (h : TokenUsed sha1 db text s.db) : TokenUsed sha1 db text (finish s).db := by
  have hr := finish_reputationOf s
  refine ⟨(finish_frame s).tokens.trans h.tokens, fun v hh => finish_has (h.has v hh), ?_⟩
  simp only [hr]
  exact h.vote

omit [DecidableEq D] in
theorem Untouched.finish {db : Database F D} {erased : Option String} {s : Scope F D}
    (h : Untouched db s.db erased) : Untouched db (finish s).db erased := by
  refine ⟨(finish_frame s).tokens.trans h.tokens, fun v hv => ?_⟩
  obtain ⟨hr, hh⟩ := h.records v hv
  exact ⟨(finish_reputationOf s v).trans hr, fun h => finish_has (hh h)⟩

theorem Request.main_ledger {req : Request} {db : Database F D} {s : Scope F D}
    (h : req.main sha1 db = some s) :
    (∃ text, req.token = .text text ∧ TokenUsed sha1 db text s.db) ∨
    ∃ erased, Untouched db s.db erased ∧ ∀ name, erased = some name →
      (∃ qs, req.Posts "save_topics" qs ∧ qs.Saves) ∧
        name = recordText (getScope db req.user) req.user := by
  obtain ⟨s₁, rfl, hc⟩ := Request.main_cases h
  rcases hc with hc | ⟨qs, hp, hc⟩ | ⟨qs, -, hc⟩ | ⟨msg, rfl⟩
  · obtain ⟨text, htext, hused⟩ := handleToken_used (s := getScope db req.user) rfl hc
    exact Or.inl ⟨text, htext, hused.finish⟩
  · obtain ⟨erased, hname, hrec⟩ := handleSaveTopics_reputationOf hc
    have hun : Untouched db s₁.db erased := ⟨(handleSaveTopics_frame _ hc).tokens, hrec⟩
    refine Or.inr ⟨erased, hun.finish, fun name hn => ?_⟩
    exact ⟨⟨qs, hp, (hname name hn).1⟩, (hname name hn).2⟩
  · have husers := handleAnnounce_users hc
    have htokens : s₁.db.tokens = db.tokens := by
      obtain ⟨_, _, _, -, ⟨-, hr⟩ | ⟨-, -, ha⟩⟩ := handleAnnounce_spec hc
      · exact hr.frame.tokens
      · exact ha.tokens
    have hun : Untouched db s₁.db none := by
      refine ⟨htokens, fun v _ => ⟨?_, ?_⟩⟩
      · rw [reputationOf_congr husers]
        exact getProfile_reputationOf (getScope db req.user) req.user v
      · intro hh
        rw [husers]
        exact getProfile_has_of_has (s := getScope db req.user) hh
    exact Or.inr ⟨none, hun.finish, nofun⟩
  · have hun : Untouched db ({ getScope db req.user with msg := msg } : Scope F D).db none :=
      ⟨rfl, fun v _ => ⟨rfl, fun hh => hh⟩⟩
    exact Or.inr ⟨none, hun.finish, nofun⟩

end Main

end Request

section Inherited

variable [Number F] {s s' : Scope F D} {v : String} (hi : inherited.contains v = true)

omit [Number F] in
theorem setReputation_has (s : Scope F D) (user : String) (r : Reputation F) (v : String) :
    (setReputation s user r).db.users.has v = s.db.users.has v := by
  unfold setReputation
  split <;> exact putRecord_has _ _ _ v

include hi

omit [Number F] in
theorem setProfile_inherited (user : String) :
    (setProfile s user).db.users.has v = s.db.users.has v := by
  unfold setProfile
  split
  · rfl
  · rename_i hu
    have hne : v ≠ user := by
      rintro rfl
      exact hu hi
    exact congrArg Option.isSome (s.db.users.get_set_ne _ hne)

theorem finish_inherited : (finish s).db.users.has v = s.db.users.has v := by
  unfold finish
  split
  · exact getProfile_has_inherited hi
  · rfl

theorem handleVote_inherited (user : String) (good : Bool) :
    (handleVote s user good).db.users.has v = s.db.users.has v :=
  (setReputation_has _ _ _ v).trans (getProfile_has_inherited hi)

theorem handleSaveTopics_inherited {qs : Form} (h : handleSaveTopics s qs = some s')
    (hh : s'.db.users.has v = true) : s.db.users.has v = true := by
  have hset (u : String) (t : Option (List String)) :
      (setTopics (getProfile s s.user) u t).db.users.has v = s.db.users.has v :=
    (putRecord_has _ _ _ v).trans (getProfile_has_inherited hi)
  obtain ⟨text, -, h⟩ := Option.bind_eq_some_iff.mp h
  dsimp only at h
  split at h
  · cases h
    exact (hset _ none).symm.trans hh
  · rename_i topics _
    split at h
    · cases h
    · cases h
      rw [← hset (getProfile s s.user).user (some topics)]
      exact Obj.has_of_has_erase hh

variable [DecidableEq D] {sha1 : String → D} {db : Database F D}

/-- No request makes a record under an inherited name. -/
theorem Request.main_inherited {req : Request} (h : req.main sha1 db = some s)
    (hh : s.db.users.has v = true) : db.users.has v = true := by
  obtain ⟨s₁, rfl, hc⟩ := Request.main_cases h
  rw [finish_inherited hi] at hh
  rcases hc with hc | ⟨qs, -, hc⟩ | ⟨qs, -, hc⟩ | ⟨msg, rfl⟩
  · obtain ⟨text, -, ⟨user, action, good, -, -, -, rfl⟩ | ⟨-, msg, rfl⟩⟩ := handleToken_cases hc
    · rw [handleVote_inherited hi] at hh
      exact hh
    · exact hh
  · exact handleSaveTopics_inherited (s := getScope db req.user) hi hc hh
  · rw [handleAnnounce_users hc, getProfile_has_inherited hi] at hh
    exact hh
  · exact hh

variable {run : Dispatch}

omit [DecidableEq D] in
theorem targetUsers_inherited (topics users : List String) (acc : Scope F D × List String) :
    (users.foldl
      (fun (scope, found) user =>
        let scope := getProfile scope user
        (scope, if targets (topicsOf scope user) topics then found ++ [user] else found))
      acc).1.db.users.has v = acc.1.db.users.has v := by
  induction users generalizing acc with
  | nil => rfl
  | cons user users ih => exact (ih _).trans (getProfile_has_inherited hi)

omit [DecidableEq D] in
variable (run) in
theorem prepareTask_inherited (t : Task F) (a : Announcement) :
    (prepareTask run s t a).1.db.users.has v = s.db.users.has v :=
  (getProfile_has_inherited hi).trans (targetUsers_inherited hi a.topics run.passwd (s, []))

theorem broadcast_inherited (a : Announcement) (rcpt : List String) :
    (broadcast sha1 run a s rcpt).db.users.has v = s.db.users.has v := by
  obtain ⟨-, -, husers, -⟩ := broadcastTo_fold sha1 run a rcpt (s, [])
  have hset := setProfile_inherited hi (s := setReputation
    (rcpt.foldl (broadcastTo sha1 run a) (s, [])).1 a.user
    { reputation (rcpt.foldl (broadcastTo sha1 run a) (s, [])).1 a.user with
      total := (reputation (rcpt.foldl (broadcastTo sha1 run a) (s, [])).1 a.user).total +
        rcpt.length }) a.user
  rw [setReputation_has, husers] at hset
  exact hset

theorem Dispatch.main_inherited (h : Dispatch.main sha1 run db = some s) :
    s.db.users.has v = db.users.has v := by
  refine Dispatch.main_invariant (I := fun s => s.db.users.has v = db.users.has v) rfl ?_ ?_ h
  · intro s i t hs _ _
    exact hs
  · intro s i t s' t' hs _ _ hc
    cases ha : db.announcements.find? (fun a => a.id = t.id) with
    | none =>
      rw [ha] at hc
      cases hc
    | some a =>
      rw [ha] at hc
      have hprep := (prepareTask_inherited hi run t a).trans hs
      obtain ⟨-, -, ⟨users, -, -, n, rfl⟩ | ⟨-, n, rfl⟩⟩ := handleTask_cases hc
      · exact (broadcast_inherited hi a (prepareTask run s t a).2).trans hprep
      · exact hprep

end Inherited

end HackerUnion.Announce
