import HackerUnion.Announce.Ledger

namespace HackerUnion.Announce

open Js

variable {F D : Type} [Number F]

/-- Votes cast and votes still to be cast, less two for each e-mail. -/
def balance (db : Database F D) (user : String) : Int :=
  (reputationOf db user).good + (reputationOf db user).bad + live db user -
    2 * (reputationOf db user).total

def Scored (db : Database F D) (user : String) : Prop :=
  (reputationOf db user).score = confidence (reputationOf db user).good (reputationOf db user).bad

/-- The job neither erases the user's record under the text of another one nor works on
`Object.prototype` as if it were a record. -/
def Regular (user : String) : Job → Database F D → Prop
  | .request req, db => (∃ qs, req.Posts "save_topics" qs ∧ qs.Saves) →
      recordText (getScope db req.user) req.user ≠ user
  | .dispatch run, db => "__proto__" ∉ run.passwd ∧ ∀ a ∈ db.announcements, a.user ≠ "__proto__"

variable [DecidableEq D]

def Job.issued (sha1 : String → D) (job : Job) (db : Database F D) : List String :=
  ((job.main sha1 db).map Scope.issued).getD []

/-- The job makes tokens whose hashes are not in use. -/
def FreshTokens (sha1 : String → D) (job : Job) (db : Database F D) : Prop :=
  Fresh sha1 db.tokens (job.issued sha1 db)

instance (sha1 : String → D) (job : Job) (db : Database F D) :
    Decidable (FreshTokens sha1 job db) :=
  inferInstanceAs (Decidable (Fresh _ _ _))

variable {sha1 : String → D} {db db' : Database F D} {user : String}

omit [Number F] in
theorem live_erase {hashed : D} {token : Token} (h : db.tokens.get hashed = some token)
    (ht : db'.tokens = db.tokens.erase hashed) (user : String) :
    live db' user + (token.belongsTo user).toNat = live db user := by
  rw [live, ht]
  exact Obj.count_erase _ h

/-- What every step keeps of an author's ledger. -/
structure Balanced (b : Int) (user : String) (db : Database F D) : Prop where
  balance : balance db user = b
  kept : Kept db user
  tokens : db.tokens.All Token.WellFormed

theorem Counted.balanced {n : Nat} {s : Scope F D} {b : Int} (h : Balanced b user db)
    (hc : Counted sha1 db user n s) (hf : Fresh sha1 db.tokens s.issued) :
    Balanced b user s.db := by
  refine ⟨?_, hc.kept, hc.issued.all h.tokens⟩
  have hb := h.balance
  have hlive : live s.db user = live db user + 2 * n := hc.issued.eq hf
  rw [Announce.balance, hc.reputation, hlive]
  rw [Announce.balance] at hb
  push_cast
  omega

/-- A used token is either a vote more and a live token less for its author, or counts for nothing:
then, of the tokens the code makes itself, it was not one of the user's. -/
theorem TokenUsed.count {text : String} (hk : Kept db user) (ht : TokenUsed sha1 db text db') :
    (reputationOf db' user).total = (reputationOf db user).total ∧
    ((reputationOf db' user).good + (reputationOf db' user).bad =
        (reputationOf db user).good + (reputationOf db user).bad + 1 ∧
      live db' user + 1 = live db user ∨
    (reputationOf db' user).good + (reputationOf db' user).bad =
        (reputationOf db user).good + (reputationOf db user).bad ∧
      live db' user ≤ live db user ∧
      (db.tokens.All Token.WellFormed → user ≠ "" → live db' user = live db user)) := by
  rcases ht.vote with ⟨author, action, good, hget, -, -, hother, hvote⟩ | ⟨hno, hsame⟩
  · have hlive := live_erase hget ht.tokens user
    by_cases ha : author = user
    · subst ha
      have hone : (Token.belongsTo author ⟨some author, some action⟩).toNat = 1 := by
        simp [Token.belongsTo]
      rw [hvote hk]
      refine ⟨Reputation.vote_total _ good, Or.inl ⟨Reputation.vote_count _ good, ?_⟩⟩
      omega
    · have hzero : (Token.belongsTo user ⟨some author, some action⟩).toNat = 0 := by
        simp [Token.belongsTo, ha]
      rw [hother user (Ne.symm ha)]
      refine ⟨rfl, Or.inr ⟨rfl, ?_, fun _ _ => ?_⟩⟩
      · omega
      · omega
  · rw [hsame user]
    have hle : live db' user ≤ live db user := by
      rw [live, ht.tokens]
      exact Obj.count_erase_le _ db.tokens _
    refine ⟨rfl, Or.inr ⟨rfl, hle, fun hwf hu => ?_⟩⟩
    cases hget : db.tokens.get (sha1 text) with
    | none =>
      rw [live, ht.tokens, Obj.erase_of_get hget]
      rfl
    | some token =>
      have hlive := live_erase hget ht.tokens user
      obtain ⟨author, action⟩ := token
      obtain ⟨hsome, haction⟩ := hwf _ _ hget
      obtain ⟨name, rfl⟩ := Option.isSome_iff_exists.mp hsome
      have hempty : name = "" := by
        by_contra hne
        rcases haction with rfl | rfl
        · exact (hno name "good" hget hne (by decide)).1 (by decide)
        · exact (hno name "bad" hget hne (by decide)).2 (by decide)
      have hzero : (Token.belongsTo user ⟨some name, action⟩).toNat = 0 := by
        simp [Token.belongsTo, hempty, Ne.symm hu]
      omega

theorem TokenUsed.balanced {text : String} {b : Int} (h : Balanced b user db)
    (hu : user ≠ "") (ht : TokenUsed sha1 db text db') : Balanced b user db' := by
  have hwf : db'.tokens.All Token.WellFormed := by
    rw [ht.tokens]
    exact Obj.all_erase h.tokens _
  refine ⟨?_, h.kept.imp_left (ht.has user), hwf⟩
  have hb := h.balance
  rw [Announce.balance] at hb ⊢
  obtain ⟨htotal, ⟨hvotes, hlive⟩ | ⟨hvotes, -, hlive⟩⟩ := ht.count h.kept
  · omega
  · have hsame := hlive h.tokens hu
    omega

theorem Untouched.balanced {erased : Option String} {b : Int} (h : Balanced b user db)
    (hu : Untouched db db' erased) (he : erased ≠ some user) : Balanced b user db' := by
  obtain ⟨hr, hh⟩ := hu.records user he
  refine ⟨?_, h.kept.imp_left hh, ?_⟩
  · rw [Announce.balance, hr, live, hu.tokens]
    exact h.balance
  · rw [hu.tokens]
    exact h.tokens

theorem Counted.scored {n : Nat} {s : Scope F D} (h : Scored db user)
    (hc : Counted sha1 db user n s) : Scored s.db user := by
  rw [Scored, hc.reputation]
  exact h

theorem TokenUsed.scored {text : String} (h : Scored db user) (hk : Kept db user)
    (ht : TokenUsed sha1 db text db') : Scored db' user := by
  rcases ht.vote with ⟨author, action, good, -, -, -, hother, hvote⟩ | ⟨-, hsame⟩
  · by_cases ha : author = user
    · subst ha
      rw [Scored, hvote hk]
      exact Reputation.vote_score _ good
    · rw [Scored, hother user (Ne.symm ha)]
      exact h
  · rw [Scored, hsame user]
    exact h

/-- A job ends in one of three ways for the ledger of an author with a record. -/
theorem Job.exec_ledger (job : Job) {P : Database F D → Prop} (h0 : P db)
    (hr : Regular user job db)
    (htoken : ∀ text db', TokenUsed sha1 db text db' → P db')
    (hother : ∀ erased db', Untouched db db' erased → erased ≠ some user → P db')
    (hdispatch : ∀ run s, job = .dispatch run → Dispatch.main sha1 run db = some s → P s.db) :
    P (job.exec sha1 db) := by
  apply Job.exec_induction h0
  intro s hm
  cases job with
  | request req =>
    rcases Request.main_ledger hm with ⟨text, -, hused⟩ | ⟨erased, hun, hname⟩
    · exact htoken text s.db hused
    · refine hother erased s.db hun ?_
      intro he
      obtain ⟨hsaves, hn⟩ := hname user he
      exact hr hsaves hn.symm
  | dispatch run => exact hdispatch run s rfl hm

theorem Job.exec_balanced (job : Job) {b : Int} (h : Balanced b user db) (hu : user ≠ "")
    (hr : Regular user job db) (hf : FreshTokens sha1 job db) :
    Balanced b user (job.exec sha1 db) := by
  apply job.exec_ledger h hr
  · intro text db' ht
    exact ht.balanced h hu
  · intro erased db' hun he
    exact hun.balanced h he
  · intro run s hjob hm
    subst hjob
    obtain ⟨n, hc⟩ := Dispatch.main_counted hr.1 hr.2 h.kept hm
    have hjob : (Job.dispatch run).main sha1 db = some s := hm
    have hfresh : Fresh sha1 db.tokens s.issued := by
      simpa [FreshTokens, Job.issued, hjob] using hf
    exact hc.balanced h hfresh

theorem Job.exec_scored (job : Job) (h : Scored db user) (hk : Kept db user)
    (hr : Regular user job db) : Scored (job.exec sha1 db) user := by
  apply job.exec_ledger (P := fun db => Scored db user) h hr
  · intro text db' ht
    exact ht.scored h hk
  · intro erased db' hun he
    rw [Scored, (hun.records user he).1]
    exact h
  · intro run s hjob hm
    subst hjob
    obtain ⟨n, hc⟩ := Dispatch.main_counted hr.1 hr.2 hk hm
    exact hc.scored h

/-- A request with a token uses it up, whatever the token stands for. -/
theorem Request.main_token (sha1 : String → D) {req : Request} {text : String}
    (ht : req.token = .text text) (hne : text ≠ "") (db : Database F D) :
    TokenUsed sha1 db text ((Job.request req).exec sha1 db) := by
  have hmain : (Job.request req).main sha1 db =
      (handleToken sha1 (getScope db req.user) (.text text)).map finish := by
    simp [Job.main, Request.main, ht, Field.truthy, hne]
  have hsome : ∃ s, handleToken sha1 (getScope db req.user) (.text text) = some s := by
    simp only [handleToken, Field.string, Option.bind_eq_bind, Option.bind_some]
    split
    · split
      · exact ⟨_, rfl⟩
      · split
        · exact ⟨_, rfl⟩
        · split <;> exact ⟨_, rfl⟩
    · exact ⟨_, rfl⟩
  obtain ⟨s, hs⟩ := hsome
  rw [hs] at hmain
  have hdirty : s.dirty = true := by
    obtain ⟨text', -, ⟨author, action, good, -, -, -, rfl⟩ | ⟨-, msg, rfl⟩⟩ := handleToken_cases hs
    · exact handleVote_dirty _ author good
    · rfl
  rw [Job.exec_of_dirty hmain ((finish_dirty s).trans hdirty)]
  obtain ⟨text', htext, hused⟩ := handleToken_used (s := getScope db req.user) rfl hs
  cases htext
  exact hused.finish

/-- A hash stays away from the table until some token is made that has it. -/
theorem Job.exec_absent (job : Job) {hashed : D} (h : db.tokens.get hashed = none)
    (hi : ∀ token ∈ job.issued sha1 db, sha1 token ≠ hashed) :
    (job.exec sha1 db).tokens.get hashed = none := by
  refine Job.exec_induction (P := fun db => db.tokens.get hashed = none) h ?_
  intro s hm
  cases job with
  | request req =>
    rcases Request.main_ledger hm with ⟨text, -, hused⟩ | ⟨erased, hun, -⟩
    · rw [hused.tokens, Obj.get_erase]
      split
      · rfl
      · exact h
    · rw [hun.tokens]
      exact h
  | dispatch run =>
    obtain ⟨k, hissued⟩ := Dispatch.main_issued "" hm
    refine (hissued.get hashed ?_).trans h
    intro hin
    obtain ⟨token, ht, heq⟩ := List.mem_map.mp hin
    have hmem : token ∈ (Job.dispatch run).issued sha1 db := by
      rw [Job.issued, hm]
      exact ht
    exact hi token hmem heq

/-- What redeeming a token of `user` comes to. -/
structure Redeemed (sha1 : String → D) (user text : String) (db db' : Database F D) : Prop where
  author : (reputationOf db' user).good + (reputationOf db' user).bad =
    (reputationOf db user).good + (reputationOf db user).bad + 1
  others : ∀ v, v ≠ user → reputationOf db' v = reputationOf db v
  gone : db'.tokens.get (sha1 text) = none

theorem TokenUsed.redeemed {text : String} {token : Token} (h : TokenUsed sha1 db text db')
    (hk : Kept db user) (hu : user ≠ "") (hwf : token.WellFormed)
    (hget : db.tokens.get (sha1 text) = some token) (ht : token.user = some user) :
    Redeemed sha1 user text db db' := by
  obtain ⟨owner, action⟩ := token
  cases ht
  rcases h.vote with ⟨author, action', good, hget', -, -, hother, hvote⟩ | ⟨hno, -⟩
  · cases hget.symm.trans hget'
    refine ⟨?_, hother, ?_⟩
    · rw [hvote hk]
      exact Reputation.vote_count _ good
    · rw [h.tokens]
      exact Obj.get_erase_self _ _
  · exfalso
    rcases hwf.2 with ha | ha
    · cases ha
      exact (hno user "good" hget hu (by decide)).1 (by decide)
    · cases ha
      exact (hno user "bad" hget hu (by decide)).2 (by decide)

/-- No new token of the job has the hash. -/
def Unissued (sha1 : String → D) (hashed : D) (job : Job) (db : Database F D) : Prop :=
  ∀ token ∈ job.issued sha1 db, sha1 token ≠ hashed

/-- In every run whose steps are regular for an author, the author's balance never changes, the
score stays the one of the votes, and each of the author's tokens is worth one vote, once. -/
theorem ledger_run (sha1 : String → D) (jobs : List Job) (db : Database F D) (user : String)
    (hwf : db.tokens.All Token.WellFormed) (hfresh : Throughout sha1 (FreshTokens sha1) jobs db)
    (hu : user ≠ "") (hk : db.users.has user = true ∨ inherited.contains user = false)
    (hr : Throughout sha1 (Regular user) jobs db) :
    (∀ db' ∈ databases sha1 jobs db, balance db' user = balance db user) ∧
    (Scored db user → ∀ db' ∈ databases sha1 jobs db, Scored db' user) ∧
    ∀ (pre post : List Job) (req : Request) (text : String) (token : Token),
      jobs = pre ++ .request req :: post → req.token = .text text → text ≠ "" →
      (runJobs sha1 pre db).tokens.get (sha1 text) = some token → token.user = some user →
        Redeemed sha1 user text (runJobs sha1 pre db)
            ((Job.request req).exec sha1 (runJobs sha1 pre db)) ∧
          (Throughout sha1 (Unissued sha1 (sha1 text)) post
              ((Job.request req).exec sha1 (runJobs sha1 pre db)) →
            ∀ db' ∈ databases sha1 post ((Job.request req).exec sha1 (runJobs sha1 pre db)),
              db'.tokens.get (sha1 text) = none) := by
  have hstart : Balanced (balance db user) user db := ⟨rfl, hk, hwf⟩
  have hc := Run.throughout_and hr hfresh
  have hall := databases_invariant (I := Balanced (balance db user) user)
    (fun job _ hb hc => job.exec_balanced hb hu hc.1 hc.2) hstart hc
  refine ⟨fun db' hdb => (hall db' hdb).balance, ?_, ?_⟩
  · intro hs db' hdb
    have hkeep := databases_invariant
      (I := fun db' => Balanced (balance db user) user db' ∧ Scored db' user)
      (fun job _ hb hc =>
        ⟨job.exec_balanced hb.1 hu hc.1 hc.2, job.exec_scored hb.2 hb.1.kept hc.1⟩)
      ⟨hstart, hs⟩ hc
    exact (hkeep db' hdb).2
  · intro pre post req text token hjobs htext hne hget howner
    subst hjobs
    obtain ⟨hpre, -⟩ := Run.throughout_append.mp hc
    have hbefore := databases_invariant (I := Balanced (balance db user) user)
      (fun job _ hb hc => job.exec_balanced hb hu hc.1 hc.2) hstart hpre _
      (runJobs_mem_databases pre db)
    have hused := Request.main_token sha1 htext hne (runJobs sha1 pre db)
    have hred := hused.redeemed hbefore.kept hu (hbefore.tokens _ _ hget) hget howner
    refine ⟨hred, fun hun => ?_⟩
    exact databases_invariant (I := fun db => db.tokens.get (sha1 text) = none)
      (fun job _ hnone hi => job.exec_absent hnone hi) hred.gone hun

/-- A visitor follows the link with this token. -/
def tokenRequest (token : String) : Request where
  user := "guest"
  post := false
  token := .text token
  body := .error ""
  now := 0
  stamp := 0

/-- A run in which bob is sent ann's announcement and follows both links. -/
def bothLinks : List Job :=
  [.dispatch annAndBob, .request (tokenRequest "0"), .request (tokenRequest "1")]

theorem bothLinks_regular (db : Database Rat String) (h : ∀ a ∈ db.announcements, a.user = "ann") :
    Throughout id (Regular "ann") bothLinks db := by
  refine ⟨⟨by decide, ?_⟩, fun _ _ => ⟨?_, fun _ _ => ⟨?_, fun _ _ => trivial⟩⟩⟩
  · intro a ha
    rw [h a ha]
    decide
  · intro hsaves
    obtain ⟨qs, hp, -⟩ := hsaves
    exact absurd hp.token (by decide)
  · intro hsaves
    obtain ⟨qs, hp, -⟩ := hsaves
    exact absurd hp.token (by decide)

theorem ledger_run_ann :
    balance (runJobs id bothLinks (queueOf "ann" [⟨0, 3, none, 1, some ["ann"]⟩])) "ann" =
      balance (queueOf "ann" [⟨0, 3, none, 1, some ["ann"]⟩]) "ann" :=
  (ledger_run id bothLinks (queueOf "ann" [⟨0, 3, none, 1, some ["ann"]⟩]) "ann" nofun
    (by decide +kernel) (by decide) (Or.inr (by decide)) (bothLinks_regular _ (by decide))).1 _
      (runJobs_mem_databases _ _)

/-- The e-mails for an author called constructor are counted nowhere. -/
theorem not_ledger_run :
    ¬ ∀ (jobs : List Job) (db : Database Rat String) (user : String),
      db.tokens.All Token.WellFormed → Throughout id (FreshTokens id) jobs db →
      ∀ db' ∈ databases id jobs db, balance db' user = balance db user := by
  intro h
  have hsame := h [.dispatch annAndBob]
    (queueOf "constructor" [⟨0, 3, none, 1, some ["constructor"]⟩]) "constructor" nofun
    (by decide +kernel) _ (runJobs_mem_databases _ _)
  revert hsame
  decide +kernel

section Bound

/-- A name without a record of its own gets none. -/
theorem Job.exec_kept (job : Job) (h : Kept (job.exec sha1 db) user) : Kept db user := by
  cases hi : inherited.contains user with
  | false => exact Or.inr hi
  | true =>
    have hh : (job.exec sha1 db).users.has user = true := by
      rcases h with hh | hh
      · exact hh
      · rw [hi] at hh
        cases hh
    revert hh
    refine Job.exec_induction (P := fun db' => db'.users.has user = true → Kept db user) Or.inl ?_
    intro s hm hh
    cases job with
    | request req => exact Or.inl (Request.main_inherited hi hm hh)
    | dispatch run => exact Or.inl ((Dispatch.main_inherited hi hm).symm.trans hh)

/-- The votes of an author with a record, cast or not, are at most two for each e-mail. -/
def Backed (user : String) (db : Database F D) : Prop :=
  Kept db user → (reputationOf db user).good + (reputationOf db user).bad + live db user ≤
    2 * (reputationOf db user).total

omit [DecidableEq D] in
theorem Backed.votes (h : Backed user db) :
    (reputationOf db user).good + (reputationOf db user).bad ≤
      2 * (reputationOf db user).total := by
  by_cases hk : Kept db user
  · have hb := h hk
    omega
  · have hnone : db.users.has user = false := by
      simp only [Kept, not_or] at hk
      simpa using hk.1
    rw [reputationOf_of_not_has hnone]
    exact le_refl 0

theorem Job.exec_backed (job : Job) (h : Backed user db) (hr : Regular user job db) :
    Backed user (job.exec sha1 db) := by
  intro hk'
  have hk := job.exec_kept hk'
  have hb := h hk
  apply job.exec_ledger (P := fun db => (reputationOf db user).good + (reputationOf db user).bad +
    live db user ≤ 2 * (reputationOf db user).total) hb hr
  · intro text db' ht
    obtain ⟨htotal, ⟨hvotes, hlive⟩ | ⟨hvotes, hlive, -⟩⟩ := ht.count hk
    · omega
    · omega
  · intro erased db' hun he
    rw [(hun.records user he).1, live, hun.tokens]
    exact hb
  · intro run s hjob hm
    subst hjob
    obtain ⟨n, hc⟩ := Dispatch.main_counted hr.1 hr.2 hk hm
    have hlive : live s.db user ≤ live db user + 2 * n := hc.issued.le
    rw [hc.reputation]
    show (reputationOf db user).good + (reputationOf db user).bad + live s.db user ≤
      2 * ((reputationOf db user).total + n)
    omega

/-- In every run from a file without tokens whose steps are regular for an author, the author gets
at most two votes for each e-mail, and the page accounts for them unless there are more than
e-mails. -/
theorem votes_run (sha1 : String → D) (jobs : List Job) (db : Database F D) (user : String)
    (htokens : db.tokens = Obj.empty)
    (hvotes : (reputationOf db user).good + (reputationOf db user).bad ≤
      (reputationOf db user).total)
    (hr : Throughout sha1 (Regular user) jobs db) :
    ∀ db' ∈ databases sha1 jobs db,
      (reputationOf db' user).good + (reputationOf db' user).bad ≤
        2 * (reputationOf db' user).total ∧
      let page := (renderPage (getScope db' user)).2
      page.good = (reputationOf db' user).good ∧ page.bad = (reputationOf db' user).bad ∧
      page.total = (reputationOf db' user).total ∧
      page.good + page.bad + page.ignored = max (page.total : Int) (page.good + page.bad) := by
  have hstart : Backed user db := by
    intro _
    have hlive : live db user = 0 := by
      rw [live, htokens]
      rfl
    omega
  have hall := databases_invariant (I := Backed user)
    (fun job _ hb hc => job.exec_backed hb hc) hstart hr
  intro db' hdb
  have huser : (getProfile (getScope db' user) user).user = user :=
    (getProfile_frame (getScope db' user) user).user
  have hpage : reputation (getProfile (getScope db' user) user)
      (getProfile (getScope db' user) user).user = reputationOf db' user := by
    rw [huser]
    exact getScope_reputation db' user user
  refine ⟨(hall db' hdb).votes, congrArg Reputation.good hpage, congrArg Reputation.bad hpage,
    congrArg Reputation.total hpage, ?_⟩
  simp only [renderPage]
  omega

theorem votes_run_ann :
    (reputationOf (runJobs id bothLinks (queueOf "ann" [⟨0, 3, none, 1, some ["ann"]⟩])) "ann").good +
      (reputationOf (runJobs id bothLinks (queueOf "ann" [⟨0, 3, none, 1, some ["ann"]⟩])) "ann").bad ≤
    2 * (reputationOf (runJobs id bothLinks (queueOf "ann" [⟨0, 3, none, 1, some ["ann"]⟩]))
      "ann").total :=
  (votes_run id bothLinks (queueOf "ann" [⟨0, 3, none, 1, some ["ann"]⟩]) "ann" rfl (le_refl 0)
    (bothLinks_regular _ (by decide)) _ (runJobs_mem_databases _ _)).1

/-- One e-mail brings ann a good and a bad vote. -/
theorem not_votes_run :
    ¬ ∀ (jobs : List Job) (db : Database Rat String), db.tokens = Obj.empty →
      (∀ user, (reputationOf db user).good + (reputationOf db user).bad ≤
        (reputationOf db user).total) →
      ∀ db' ∈ databases id jobs db, ∀ user,
        (reputationOf db' user).good + (reputationOf db' user).bad ≤
          (reputationOf db' user).total := by
  intro h
  have hle := h bothLinks (queueOf "ann" [⟨0, 3, none, 1, some ["ann"]⟩]) rfl
    (fun _ => le_refl 0) _ (runJobs_mem_databases _ _) "ann"
  revert hle
  decide +kernel

end Bound

end HackerUnion.Announce
