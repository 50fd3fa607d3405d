import HackerUnion.Announce.Integrity
import HackerUnion.Announce.Runs

namespace HackerUnion.Announce

open Js

variable {F D : Type}

/-- What a broadcast delivers: the announcement, by its number, to each recipient. -/
def Broadcast.deliveries (b : Broadcast) : List (Nat × String) :=
  b.mails.map (fun m => (b.announce.id, m.user))

/-- What has been sent fits the queue: a task lists everyone who got its announcement, and each
broadcast has used up one of its three rounds. -/
structure Sent (past : List Broadcast) (db : Database F D) : Prop where
  integrity : Integrity db
  known : ∀ b ∈ past, b.announce.id < db.announcements.length
  listed : ∀ b ∈ past, ∀ t ∈ db.spool, t.id = b.announce.id →
    ∀ users, t.users = some users → ∀ m ∈ b.mails, m.user ∈ users
  author : ∀ b ∈ past, ∀ m ∈ b.mails, m.user ≠ b.announce.user
  once : (past.flatMap Broadcast.deliveries).Nodup
  visits : ∀ id, past.countP (fun b => b.announce.id = id) ≤ 3
  left : ∀ t ∈ db.spool, (past.countP (fun b => b.announce.id = t.id) : Int) + t.ttl ≤ 3

namespace Sent

variable {past : List Broadcast} {db db' : Database F D}

theorem start (h : Integrity db) : Sent [] db :=
  ⟨h, by simp, by simp, by simp, List.nodup_nil, by simp, fun t ht => by simpa using (h.ttl t ht).2⟩

theorem congr (h : Sent past db) (ha : db'.announcements = db.announcements)
    (hs : db'.spool = db.spool) : Sent past db' := by
  refine ⟨h.integrity.congr ha hs, ?_, ?_, h.author, h.once, h.visits, ?_⟩
  · rw [ha]; exact h.known
  · rw [hs]; exact h.listed
  · rw [hs]; exact h.left

/-- Nothing has been sent yet under a number that is new. -/
theorem fresh (h : Sent past db) :
    past.countP (fun b => b.announce.id = db.announcements.length) = 0 := by
  rw [List.countP_eq_zero]
  intro b hb
  have hlt := h.known b hb
  simp only [decide_eq_true_eq]
  omega

theorem accepted {req : Request} {s s' : Scope F D} (h : Sent past s.db)
    (ha : Accepted req s s') : Sent past s'.db := by
  have hi := h.integrity.accepted ha
  obtain ⟨a, score, hid, -, -, hann, hspool⟩ := ha.appended
  have hmem {t : Task F} (ht : t ∈ s'.db.spool) :
      t ∈ s.db.spool ∨ t = ⟨a.id, ttl, none, score, some [a.user]⟩ := by
    rw [hspool] at ht
    simpa using ht
  refine ⟨hi, ?_, ?_, h.author, h.once, h.visits, ?_⟩
  · intro b hb
    have hlt := h.known b hb
    rw [hann, List.length_append]
    omega
  · intro b hb t ht hbt users hu
    rcases hmem ht with ht | rfl
    · exact h.listed b hb t ht hbt users hu
    · have hlt := h.known b hb
      have hnew : a.id = b.announce.id := hbt
      omega
  · intro t ht
    rcases hmem ht with ht | rfl
    · exact h.left t ht
    · show (past.countP (fun b => b.announce.id = a.id) : Int) + 3 ≤ 3
      rw [hid, h.fresh]
      omega

theorem erase (h : Sent past db) (i : Nat) :
    Sent past { db with spool := db.spool.eraseIdx i } := by
  have hsub := (List.eraseIdx_sublist db.spool i).subset
  exact ⟨h.integrity.erase i, h.known, fun b hb t ht => h.listed b hb t (hsub ht), h.author, h.once,
    h.visits, fun t ht => h.left t (hsub ht)⟩

section Round

variable {run : Dispatch} {s s' : Scope F D} {i : Nat} {t t' : Task F} {a : Announcement}
  {users : List String}

/-- A round that skips its task. -/
theorem skip (h : Sent past s.db) (ht : s.db.spool[i]? = some t) (hz : t.ttl ≠ 0)
    (ht' : Handled run a s s' t t') (hu : t'.users = t.users) :
    Sent past { s'.db with spool := s'.db.spool.set i t' } := by
  have hin := List.mem_of_getElem? ht
  have hmem {x : Task F} (hx : x ∈ s'.db.spool.set i t') : x = t' ∨ x ∈ s.db.spool := by
    rw [ht'.spool] at hx
    exact (mem_set_other h.integrity.nodup ht hx).imp_right And.left
  refine ⟨h.integrity.handled ht hz ht', ?_, ?_, h.author, h.once, h.visits, ?_⟩
  · intro b hb
    show b.announce.id < s'.db.announcements.length
    rw [ht'.announcements]
    exact h.known b hb
  · intro b hb x hx hbx own hown
    rcases hmem hx with rfl | hx
    · exact h.listed b hb t hin (ht'.id.symm.trans hbx) own (hu.symm.trans hown)
    · exact h.listed b hb x hx hbx own hown
  · intro x hx
    rcases hmem hx with rfl | hx
    · have hl := h.left t hin
      rw [ht'.id, ht'.ttl]
      omega
    · exact h.left x hx

/-- A round that broadcasts to accounts its task does not list. -/
theorem broadcast {mails : List Mail} (h : Sent past s.db) (ht : s.db.spool[i]? = some t)
    (hz : t.ttl ≠ 0) (ht' : Handled run a s s' t t') (hid : a.id = t.id)
    (hu : t.users = some users) (hin : a.user ∈ users)
    (hu' : t'.users = some (users ++ mails.map Mail.user))
    (hnew : ∀ m ∈ mails, m.user ∉ users) (hnodup : (mails.map Mail.user).Nodup) :
    Sent (past ++ [⟨a, mails⟩]) { s'.db with spool := s'.db.spool.set i t' } := by
  have htin := List.mem_of_getElem? ht
  have hmem {x : Task F} (hx : x ∈ s'.db.spool.set i t') :
      x = t' ∨ x ∈ s.db.spool ∧ x.id ≠ t.id := by
    rw [ht'.spool] at hx
    exact mem_set_other h.integrity.nodup ht hx
  have hlast {b : Broadcast} (hb : b ∈ past ++ [⟨a, mails⟩]) : b ∈ past ∨ b = ⟨a, mails⟩ := by
    simpa using hb
  have hcount (id : Nat) :
      (past ++ [(⟨a, mails⟩ : Broadcast)]).countP (fun b => b.announce.id = id) =
        past.countP (fun b => b.announce.id = id) + if t.id = id then 1 else 0 := by
    rw [List.countP_append, List.countP_singleton, hid]
    simp
  have hleft := h.left t htin
  have httl := h.integrity.ttl t htin
  refine ⟨h.integrity.handled ht hz ht', ?_, ?_, ?_, ?_, ?_, ?_⟩
  · intro b hb
    show b.announce.id < s'.db.announcements.length
    rw [ht'.announcements]
    rcases hlast hb with hb | rfl
    · exact h.known b hb
    · obtain ⟨_, _, hget, -⟩ := h.integrity.queued t htin
      rw [hid]
      exact (List.getElem?_eq_some_iff.mp hget).1
  · intro b hb x hx hbx own hown m hm
    rcases hmem hx with rfl | ⟨hx, hne⟩
    · cases hu'.symm.trans hown
      rcases hlast hb with hb | rfl
      · exact List.mem_append_left _
          (h.listed b hb t htin (ht'.id.symm.trans hbx) users hu m hm)
      · exact List.mem_append_right _ (List.mem_map_of_mem hm)
    · rcases hlast hb with hb | rfl
      · exact h.listed b hb x hx hbx own hown m hm
      · exact absurd (hbx.trans hid) hne
  · intro b hb m hm
    rcases hlast hb with hb | rfl
    · exact h.author b hb m hm
    · intro heq
      exact hnew m hm (heq ▸ hin)
  · rw [List.flatMap_append, List.nodup_append]
    refine ⟨h.once, ?_, ?_⟩
    · simp only [List.flatMap_cons, List.flatMap_nil, List.append_nil, Broadcast.deliveries]
      have hinj := hnodup.map (f := fun u => (a.id, u)) (fun u v huv => (Prod.mk.inj huv).2)
      simpa [Function.comp_def] using hinj
    · rintro p hp q hq rfl
      obtain ⟨b, hb, hbp⟩ := List.mem_flatMap.mp hp
      obtain ⟨m₀, hm₀, rfl⟩ := List.mem_map.mp hbp
      have hq' : (b.announce.id, m₀.user) ∈ mails.map (fun m => (a.id, m.user)) := by
        simpa [Broadcast.deliveries] using hq
      obtain ⟨m, hm, heq⟩ := List.mem_map.mp hq'
      obtain ⟨hida, huser⟩ := Prod.mk.inj heq
      have hold := h.listed b hb t htin (hid.symm.trans hida) users hu m₀ hm₀
      exact hnew m hm (huser ▸ hold)
  · intro id
    rw [hcount]
    have hv := h.visits id
    split
    · rename_i heq
      subst heq
      omega
    · exact hv
  · intro x hx
    rw [hcount]
    rcases hmem hx with rfl | ⟨hx, hne⟩
    · rw [ht'.id, ht'.ttl, if_pos rfl]
      omega
    · rw [if_neg (Ne.symm hne)]
      exact h.left x hx

end Round

end Sent

variable [Number F] [DecidableEq D] {sha1 : String → D}

/-- What holds between the rounds of a dispatch run after broadcasts `past`. -/
structure Delivering (run : Dispatch) (past : List Broadcast) (db : Database F D)
    (s : Scope F D) : Prop where
  between : Between db s
  sent : Sent (past ++ s.outbox) s.db
  recipients : ∀ b ∈ s.outbox, (b.mails.map Mail.user).Nodup ∧
    ∀ m ∈ b.mails, m.user ∈ run.passwd

section Run

variable {run : Dispatch} {past : List Broadcast} {db : Database F D}

theorem Delivering.round {s s' : Scope F D} {i : Nat} {t t' : Task F} (hp : run.passwd.Nodup)
    (h : Delivering run past db s) (ht : s.db.spool[i]? = some t) (hz : t.ttl ≠ 0)
    (hc : handleTask sha1 run s t (db.announcements.find? (fun a => a.id = t.id)) =
      some (s', t')) :
    Delivering run past db { s' with db := { s'.db with spool := s'.db.spool.set i t' } } := by
  obtain ⟨hb, a, users, hid, hu, hin, hh⟩ := h.between.round ht hz hc
  rcases hh.sent with ⟨ho, hu'⟩ | ⟨own, mails, hown, hu', ho, hsub⟩
  · refine ⟨hb, ?_, ?_⟩
    · show Sent (past ++ s'.outbox) _
      rw [ho]
      exact h.sent.skip ht hz hh hu'
    · show ∀ b ∈ s'.outbox, _
      rw [ho]
      exact h.recipients
  · cases hown.symm.trans hu
    have hwithout : (without run.passwd users).Nodup := hp.filter _
    have hmem (m : Mail) (hm : m ∈ mails) : m.user ∈ run.passwd ∧ m.user ∉ users := by
      have hw := hsub.subset (List.mem_map_of_mem hm)
      simpa [without] using hw
    have hnodup : (mails.map Mail.user).Nodup := by
      obtain ⟨l, hperm, hsubl⟩ := hsub
      exact hperm.nodup_iff.mp (hwithout.sublist hsubl)
    refine ⟨hb, ?_, ?_⟩
    · show Sent (past ++ s'.outbox) _
      rw [ho, ← List.append_assoc]
      exact h.sent.broadcast ht hz hh hid hu hin hu' (fun m hm => (hmem m hm).2) hnodup
    · show ∀ b ∈ s'.outbox, _
      rw [ho]
      intro b hb
      rcases List.mem_append.mp hb with hb | hb
      · exact h.recipients b hb
      · cases List.mem_singleton.mp hb
        exact ⟨hnodup, fun m hm => (hmem m hm).1⟩

theorem Dispatch.main_delivering (hp : run.passwd.Nodup) (h : Sent past db) {s : Scope F D}
    (hm : Dispatch.main sha1 run db = some s) : Delivering run past db s := by
  refine Dispatch.main_invariant (I := Delivering run past db) ?_ ?_ ?_ hm
  · refine ⟨Between.start h.integrity, ?_, by simp [getScope]⟩
    simpa [getScope] using h
  · intro s i t hs _ _
    exact ⟨hs.between.erase i, hs.sent.erase i, hs.recipients⟩
  · intro s i t s' t' hs ht hz hc
    exact hs.round hp ht hz hc

end Run

variable (sha1) in
/-- One job, run to its end, extends what has been sent by what it broadcasts. -/
theorem Job.exec_sent {past : List Broadcast} {db : Database F D} (job : Job)
    (hp : ∀ run, job = .dispatch run → run.passwd.Nodup) (h : Sent past db) :
    Sent (past ++ job.outbox sha1 db) (job.exec sha1 db) := by
  cases job with
  | request req =>
    have hout : (Job.request req).outbox sha1 db = [] := by
      rw [Job.outbox]
      cases hm : (Job.request req).main sha1 db with
      | none => rfl
      | some s => exact (Request.main_lists hm).1
    rw [hout, List.append_nil]
    refine Job.exec_induction h ?_
    intro s hm
    rcases (Request.main_lists hm).2 with ⟨ha, hs⟩ | ha
    · exact h.congr ha hs
    · exact Sent.accepted h ha
  | dispatch run =>
    obtain ⟨s, hm⟩ := Option.isSome_iff_exists.mp
      (Dispatch.main_isSome_of_integrity sha1 run h.integrity)
    have hjob : (Job.dispatch run).main sha1 db = some s := hm
    have hout : (Job.dispatch run).outbox sha1 db = s.outbox := by simp [Job.outbox, hjob]
    rw [hout, Job.exec_of_dirty hjob (Dispatch.main_dirty hm)]
    exact (Dispatch.main_delivering (hp run rfl) h hm).sent

variable (sha1) in
theorem runJobs_sent {jobs : List Job} {past : List Broadcast} {db : Database F D}
    (hp : ∀ run, Job.dispatch run ∈ jobs → run.passwd.Nodup) (h : Sent past db) :
    Sent (past ++ (broadcasts sha1 jobs db).flatten) (runJobs sha1 jobs db) := by
  induction jobs generalizing past db with
  | nil => simpa [broadcasts, runJobs] using h
  | cons job jobs ih =>
    have h₁ := job.exec_sent sha1 (fun run hr => hp run (hr ▸ List.mem_cons_self)) h
    have h₂ := ih (fun run hr => hp run (List.mem_cons_of_mem _ hr)) h₁
    rw [broadcasts, List.flatten_cons, ← List.append_assoc]
    exact h₂

/-- The e-mails of one broadcast go to distinct accounts. -/
theorem broadcasts_recipients {jobs : List Job} {past : List Broadcast} {db : Database F D}
    (hp : ∀ run, Job.dispatch run ∈ jobs → run.passwd.Nodup) (h : Sent past db) {k : Nat}
    {run : Dispatch} (hk : jobs[k]? = some (.dispatch run)) {sent : List Broadcast}
    (hs : (broadcasts sha1 jobs db)[k]? = some sent) {b : Broadcast} (hb : b ∈ sent) :
    (b.mails.map Mail.user).Nodup ∧ ∀ m ∈ b.mails, m.user ∈ run.passwd := by
  induction jobs generalizing past db k with
  | nil => simp at hk
  | cons job jobs ih =>
    cases k with
    | zero =>
      cases hk
      obtain ⟨s, hm⟩ := Option.isSome_iff_exists.mp
        (Dispatch.main_isSome_of_integrity sha1 run h.integrity)
      have hout : sent = s.outbox := by
        simpa [broadcasts, Job.outbox, Job.main, hm, eq_comm] using hs
      rw [hout] at hb
      exact (Dispatch.main_delivering (hp run List.mem_cons_self) h hm).recipients b hb
    | succ k =>
      have h₁ := job.exec_sent sha1 (fun run hr => hp run (hr ▸ List.mem_cons_self)) h
      exact ih (fun run hr => hp run (List.mem_cons_of_mem _ hr)) h₁ hk hs

/-- At most as many runs as broadcasts concern an announcement. -/
theorem countP_any_le {α : Type} (p : α → Bool) (runs : List (List α)) :
    runs.countP (fun run => run.any p) ≤ runs.flatten.countP p := by
  induction runs with
  | nil => exact Nat.le_refl _
  | cons run runs ih =>
    have hrun : (if run.any p = true then 1 else 0) ≤ run.countP p := by
      split
      · rename_i hany
        obtain ⟨x, hx, hpx⟩ := List.any_eq_true.mp hany
        exact List.countP_pos_iff.mpr ⟨x, hx, hpx⟩
      · exact Nat.zero_le _
    rw [List.countP_cons, List.flatten_cons, List.countP_append]
    omega

/-- From a sound queue, each announcement is broadcast in at most three runs, to nobody twice and
never to its author, and each broadcast goes to distinct accounts. -/
theorem broadcasts_unique (sha1 : String → D) (jobs : List Job) (db : Database F D)
    (h : Integrity db) (hp : ∀ run, Job.dispatch run ∈ jobs → run.passwd.Nodup) :
    (∀ id, (broadcasts sha1 jobs db).countP (fun sent => sent.any (fun b => b.announce.id = id)) ≤
      3) ∧
    ((broadcasts sha1 jobs db).flatten.flatMap Broadcast.deliveries).Nodup ∧
    (∀ b ∈ (broadcasts sha1 jobs db).flatten, ∀ m ∈ b.mails, m.user ≠ b.announce.user) ∧
    ∀ (k : Nat) (run : Dispatch) (sent : List Broadcast), jobs[k]? = some (.dispatch run) →
      (broadcasts sha1 jobs db)[k]? = some sent → ∀ b ∈ sent,
        (b.mails.map Mail.user).Nodup ∧ ∀ m ∈ b.mails, m.user ∈ run.passwd := by
  have hs := runJobs_sent sha1 hp (Sent.start h)
  rw [List.nil_append] at hs
  refine ⟨?_, hs.once, hs.author, ?_⟩
  · intro id
    exact (countP_any_le _ _).trans (hs.visits id)
  · intro k run sent hk hsent b hb
    exact broadcasts_recipients hp (Sent.start h) hk hsent hb

theorem annAndBob_nodup (n : Nat) (run : Dispatch)
    (h : Job.dispatch run ∈ List.replicate n (Job.dispatch annAndBob)) : run.passwd.Nodup := by
  cases List.eq_of_mem_replicate h
  decide

theorem queueOf_integrity (score : Rat) :
    Integrity (queueOf "ann" [⟨0, 3, none, score, some ["ann"]⟩]) := by
  refine ⟨?_, ?_, List.nodup_singleton _, ?_⟩
  · intro i a ha
    obtain ⟨hi, rfl⟩ := List.getElem?_eq_some_iff.mp ha
    have hi : i = 0 := by simpa [queueOf] using hi
    subst hi
    rfl
  · intro t ht
    cases List.mem_singleton.mp ht
    exact ⟨_, _, rfl, rfl, List.mem_singleton_self _⟩
  · intro t ht
    cases List.mem_singleton.mp ht
    show (0 : Int) ≤ 3 ∧ (3 : Int) ≤ 3
    decide

theorem broadcasts_unique_pair :
    (broadcasts id (List.replicate 5 (.dispatch annAndBob))
      (queueOf "ann" [⟨0, 3, none, 1, some ["ann"]⟩])).countP
        (fun sent => sent.any (fun b => b.announce.id = 0)) ≤ 3 :=
  (broadcasts_unique id _ _ (queueOf_integrity 1) (annAndBob_nodup 5)).1 0

/-- With two tasks for one announcement, bob gets it twice in one run. -/
theorem not_broadcasts_unique :
    ¬ ∀ (db : Database Rat String) (jobs : List Job),
      (∀ run, Job.dispatch run ∈ jobs → run.passwd.Nodup) →
      ((broadcasts id jobs db).flatten.flatMap Broadcast.deliveries).Nodup := by
  intro h
  have hnodup := h (queueOf "ann" [⟨0, 3, none, 1, some ["ann"]⟩, ⟨0, 3, none, 1, some ["ann"]⟩])
    (List.replicate 1 (.dispatch annAndBob)) (annAndBob_nodup 1)
  revert hnodup
  decide +kernel

end HackerUnion.Announce
