import HackerUnion.Announce.Frame

namespace HackerUnion.Announce

open Js

variable {F D : Type}

section Lists

variable {α β : Type} {f : α → β} {l : List α} {i : Nat} {a b : α}

theorem map_set_same (hi : l[i]? = some b) (h : f a = f b) : (l.set i a).map f = l.map f := by
  obtain ⟨hlt, rfl⟩ := List.getElem?_eq_some_iff.mp hi
  have hmap : i < (l.map f).length := by simpa using hlt
  have hget : f a = (l.map f)[i] := by rw [h, List.getElem_map]
  rw [List.map_set, hget, List.set_getElem_self]

/-- With distinct keys, what is left of the list besides the new element has other keys. -/
theorem mem_set_other (hn : (l.map f).Nodup) (hi : l[i]? = some b) {x : α} (hx : x ∈ l.set i a) :
    x = a ∨ x ∈ l ∧ f x ≠ f b := by
  obtain ⟨hlt, rfl⟩ := List.getElem?_eq_some_iff.mp hi
  obtain ⟨j, hj, rfl⟩ := List.getElem_of_mem hx
  rw [List.length_set] at hj
  rw [List.getElem_set]
  split
  · exact Or.inl rfl
  · rename_i hij
    refine Or.inr ⟨List.getElem_mem hj, ?_⟩
    intro hf
    have hjm : j < (l.map f).length := by simpa using hj
    have him : i < (l.map f).length := by simpa using hlt
    have hkeys : (l.map f)[j] = (l.map f)[i] := by simpa using hf
    have hji : j = i := hn.getElem_inj_iff.mp hkeys
    exact hij hji.symm

end Lists

section Rounds

variable {map : Obj Nat (Option Announcement)}
  {cb : Scope F D → Task F → Option Announcement → Option (Scope F D × Task F)}
  {I : Scope F D → Prop}

/-- A round either drops an expired task or puts the callback's task in its place. -/
theorem processFrom_invariant
    (hexpire : ∀ s i t, I s → s.db.spool[i]? = some t → t.ttl = 0 →
      I { s with db := { s.db with spool := s.db.spool.eraseIdx i } })
    (hcb : ∀ s i t s' t', I s → s.db.spool[i]? = some t → t.ttl ≠ 0 →
      cb s t (map.get t.id).join = some (s', t') →
      I { s' with db := { s'.db with spool := s'.db.spool.set i t' } })
    (n i : Nat) {s s' : Scope F D} (hs : I s) (h : processFrom map cb n i s = some s') : I s' := by
  induction n generalizing i s with
  | zero =>
    cases h
    exact hs
  | succ n ih =>
    rw [processFrom] at h
    split at h
    · exact ih (i + 1) hs h
    · rename_i t ht
      split at h
      · rename_i hz
        exact ih (i + 1) (hexpire s i t hs ht hz) h
      · rename_i hz
        obtain ⟨⟨s₁, t₁⟩, hc, h⟩ := Option.bind_eq_some_iff.mp h
        exact ih (i + 1) (hcb s i t s₁ t₁ hs ht hz hc) h

theorem processFrom_isSome
    (hexpire : ∀ s i t, I s → s.db.spool[i]? = some t → t.ttl = 0 →
      I { s with db := { s.db with spool := s.db.spool.eraseIdx i } })
    (hcb : ∀ s i t, I s → s.db.spool[i]? = some t → t.ttl ≠ 0 →
      ∃ s' t', cb s t (map.get t.id).join = some (s', t') ∧
        I { s' with db := { s'.db with spool := s'.db.spool.set i t' } })
    (n i : Nat) {s : Scope F D} (hs : I s) : (processFrom map cb n i s).isSome = true := by
  induction n generalizing i s with
  | zero => rfl
  | succ n ih =>
    rw [processFrom]
    split
    · exact ih (i + 1) hs
    · rename_i t ht
      split
      · rename_i hz
        exact ih (i + 1) (hexpire s i t hs ht hz)
      · rename_i hz
        obtain ⟨s₁, t₁, hc, h₁⟩ := hcb s i t hs ht hz
        rw [hc]
        exact ih (i + 1) h₁

end Rounds

theorem getAnnounceMap_get (s : Scope F D) (id : Nat) :
    ((getAnnounceMap s).get id).join = s.db.announcements.find? (fun a => a.id = id) :=
  get_first_groupBy Announcement.id s.db.announcements id

section Task

variable [Number F]

private theorem targetUsers_fold (topics users : List String) (acc : Scope F D × List String) :
    let r := users.foldl
      (fun (scope, found) user =>
        let scope := getProfile scope user
        (scope, if targets (topicsOf scope user) topics then found ++ [user] else found)) acc
    Frame acc.1 r.1 ∧ r.1.dirty = acc.1.dirty ∧
      ∃ found, r.2 = acc.2 ++ found ∧ found.Sublist users := by
  induction users generalizing acc with
  | nil => exact ⟨Frame.refl acc.1, rfl, [], (List.append_nil _).symm, List.Sublist.refl _⟩
  | cons user users ih =>
    obtain ⟨s, found⟩ := acc
    obtain ⟨hf, hd, rest, hr, hsub⟩ := ih (getProfile s user,
      if targets (topicsOf (getProfile s user) user) topics then found ++ [user] else found)
    refine ⟨(getProfile_frame s user).trans hf, hd.trans (getProfile_dirty s user), ?_⟩
    by_cases ht : targets (topicsOf (getProfile s user) user) topics = true
    · refine ⟨user :: rest, ?_, hsub.cons_cons user⟩
      simpa [ht] using hr
    · refine ⟨rest, ?_, hsub.cons user⟩
      simpa [ht] using hr

theorem targetUsers_frame (s : Scope F D) (users topics : List String) :
    Frame s (targetUsers s users topics).1 :=
  (targetUsers_fold topics users (s, [])).1

theorem targetUsers_dirty (s : Scope F D) (users topics : List String) :
    (targetUsers s users topics).1.dirty = s.dirty :=
  (targetUsers_fold topics users (s, [])).2.1

theorem targetUsers_sublist (s : Scope F D) (users topics : List String) :
    (targetUsers s users topics).2.Sublist users := by
  obtain ⟨-, -, found, hfound, hsub⟩ := targetUsers_fold topics users (s, [])
  rw [List.nil_append] at hfound
  rw [targetUsers, hfound]
  exact hsub

theorem chooseByScore_subperm (draw : Nat → Nat) (score : F) (inc exc : List String) :
    (chooseByScore draw score inc exc).Subperm (without inc exc) :=
  sample_subperm draw _ _

variable [DecidableEq D] {sha1 : String → D} {run : Dispatch}

omit [Number F] in
variable (sha1 run) in
/-- Only tokens are made while a broadcast is sent, and each recipient gets one e-mail. -/
theorem broadcastTo_fold (a : Announcement) (rcpt : List String)
    (sent : Scope F D × List Mail) :
    let r := rcpt.foldl (broadcastTo sha1 run a) sent
    r.1.db.announcements = sent.1.db.announcements ∧ r.1.db.spool = sent.1.db.spool ∧
    r.1.db.users = sent.1.db.users ∧ r.1.builtins = sent.1.builtins ∧
    r.1.outbox = sent.1.outbox ∧ r.1.rounds = sent.1.rounds ∧
    r.2.map Mail.user = sent.2.map Mail.user ++ rcpt := by
  induction rcpt generalizing sent with
  | nil => simp
  | cons user rcpt ih =>
    obtain ⟨ha, hs, hu, hb, ho, hr, hm⟩ := ih (broadcastTo sha1 run a sent user)
    refine ⟨ha, hs, hu, hb, ho, hr, hm.trans ?_⟩
    simp [broadcastTo]

variable (sha1 run) in
theorem broadcast_lists (a : Announcement) (s : Scope F D) (rcpt : List String) :
    let s' := broadcast sha1 run a s rcpt
    s'.db.announcements = s.db.announcements ∧ s'.db.spool = s.db.spool ∧
    ∃ mails, mails.map Mail.user = rcpt ∧ s'.outbox = s.outbox ++ [⟨a, mails⟩] := by
  obtain ⟨ha, hs, -, -, ho, -, hm⟩ := broadcastTo_fold sha1 run a rcpt (s, [])
  have hf := (setReputation_frame (rcpt.foldl (broadcastTo sha1 run a) (s, [])).1 a.user
    { reputation (rcpt.foldl (broadcastTo sha1 run a) (s, [])).1 a.user with
      total := (reputation (rcpt.foldl (broadcastTo sha1 run a) (s, [])).1 a.user).total +
        rcpt.length }).trans (setProfile_frame _ a.user)
  exact ⟨hf.announcements.trans ha, hf.spool.trans hs, _, hm,
    congrArg (· ++ [_]) (hf.outbox.trans ho)⟩

/-- What the callback does to a task and to the queue around it. The new recipients are some of the
accounts that the task does not list yet. -/
structure Handled (run : Dispatch) (a : Announcement) (s s' : Scope F D) (t t' : Task F) :
    Prop where
  announcements : s'.db.announcements = s.db.announcements
  spool : s'.db.spool = s.db.spool
  id : t'.id = t.id
  ttl : t'.ttl = t.ttl - 1
  sent : (s'.outbox = s.outbox ∧ t'.users = t.users) ∨
    ∃ users mails, t.users = some users ∧ t'.users = some (users ++ mails.map Mail.user) ∧
      s'.outbox = s.outbox ++ [⟨a, mails⟩] ∧
      (mails.map Mail.user).Subperm (without run.passwd users)

/-- The scope and the recipients the callback has found when it decides about the broadcast. -/
def prepareTask (run : Dispatch) (s : Scope F D) (t : Task F) (a : Announcement) :
    Scope F D × List String :=
  let (s, inc) := targetUsers s run.passwd a.topics
  (getProfile s a.user, chooseByScore (run.draw s.rounds) t.score inc (t.users.getD []))

omit [DecidableEq D] in
theorem prepareTask_frame (run : Dispatch) (s : Scope F D) (t : Task F) (a : Announcement) :
    Frame s (prepareTask run s t a).1 :=
  (targetUsers_frame s run.passwd a.topics).trans (getProfile_frame _ a.user)

omit [DecidableEq D] in
theorem prepareTask_dirty (run : Dispatch) (s : Scope F D) (t : Task F) (a : Announcement) :
    (prepareTask run s t a).1.dirty = s.dirty :=
  (getProfile_dirty _ a.user).trans (targetUsers_dirty s run.passwd a.topics)

omit [DecidableEq D] in
theorem prepareTask_subperm (run : Dispatch) (s : Scope F D) (t : Task F) (a : Announcement) :
    (prepareTask run s t a).2.Subperm (without run.passwd (t.users.getD [])) := by
  have hsub := (targetUsers_sublist s run.passwd a.topics).filter (fun u => u ∉ t.users.getD [])
  exact (chooseByScore_subperm _ _ _ _).trans hsub.subperm

/-- It broadcasts or skips the task, and counts the round either way. -/
theorem handleTask_cases {s s' : Scope F D} {t t' : Task F} {a : Announcement}
    (h : handleTask sha1 run s t (some a) = some (s', t')) :
    t'.id = t.id ∧ t'.ttl = t.ttl - 1 ∧
    ((∃ users, t.users = some users ∧ t'.users = some (users ++ (prepareTask run s t a).2) ∧
        ∃ n, s' = { broadcast sha1 run a (prepareTask run s t a).1 (prepareTask run s t a).2 with
          rounds := n }) ∨
      (t'.users = t.users ∧ ∃ n, s' = { (prepareTask run s t a).1 with rounds := n })) := by
  simp only [handleTask, Option.bind_eq_bind, Option.bind_some] at h
  split at h
  · obtain ⟨users, hu, h⟩ := Option.bind_eq_some_iff.mp h
    cases h
    exact ⟨rfl, rfl, Or.inl ⟨users, hu, rfl, _, rfl⟩⟩
  · cases h
    exact ⟨rfl, rfl, Or.inr ⟨rfl, _, rfl⟩⟩

variable (sha1 run) in
theorem handleTask_isSome (s : Scope F D) {t : Task F} (a : Announcement)
    (hu : t.users.isSome = true) :
    ∃ s' t', handleTask sha1 run s t (some a) = some (s', t') := by
  obtain ⟨users, hu⟩ := Option.isSome_iff_exists.mp hu
  simp only [handleTask, hu, Option.bind_eq_bind, Option.bind_some]
  split <;> exact ⟨_, _, rfl⟩

theorem handleTask_spec {s s' : Scope F D} {t t' : Task F} {a : Announcement}
    (h : handleTask sha1 run s t (some a) = some (s', t')) : Handled run a s s' t t' := by
  have hp := prepareTask_frame run s t a
  have hsub := prepareTask_subperm run s t a
  obtain ⟨hid, httl, ⟨users, hu, hu', n, rfl⟩ | ⟨hu', n, rfl⟩⟩ := handleTask_cases h
  · have hb := broadcast_lists sha1 run a (prepareTask run s t a).1
      (prepareTask run s t a).2
    obtain ⟨ha, hs, mails, hm, ho⟩ := hb
    refine ⟨ha.trans hp.announcements, hs.trans hp.spool, hid, httl, Or.inr ⟨users, mails, hu, ?_,
      ?_, ?_⟩⟩
    · rw [hu', hm]
    · exact ho.trans (congrArg (· ++ _) hp.outbox)
    · rw [hm]
      simpa [hu] using hsub
  · exact ⟨hp.announcements, hp.spool, hid, httl, Or.inl ⟨hp.outbox, hu'⟩⟩

theorem handleTask_dirty {s s' : Scope F D} {t t' : Task F} {a : Announcement}
    (h : handleTask sha1 run s t (some a) = some (s', t')) (hd : s.dirty = true) :
    s'.dirty = true := by
  obtain ⟨-, -, ⟨users, -, -, n, rfl⟩ | ⟨-, n, rfl⟩⟩ := handleTask_cases h
  · rfl
  · exact (prepareTask_dirty run s t a).trans hd

/-- What the rounds of a dispatch run keep holds of the database it ends with. -/
theorem Dispatch.main_invariant {I : Scope F D → Prop} {db : Database F D} {s' : Scope F D}
    (h0 : I { getScope db "" with dirty := true })
    (hexpire : ∀ s i t, I s → s.db.spool[i]? = some t → t.ttl = 0 →
      I { s with db := { s.db with spool := s.db.spool.eraseIdx i } })
    (hcb : ∀ s i t s' t', I s → s.db.spool[i]? = some t → t.ttl ≠ 0 →
      handleTask sha1 run s t (db.announcements.find? (fun a => a.id = t.id)) = some (s', t') →
      I { s' with db := { s'.db with spool := s'.db.spool.set i t' } })
    (h : Dispatch.main sha1 run db = some s') : I s' := by
  refine processFrom_invariant hexpire ?_ _ _ h0 h
  intro s i t s₁ t₁ hs ht hz hc
  rw [getAnnounceMap_get] at hc
  exact hcb s i t s₁ t₁ hs ht hz hc

/-- A dispatch run always writes the file. -/
theorem Dispatch.main_dirty {db : Database F D} {s : Scope F D}
    (h : Dispatch.main sha1 run db = some s) : s.dirty = true := by
  refine Dispatch.main_invariant (I := fun s => s.dirty = true) rfl (fun _ _ _ hs _ _ => hs) ?_ h
  intro s i t s' t' hs _ _ hc
  cases ha : db.announcements.find? (fun a => a.id = t.id) with
  | none =>
    rw [ha] at hc
    cases hc
  | some a =>
    rw [ha] at hc
    have hd : s'.dirty = true := handleTask_dirty hc hs
    exact hd

theorem Dispatch.main_isSome {I : Scope F D → Prop} {db : Database F D}
    (h0 : I { getScope db "" with dirty := true })
    (hexpire : ∀ s i t, I s → s.db.spool[i]? = some t → t.ttl = 0 →
      I { s with db := { s.db with spool := s.db.spool.eraseIdx i } })
    (hcb : ∀ s i t, I s → s.db.spool[i]? = some t → t.ttl ≠ 0 → ∃ s' t',
      handleTask sha1 run s t (db.announcements.find? (fun a => a.id = t.id)) = some (s', t') ∧
      I { s' with db := { s'.db with spool := s'.db.spool.set i t' } }) :
    (Dispatch.main sha1 run db).isSome = true := by
  refine processFrom_isSome hexpire ?_ _ _ h0
  intro s i t hs ht hz
  rw [getAnnounceMap_get]
  exact hcb s i t hs ht hz

end Task

end HackerUnion.Announce
