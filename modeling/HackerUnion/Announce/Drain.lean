import HackerUnion.Announce.Queue
import HackerUnion.Announce.Runs
import Mathlib.Algebra.BigOperators.Group.List.Basic
import Mathlib.Data.List.InsertIdx

namespace HackerUnion.Announce

open Js

variable {F D : Type}

section Lists

variable {α : Type} (f : α → Nat) {l : List α} {i : Nat} {b : α}

theorem sum_map_eraseIdx (h : l[i]? = some b) :
    f b + ((l.eraseIdx i).map f).sum = (l.map f).sum := by
  obtain ⟨hlt, rfl⟩ := List.getElem?_eq_some_iff.mp h
  have hmap : i < (l.map f).length := by simpa using hlt
  have hsum := List.CommMonoid.add_sum_eraseIdx hmap
  rwa [List.getElem_map, List.eraseIdx_map] at hsum

theorem sum_map_set (h : l[i]? = some b) (a : α) :
    ((l.set i a).map f).sum + f b = (l.map f).sum + f a := by
  have hlt := (List.getElem?_eq_some_iff.mp h).1
  have hset : (l.set i a)[i]? = some a := by simp [hlt]
  have hnew := sum_map_eraseIdx f hset
  have hold := sum_map_eraseIdx f h
  rw [List.eraseIdx_set_eq] at hnew
  omega

end Lists

/-- How many runs a task can take: its rounds and the one that drops it. -/
def Task.cost (t : Task F) : Nat := (t.ttl + 1).toNat

def weight (db : Database F D) : Nat := (db.spool.map Task.cost).sum

/-- No negative ttl, and each task that has rounds left can be worked on. -/
def Drainable (db : Database F D) : Prop :=
  ∀ t ∈ db.spool, 0 ≤ t.ttl ∧
    (t.ttl ≠ 0 → (db.announcements.find? (fun a => a.id = t.id)).isSome = true ∧
      t.users.isSome = true)

section Rounds

variable {db : Database F D} {s s' : Scope F D} {i : Nat} {t t' : Task F} {a : Announcement}
  {run : Dispatch}

theorem Drainable.drop (h : Drainable db) (i : Nat) :
    Drainable { db with spool := db.spool.eraseIdx i } :=
  fun t ht => h t ((List.eraseIdx_sublist db.spool i).subset ht)

theorem weight_drop (ht : db.spool[i]? = some t) (hz : t.ttl = 0) :
    weight { db with spool := db.spool.eraseIdx i } + 1 = weight db := by
  have hsum := sum_map_eraseIdx Task.cost ht
  have hcost : t.cost = 1 := by simp [Task.cost, hz]
  show ((db.spool.eraseIdx i).map Task.cost).sum + 1 = (db.spool.map Task.cost).sum
  omega

theorem Drainable.round (h : Drainable s.db) (ht : s.db.spool[i]? = some t) (hz : t.ttl ≠ 0)
    (hh : Handled run a s s' t t') :
    Drainable { s'.db with spool := s'.db.spool.set i t' } := by
  intro x hx
  show 0 ≤ x.ttl ∧ (x.ttl ≠ 0 → (s'.db.announcements.find? (fun a => a.id = x.id)).isSome = true ∧ _)
  have hset : x ∈ s.db.spool.set i t' := hh.spool ▸ hx
  rw [hh.announcements]
  rcases List.mem_or_eq_of_mem_set hset with hx | rfl
  · exact h x hx
  · obtain ⟨hpos, hwork⟩ := h t (List.mem_of_getElem? ht)
    obtain ⟨hfind, husers⟩ := hwork hz
    have httl := hh.ttl
    refine ⟨by omega, fun _ => ⟨?_, ?_⟩⟩
    · rw [hh.id]
      exact hfind
    · rcases hh.sent with ⟨-, hu⟩ | ⟨users, mails, -, hu, -⟩
      · rw [hu]
        exact husers
      · rw [hu]
        rfl

theorem weight_round (hpos : 0 < t.ttl) (ht : s.db.spool[i]? = some t)
    (hh : Handled run a s s' t t') :
    weight { s'.db with spool := s'.db.spool.set i t' } + 1 = weight s.db := by
  have hsum := sum_map_set Task.cost ht t'
  have hcost : t'.cost + 1 = t.cost := by
    have httl := hh.ttl
    simp only [Task.cost]
    omega
  show ((s'.db.spool.set i t').map Task.cost).sum + 1 = (s.db.spool.map Task.cost).sum
  rw [hh.spool]
  omega

end Rounds

variable [Number F] [DecidableEq D] {sha1 : String → D} {run : Dispatch}

/-- What holds between the rounds of a run that loaded `db`, with `n` runs' worth of work left. -/
structure Draining (db : Database F D) (n : Nat) (s : Scope F D) : Prop where
  announcements : s.db.announcements = db.announcements
  drainable : Drainable s.db
  weight : weight s.db ≤ n

section Run

variable {db : Database F D} {n : Nat} {s : Scope F D}

omit [Number F] [DecidableEq D] in
theorem Draining.drop {i : Nat} {t : Task F} (h : Draining db n s) (ht : s.db.spool[i]? = some t)
    (hz : t.ttl = 0) :
    Draining db (n - 1) { s with db := { s.db with spool := s.db.spool.eraseIdx i } } := by
  have hw := (weight_drop ht hz).le.trans h.weight
  exact ⟨h.announcements, h.drainable.drop i, Nat.le_sub_of_add_le hw⟩

variable (sha1 run) in
/-- The callback works on every task it is given, and takes one round off it. -/
theorem Draining.round {i : Nat} {t : Task F} (h : Draining db n s) (ht : s.db.spool[i]? = some t)
    (hz : t.ttl ≠ 0) :
    ∃ s' t', handleTask sha1 run s t (db.announcements.find? (fun a => a.id = t.id)) =
        some (s', t') ∧
      Draining db (n - 1) { s' with db := { s'.db with spool := s'.db.spool.set i t' } } := by
  obtain ⟨hpos, hwork⟩ := h.drainable t (List.mem_of_getElem? ht)
  obtain ⟨hfind, husers⟩ := hwork hz
  rw [h.announcements] at hfind
  obtain ⟨a, ha⟩ := Option.isSome_iff_exists.mp hfind
  obtain ⟨s', t', hc⟩ := handleTask_isSome sha1 run s a husers
  have hh := handleTask_spec hc
  have hw := (weight_round (by omega) ht hh).le.trans h.weight
  refine ⟨s', t', by rw [ha]; exact hc, ?_⟩
  exact ⟨hh.announcements.trans h.announcements, h.drainable.round ht hz hh,
    Nat.le_sub_of_add_le hw⟩

omit [Number F] [DecidableEq D] in
theorem Draining.mono {m : Nat} (h : Draining db n s) (hnm : n ≤ m) : Draining db m s :=
  ⟨h.announcements, h.drainable, h.weight.trans hnm⟩

variable (sha1 run) in
/-- The rounds from index `i` on never fail and never add work. -/
theorem Draining.rounds (map : Obj Nat (Option Announcement))
    (hmap : ∀ id, (map.get id).join = db.announcements.find? (fun a => a.id = id)) (k i : Nat)
    (h : Draining db n s) :
    ∃ s', processFrom map (handleTask sha1 run) k i s = some s' ∧ Draining db n s' := by
  have hround (s : Scope F D) (i : Nat) (t : Task F) (hs : Draining db n s)
      (ht : s.db.spool[i]? = some t) (hz : t.ttl ≠ 0) :
      ∃ s' t', handleTask sha1 run s t (map.get t.id).join = some (s', t') ∧
        Draining db n { s' with db := { s'.db with spool := s'.db.spool.set i t' } } := by
    obtain ⟨s', t', hc, hd⟩ := hs.round sha1 run ht hz
    rw [hmap]
    exact ⟨s', t', hc, hd.mono (Nat.sub_le n 1)⟩
  have hdrop (s : Scope F D) (i : Nat) (t : Task F) (hs : Draining db n s)
      (ht : s.db.spool[i]? = some t) (hz : t.ttl = 0) :
      Draining db n { s with db := { s.db with spool := s.db.spool.eraseIdx i } } :=
    (hs.drop ht hz).mono (Nat.sub_le n 1)
  obtain ⟨s', hs'⟩ := Option.isSome_iff_exists.mp (processFrom_isSome hdrop hround k i h)
  refine ⟨s', hs', processFrom_invariant hdrop ?_ k i h hs'⟩
  intro s i t s₁ t₁ hs ht hz hc
  obtain ⟨s₂, t₂, hc₂, hd⟩ := hround s i t hs ht hz
  cases hc.symm.trans hc₂
  exact hd

/-- A dispatch run succeeds, and takes at least one round off a queue that is not empty: the first
task is always looked at, whatever the removals make it skip after that. -/
theorem Dispatch.main_drains (sha1 : String → D) (run : Dispatch) (h : Drainable db) :
    ∃ s, Dispatch.main sha1 run db = some s ∧ Draining db (weight db - 1) s := by
  have hmap (id : Nat) := getAnnounceMap_get (getScope db "") id
  have h0 : Draining db (weight db) { getScope db "" with dirty := true } := ⟨rfl, h, le_refl _⟩
  cases hspool : db.spool with
  | nil =>
    refine ⟨{ getScope db "" with dirty := true }, ?_, rfl, h, ?_⟩
    · simp [Dispatch.main, handleDispatch, processQueue, getScope, hspool, processFrom]
    · simp [weight, getScope, hspool]
  | cons t rest =>
    have ht : db.spool[0]? = some t := by rw [hspool]; rfl
    have hlen : db.spool.length = rest.length + 1 := by rw [hspool]; rfl
    have hmain : Dispatch.main sha1 run db = processFrom (getAnnounceMap (getScope db ""))
        (handleTask sha1 run) (rest.length + 1) 0 { getScope db "" with dirty := true } := by
      rw [← hlen]
      rfl
    rw [hmain, processFrom]
    have hfirst : ({ getScope db "" with dirty := true } : Scope F D).db.spool[0]? = some t := ht
    rw [hfirst]
    by_cases hz : t.ttl = 0
    · simp only [if_pos hz]
      exact (h0.drop ht hz).rounds sha1 run _ hmap _ 1
    · simp only [if_neg hz]
      obtain ⟨s', t', hc, hd⟩ := h0.round sha1 run ht hz
      rw [hmap]
      obtain ⟨s₁, hs₁, hd₁⟩ := hd.rounds sha1 run _ hmap rest.length 1
      refine ⟨s₁, ?_, hd₁⟩
      exact Option.bind_eq_some_iff.mpr ⟨_, hc, hs₁⟩

end Run

def Job.isDispatch : Job → Bool
  | .request _ => false
  | .dispatch _ => true

/-- The job queues no new announcement. -/
def Quiet (sha1 : String → D) (job : Job) (db : Database F D) : Prop :=
  job.isDispatch = false → (job.exec sha1 db).announcements = db.announcements

theorem Request.exec_spool {req : Request} {db : Database F D}
    (hq : Quiet sha1 (.request req) db) :
    ((Job.request req).exec sha1 db).spool = db.spool := by
  have hann := hq rfl
  cases hm : (Job.request req).main sha1 db with
  | none => simp [Job.exec_eq, hm]
  | some s =>
    cases hd : s.dirty with
    | false => rw [Job.exec_of_clean hm hd]
    | true =>
      rw [Job.exec_of_dirty hm hd] at hann ⊢
      rcases (Request.main_lists hm).2 with ⟨-, hs⟩ | ha
      · exact hs
      · obtain ⟨a, score, -, -, -, happ, -⟩ := ha.appended
        have hlen := congrArg List.length (happ.symm.trans hann)
        rw [List.length_append] at hlen
        simp [getScope] at hlen

variable (sha1) in
theorem Job.exec_drains (job : Job) {db : Database F D} (h : Drainable db)
    (hq : Quiet sha1 job db) :
    Drainable (job.exec sha1 db) ∧
      weight (job.exec sha1 db) ≤ weight db - job.isDispatch.toNat := by
  cases job with
  | request req =>
    have hs := Request.exec_spool hq
    have ha := hq rfl
    refine ⟨?_, ?_⟩
    · intro t ht
      rw [hs] at ht
      rw [ha]
      exact h t ht
    · rw [weight, hs]
      exact le_refl _
  | dispatch run =>
    obtain ⟨s, hm, hd⟩ := Dispatch.main_drains sha1 run h
    have hjob : (Job.dispatch run).main sha1 db = some s := hm
    rw [Job.exec_of_dirty hjob (Dispatch.main_dirty hm)]
    exact ⟨hd.drainable, hd.weight⟩

theorem runJobs_weight {jobs : List Job} {db : Database F D} (h : Drainable db)
    (hq : Throughout sha1 (Quiet sha1) jobs db) :
    Drainable (runJobs sha1 jobs db) ∧
      weight (runJobs sha1 jobs db) ≤ weight db - jobs.countP Job.isDispatch := by
  induction jobs generalizing db with
  | nil => exact ⟨h, le_refl _⟩
  | cons job jobs ih =>
    obtain ⟨hd, hw⟩ := job.exec_drains sha1 h hq.1
    obtain ⟨hd', hw'⟩ := ih hd (hq.2 _ rfl)
    have hcount : (job :: jobs).countP Job.isDispatch =
        jobs.countP Job.isDispatch + job.isDispatch.toNat := by
      rw [List.countP_cons]
      cases job.isDispatch <;> rfl
    rw [runJobs_cons, hcount]
    exact ⟨hd', by omega⟩

/-- When nothing new is queued, no ttl becomes negative, and the queue is empty after as many
dispatch runs as the tasks' ttls, plus one for each, add up to. -/
theorem spool_drains (sha1 : String → D) (jobs : List Job) (db : Database F D)
    (h : Drainable db) (hq : Throughout sha1 (Quiet sha1) jobs db) :
    (∀ db' ∈ databases sha1 jobs db, ∀ t ∈ db'.spool, 0 ≤ t.ttl) ∧
    ((db.spool.map (fun t => (t.ttl + 1).toNat)).sum ≤ jobs.countP Job.isDispatch →
      (runJobs sha1 jobs db).spool = []) := by
  refine ⟨?_, ?_⟩
  · intro db' hdb t ht
    have hall := databases_invariant (I := Drainable)
      (fun job _ hd hq => (job.exec_drains sha1 hd hq).1) h hq db' hdb
    exact (hall t ht).1
  · intro hn
    obtain ⟨hd, hw⟩ := runJobs_weight h hq
    have hsum : weight db ≤ jobs.countP Job.isDispatch := hn
    cases hs : (runJobs sha1 jobs db).spool with
    | nil => rfl
    | cons t rest =>
      have hpos := (hd t (by rw [hs]; exact List.mem_cons_self)).1
      have hcost : weight (runJobs sha1 jobs db) = t.cost + (rest.map Task.cost).sum := by
        rw [weight, hs, List.map_cons, List.sum_cons]
      have ht : t.cost = (t.ttl + 1).toNat := rfl
      omega

theorem queueOf_drainable :
    Drainable (queueOf "ann" [⟨0, 0, none, 1, none⟩, ⟨0, 3, none, 1, some []⟩]) := by
  intro t ht
  simp only [queueOf, List.mem_cons, List.not_mem_nil, or_false] at ht
  rcases ht with rfl | rfl
  · exact ⟨by decide, fun h => absurd rfl h⟩
  · exact ⟨by decide, fun _ => ⟨rfl, rfl⟩⟩

theorem dispatches_quiet (n : Nat) (db : Database Rat String) :
    Throughout id (Quiet id) (List.replicate n (.dispatch annAndBob)) db := by
  induction n generalizing db with
  | zero => trivial
  | succ n ih => exact ⟨nofun, fun db' _ => ih db'⟩

/-- The expired task hides the other one from the first run. -/
theorem spool_drains_pair :
    (runJobs id (List.replicate 5 (.dispatch annAndBob))
      (queueOf "ann" [⟨0, 0, none, 1, none⟩, ⟨0, 3, none, 1, some []⟩])).spool = [] :=
  (spool_drains id (List.replicate 5 (.dispatch annAndBob)) _ queueOf_drainable
    (dispatches_quiet 5 _)).2 (by decide)

/-- A task without an announcement makes every run throw before it writes anything. -/
theorem not_spool_drains :
    ¬ ∀ (db : Database Rat String) (run : Dispatch), (∀ t ∈ db.spool, 0 ≤ t.ttl) →
      (runJobs id (List.replicate (db.spool.map (fun t => (t.ttl + 1).toNat)).sum (.dispatch run))
        db).spool = [] := by
  intro h
  have hempty := h (queueOf "ann" [⟨7, 1, none, 0, some ["ann"]⟩]) annAndBob (by decide)
  revert hempty
  decide +kernel

end HackerUnion.Announce
