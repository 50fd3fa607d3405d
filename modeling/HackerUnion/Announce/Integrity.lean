import HackerUnion.Announce.Queue
import HackerUnion.Announce.Interleaving

namespace HackerUnion.Announce

open Js Lock

variable {F D : Type}

/-- Announcements are numbered from 0, and each task belongs to one of them, which no other task
does, and lists its author. -/
structure Integrity (db : Database F D) : Prop where
  ids : ∀ i (a : Announcement), db.announcements[i]? = some a → a.id = i
  queued : ∀ t ∈ db.spool, ∃ (a : Announcement) (users : List String),
    db.announcements[t.id]? = some a ∧ t.users = some users ∧ a.user ∈ users
  nodup : (db.spool.map Task.id).Nodup
  ttl : ∀ t ∈ db.spool, 0 ≤ t.ttl ∧ t.ttl ≤ 3

namespace Integrity

variable {db db' : Database F D}

theorem congr (h : Integrity db) (ha : db'.announcements = db.announcements)
    (hs : db'.spool = db.spool) : Integrity db' := by
  refine ⟨?_, ?_, ?_, ?_⟩
  · rw [ha]; exact h.ids
  · rw [ha, hs]; exact h.queued
  · rw [hs]; exact h.nodup
  · rw [hs]; exact h.ttl

/-- The lookup by id finds the announcement at that index. -/
theorem find (h : Integrity db) {id : Nat} {a : Announcement}
    (ha : db.announcements[id]? = some a) :
    db.announcements.find? (fun a => a.id = id) = some a := by
  obtain ⟨hlt, rfl⟩ := List.getElem?_eq_some_iff.mp ha
  rw [List.find?_eq_some_iff_getElem]
  refine ⟨by simpa using h.ids id _ ha, id, hlt, rfl, ?_⟩
  intro j hj
  have hjlt : j < db.announcements.length := by omega
  have hid := h.ids j db.announcements[j] (List.getElem?_eq_getElem hjlt)
  simp only [hid, Bool.not_eq_true', decide_eq_false_iff_not]
  omega

theorem erase (h : Integrity db) (i : Nat) :
    Integrity { db with spool := db.spool.eraseIdx i } := by
  have hsub := List.eraseIdx_sublist db.spool i
  exact ⟨h.ids, fun t ht => h.queued t (hsub.subset ht), h.nodup.sublist (hsub.map _),
    fun t ht => h.ttl t (hsub.subset ht)⟩

/-- A new announcement gets the next number, which no task has yet. -/
theorem accepted {req : Request} {s s' : Scope F D} (h : Integrity s.db)
    (ha : Accepted req s s') : Integrity s'.db := by
  obtain ⟨a, score, hid, -, -, hann, hspool⟩ := ha.appended
  have hold {id : Nat} {b : Announcement} (hb : s.db.announcements[id]? = some b) :
      s'.db.announcements[id]? = some b := by
    rw [hann, List.getElem?_append_left (List.getElem?_eq_some_iff.mp hb).1]
    exact hb
  have hnew : s'.db.announcements[a.id]? = some a := by
    rw [hann, hid]
    exact List.getElem?_concat_length
  have hmem {t : Task F} (ht : t ∈ s'.db.spool) :
      t ∈ s.db.spool ∨ t = ⟨a.id, Announce.ttl, none, score, some [a.user]⟩ := by
    rw [hspool] at ht
    simpa using ht
  refine ⟨?_, ?_, ?_, ?_⟩
  · intro i b hb
    rw [hann] at hb
    by_cases hi : i < s.db.announcements.length
    · rw [List.getElem?_append_left hi] at hb
      exact h.ids i b hb
    · have hlt := (List.getElem?_eq_some_iff.mp hb).1
      rw [List.length_append, List.length_singleton] at hlt
      have hi : i = s.db.announcements.length := by omega
      subst hi
      rw [List.getElem?_concat_length] at hb
      cases hb
      exact hid
  · intro t ht
    rcases hmem ht with ht | rfl
    · obtain ⟨b, users, hb, hu, hin⟩ := h.queued t ht
      exact ⟨b, users, hold hb, hu, hin⟩
    · exact ⟨a, [a.user], hnew, rfl, List.mem_singleton_self _⟩
  · rw [hspool, List.map_append, List.nodup_append]
    refine ⟨h.nodup, List.nodup_singleton _, ?_⟩
    intro id hin id' hin' heq
    obtain ⟨t, ht, rfl⟩ := List.mem_map.mp hin
    obtain ⟨b, users, hb, -⟩ := h.queued t ht
    have hlt := (List.getElem?_eq_some_iff.mp hb).1
    have hid' : id' = a.id := by simpa using hin'
    omega
  · intro t ht
    rcases hmem ht with ht | rfl
    · exact h.ttl t ht
    · show 0 ≤ Announce.ttl ∧ Announce.ttl ≤ 3
      decide

/-- The callback counts a task down and only adds to its list of users. -/
theorem handled {run : Dispatch} {s s' : Scope F D} {i : Nat} {t t' : Task F} {a : Announcement}
    (h : Integrity s.db) (ht : s.db.spool[i]? = some t) (hz : t.ttl ≠ 0)
    (ht' : Handled run a s s' t t') :
    Integrity { s'.db with spool := s'.db.spool.set i t' } := by
  have hin : t ∈ s.db.spool := List.mem_of_getElem? ht
  have hmem {x : Task F} (hx : x ∈ s'.db.spool.set i t') : x = t' ∨ x ∈ s.db.spool := by
    rw [ht'.spool] at hx
    exact (mem_set_other h.nodup ht hx).imp_right And.left
  refine ⟨?_, ?_, ?_, ?_⟩
  · show ∀ i (a : Announcement), s'.db.announcements[i]? = some a → a.id = i
    rw [ht'.announcements]
    exact h.ids
  · intro x hx
    simp only [ht'.announcements]
    rcases hmem hx with rfl | hx
    · obtain ⟨b, users, hb, hu, hin⟩ := h.queued t hin
      rw [ht'.id]
      rcases ht'.sent with ⟨-, hu'⟩ | ⟨own, mails, hown, hu', -, -⟩
      · exact ⟨b, users, hb, hu'.trans hu, hin⟩
      · cases hown.symm.trans hu
        exact ⟨b, _, hb, hu', List.mem_append_left _ hin⟩
    · exact h.queued x hx
  · show ((s'.db.spool.set i t').map Task.id).Nodup
    rw [ht'.spool, map_set_same ht ht'.id]
    exact h.nodup
  · intro x hx
    rcases hmem hx with rfl | hx
    · have hb := h.ttl t hin
      have hd := ht'.ttl
      omega
    · exact h.ttl x hx

/-- The lookups of a dispatch run succeed. -/
theorem lookup (h : Integrity db) {t : Task F} (ht : t ∈ db.spool) :
    ∃ (a : Announcement) (users : List String),
      db.announcements.find? (fun a => a.id = t.id) = some a ∧ a.id = t.id ∧
      t.users = some users ∧ a.user ∈ users := by
  obtain ⟨a, users, ha, hu, hin⟩ := h.queued t ht
  exact ⟨a, users, h.find ha, h.ids t.id a ha, hu, hin⟩

end Integrity

variable [Number F] [DecidableEq D] {sha1 : String → D}

theorem Request.main_integrity {req : Request} {db : Database F D} {s : Scope F D}
    (h : Integrity db) (hm : req.main sha1 db = some s) : Integrity s.db := by
  obtain ⟨-, ⟨ha, hs⟩ | ha⟩ := Request.main_lists hm
  · exact h.congr ha hs
  · exact Integrity.accepted h ha

section Dispatch

variable {run : Dispatch} {db : Database F D}

/-- What holds between the rounds of a dispatch run that loaded `db`. -/
structure Between (db : Database F D) (s : Scope F D) : Prop where
  integrity : Integrity s.db
  announcements : s.db.announcements = db.announcements

omit [Number F] [DecidableEq D] in
theorem Between.start (h : Integrity db) :
    Between db { getScope db "" with dirty := true } := ⟨h, rfl⟩

omit [Number F] [DecidableEq D] in
theorem Between.erase {s : Scope F D} (h : Between db s) (i : Nat) :
    Between db { s with db := { s.db with spool := s.db.spool.eraseIdx i } } :=
  ⟨h.integrity.erase i, h.announcements⟩

/-- A round finds the announcement of its task, which lists the author. -/
theorem Between.round {s s' : Scope F D} {i : Nat} {t t' : Task F} (h : Between db s)
    (ht : s.db.spool[i]? = some t) (hz : t.ttl ≠ 0)
    (hc : handleTask sha1 run s t (db.announcements.find? (fun a => a.id = t.id)) =
      some (s', t')) :
    Between db { s' with db := { s'.db with spool := s'.db.spool.set i t' } } ∧
      ∃ (a : Announcement) (users : List String), a.id = t.id ∧ t.users = some users ∧
        a.user ∈ users ∧ Handled run a s s' t t' := by
  obtain ⟨a, users, ha, hid, hu, hin⟩ := h.integrity.lookup (List.mem_of_getElem? ht)
  rw [← h.announcements, ha] at hc
  have hh := handleTask_spec hc
  exact ⟨⟨h.integrity.handled ht hz hh, hh.announcements.trans h.announcements⟩,
    a, users, hid, hu, hin, hh⟩

theorem Dispatch.main_between {s : Scope F D} (h : Integrity db)
    (hm : Dispatch.main sha1 run db = some s) : Between db s := by
  refine Dispatch.main_invariant (Between.start h) ?_ ?_ hm
  · intro s i t hs _ _
    exact hs.erase i
  · intro s i t s' t' hs ht hz hc
    exact (hs.round ht hz hc).1

variable (sha1 run) in
/-- On such a database the callback never throws. -/
theorem Dispatch.main_isSome_of_integrity (h : Integrity db) :
    (Dispatch.main sha1 run db).isSome = true := by
  refine Dispatch.main_isSome (Between.start h) ?_ ?_
  · intro s i t hs _ _
    exact hs.erase i
  · intro s i t hs ht hz
    obtain ⟨a, users, ha, -, hu, -⟩ := hs.integrity.lookup (List.mem_of_getElem? ht)
    obtain ⟨s', t', hc⟩ := handleTask_isSome sha1 run s a
      (Option.isSome_iff_exists.mpr ⟨users, hu⟩)
    rw [← ha, hs.announcements] at hc
    exact ⟨s', t', hc, (hs.round ht hz hc).1⟩

end Dispatch

theorem Job.handle_integrity (job : Job) {db db' : Database F D} {d : Bool} (h : Integrity db)
    (hm : job.handle sha1 db = some (db', d)) : Integrity db' := by
  obtain ⟨s, hs, he⟩ := Option.map_eq_some_iff.mp hm
  cases he
  cases job with
  | request req => exact Request.main_integrity h hs
  | dispatch run => exact (Dispatch.main_between h hs).integrity

variable {Pid : Type} [DecidableEq Pid]

/-- Every file that is ever written from an empty queue is sound, and so is every copy of it that
some process works on; a dispatch run finds the announcement of each task there and never throws. -/
theorem interleave_integrity (sha1 : String → D) (jobs : Pid → Job) (writable : Pid → Bool)
    (users : Obj String (Profile F)) (tokens : Obj D Token) (sched : List Pid) :
    let w := interleave sha1 jobs writable ⟨[], [], users, tokens⟩ sched
    Integrity w.file ∧
      ∀ p db run, jobs p = .dispatch run → (w.procs p).loaded = some db →
        (∀ t ∈ db.spool, ((getAnnounceMap (getScope db "")).get t.id).join.isSome = true) ∧
        (Dispatch.main sha1 run db).isSome = true := by
  have hempty : Integrity (⟨[], [], users, tokens⟩ : Database F D) :=
    ⟨by simp, by simp, List.nodup_nil, by simp⟩
  have hrun := fileHolds_run (programs sha1 jobs writable)
    (fun p _ _ _ h hm => Job.handle_integrity (jobs p) h hm) hempty sched
  refine ⟨hrun.file, ?_⟩
  intro p db run _ hl
  have hdb := (hrun.procs p).loaded db hl
  refine ⟨?_, Dispatch.main_isSome_of_integrity sha1 run hdb⟩
  intro t ht
  obtain ⟨a, _, ha, -⟩ := hdb.lookup ht
  rw [getAnnounceMap_get]
  exact Option.isSome_iff_exists.mpr ⟨a, ha⟩

end HackerUnion.Announce
