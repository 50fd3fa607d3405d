import HackerUnion.Announce.Frame
import HackerUnion.Announce.Runs
import Mathlib.Tactic.NormNum
import Mathlib.Tactic.Linarith
import Mathlib.Data.Rat.Cast.Order

namespace HackerUnion.Announce

open Js

/-- From index `n` on, an announcement comes 300 seconds after every earlier one of its user. -/
def Spaced (n : Nat) (l : List Announcement) : Prop :=
  ∀ (i j : Nat) (a b : Announcement) (d e : Int), i < j → n ≤ j → l[i]? = some a → l[j]? = some b →
    a.user = b.user → a.timestamp = some d → b.timestamp = some e → d + 300000 ≤ e

theorem Spaced.start (l : List Announcement) : Spaced l.length l := by
  intro i j a b d e _ hj _ hb
  have hlt := (List.getElem?_eq_some_iff.mp hb).1
  omega

theorem Spaced.append {n : Nat} {l : List Announcement} {b : Announcement} (h : Spaced n l)
    (hb : ∀ a ∈ l, a.user = b.user → ∀ d e, a.timestamp = some d → b.timestamp = some e →
      d + 300000 ≤ e) : Spaced n (l ++ [b]) := by
  intro i j a c d e hij hj ha hc hu hd he
  have hlt := (List.getElem?_eq_some_iff.mp hc).1
  rw [List.length_append, List.length_singleton] at hlt
  rw [List.getElem?_append_left (by omega)] at ha
  by_cases hjl : j < l.length
  · rw [List.getElem?_append_left hjl] at hc
    exact h i j a c d e hij hj ha hc hu hd he
  · have hjl : j = l.length := by omega
    subst hjl
    rw [List.getElem?_concat_length] at hc
    cases hc
    exact hb a (List.mem_of_getElem? ha) hu d e hd he

/-- No stored timestamp is later than `t`. -/
def StoredBy (t : Int) (l : List Announcement) : Prop :=
  ∀ a ∈ l, ∀ d, a.timestamp = some d → d ≤ t

/-- The readings of the clock, in the order in which the requests take them, never go back. -/
def Ticks : Int → List Request → Prop
  | _, [] => True
  | t, req :: reqs => t ≤ req.now ∧ req.now ≤ req.stamp ∧ Ticks req.stamp reqs

variable {F D : Type}

/-- The check lets a request through only when the user's latest announcement, and so each of
them, is 300 seconds old. -/
theorem cooled_down [Number F] {s : Scope F D} {now : Int} {topics : Option (List String)}
    {subject message : String} (h : rejection s now topics subject message = none)
    (hs : StoredBy now s.db.announcements) {a : Announcement} (ha : a ∈ s.db.announcements)
    (hu : a.user = s.user) {d : Int} (hd : a.timestamp = some d) : d + 300000 ≤ now := by
  have hmem : a ∈ s.db.announcements.filter (fun a => a.user = s.user) := by
    simpa [hu] using ha
  obtain ⟨e, he, hde⟩ := maxBy_ge hmem hd
  obtain ⟨last, hlast, hle⟩ := Option.bind_eq_some_iff.mp he
  have hnow : e ≤ now := hs last (List.mem_of_mem_filter (maxBy_mem hlast)) e hle
  have hprior : (lastAnnounce s s.user).bind Announcement.timestamp = some e := he
  simp only [rejection, hprior, secondsElapsed, max_eq_right hnow, min_eq_left hnow] at h
  split at h
  · cases h
  split at h
  · cases h
  split at h
  · cases h
  split at h
  · cases h
  rename_i hcool
  have hlong : (300 : Rat) ≤ ((now - e : Int) : Rat) / 1000 := not_lt.mp hcool
  rw [le_div_iff₀ (by norm_num)] at hlong
  have hint : (300000 : Int) ≤ now - e := by
    have hrat : ((300000 : Int) : Rat) ≤ ((now - e : Int) : Rat) := by
      push_cast at hlong ⊢
      linarith
    exact_mod_cast hrat
  omega

variable [Number F] [DecidableEq D] (sha1 : String → D)

/-- How a request to announce ends. It fails only for want of a field; one with all of them is
rejected or accepted as the checks say. -/
inductive Answer (req : Request) (qs : Form) (db : Database F D) : Prop where
  | failed (lacks : qs.Lacks) (main : req.main sha1 db = none)
      (file : (Job.request req).exec sha1 db = db)
  | rejected (s : Scope F D) (topics : Option (List String)) (subject message : String)
      (main : req.main sha1 db = some s) (reads : qs.Reads topics subject message)
      (why : rejection (getScope db req.user) req.now topics subject message = some s.msg)
      (announcements : s.db.announcements = db.announcements) (spool : s.db.spool = db.spool)
      (unwritten : s.dirty = false) (file : (Job.request req).exec sha1 db = db)
  | accepted (s : Scope F D) (topics : Option (List String)) (subject message : String)
      (a : Announcement) (score : F)
      (main : req.main sha1 db = some s) (reads : qs.Reads topics subject message)
      (why : rejection (getScope db req.user) req.now topics subject message = none)
      (author : a.user = req.user) (timestamp : a.timestamp = some req.stamp)
      (announcements : s.db.announcements = db.announcements ++ [a])
      (spool : s.db.spool = db.spool ++ [⟨a.id, 3, none, score, some [req.user]⟩])
      (file : (Job.request req).exec sha1 db = s.db)

theorem Request.answer {req : Request} {qs : Form} (h : req.Posts "announce" qs)
    (db : Database F D) : Answer sha1 req qs db := by
  have hmain := Request.main_announce sha1 h db
  cases hr : handleAnnounce req (getScope db req.user) qs with
  | none =>
    rw [hr] at hmain
    have hjob : (Job.request req).main sha1 db = none := hmain
    exact Answer.failed (handleAnnounce_none hr) hmain (by simp [Job.exec_eq, hjob])
  | some s =>
    rw [hr] at hmain
    have hjob : (Job.request req).main sha1 db = some (finish s) := hmain
    have hf := finish_frame s
    have hd := finish_dirty s
    obtain ⟨topics, subject, message, hreads, ⟨hwhy, hrej⟩ | ⟨hwhy, -, hacc⟩⟩ :=
      handleAnnounce_spec hr
    · have hclean : (finish s).dirty = false := hd.trans hrej.dirty
      refine Answer.rejected (finish s) topics subject message hmain hreads ?_
        (hf.announcements.trans hrej.frame.announcements) (hf.spool.trans hrej.frame.spool) hclean
        (Job.exec_of_clean hjob hclean)
      rw [hwhy, finish_msg]
    · obtain ⟨a, score, -, htime, huser, ha, hs⟩ := hacc.appended
      have huser : a.user = req.user := huser
      refine Answer.accepted (finish s) topics subject message a score hmain hreads hwhy huser htime
        (hf.announcements.trans ha) ?_ (Job.exec_of_dirty hjob (hd.trans hacc.dirty))
      rw [← huser]
      exact hf.spool.trans hs

/-- A request keeps the announcements spaced, and the clock no earlier than what is stored. -/
theorem Request.exec_spaced {req : Request} {qs : Form} (h : req.Posts "announce" qs)
    {db : Database F D} {n : Nat} {t : Int} (hnow : t ≤ req.now) (hstamp : req.now ≤ req.stamp)
    (hs : StoredBy t db.announcements) (hsp : Spaced n db.announcements) :
    StoredBy req.stamp ((Job.request req).exec sha1 db).announcements ∧
      Spaced n ((Job.request req).exec sha1 db).announcements := by
  have hold : StoredBy req.stamp db.announcements := by
    intro a ha d hd
    have hle := hs a ha d hd
    omega
  cases Request.answer sha1 h db with
  | failed _ _ file =>
    rw [file]
    exact ⟨hold, hsp⟩
  | rejected s topics subject message _ _ _ _ _ _ file =>
    rw [file]
    exact ⟨hold, hsp⟩
  | accepted s topics subject message a score _ _ why author timestamp announcements _ file =>
    rw [file, announcements]
    refine ⟨?_, hsp.append ?_⟩
    · intro b hb d hd
      rcases List.mem_append.mp hb with hb | hb
      · exact hold b hb d hd
      · cases List.mem_singleton.mp hb
        cases timestamp.symm.trans hd
        exact le_refl _
    · intro b hb hu d e hd he
      have hnowBy : StoredBy req.now (getScope db req.user).db.announcements := by
        intro b hb d hd
        have hle := hs b hb d hd
        omega
      have hcool := cooled_down why hnowBy hb (hu.trans author) hd
      cases timestamp.symm.trans he
      omega

theorem runJobs_spaced {n : Nat} (reqs : List Request) {db : Database F D} {t : Int}
    (hreqs : ∀ req ∈ reqs, ∃ qs, req.Posts "announce" qs) (hclock : Ticks t reqs)
    (hs : StoredBy t db.announcements) (hsp : Spaced n db.announcements) :
    Spaced n (runJobs sha1 (reqs.map Job.request) db).announcements := by
  induction reqs generalizing db t with
  | nil => exact hsp
  | cons req reqs ih =>
    obtain ⟨qs, hpost⟩ := hreqs req List.mem_cons_self
    obtain ⟨hnow, hstamp, hrest⟩ := hclock
    obtain ⟨hs', hsp'⟩ := Request.exec_spaced sha1 hpost hnow hstamp hs hsp
    exact ih (fun r hr => hreqs r (List.mem_cons_of_mem _ hr)) hrest hs' hsp'

/-- Announcements accepted in a run come 300 seconds after every earlier one of their author, and
each request is answered in one of three ways. -/
theorem announce_run (reqs : List Request) (db : Database F D) (t : Int)
    (hreqs : ∀ req ∈ reqs, ∃ qs, req.Posts "announce" qs)
    (hstored : ∀ a ∈ db.announcements, ∀ d, a.timestamp = some d → d ≤ t)
    (hclock : Ticks t reqs) :
    Spaced db.announcements.length (runJobs sha1 (reqs.map Job.request) db).announcements ∧
    ∀ (k : Nat) (req : Request) (qs : Form), reqs[k]? = some req → req.Posts "announce" qs →
      Answer sha1 req qs (runJobs sha1 ((reqs.take k).map Job.request) db) :=
  ⟨runJobs_spaced sha1 reqs hreqs hclock hstored (Spaced.start _),
    fun _ _ _ _ hpost => Request.answer sha1 hpost _⟩

/-- A user's form. -/
def announceAt (user : String) (time : Int) : Request where
  user := user
  post := true
  token := .absent
  body := .ok ⟨.text "announce", .text "#go", .text "Meeting",
    .text "The union meets on Monday at noon in the usual room, as always."⟩
  now := time
  stamp := time

/-- Ann announces, is turned down a second later, and announces again after the cool-down. -/
theorem announce_run_ann :
    Spaced 0 (runJobs id ([announceAt "ann" 0, announceAt "ann" 1000, announceAt "ann" 300000].map
      Job.request) emptyDatabase).announcements :=
  (announce_run id [announceAt "ann" 0, announceAt "ann" 1000, announceAt "ann" 300000]
    emptyDatabase 0
    (by
      intro req hreq
      refine ⟨⟨.text "announce", .text "#go", .text "Meeting",
        .text "The union meets on Monday at noon in the usual room, as always."⟩, ?_⟩
      simp only [List.mem_cons, List.not_mem_nil, or_false] at hreq
      rcases hreq with rfl | rfl | rfl <;> exact ⟨rfl, by decide, rfl, rfl, rfl⟩)
    (by simp [emptyDatabase])
    ⟨by decide, by decide, by decide, by decide, by decide, by decide, trivial⟩).1

end HackerUnion.Announce
