import HackerUnion.Lists.Intercalate
import HackerUnion.Sbin.InitOrder
import HackerUnion.Sbin.Save

namespace HackerUnion.Sbin.Startcron

open Bash

/-- An entry of `crontab.json`. -/
structure Job where
  pattern : Literal
  command : Literal

def Job.leaves (job : Job) : List Leaf :=
  [⟨text "pattern", none, job.pattern.quoted⟩, ⟨text "command", none, job.command.quoted⟩]

/-- What is added for an entry: a line end, which is not one yet, and a line. -/
def addJob (cron crontab : Text) (i : Nat) : Text :=
  crontab ++ text "\\n" ++ capture (unlines (field cron (.at i) (text "pattern"))) ++ [' '] ++
    capture (unlines (field cron (.at i) (text "command")))

/-- What is given to `crontab`. `cron` is what `json -b` makes of `crontab.json`. -/
def crontab (cron : Text) : Text :=
  noblank ((List.range (last cron + 1).toNat).foldl (addJob cron) [])

/-- The line of a job. -/
def Job.line (job : Job) : Text := job.pattern.body ++ ' ' :: job.command.body

section Jobs

variable {jobs : List Job} {job : Job} {i : Nat}

theorem Job.leaves_sound (job : Job) : ∀ leaf ∈ job.leaves, leaf.Sound := by
  intro leaf hleaf
  simp only [Job.leaves, List.mem_cons, List.not_mem_nil, or_false] at hleaf
  rcases hleaf with hleaf | hleaf
  · exact hleaf ▸ ⟨(by decide : IsKey (text "pattern")), job.pattern.token⟩
  · exact hleaf ▸ ⟨(by decide : IsKey (text "command")), job.command.token⟩

theorem jobs_sound (jobs : List Job) :
    ∀ leaves ∈ jobs.map Job.leaves, ∀ leaf ∈ leaves, leaf.Sound := by
  intro leaves hleaves
  obtain ⟨job, -, rfl⟩ := List.mem_map.mp hleaves
  exact job.leaves_sound

/-- What a job has under a name: nothing is printed of an empty text, and nothing captured. -/
theorem capture_field (hi : jobs[i]? = some job) :
    capture (unlines (field (flat (jobs.map Job.leaves)) (.at i) (text "pattern"))) =
        job.pattern.body ∧
      capture (unlines (field (flat (jobs.map Job.leaves)) (.at i) (text "command"))) =
        job.command.body := by
  have hleaves : (jobs.map Job.leaves)[i]? = some job.leaves := by simp [hi]
  have hpattern := printed_quoted (text "pattern") job.pattern
  have hcommand := printed_quoted (text "command") job.command
  have hne : text "pattern" ≠ text "command" ∧ text "command" ≠ text "pattern" := by decide
  rw [field_flat (jobs_sound jobs) (by decide), field_flat (jobs_sound jobs) (by decide), hleaves]
  simp only [Option.getD_some]
  refine ⟨?_, ?_⟩
  · rw [← capture_body job.pattern]
    by_cases h : job.pattern.body = []
    · simp [Job.leaves, hpattern, h, hne]
    · simp [Job.leaves, hpattern, h, hne, job.pattern.unquote]
  · rw [← capture_body job.command]
    by_cases h : job.command.body = []
    · simp [Job.leaves, hcommand, h, hne]
    · simp [Job.leaves, hcommand, h, hne, job.command.unquote]

theorem last_jobs (h : ∀ job ∈ jobs, job.pattern.body ≠ [] ∨ job.command.body ≠ []) :
    last (flat (jobs.map Job.leaves)) = (jobs.length : Int) - 1 := by
  rw [last_flat (jobs_sound jobs), List.length_map]
  intro leaves hleaves
  obtain ⟨job, hjob, rfl⟩ := List.mem_map.mp hleaves
  rcases h job hjob with hbody | hbody
  · exact ⟨⟨text "pattern", none, job.pattern.quoted⟩, by simp [Job.leaves],
      (printed_quoted _ _).trans (by simpa using hbody)⟩
  · exact ⟨⟨text "command", none, job.command.quoted⟩, by simp [Job.leaves],
      (printed_quoted _ _).trans (by simpa using hbody)⟩

/-- The text that is put together, before it is printed. -/
theorem foldl_addJob (n : Nat) (hn : n ≤ jobs.length) :
    (List.range n).foldl (addJob (flat (jobs.map Job.leaves))) [] =
      List.intercalate (text "\\n") ([] :: (jobs.take n).map Job.line) := by
  have hjoin (ls : List Text) (l : Text) : List.intercalate (text "\\n") (([] :: ls) ++ [l]) =
      List.intercalate (text "\\n") ([] :: ls) ++ text "\\n" ++ l := by
    rw [Lists.intercalate_append _ (List.cons_ne_nil _ _) (List.cons_ne_nil _ _),
      List.intercalate_singleton]
  induction n with
  | zero => rfl
  | succ n ih =>
    have hi : jobs[n]? = some (jobs[n]) := List.getElem?_eq_getElem hn
    obtain ⟨hpattern, hcommand⟩ := capture_field hi
    rw [List.range_succ, List.foldl_append, ih (Nat.le_of_succ_le hn), List.foldl_cons,
      List.foldl_nil, addJob, hpattern, hcommand, List.take_succ_eq_append_getElem hn,
      List.map_append, ← List.cons_append, List.map_singleton, hjoin, Job.line]
    simp

/-- Every job has one line in the crontab, in their order, and there is nothing else in it: no job
is read for another, and no blank line is left. -/
theorem crontab_jobs (h : ∀ job ∈ jobs, (job.pattern.body ≠ [] ∨ job.command.body ≠ []) ∧
    '\\' ∉ job.pattern.body ∧ '\\' ∉ job.command.body) :
    crontab (flat (jobs.map Job.leaves)) = unlines (jobs.map Job.line) := by
  have hcount : (last (flat (jobs.map Job.leaves)) + 1).toNat = jobs.length := by
    rw [last_jobs fun job hjob => (h job hjob).1]
    omega
  have hline : ∀ l ∈ [] :: jobs.map Job.line, Line l := by
    intro l hl
    rcases List.mem_cons.mp hl with rfl | hl
    · exact List.not_mem_nil
    · obtain ⟨job, -, rfl⟩ := List.mem_map.mp hl
      have hpattern : '\n' ∉ job.pattern.body := job.pattern.line
      have hcommand : '\n' ∉ job.command.body := job.command.line
      simp [Line, Job.line, hpattern, hcommand]
  have hplain : ∀ l ∈ [] :: jobs.map Job.line, '\\' ∉ l := by
    intro l hl
    rcases List.mem_cons.mp hl with rfl | hl
    · exact List.not_mem_nil
    · obtain ⟨job, hjob, rfl⟩ := List.mem_map.mp hl
      simp [Job.line, (h job hjob).2]
  have hne : ∀ l ∈ jobs.map Job.line, l ≠ [] := by
    intro l hl
    obtain ⟨job, -, rfl⟩ := List.mem_map.mp hl
    simp [Job.line]
  have hoption : isOption (List.intercalate (text "\\n") ([] :: jobs.map Job.line)) = false := by
    apply isOption_of_head
    cases jobs with
    | nil => simp
    | cons job jobs =>
      rw [List.map_cons, List.intercalate_cons_cons]
      simp [text]
  have hfirst : ([] :: jobs.map Job.line).dropWhile (· = []) = jobs.map Job.line := by
    rw [List.dropWhile_cons_of_pos (by simp)]
    cases jobs with
    | nil => rfl
    | cons job jobs =>
      exact List.dropWhile_cons_of_neg (by simpa using hne job.line (by simp))
  have hlast : (jobs.map Job.line).rdropWhile (· = []) = jobs.map Job.line := by
    rw [List.rdropWhile_eq_self_iff]
    intro hls
    simpa using hne _ (List.getLast_mem hls)
  rw [crontab, hcount, foldl_addJob _ (le_refl _), List.take_length, noblank,
    lines_echo_joined (List.cons_ne_nil _ _) hline hplain hoption, hfirst, hlast]

/-- The job that keeps the tree of the file system. -/
def tree : Job := ⟨⟨text "0,15,30,45 * * * *", by decide⟩,
  ⟨text "/srv/bin/tree /srv > /srv/var/cache/tree/data", by decide⟩⟩

theorem crontab_jobs_tree :
    crontab (flat ([tree].map Job.leaves)) = unlines ([tree].map Job.line) :=
  crontab_jobs (by decide)

end Jobs

end HackerUnion.Sbin.Startcron
