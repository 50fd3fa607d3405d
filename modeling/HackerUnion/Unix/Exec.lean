import HackerUnion.Unix.Files

namespace HackerUnion.Unix

open Bash

variable {I : Type}

namespace FileSystem

variable (fs : FileSystem I) (cred : Cred) (cwd : I)

def execve (path : Text) : Except Errno I :=
  match fs.resolve cred cwd path with
  | .error e => .error e
  | .ok i =>
    if fs.node i = .file && fs.mayExecute cred i then
      match fs.load i with
      | some e => .error e
      | none => .ok i
    else .error .acces

/-- A file that is no program is handed to the shell as a script. -/
def launch (path : Text) : Except Errno I :=
  match fs.execve cred cwd path with
  | .error .noexec => fs.resolve cred cwd path
  | result => result

/-- The failures after which the next directory is tried. -/
def skips : Errno → Bool
  | .acces | .noent | .stale | .notdir | .nodev | .timedout => true
  | _ => false

/-- An empty directory is the current one. -/
def candidate (dir name : Text) : Text := if dir = [] then name else dir ++ '/' :: name

def search (name : Text) : List Text → Option I
  | [] => none
  | dir :: dirs =>
    match fs.launch cred cwd (candidate dir name) with
    | .ok i => some i
    | .error e => if skips e then search name dirs else none

/-- `PATH`, or where programs are looked for without it. -/
def directories (path : Option Text) : List Text :=
  (path.getD (text "/bin:/usr/bin")).splitOn ':'

/-- The file that is executed, if one is. -/
def execvp (path : Option Text) (name : Text) : Option I :=
  if name = [] then none
  else if '/' ∈ name then (fs.launch cred cwd name).toOption
  else fs.search cred cwd name (directories path)

/-- The file is the one of that name in the first of the directories where one can be executed. -/
structure First (name : Text) (dirs : List Text) (i : I) (before : List Text) (dir : Text)
    (behind : List Text) : Prop where
  split : dirs = before ++ dir :: behind
  skipped : ∀ d ∈ before, ∃ e, fs.launch cred cwd (candidate d name) = .error e ∧ skips e = true
  found : fs.launch cred cwd (candidate dir name) = .ok i

variable {fs cred cwd} {name path : Text} {dirs : List Text} {i : I}

section Search

theorem resolve_of_execve (h : fs.execve cred cwd path = .ok i) :
    fs.resolve cred cwd path = .ok i := by
  rw [execve] at h
  split at h
  · cases h
  · rename_i file hfile
    split at h
    · split at h
      · cases h
      · rw [hfile]
        exact h
    · cases h

/-- What is executed is what the path leads to. -/
theorem resolve_of_launch (h : fs.launch cred cwd path = .ok i) :
    fs.resolve cred cwd path = .ok i := by
  rw [launch] at h
  split at h
  · exact h
  · exact resolve_of_execve h

/-- The first directory has it, or is passed over. -/
theorem first_cons {d : Text} :
    (∃ before dir behind, fs.First cred cwd name (d :: dirs) i before dir behind) ↔
      fs.launch cred cwd (candidate d name) = .ok i ∨
        (∃ e, fs.launch cred cwd (candidate d name) = .error e ∧ skips e = true) ∧
          ∃ before dir behind, fs.First cred cwd name dirs i before dir behind := by
  constructor
  · intro h
    obtain ⟨before, dir, behind, hsplit, hskipped, hfound⟩ := h
    cases before with
    | nil =>
      injection hsplit with hd
      exact .inl (hd ▸ hfound)
    | cons d' before =>
      injection hsplit with hd hdirs
      obtain ⟨hhere, hskipped⟩ := List.forall_mem_cons.mp hskipped
      exact .inr ⟨hd ▸ hhere, before, dir, behind, hdirs, hskipped, hfound⟩
  · intro h
    rcases h with hfound | ⟨hhere, before, dir, behind, hsplit, hskipped, hfound⟩
    · exact ⟨[], d, dirs, rfl, by simp, hfound⟩
    · refine ⟨d :: before, dir, behind, by rw [hsplit]; rfl, ?_, hfound⟩
      exact List.forall_mem_cons.mpr ⟨hhere, hskipped⟩

/-- The first directory where it succeeds decides. -/
theorem search_eq_some_iff : fs.search cred cwd name dirs = some i ↔
    ∃ before dir behind, fs.First cred cwd name dirs i before dir behind := by
  induction dirs with
  | nil =>
    constructor
    · intro h
      cases h
    · intro h
      obtain ⟨before, dir, behind, h⟩ := h
      exact absurd h.split (by simp)
  | cons d dirs ih =>
    rw [first_cons, ← ih, search]
    cases fs.launch cred cwd (candidate d name) with
    | ok j => simp
    | error e => simp

end Search

end FileSystem

end HackerUnion.Unix
