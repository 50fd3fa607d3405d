import HackerUnion.Unix.Exec

namespace HackerUnion.Super

open Bash Unix

/-- The ids of a process, real and effective. -/
structure Process where
  uid : Nat
  gid : Nat
  euid : Nat
  egid : Nat
  groups : List Nat
  deriving DecidableEq

namespace Process

/-- What `access` judges by. -/
def real (p : Process) : Cred := ⟨p.uid, p.gid, p.groups⟩

def effective (p : Process) : Cred := ⟨p.euid, p.egid, p.groups⟩

/-- `setregid(gid, gid)` -/
def setregid (p : Process) (gid : Nat) : Option Process :=
  if p.euid = 0 || gid = p.gid || gid = p.egid then some { p with gid := gid, egid := gid }
  else none

/-- `setreuid(uid, uid)` -/
def setreuid (p : Process) (uid : Nat) : Option Process :=
  if p.euid = 0 || uid = p.uid || uid = p.euid then some { p with uid := uid, euid := uid }
  else none

end Process

/-- What ends it before anything is executed. -/
inductive Refusal where
  | denied
  | uninspected
  | gidFailed
  | uidFailed
  deriving DecidableEq

inductive Outcome (I : Type) where
  | usage
  | refused (refusal : Refusal)
  | execFailed
  | executes (file : I) (cred : Cred)
  deriving DecidableEq

variable {I : Type} (fs : FileSystem I) (cwd : I)

/-- What is done before the file is executed: the file that was inspected, and the process with the
ids it is executed under. -/
def prepare (p : Process) (pathname : Text) : Except Refusal (I × Process) :=
  match fs.access p.real cwd pathname with
  | .error _ => .error .denied
  | .ok _ =>
    match fs.resolve p.effective cwd pathname with
    | .error _ => .error .uninspected
    | .ok file =>
      let info := fs.info file
      let uid := if info.setuid then info.uid else p.uid
      let gid := if info.setgid then info.gid else p.gid
      match p.setregid gid with
      | none => .error .gidFailed
      | some p =>
        match p.setreuid uid with
        | none => .error .uidFailed
        | some p => .ok (file, p)

/-- `main`. `path` is the value of `PATH`. -/
def super (path : Option Text) (p : Process) (argv : List Text) : Outcome I :=
  match argv[1]? with
  | none => .usage
  | some pathname =>
    match prepare fs cwd p pathname with
    | .error refusal => .refused refusal
    | .ok (_, p) =>
      match fs.execvp p.effective cwd path pathname with
      | none => .execFailed
      | some file => .executes file p.effective

/-- The ids that the set-id bits of a file choose. -/
def chosen (p : Process) (info : Info) : Cred :=
  ⟨if info.setuid then info.uid else p.uid, if info.setgid then info.gid else p.gid, p.groups⟩

/-- A file that is executed is the one of which the access was checked and the bits were looked
at. -/
def SameFile (path : Option Text) (p : Process) (argv : List Text) : Prop :=
  ∀ file cred, super fs cwd path p argv = .executes file cred →
    ∃ pathname, argv[1]? = some pathname ∧ fs.access p.real cwd pathname = .ok file ∧
      fs.resolve p.effective cwd pathname = .ok file ∧ cred = chosen p (fs.info file)

/-- When the checks have passed, the argument has a slash, or the first directory of `PATH` where a
file of that name can be executed has the one that was inspected. -/
def Named (path : Option Text) (p : Process) (argv : List Text) : Prop :=
  ∀ pathname inspected p', argv[1]? = some pathname →
    prepare fs cwd p pathname = .ok (inspected, p') →
    '/' ∈ pathname ∨ ∀ file before dir behind,
      fs.First (chosen p (fs.info inspected)) cwd pathname (FileSystem.directories path) file
        before dir behind → file = inspected

variable {fs cwd} {path : Option Text} {p p' : Process} {argv : List Text} {pathname : Text}
  {file : I}

theorem setregid_eq {gid : Nat} (h : p.setregid gid = some p') :
    p' = { p with gid := gid, egid := gid } := by
  rw [Process.setregid] at h
  split at h
  · injection h with h
    exact h.symm
  · cases h

theorem setreuid_eq {uid : Nat} (h : p.setreuid uid = some p') :
    p' = { p with uid := uid, euid := uid } := by
  rw [Process.setreuid] at h
  split at h
  · injection h with h
    exact h.symm
  · cases h

/-- What holds when the checks have passed. -/
theorem prepare_spec (h : prepare fs cwd p pathname = .ok (file, p')) :
    fs.access p.real cwd pathname = .ok file ∧ fs.resolve p.effective cwd pathname = .ok file ∧
      p'.effective = chosen p (fs.info file) := by
  rw [prepare] at h
  split at h
  · cases h
  · rename_i checked haccess
    split at h
    · cases h
    · rename_i inspected hstat
      have hsame := FileSystem.resolve_unique (FileSystem.resolve_of_access haccess) hstat
      simp only at h
      cases hgid : p.setregid (if (fs.info inspected).setgid then (fs.info inspected).gid
          else p.gid) with
      | none =>
        rw [hgid] at h
        cases h
      | some p₁ =>
        rw [hgid] at h
        simp only at h
        cases huid : p₁.setreuid (if (fs.info inspected).setuid then (fs.info inspected).uid
            else p.uid) with
        | none =>
          rw [huid] at h
          cases h
        | some p₂ =>
          rw [huid] at h
          injection h with h
          injection h with hfile hp
          rw [← hfile, ← hp, setreuid_eq huid, setregid_eq hgid]
          exact ⟨hsame ▸ haccess, hstat, rfl⟩

theorem resolve_of_slash {cred : Cred} (hslash : '/' ∈ pathname)
    (h : fs.execvp cred cwd path pathname = some file) :
    fs.resolve cred cwd pathname = .ok file := by
  rw [FileSystem.execvp, if_neg (List.ne_nil_of_mem hslash), if_pos hslash] at h
  cases hlaunch : fs.launch cred cwd pathname with
  | error e =>
    rw [hlaunch] at h
    cases h
  | ok i =>
    rw [hlaunch] at h
    injection h with h
    exact h ▸ FileSystem.resolve_of_launch hlaunch

/-- Without a slash it is `PATH` that leads to the file. The empty name leads nowhere, and has not
passed the checks. -/
theorem first_of_no_slash {cred : Cred} (hne : pathname ≠ []) (hslash : '/' ∉ pathname) :
    fs.execvp cred cwd path pathname = some file ↔
      ∃ before dir behind,
        fs.First cred cwd pathname (FileSystem.directories path) file before dir behind := by
  rw [FileSystem.execvp, if_neg hne, if_neg hslash]
  exact FileSystem.search_eq_some_iff

/-- What is executed has passed the checks. -/
theorem super_eq_executes {cred : Cred} : super fs cwd path p argv = .executes file cred ↔
    ∃ pathname inspected p', argv[1]? = some pathname ∧
      prepare fs cwd p pathname = .ok (inspected, p') ∧
      fs.execvp p'.effective cwd path pathname = some file ∧ p'.effective = cred := by
  rw [super]
  cases hargv : argv[1]? with
  | none => simp
  | some pathname =>
    cases hprepare : prepare fs cwd p pathname with
    | error refusal => simp [hprepare]
    | ok r =>
      obtain ⟨inspected, p'⟩ := r
      cases hexec : fs.execvp p'.effective cwd path pathname with
      | none => simp [hprepare, hexec]
      | some file' => simp [hprepare, hexec]

/-- The file executed is the one that was checked just where its name has a slash or `PATH` leads
to it. -/
theorem same_file_iff : SameFile fs cwd path p argv ↔ Named fs cwd path p argv := by
  constructor
  · intro h pathname inspected p' hargv hprepare
    by_cases hslash : '/' ∈ pathname
    · exact .inl hslash
    · refine .inr fun file before dir behind hfirst => ?_
      obtain ⟨haccess, hstat, hcred⟩ := prepare_spec hprepare
      have hne := FileSystem.ne_nil_of_resolve hstat
      have hexec := (first_of_no_slash hne hslash).mpr ⟨before, dir, behind, hfirst⟩
      rw [← hcred] at hexec
      obtain ⟨pathname', hargv', -, hstat', -⟩ := h file p'.effective
        (super_eq_executes.mpr ⟨pathname, inspected, p', hargv, hprepare, hexec, rfl⟩)
      rw [hargv] at hargv'
      injection hargv' with hname
      rw [← hname, hstat] at hstat'
      injection hstat' with hsame
      exact hsame.symm
  · intro h file cred hsuper
    obtain ⟨pathname, inspected, p', hargv, hprepare, hexec, rfl⟩ := super_eq_executes.mp hsuper
    obtain ⟨haccess, hstat, hcred⟩ := prepare_spec hprepare
    have hsame : file = inspected := by
      by_cases hslash : '/' ∈ pathname
      · exact FileSystem.resolve_unique (resolve_of_slash hslash hexec) hstat
      · have hne := FileSystem.ne_nil_of_resolve hstat
        obtain ⟨before, dir, behind, hfirst⟩ := (first_of_no_slash hne hslash).mp hexec
        rw [hcred] at hfirst
        exact (h pathname inspected p' hargv hprepare).resolve_left hslash _ _ _ _ hfirst
    rw [hsame]
    exact ⟨pathname, hargv, haccess, hstat, hcred⟩

/-- Everybody may read and execute it. -/
def shared : Perm := ⟨true, false, true⟩

/-- A root directory with one of programs and one of a member. Each has a file `su`, and that among
the programs belongs to root and has its bit set. -/
def twoPrograms : FileSystem Nat where
  root := 0
  node i := if i ≤ 2 then .directory else .file
  info i := ⟨if i = 2 ∨ i = 4 then 1000 else 0, 0, i = 3, false, shared, shared, shared⟩
  entry i name :=
    if i = 0 ∧ name = text "bin" then .ok 1
    else if i = 0 ∧ name = text "ann" then .ok 2
    else if i = 1 ∧ name = text "su" then .ok 3
    else if i = 2 ∧ name = text "su" then .ok 4
    else .error .noent
  load _ := none

/-- What a member starts, of a program that belongs to root and has its bit set. -/
def member : Process := ⟨1000, 1000, 0, 1000, []⟩

/-- In the directory of programs, the bit of root's file gives root's ids to the file that `PATH`
leads to. -/
theorem not_same_file :
    ¬∀ (fs : FileSystem Nat) (cwd : Nat) (path : Option Text) (p : Process) (argv : List Text),
      SameFile fs cwd path p argv := by
  intro h
  let argv := [text "super", text "su"]
  obtain ⟨pathname, hargv, haccess, -, -⟩ :=
    h twoPrograms 1 (some (text "/ann")) member argv 4 ⟨0, 1000, []⟩ (by decide)
  injection hargv with hname
  rw [← hname] at haccess
  have hother : twoPrograms.access member.real 1 (text "su") ≠ .ok 4 := by decide
  exact hother haccess

end HackerUnion.Super
