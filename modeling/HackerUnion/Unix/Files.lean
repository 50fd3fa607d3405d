import HackerUnion.Bash.Text

namespace HackerUnion.Unix

open Bash

inductive Errno where
  | acces | noent | notdir | loop | nametoolong | stale | nodev | timedout | txtbsy | noexec | io
  deriving DecidableEq

/-- The ids that a process is judged by. -/
structure Cred where
  uid : Nat
  gid : Nat
  groups : List Nat
  deriving DecidableEq

structure Perm where
  read : Bool
  write : Bool
  execute : Bool
  deriving DecidableEq

/-- What `stat` tells of a file. -/
structure Info where
  uid : Nat
  gid : Nat
  setuid : Bool
  setgid : Bool
  owner : Perm
  group : Perm
  other : Perm
  deriving DecidableEq

inductive Node where
  | directory
  | file
  | link (target : Text)
  | special
  deriving DecidableEq

/-- The files of a system, whoever looks at them. `..` is an entry of a directory too, and `load`
is what keeps an executable file from being loaded. -/
structure FileSystem (I : Type) where
  root : I
  node : I → Node
  info : I → Info
  entry : I → Text → Except Errno I
  load : I → Option Errno

variable {I : Type}

def Info.perm (info : Info) (cred : Cred) : Perm :=
  if cred.uid = info.uid then info.owner
  else if cred.gid = info.gid || info.gid ∈ cred.groups then info.group
  else info.other

namespace FileSystem

variable (fs : FileSystem I) (cred : Cred)

def mayRead (i : I) : Bool := cred.uid = 0 || ((fs.info i).perm cred).read

/-- To execute a file or to search a directory. The superuser may search any directory, and execute
what anybody may. -/
def mayExecute (i : I) : Bool :=
  let info := fs.info i
  if cred.uid = 0 then
    fs.node i = .directory || info.owner.execute || info.group.execute || info.other.execute
  else (info.perm cred).execute

/-- The names are followed one after the other. Where a link is met, `again` goes on with its
target and the names that are left. -/
def follow (again : I → List Text → Except Errno I) : I → List Text → Except Errno I
  | here, [] => .ok here
  | here, name :: names =>
    if fs.node here ≠ .directory then .error .notdir
    else if name = [] then follow again here names
    else if !fs.mayExecute cred here then .error .acces
    else if name = text "." then follow again here names
    else
      match fs.entry here name with
      | .error e => .error e
      | .ok i =>
        match fs.node i with
        | .link target =>
          again (if target.head? = some '/' then fs.root else here) (target.splitOn '/' ++ names)
        | _ => follow again i names

/-- The same with so many links at most. -/
def walk : Nat → I → List Text → Except Errno I
  | 0 => follow fs cred fun _ _ => .error .loop
  | links + 1 => follow fs cred (walk links)

/-- The file that a path leads to. -/
def resolve (cwd : I) (path : Text) : Except Errno I :=
  if path = [] then .error .noent
  else fs.walk cred 40 (if path.head? = some '/' then fs.root else cwd) (path.splitOn '/')

/-- `access` with `X_OK | R_OK` -/
def access (cwd : I) (path : Text) : Except Errno I :=
  match fs.resolve cred cwd path with
  | .error e => .error e
  | .ok i => if fs.mayRead cred i && fs.mayExecute cred i then .ok i else .error .acces

variable {fs cred} {cred' : Cred} {cwd here i j : I} {names : List Text} {path : Text}

section Unique

theorem follow_unique {again again' : I → List Text → Except Errno I}
    (hagain : ∀ here names i j, again here names = .ok i → again' here names = .ok j → i = j)
    (h : fs.follow cred again here names = .ok i)
    (h' : fs.follow cred' again' here names = .ok j) : i = j := by
  induction names generalizing here with
  | nil =>
    injection h with h
    injection h' with h'
    exact h.symm.trans h'
  | cons name names ih =>
    rw [follow] at h h'
    split at h
    · cases h
    · rename_i hdir
      rw [if_neg hdir] at h'
      split at h
      · rename_i hname
        rw [if_pos hname] at h'
        exact ih h h'
      · rename_i hname
        rw [if_neg hname] at h'
        split at h
        · cases h
        · split at h'
          · cases h'
          · split at h
            · rename_i hdot
              rw [if_pos hdot] at h'
              exact ih h h'
            · rename_i hdot
              rw [if_neg hdot] at h'
              cases hentry : fs.entry here name with
              | error e =>
                rw [hentry] at h
                cases h
              | ok next =>
                rw [hentry] at h h'
                -- a link is followed by `again`, anything else is gone into
                simp only at h h'
                split at h
                · rename_i target hnode
                  rw [hnode] at h'
                  exact hagain _ _ _ _ h h'
                · rename_i hnode
                  split at h'
                  · rename_i target hlink
                    exact absurd hlink (hnode target)
                  · exact ih h h'

theorem walk_unique (links : Nat) (h : fs.walk cred links here names = .ok i)
    (h' : fs.walk cred' links here names = .ok j) : i = j := by
  induction links generalizing here names i j with
  | zero => exact follow_unique (fun _ _ _ _ h _ => by cases h) h h'
  | succ links ih => exact follow_unique (fun _ _ _ _ h h' => ih h h') h h'

/-- Who asks decides whether a path leads anywhere, not where it leads. -/
theorem resolve_unique (h : fs.resolve cred cwd path = .ok i)
    (h' : fs.resolve cred' cwd path = .ok j) : i = j := by
  rw [resolve] at h h'
  split at h
  · cases h
  · rename_i hpath
    rw [if_neg hpath] at h'
    exact walk_unique 40 h h'

/-- The empty path leads nowhere. -/
theorem ne_nil_of_resolve (h : fs.resolve cred cwd path = .ok i) : path ≠ [] := by
  intro hpath
  rw [hpath] at h
  cases h

theorem resolve_of_access (h : fs.access cred cwd path = .ok i) :
    fs.resolve cred cwd path = .ok i := by
  rw [access] at h
  split at h
  · cases h
  · rename_i file hfile
    split at h
    · rw [hfile]
      exact h
    · cases h

end Unique

end FileSystem

end HackerUnion.Unix
