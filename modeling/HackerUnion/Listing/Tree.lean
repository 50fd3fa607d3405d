import HackerUnion.Js.Object
import HackerUnion.Listing.Ls

namespace HackerUnion.Listing

open Bash

/-- What an entry is that is no directory. -/
inductive Kind where
  | regular (executable : Bool)
  | dangling
  | fifo
  | socket
  | device
  deriving DecidableEq

def Kind.mark : Kind → Mark
  | .regular true => .executable
  | .regular false => .plain
  | .dangling => .link
  | .fifo => .fifo
  | .socket => .socket
  | .device => .plain

/-- The entries of a directory, one after the other. `runs` is whether the user who asks is one of
those who may execute the file. -/
inductive Entries where
  | nil
  | leaf (name : Text) (kind : Kind) (runs : Bool) (rest : Entries)
  | dir (name : Text) (readable searchable : Bool) (inside rest : Entries)

structure Directory where
  readable : Bool
  searchable : Bool
  entries : Entries

def Entries.rows : Entries → List Row
  | .nil => []
  | .leaf name kind _ rest => ⟨name, kind.mark⟩ :: rest.rows
  | .dir name _ _ _ rest => ⟨name, .directory⟩ :: rest.rows

/-- What `ls -a` shows of a directory, in some order. -/
def Directory.rows (d : Directory) : List Row :=
  ⟨text ".", .directory⟩ :: ⟨text "..", .directory⟩ :: d.entries.rows

structure Stat where
  isDirectory : Bool
  runs : Bool

structure Item where
  file : Text
  dir : Text
  stat : Option Stat

/-- `nodePath.join` of a path without a slash at the end and a name. -/
def join (dir name : Text) : Text := if dir = ['/'] then '/' :: name else dir ++ '/' :: name

/-- `walk` from the entries of a directory. A directory that cannot be read adds nothing, and in one
that cannot be searched no entry can be examined. -/
def walk (dir : Text) (searchable : Bool) : Entries → List Item
  | .nil => []
  | .leaf name kind runs rest =>
    ⟨name, dir, if searchable && kind ≠ .dangling then some ⟨false, runs⟩ else none⟩ ::
      walk dir searchable rest
  | .dir name r s inside rest =>
    if searchable then
      ⟨name, dir, some ⟨true, true⟩⟩ ::
        ((if r then walk (join dir name) s inside else []) ++ walk dir searchable rest)
    else ⟨name, dir, none⟩ :: walk dir searchable rest

def classify : Option Stat → Text
  | none => text "-"
  | some stat => if stat.isDirectory then text "/" else if stat.runs then text "*" else text "-"

/-- What every listing begins with. -/
def dots : List (Text × Text) := [(text ".", text "/"), (text "..", text "/")]

/-- An entry is added to the listing of its directory. No directory has an inherited name: their
paths begin with a slash. -/
def addItem (paths : Js.Obj Text (List (Text × Text))) (item : Item) :
    Js.Obj Text (List (Text × Text)) :=
  paths.set item.dir ((paths.get item.dir).getD dots ++ [(item.file, classify item.stat)])

/-- The listings by the paths of their directories. -/
def tree (path : Text) (root : Directory) : Js.Obj Text (List (Text × Text)) :=
  (if root.readable then walk path root.searchable root.entries else []).foldl addItem Js.Obj.empty

/-- The directory of a name among entries. -/
def Entries.sub (name : Text) : Entries → Option Directory
  | .nil => none
  | .leaf _ _ _ rest => rest.sub name
  | .dir name' r s inside rest => if name' = name then some ⟨r, s, inside⟩ else rest.sub name

/-- The directory that names lead to from another, and whether each on the way can be read. -/
def Directory.find (d : Directory) : List Text → Option (Bool × Directory)
  | [] => some (true, d)
  | name :: names =>
    if d.searchable then
      (d.entries.sub name).bind fun e => (e.find names).map fun found =>
        (d.readable && found.1, found.2)
    else none

def joinAll (dir : Text) (names : List Text) : Text := names.foldl join dir

/-- A name that a file can have. -/
def ValidName (name : Text) : Prop :=
  name ≠ [] ∧ '/' ∉ name ∧ name ≠ text "." ∧ name ≠ text ".."

/-- Names are such, and no two entries of a directory have one. -/
def Entries.WellFormed : Entries → Prop
  | .nil => True
  | .leaf name _ _ rest => ValidName name ∧ name ∉ rest.rows.map Row.name ∧ rest.WellFormed
  | .dir name _ _ inside rest =>
    ValidName name ∧ name ∉ rest.rows.map Row.name ∧ inside.WellFormed ∧ rest.WellFormed

section Paths

variable {dir name : Text} {names names' : List Text}

/-- A directory as its entries' paths begin. -/
def base (dir : Text) : Text := if dir = ['/'] then [] else dir

def slashed (names : List Text) : Text := names.flatMap ('/' :: ·)

theorem join_eq (dir name : Text) : join dir name = base dir ++ '/' :: name := by
  unfold join base
  split <;> rfl

theorem base_join (h : name ≠ []) (dir : Text) : base (join dir name) = join dir name := by
  refine if_neg fun heq => ?_
  rw [join_eq] at heq
  have hlength := congrArg List.length heq
  have hpos := List.length_pos_iff.mpr h
  simp at hlength
  omega

theorem joinAll_eq (h : ∀ name ∈ names, ValidName name) (hne : names ≠ []) (dir : Text) :
    joinAll dir names = base dir ++ slashed names := by
  induction names generalizing dir with
  | nil => exact absurd rfl hne
  | cons name names ih =>
    obtain ⟨hname, hnames⟩ := List.forall_mem_cons.mp h
    by_cases hrest : names = []
    · subst hrest
      simp [joinAll, slashed, join_eq]
    · have hjoin := ih hnames hrest (join dir name)
      rw [base_join hname.1, join_eq] at hjoin
      simpa [joinAll, slashed, join_eq] using hjoin

/-- A name ends where a slash follows or nothing does. -/
theorem takeWhile_slashed (h : '/' ∉ name) (names : List Text) :
    (name ++ slashed names).takeWhile (· ≠ '/') = name := by
  have hname : ∀ c ∈ name, (decide (c ≠ '/')) = true := by
    intro c hc
    have hne : c ≠ '/' := fun heq => h (heq ▸ hc)
    simpa using hne
  rw [List.takeWhile_append_of_pos hname]
  cases names <;> simp [slashed]

theorem slashed_injective (h : ∀ name ∈ names, ValidName name)
    (h' : ∀ name ∈ names', ValidName name) (heq : slashed names = slashed names') :
    names = names' := by
  induction names generalizing names' with
  | nil =>
    cases names' with
    | nil => rfl
    | cons name' names' => simp [slashed] at heq
  | cons name names ih =>
    cases names' with
    | nil => simp [slashed] at heq
    | cons name' names' =>
      obtain ⟨hname, hnames⟩ := List.forall_mem_cons.mp h
      obtain ⟨hname', hnames'⟩ := List.forall_mem_cons.mp h'
      have hrest : name ++ slashed names = name' ++ slashed names' := by
        simpa [slashed] using heq
      have hfirst : name = name' := by
        rw [← takeWhile_slashed hname.2.1 names, hrest, takeWhile_slashed hname'.2.1]
      subst hfirst
      rw [ih hnames hnames' (List.append_cancel_left hrest)]

theorem ne_joinAll (h : ∀ name ∈ names, ValidName name) (hne : names ≠ []) :
    dir ≠ joinAll dir names := by
  intro heq
  have hlength := congrArg List.length heq
  rw [joinAll_eq h hne] at hlength
  cases names with
  | nil => exact hne rfl
  | cons name names =>
    have hpos := List.length_pos_iff.mpr (h name List.mem_cons_self).1
    unfold base at hlength
    split at hlength
    · rename_i hroot
      rw [hroot] at hlength
      simp [slashed] at hlength
      exact (h name List.mem_cons_self).1 hlength.1
    · simp [slashed] at hlength

variable (dir) in
/-- Different names lead to different paths. -/
theorem joinAll_injective (h : ∀ name ∈ names, ValidName name)
    (h' : ∀ name ∈ names', ValidName name) (heq : joinAll dir names = joinAll dir names') :
    names = names' := by
  by_cases hne : names = []
  · subst hne
    by_contra hne'
    exact ne_joinAll h' (Ne.symm hne') heq
  · by_cases hne' : names' = []
    · subst hne'
      exact absurd heq.symm (ne_joinAll h hne)
    · rw [joinAll_eq h hne, joinAll_eq h' hne'] at heq
      exact slashed_injective h h' (List.append_cancel_left heq)

end Paths

section Group

/-- The listing of a directory is of the items that are in it, in their order. -/
theorem foldl_addItem (items : List Item) (paths : Js.Obj Text (List (Text × Text))) (d : Text) :
    (items.foldl addItem paths).get d =
      if items.filter (·.dir = d) = [] then paths.get d
      else some ((paths.get d).getD dots ++
        (items.filter (·.dir = d)).map fun item => (item.file, classify item.stat)) := by
  induction items generalizing paths with
  | nil => simp
  | cons item items ih =>
    rw [List.foldl_cons, ih, addItem]
    by_cases hd : item.dir = d
    · subst hd
      by_cases hrest : items.filter (·.dir = item.dir) = [] <;>
        simp [hrest]
    · have hne : d ≠ item.dir := fun h => hd h.symm
      simp [Js.Obj.get_set, hd, hne]

end Group

/-- What `walk` finds of the entries themselves. -/
def Entries.items (dir : Text) (searchable : Bool) : Entries → List Item
  | .nil => []
  | .leaf name kind runs rest =>
    ⟨name, dir, if searchable && kind ≠ .dangling then some ⟨false, runs⟩ else none⟩ ::
      rest.items dir searchable
  | .dir name _ _ _ rest =>
    ⟨name, dir, if searchable then some ⟨true, true⟩ else none⟩ :: rest.items dir searchable

section Sub

variable {e : Entries} {d : Directory} {name : Text}

theorem wellFormed_sub (he : e.WellFormed) (h : e.sub name = some d) : d.entries.WellFormed := by
  induction e with
  | nil => cases h
  | leaf name' kind runs rest ih => exact ih he.2.2 h
  | dir name' r s inside rest _ ihrest =>
    rw [Entries.sub] at h
    split at h
    · obtain rfl := Option.some.inj h
      exact he.2.2.1
    · exact ihrest he.2.2.2 h

theorem sub_eq_none (hname : name ∉ e.rows.map Row.name) : e.sub name = none := by
  induction e with
  | nil => rfl
  | leaf name' kind runs rest ih =>
    exact ih fun hmem => hname (List.mem_cons_of_mem _ hmem)
  | dir name' r s inside rest _ ihrest =>
    have hne : name' ≠ name := fun heq => hname (heq ▸ List.mem_cons_self)
    rw [Entries.sub, if_neg hne]
    exact ihrest fun hmem => hname (List.mem_cons_of_mem _ hmem)

end Sub

end HackerUnion.Listing
