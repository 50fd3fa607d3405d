import HackerUnion.Listing.Tree

namespace HackerUnion.Listing

open Bash

/-- What `readdir` gives of a directory, each name with what `stat` says of it, whether `readdir`
succeeds on it, and what it gives if so. -/
inductive Readdir where
  | nil
  | entry (name : Text) (stat : Option Stat) (listed : Bool) (inside rest : Readdir)

namespace Readdir

/-- `stat && stat.isDirectory()` -/
def isDirectory (stat : Option Stat) : Bool := stat.any Stat.isDirectory

/-- `walk`, with the results so far. What was found below a directory goes behind them; where it
cannot be read that is nothing. -/
def walk (dir : Text) (results : List Item) : Readdir → List Item
  | .nil => results
  | .entry name stat listed inside rest =>
    let results := results ++ [⟨name, dir, stat⟩]
    if isDirectory stat then
      walk dir (results ++ if listed then walk (join dir name) [] inside else []) rest
    else walk dir results rest

/-- What is printed. `root` is the outcome of `readdir` on the path given. -/
def tree (path : Text) (root : Option Readdir) : Js.Obj Text (List (Text × Text)) :=
  ((root.map (walk path [])).getD []).foldl addItem Js.Obj.empty

/-- The names with what `stat` says of them, in the order of `readdir`. -/
def entries : Readdir → List (Text × Option Stat)
  | .nil => []
  | .entry name stat _ _ rest => (name, stat) :: rest.entries

/-- Names are such, and no two entries of a directory have one. -/
def WellFormed : Readdir → Prop
  | .nil => True
  | .entry name _ _ inside rest =>
    ValidName name ∧ name ∉ rest.entries.map Prod.fst ∧ inside.WellFormed ∧ rest.WellFormed

/-- The entries of a directory of that name, which is reported as one and can be read. -/
def sub (name : Text) : Readdir → Option Readdir
  | .nil => none
  | .entry name' stat listed inside rest =>
    if name' = name then if isDirectory stat && listed then some inside else none
    else rest.sub name

/-- The directory that is reached over the names, each of which is reported as a directory and can
be read. -/
def reached (l : Readdir) : List Text → Option Readdir
  | [] => some l
  | name :: names => (l.sub name).bind (reached · names)

/-- The row of an entry: its name, and a slash just where a directory is reported. -/
def RowOf (entry : Text × Option Stat) (row : Text × Text) : Prop :=
  row.1 = entry.1 ∧ (row.2 = text "/" ↔ ∃ stat, entry.2 = some stat ∧ stat.isDirectory = true)

/-- The object has the directories that are reached and have entries, and of each the two dots and
a row for each entry. -/
structure Grouped (path : Text) (root : Option Readdir)
    (paths : Js.Obj Text (List (Text × Text))) : Prop where
  key : ∀ dir, (paths.get dir).isSome ↔
    ∃ names l, root.bind (reached · names) = some l ∧ l.entries ≠ [] ∧ dir = joinAll path names
  value : ∀ names l, root.bind (reached · names) = some l → l.entries ≠ [] →
    ∃ rows, paths.get (joinAll path names) = some (dots ++ rows) ∧ List.Forall₂ RowOf l.entries rows

variable {l l' : Readdir} {dir name : Text} {names : List Text}

section Walk

theorem walk_append (dir : Text) (results : List Item) (l : Readdir) :
    l.walk dir results = results ++ l.walk dir [] := by
  induction l generalizing results with
  | nil => simp [walk]
  | entry name stat listed inside rest _ ih =>
    simp only [walk]
    split
    · rw [ih, ih ([] ++ [_] ++ _)]
      simp
    · rw [ih, ih ([] ++ [_])]
      simp

/-- One entry, what is below it, and the others. -/
theorem walk_entry (dir name : Text) (stat : Option Stat) (listed : Bool) (inside rest : Readdir) :
    (Readdir.entry name stat listed inside rest).walk dir [] =
      ⟨name, dir, stat⟩ ::
        ((if isDirectory stat && listed then inside.walk (join dir name) [] else []) ++
          rest.walk dir []) := by
  rw [walk]
  cases isDirectory stat with
  | false =>
    rw [if_neg Bool.false_ne_true, walk_append]
    rfl
  | true =>
    rw [if_pos rfl, walk_append]
    simp

/-- The items of the entries themselves. -/
def items (dir : Text) (l : Readdir) : List Item := l.entries.map fun e => ⟨e.1, dir, e.2⟩

theorem mem_walk (hl : l.WellFormed) {item : Item} (h : item ∈ l.walk dir []) :
    ∃ names, (∀ name ∈ names, ValidName name) ∧ item.dir = joinAll dir names ∧
      ∀ name ∈ names.head?, name ∈ l.entries.map Prod.fst := by
  induction l generalizing dir with
  | nil => cases h
  | entry name stat listed inside rest ihinside ihrest =>
    obtain ⟨hname, -, hinside, hrest⟩ := hl
    rw [walk_entry] at h
    rcases List.mem_cons.mp h with rfl | h
    · exact ⟨[], by simp, rfl, by simp⟩
    · rcases List.mem_append.mp h with h | h
      · split at h
        · obtain ⟨names, hvalid, hdir, -⟩ := ihinside hinside h
          exact ⟨name :: names, List.forall_mem_cons.mpr ⟨hname, hvalid⟩, hdir, by simp [entries]⟩
        · cases h
      · obtain ⟨names, hvalid, hdir, hhead⟩ := ihrest hrest h
        exact ⟨names, hvalid, hdir, fun n hn => List.mem_cons_of_mem _ (hhead n hn)⟩

/-- Nothing is found of a directory whose first name is not among the entries. -/
theorem filter_walk_absent (hl : l.WellFormed) (hname : name ∉ l.entries.map Prod.fst)
    (hvalid : ∀ n ∈ name :: names, ValidName n) :
    (l.walk dir []).filter (·.dir = joinAll dir (name :: names)) = [] := by
  refine List.filter_eq_nil_iff.mpr fun item hitem heq => ?_
  obtain ⟨names', hvalid', hdir, hhead⟩ := mem_walk hl hitem
  have hsame : names' = name :: names :=
    joinAll_injective dir hvalid' hvalid (hdir.symm.trans (of_decide_eq_true heq))
  exact hname (hhead name (by simp [hsame]))

/-- Below an entry nothing is found of another one. -/
theorem filter_walk_below {name' : Text} (hl : l.WellFormed) (hname' : ValidName name')
    (hvalid : ∀ n ∈ names, ValidName n) (hne : ∀ n ∈ names.head?, name' ≠ n) (dir : Text) :
    (l.walk (join dir name') []).filter (·.dir = joinAll dir names) = [] := by
  refine List.filter_eq_nil_iff.mpr fun item hitem heq => ?_
  obtain ⟨names', hvalid', hdir, -⟩ := mem_walk hl hitem
  have hsame : name' :: names' = names :=
    joinAll_injective dir (List.forall_mem_cons.mpr ⟨hname', hvalid'⟩) hvalid
      (hdir.symm.trans (of_decide_eq_true heq))
  exact hne name' (by simp [← hsame]) rfl

theorem filter_walk_here (hl : l.WellFormed) (dir : Text) :
    (l.walk dir []).filter (·.dir = dir) = l.items dir := by
  induction l with
  | nil => rfl
  | entry name stat listed inside rest _ ihrest =>
    obtain ⟨hname, -, hinside, hrest⟩ := hl
    have hbelow : (inside.walk (join dir name) []).filter (·.dir = dir) = [] :=
      @filter_walk_below inside [] name hinside hname (by simp) (by simp) dir
    have hlater := ihrest hrest
    rw [items] at hlater
    rw [walk_entry, List.filter_cons_of_pos (by simp), List.filter_append, hlater]
    split
    · rw [hbelow]
      rfl
    · rfl

/-- What is found of a directory further down is found below the entry on the way. -/
theorem filter_walk_sub (hl : l.WellFormed) (hvalid : ∀ n ∈ name :: names, ValidName n) :
    (l.walk dir []).filter (·.dir = joinAll dir (name :: names)) =
      match l.sub name with
      | none => []
      | some inside =>
        (inside.walk (join dir name) []).filter (·.dir = joinAll (join dir name) names) := by
  have hdir : dir ≠ joinAll dir (name :: names) := ne_joinAll hvalid (List.cons_ne_nil _ _)
  induction l with
  | nil => rfl
  | entry name' stat listed inside rest _ ihrest =>
    obtain ⟨hname', hnot, hinside, hrest⟩ := hl
    rw [walk_entry, List.filter_cons_of_neg (by simpa using hdir), List.filter_append, sub]
    by_cases hname : name' = name
    · subst hname
      rw [filter_walk_absent hrest hnot hvalid, List.append_nil, if_pos rfl]
      split
      · rfl
      · rfl
    · have hbelow := filter_walk_below hinside hname' hvalid (by simpa using hname) dir
      rw [if_neg hname, ← ihrest hrest]
      split
      · rw [hbelow, List.nil_append]
      · rfl

theorem wellFormed_sub (hl : l.WellFormed) (h : l.sub name = some l') :
    ValidName name ∧ l'.WellFormed := by
  induction l with
  | nil => cases h
  | entry name' stat listed inside rest _ ihrest =>
    rw [sub] at h
    split at h
    · rename_i hname
      split at h
      · injection h with h
        exact ⟨hname ▸ hl.1, h ▸ hl.2.2.1⟩
      · cases h
    · exact ihrest hl.2.2.2 h

/-- Names that reach a directory are names of entries. -/
theorem valid_of_reached (hl : l.WellFormed) (h : l.reached names = some l') :
    ∀ n ∈ names, ValidName n := by
  induction names generalizing l with
  | nil => simp
  | cons name names ih =>
    obtain ⟨inside, hsub, hreached⟩ := Option.bind_eq_some_iff.mp h
    obtain ⟨hname, hinside⟩ := wellFormed_sub hl hsub
    exact List.forall_mem_cons.mpr ⟨hname, ih hinside hreached⟩

/-- Of a directory the items of its entries are found if it is reached, and otherwise nothing. -/
theorem filter_walk (hl : l.WellFormed) (hvalid : ∀ n ∈ names, ValidName n) (dir : Text) :
    (l.walk dir []).filter (·.dir = joinAll dir names) =
      match l.reached names with
      | none => []
      | some l' => l'.items (joinAll dir names) := by
  induction names generalizing l dir with
  | nil => exact filter_walk_here hl dir
  | cons name names ih =>
    obtain ⟨hname, hnames⟩ := List.forall_mem_cons.mp hvalid
    rw [filter_walk_sub hl hvalid, reached]
    cases hsub : l.sub name with
    | none => rfl
    | some inside => exact ih (wellFormed_sub hl hsub).2 hnames (join dir name)

end Walk

/-- The row that is written is one of the entry. -/
theorem rowOf_classify (entry : Text × Option Stat) : RowOf entry (entry.1, classify entry.2) := by
  have hdash : text "-" ≠ text "/" := by decide
  have hstar : text "*" ≠ text "/" := by decide
  refine ⟨rfl, ?_⟩
  cases hstat : entry.2 with
  | none => simp [classify, hdash]
  | some stat =>
    rw [classify]
    split
    · simp [*]
    · split
      · simp [*]
      · simp [*]

/-- The listings are those of the directories reached, whatever `readdir` and `stat` say. -/
theorem tree_grouped {root : Option Readdir} (h : ∀ l ∈ root, l.WellFormed) (path : Text) :
    Grouped path root (tree path root) := by
  have hget (dir : Text) : (tree path root).get dir =
      if ((root.map (walk path [])).getD []).filter (·.dir = dir) = [] then none
      else some (dots ++ (((root.map (walk path [])).getD []).filter (·.dir = dir)).map
        fun item => (item.file, classify item.stat)) :=
    foldl_addItem _ Js.Obj.empty dir
  cases root with
  | none =>
    refine ⟨fun dir => ?_, fun names l hl => by cases hl⟩
    rw [hget]
    simp
  | some top =>
    have htop := h top rfl
    have hitems {names : List Text} {l : Readdir} (hl : top.reached names = some l) :
        (top.walk path []).filter (·.dir = joinAll path names) = l.items (joinAll path names) := by
      rw [filter_walk htop (valid_of_reached htop hl), hl]
    have hvalue {names : List Text} {l : Readdir} (hl : top.reached names = some l)
        (hne : l.entries ≠ []) : (tree path (some top)).get (joinAll path names) =
          some (dots ++ l.entries.map fun e => (e.1, classify e.2)) := by
      have hfilter := hitems hl
      rw [hget]
      simp only [Option.map_some, Option.getD_some, hfilter, items, List.map_eq_nil_iff, hne,
        if_false, List.map_map]
      rfl
    constructor
    · intro dir
      constructor
      · intro hsome
        have hfound : (top.walk path []).filter (·.dir = dir) ≠ [] := by
          intro hnil
          rw [hget] at hsome
          simp [hnil] at hsome
        obtain ⟨item, hitem⟩ := List.exists_mem_of_ne_nil _ hfound
        obtain ⟨hitem, hdir⟩ := List.mem_filter.mp hitem
        obtain ⟨names, hvalid, hjoin, -⟩ := mem_walk htop hitem
        have heq : dir = joinAll path names := (of_decide_eq_true hdir).symm.trans hjoin
        rw [heq, filter_walk htop hvalid] at hfound
        cases hreached : top.reached names with
        | none =>
          rw [hreached] at hfound
          exact absurd rfl hfound
        | some l =>
          rw [hreached] at hfound
          refine ⟨names, l, hreached, fun hnil => hfound ?_, heq⟩
          simp [items, hnil]
      · intro hreached
        obtain ⟨names, l, hl, hne, rfl⟩ := hreached
        rw [hvalue hl hne]
        rfl
    · intro names l hl hne
      refine ⟨l.entries.map fun e => (e.1, classify e.2), hvalue hl hne, ?_⟩
      rw [List.forall₂_map_right_iff, List.forall₂_same]
      exact fun e _ => rowOf_classify e

/-- A directory that cannot be read, one that `stat` fails on, an empty one, and one with a file. -/
theorem tree_grouped_four :
    let file : Readdir := .entry (text "a") (some ⟨false, true⟩) false .nil .nil
    let root : Readdir := .entry (text "locked") (some ⟨true, true⟩) false file
      (.entry (text "gone") none true file (.entry (text "empty") (some ⟨true, true⟩) true .nil
        (.entry (text "open") (some ⟨true, true⟩) true file .nil)))
    Grouped (text "/srv") (some root) (tree (text "/srv") (some root)) := by
  intro file root
  refine tree_grouped ?_ (text "/srv")
  intro l hl
  obtain rfl := Option.some.inj hl
  have hvalid : ∀ name ∈ [text "a", text "locked", text "gone", text "empty", text "open"],
      ValidName name := by
    unfold ValidName
    decide
  have hfile : file.WellFormed := ⟨hvalid _ (by decide), by decide, trivial, trivial⟩
  exact ⟨hvalid _ (by decide), by decide, hfile, hvalid _ (by decide), by decide, hfile,
    hvalid _ (by decide), by decide, trivial, hvalid _ (by decide), by decide, hfile, trivial⟩

end Readdir

/-- What `readdir` and `stat` give of entries by their permissions. -/
def Entries.listed (searchable : Bool) : Entries → Readdir
  | .nil => .nil
  | .leaf name kind runs rest =>
    .entry name (if searchable && kind ≠ .dangling then some ⟨false, runs⟩ else none) false .nil
      (rest.listed searchable)
  | .dir name readable s inside rest =>
    .entry name (if searchable then some ⟨true, true⟩ else none) readable (inside.listed s)
      (rest.listed searchable)

/-- Where nothing but permissions makes a call fail, the walk is the one that goes by these. -/
theorem walk_listed (dir : Text) (searchable : Bool) (e : Entries) :
    (e.listed searchable).walk dir [] = walk dir searchable e := by
  induction e generalizing dir searchable with
  | nil => rfl
  | leaf name kind runs rest ih =>
    rw [Entries.listed, Readdir.walk_entry, ih, walk]
    split
    · rfl
    · rfl
  | dir name readable s inside rest ihinside ihrest =>
    rw [Entries.listed, Readdir.walk_entry, ihinside, ihrest, walk]
    cases searchable with
    | false => rfl
    | true => rfl

section Listed

variable {e : Entries} {d : Directory} {name : Text} {names : List Text}

theorem names_listed (e : Entries) (searchable : Bool) :
    (e.listed searchable).entries.map Prod.fst = e.rows.map Row.name := by
  induction e with
  | nil => rfl
  | leaf name kind runs rest ih =>
    simp [Entries.listed, Readdir.entries, Entries.rows, ih]
  | dir name readable s inside rest _ ihrest =>
    simp [Entries.listed, Readdir.entries, Entries.rows, ihrest]

theorem items_listed (e : Entries) (dir : Text) (searchable : Bool) :
    (e.listed searchable).items dir = e.items dir searchable := by
  induction e with
  | nil => rfl
  | leaf name kind runs rest ih =>
    rw [Entries.items, ← ih]
    rfl
  | dir name readable s inside rest _ ihrest =>
    rw [Entries.items, ← ihrest]
    rfl

theorem wellFormed_listed (he : e.WellFormed) (searchable : Bool) :
    (e.listed searchable).WellFormed := by
  induction e generalizing searchable with
  | nil => trivial
  | leaf name kind runs rest ih =>
    obtain ⟨hname, hnot, hrest⟩ := he
    exact ⟨hname, by rwa [names_listed], trivial, ih hrest searchable⟩
  | dir name readable s inside rest ihinside ihrest =>
    obtain ⟨hname, hnot, hinside, hrest⟩ := he
    exact ⟨hname, by rwa [names_listed], ihinside hinside s, ihrest hrest searchable⟩

/-- Below a directory that can be searched, those that can be read are gone into. -/
theorem sub_listed (he : e.WellFormed) (name : Text) :
    (e.listed true).sub name = (e.sub name).bind fun d =>
      if d.readable then some (d.entries.listed d.searchable) else none := by
  induction e with
  | nil => rfl
  | leaf name' kind runs rest ih =>
    obtain ⟨-, hnot, hrest⟩ := he
    rw [Entries.listed, Readdir.sub, Entries.sub]
    by_cases hname : name' = name
    · rw [sub_eq_none (hname ▸ hnot), if_pos hname]
      simp
    · rw [if_neg hname, ih hrest]
  | dir name' readable s inside rest _ ihrest =>
    rw [Entries.listed, Readdir.sub, Entries.sub]
    by_cases hname : name' = name
    · rw [if_pos hname, if_pos hname]
      rfl
    · rw [if_neg hname, if_neg hname, ihrest he.2.2.2]

/-- A directory is reached if all on the way to it can be read, and it can. -/
theorem reached_listed {root : Directory} {walked : Bool} (he : root.entries.WellFormed)
    (h : root.find names = some (walked, d)) :
    (if root.readable then (root.entries.listed root.searchable).reached names else none) =
      if walked && d.readable then some (d.entries.listed d.searchable) else none := by
  induction names generalizing root walked with
  | nil =>
    obtain ⟨rfl, rfl⟩ := Prod.mk.inj (Option.some.inj h)
    rfl
  | cons name names ih =>
    rw [Directory.find] at h
    split at h
    · rename_i hsearch
      obtain ⟨e, hsub, hfind⟩ := Option.bind_eq_some_iff.mp h
      obtain ⟨⟨walked', d'⟩, hfound, hpair⟩ := Option.map_eq_some_iff.mp hfind
      obtain ⟨rfl, rfl⟩ := Prod.mk.inj hpair
      have hrest := ih (wellFormed_sub he hsub) hfound
      cases hr : root.readable with
      | false => simp
      | true =>
        rw [if_pos rfl, Readdir.reached, hsearch, sub_listed he, hsub, Bool.true_and, ← hrest]
        cases hread : e.readable with
        | false => simp [hread]
        | true => simp [hread]
    · cases h

/-- What is found of a directory are its entries, if it is reached. -/
theorem walk_find {root : Directory} {walked : Bool} (he : root.entries.WellFormed)
    (hvalid : ∀ n ∈ names, ValidName n) (h : root.find names = some (walked, d)) (path : Text) :
    (if root.readable then walk path root.searchable root.entries else []).filter
        (·.dir = joinAll path names) =
      if walked && d.readable then d.entries.items (joinAll path names) d.searchable else [] := by
  have hreached := reached_listed he h
  have hwalk := Readdir.filter_walk (wellFormed_listed he root.searchable) hvalid path
  rw [walk_listed] at hwalk
  cases hr : root.readable with
  | false =>
    rw [hr] at hreached
    cases hfound : walked && d.readable with
    | false => rfl
    | true => simp [hfound] at hreached
  | true =>
    rw [hr, if_pos rfl] at hreached
    rw [if_pos rfl, hwalk, hreached]
    cases walked && d.readable with
    | false => rfl
    | true => exact items_listed _ _ _

end Listed

end HackerUnion.Listing
