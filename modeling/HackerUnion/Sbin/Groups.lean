import HackerUnion.Sbin.Save
import HackerUnion.Bash.Words

namespace HackerUnion.Sbin

open Bash

/-- The characters of the names of users and groups. -/
def isNameChar (c : Char) : Bool := c.isAlphanum || c ∈ ['_', '-', '.', '$']

/-- A name of a user or a group. -/
structure Name where
  body : Text
  ne_nil : body ≠ []
  chars : body.all isNameChar = true
  head : body.head? ≠ some '-'
  deriving DecidableEq

/-- An entry of `/etc/group`. -/
structure Group where
  name : Name
  password : Text
  gid : Nat
  members : List Name
  password_bare : ':' ∉ password ∧ Line password ∧ '\\' ∉ password
  deriving DecidableEq

def Group.line (g : Group) : Text :=
  g.name.body ++ ':' :: (g.password ++ ':' :: (decimal g.gid ++ ':' ::
    List.intercalate [','] (g.members.map Name.body)))

/-- `/etc/group` -/
def groupFile (table : List Group) : Text := unlines (table.map Group.line)

/-- What stands between commas, without the spaces next to them. -/
def between : Bool → List Text → List Text
  | _, [] => []
  | comma, [part] => [if comma then part.dropWhile (· = ' ') else part]
  | comma, part :: part' :: parts =>
    (if comma then part.dropWhile (· = ' ') else part).rdropWhile (· = ' ') ::
      between true (part' :: parts)

/-- `sed -e 's/ *, */", "/g' -e 's/^/"/' -e 's/$/"/' | sed -e 's/""//'` -/
def quoteUsers (line : Text) : Text :=
  eraseFirst ['"', '"']
    ('"' :: List.intercalate ['"', ',', ' ', '"'] (between false (line.splitOn ',')) ++ ['"'])

/-- `` `echo "$LINE" | cut -d: -f$n` `` -/
def column (n : Nat) (line : Text) : Text :=
  capture (unlines ((lines (echo [line])).map (cut ':' n)))

/-- `echo "$LINE" | grep -q '^ *#'` -/
def isComment (line : Text) : Bool :=
  (lines (echo [line])).any (fun l => (l.dropWhile (· = ' ')).head? = some '#')

/-- What is printed for a line of `/etc/group`. -/
def groupEntry (line : Text) : Text :=
  echo [text "-e",
    text "\x7b",
    text "\"group\": \"" ++ column 1 line ++ text "\",",
    text "\"gid\": \"" ++ column 3 line ++ text "\",",
    text "\"users\": [" ++
      capture (unlines ((lines (echo [line])).map (fun l => quoteUsers (cut ':' 4 l)))) ++ text "]",
    text "\x7d,"]

/-- `group.json` -/
def savegroups (file : Text) : Text :=
  arrayText (((readLines file).filter (fun line => !isComment line)).flatMap groupEntry)

/-- The groups and users of a system, and which user is in which group besides its own. -/
structure Accounts where
  groups : List Text
  users : List Text
  memberships : List (Text × Text)

/-- `usermod -a -G` -/
def usermod (s : Accounts) (group user : Text) : Accounts :=
  if group ∈ s.groups ∧ user ∈ s.users then
    { s with memberships := s.memberships ++ [(group, user)] }
  else s

/-- The users that are added to the group of an entry. -/
def usersOf (glob : Text → List Text) (json : Text) (i : Nat) (group : Text) : List Text :=
  expand glob (capture (unlines
    ((field json (.at i) (text "users")).filter (fun line => !contains group line))))

def modGroup (glob : Text → List Text) (json : Text) (s : Accounts) (i : Nat) : Accounts :=
  let group := capture (unlines (field json (.at i) (text "group")))
  (usersOf glob json i group).foldl (fun s user => usermod s group user) s

/-- `file` is `group.json`. -/
def modusers (glob : Text → List Text) (file : Text) (s : Accounts) : Accounts :=
  let json := capture (json file)
  (List.range (last json + 1).toNat).foldl (modGroup glob json) s

section Names

theorem isControl_nameChar {c : Char} (h : isNameChar c = true) :
    isStringBody.isControl c = false := by
  simp only [isNameChar, Bool.or_eq_true, decide_eq_true_eq, List.mem_cons, List.not_mem_nil,
    or_false] at h
  rcases h with h | rfl | rfl | rfl | rfl
  · exact isControl_of_alphanum h
  all_goals decide

namespace Name

variable (n : Name)

theorem isNameChar_of_mem {c : Char} (h : c ∈ n.body) : isNameChar c = true :=
  List.all_eq_true.mp n.chars c h

theorem not_mem {c : Char} (h : isNameChar c = false) : c ∉ n.body := by
  intro hmem
  rw [n.isNameChar_of_mem hmem] at h
  cases h

/-- A name in quotes. -/
def literal : Literal where
  body := n.body
  isBody := by
    apply isStringBody_of
    intro c hc
    refine ⟨?_, ?_, isControl_nameChar (n.isNameChar_of_mem hc)⟩
    · rintro rfl
      exact n.not_mem (by decide) hc
    · rintro rfl
      exact n.not_mem (by decide) hc

end Name

/-- A number in quotes. -/
def numberLiteral (k : Nat) : Literal where
  body := decimal k
  isBody := by
    apply isStringBody_of
    intro c hc
    have hdigit := isDigit_of_mem_decimal hc
    refine ⟨?_, ?_, isControl_of_alphanum (by simp [Char.isAlphanum, hdigit])⟩
    · rintro rfl
      cases hdigit
    · rintro rfl
      cases hdigit

end Names

section Saved

variable (g : Group)

/-- The members of the object that is saved for a group. -/
def Group.object : List (Text × Val) :=
  [(text "group", .one g.name.literal.quoted), (text "gid", .one (numberLiteral g.gid).quoted),
    (text "users", .many (g.members.map fun n => n.literal.quoted))]

theorem isScalar_name (n : Name) : IsScalar n.literal.quoted :=
  .quoted (n.not_mem (by decide))

theorem isScalar_number (k : Nat) : IsScalar (numberLiteral k).quoted :=
  .quoted (not_mem_decimal (by decide) k)

theorem Group.sound_object : ∀ m ∈ g.object, SoundMember m := by
  intro m hm
  simp only [Group.object, List.mem_cons, List.not_mem_nil, or_false] at hm
  rcases hm with rfl | rfl | rfl
  · refine ⟨show isStringBody false (text "group") = true by decide, ⟨fun token ht => ?_⟩⟩
    cases List.mem_singleton.mp ht
    exact isScalar_name g.name
  · refine ⟨show isStringBody false (text "gid") = true by decide, ⟨fun token ht => ?_⟩⟩
    cases List.mem_singleton.mp ht
    exact isScalar_number g.gid
  · refine ⟨show isStringBody false (text "users") = true by decide, ⟨fun token ht => ?_⟩⟩
    obtain ⟨n, -, rfl⟩ := List.mem_map.mp ht
    exact isScalar_name n

theorem Group.bare_object : ∀ m ∈ g.object, '\\' ∉ m.1 := by
  simp [Group.object]
  decide

/-- The last column of a line, with the separator before it. -/
theorem Group.line_tail :
    ∃ t, g.line = t ++ ':' :: List.intercalate [','] (g.members.map Name.body) :=
  ⟨g.name.body ++ ':' :: (g.password ++ ':' :: decimal g.gid), by simp [Group.line]⟩

theorem mem_users {c : Char} (h : c ∈ List.intercalate [','] (g.members.map Name.body)) :
    c = ',' ∨ isNameChar c = true := by
  by_contra hc
  rw [not_or] at hc
  refine Lists.not_mem_intercalate (by simpa using hc.1) ?_ h
  intro l hl
  obtain ⟨n, -, rfl⟩ := List.mem_map.mp hl
  exact n.not_mem (Bool.eq_false_iff.mpr hc.2)

theorem isBlank_nameChar {c : Char} (h : isNameChar c = true) : isBlank c = false := by
  by_contra hblank
  simp only [Bool.not_eq_false, isBlank, Bool.or_eq_true, decide_eq_true_eq] at hblank
  rcases hblank with (rfl | rfl) | rfl
  all_goals exact absurd h (by decide)

theorem Group.head_line : ∃ c t, g.line = c :: t ∧ isNameChar c = true ∧ c ≠ '-' := by
  obtain ⟨c, t, hbody⟩ := List.exists_cons_of_ne_nil g.name.ne_nil
  have hhead := g.name.head
  rw [hbody] at hhead
  refine ⟨c, _, by rw [Group.line, hbody]; rfl, ?_, by simpa using hhead⟩
  exact g.name.isNameChar_of_mem (by rw [hbody]; exact List.mem_cons_self)

theorem Group.not_mem_line {c : Char} (hname : isNameChar c = false) (hc : c ≠ ':' ∧ c ≠ ',')
    (hpassword : c ∉ g.password) (hdigit : c.isDigit = false) : c ∉ g.line := by
  have husers : c ∉ List.intercalate [','] (g.members.map Name.body) := by
    intro h
    rcases mem_users g h with rfl | h
    · exact hc.2 rfl
    · rw [hname] at h
      cases h
  simp [Group.line, g.name.not_mem hname, hc.1, hpassword, not_mem_decimal hdigit, husers]

theorem Group.line_line : Line g.line :=
  g.not_mem_line (by decide) (by decide) g.password_bare.2.1 (by decide)

theorem Group.plain_line : Plain g.line := by
  refine ⟨g.not_mem_line (by decide) (by decide) g.password_bare.2.2 (by decide), ?_, ?_⟩
  · obtain ⟨c, t, hline, hc, -⟩ := g.head_line
    rw [hline]
    intro d hd
    cases hd
    exact isBlank_nameChar hc
  · obtain ⟨t, hline⟩ := g.line_tail
    intro c hc
    rw [hline, List.getLast?_append_of_ne_nil _ (List.cons_ne_nil _ _)] at hc
    have hmem := List.mem_of_getLast? hc
    rcases List.mem_cons.mp hmem with rfl | hmem
    · decide
    · rcases mem_users g hmem with rfl | hname
      · decide
      · exact isBlank_nameChar hname

theorem readLines_groupFile (table : List Group) :
    readLines (groupFile table) = table.map Group.line := by
  apply readLines_plain
  · intro l hl
    obtain ⟨g, -, rfl⟩ := List.mem_map.mp hl
    exact g.line_line
  · intro l hl
    obtain ⟨g, -, rfl⟩ := List.mem_map.mp hl
    exact g.plain_line

theorem Group.lines_echo : lines (echo [g.line]) = [g.line] := by
  obtain ⟨c, t, hline, -, hdash⟩ := g.head_line
  have hopt : isOption g.line = false := isOption_of_head (by simpa [hline] using hdash)
  rw [echo_quoted hopt]
  exact lines_ended g.line_line []

theorem Group.not_isComment : isComment g.line = false := by
  obtain ⟨c, t, hline, hc, -⟩ := g.head_line
  have hspace : c ≠ ' ' := by
    rintro rfl
    cases hc
  have hhash : c ≠ '#' := by
    rintro rfl
    cases hc
  rw [isComment, g.lines_echo, hline]
  simp [hspace, hhash]

theorem colon_not_mem_users : ':' ∉ List.intercalate [','] (g.members.map Name.body) := by
  intro h
  rcases mem_users g h with h | h
  · cases h
  · cases h

theorem Group.column_one : column 1 g.line = g.name.body := by
  have hname : ':' ∉ g.name.body := g.name.not_mem (by decide)
  have hcut : cut ':' 1 g.line = g.name.body := by rw [Group.line, cut_one hname]
  rw [column, g.lines_echo, List.map_singleton, hcut]
  exact capture_unlines_singleton (g.name.not_mem (by decide))

theorem Group.column_three : column 3 g.line = decimal g.gid := by
  have hname : ':' ∉ g.name.body := g.name.not_mem (by decide)
  have hbar (a b : Text) : ':' ∈ a ++ ':' :: b := by simp
  have hcut : cut ':' 3 g.line = decimal g.gid := by
    rw [Group.line, cut_succ hname 1 (hbar _ _), cut_succ g.password_bare.1 0 (hbar _ _),
      cut_one (not_mem_decimal (by decide) _)]
  rw [column, g.lines_echo, List.map_singleton, hcut]
  exact capture_unlines_singleton (not_mem_decimal (by decide) _)

theorem Group.cut_four : cut ':' 4 g.line = List.intercalate [','] (g.members.map Name.body) := by
  have hname : ':' ∉ g.name.body := g.name.not_mem (by decide)
  have hbar (a b : Text) : ':' ∈ a ++ ':' :: b := by simp
  rw [Group.line, cut_succ hname 2 (hbar _ _), cut_succ g.password_bare.1 1 (hbar _ _),
    cut_two_last (not_mem_decimal (by decide) _) (colon_not_mem_users g)]

theorem splitOn_names (ns : List Name) (hne : ns ≠ []) :
    (List.intercalate [','] (ns.map Name.body)).splitOn ',' = ns.map Name.body := by
  apply List.splitOn_intercalate
  · intro l hl
    obtain ⟨n, -, rfl⟩ := List.mem_map.mp hl
    exact n.not_mem (by decide)
  · simpa using hne

theorem Name.dropWhile_space (n : Name) : n.body.dropWhile (· = ' ') = n.body := by
  obtain ⟨c, t, hbody⟩ := List.exists_cons_of_ne_nil n.ne_nil
  have hspace : c ≠ ' ' := by
    rintro rfl
    have hmem : ' ' ∈ n.body := by rw [hbody]; exact List.mem_cons_self
    exact n.not_mem (by decide) hmem
  rw [hbody, List.dropWhile_cons_of_neg (by simpa using hspace)]

theorem Name.rdropWhile_space (n : Name) : n.body.rdropWhile (· = ' ') = n.body := by
  rw [List.rdropWhile_eq_self_iff]
  intro hne hlast
  have hmem := List.getLast_mem hne
  rw [of_decide_eq_true hlast] at hmem
  exact n.not_mem (by decide) hmem

/-- Names have no spaces that would go. -/
theorem between_names (comma : Bool) (ns : List Name) :
    between comma (ns.map Name.body) = ns.map Name.body := by
  induction ns generalizing comma with
  | nil => rfl
  | cons n ns ih =>
    have hdrop : (if comma then n.body.dropWhile (· = ' ') else n.body) = n.body := by
      rw [n.dropWhile_space, ite_self]
    cases ns with
    | nil => simp only [List.map_cons, List.map_nil, between, hdrop]
    | cons n' ns =>
      have hrest := ih true
      simp only [List.map_cons, between, hdrop, n.rdropWhile_space] at hrest ⊢
      rw [hrest]

theorem eraseFirst_append {t : Text} (h : '"' ∉ t) (u : Text) :
    eraseFirst ['"', '"'] (t ++ u) = t ++ eraseFirst ['"', '"'] u := by
  induction t with
  | nil => rfl
  | cons c t ih =>
    have hc : c ≠ '"' := by
      rintro rfl
      exact h List.mem_cons_self
    have hprefix : ['"', '"'].isPrefixOf (c :: (t ++ u)) = false := by
      simp [List.isPrefixOf, hc.symm]
    rw [List.cons_append, eraseFirst, hprefix, if_neg Bool.false_ne_true,
      ih fun hmem => h (List.mem_cons_of_mem _ hmem), List.cons_append]

theorem eraseFirst_quote {t : Text} (h : t.head? ≠ some '"') :
    eraseFirst ['"', '"'] ('"' :: t) = '"' :: eraseFirst ['"', '"'] t := by
  have hprefix : ['"', '"'].isPrefixOf ('"' :: t) = false := by
    cases t with
    | nil => rfl
    | cons c t =>
      have hc : '"' ≠ c := by
        rintro rfl
        exact h rfl
      simp [List.isPrefixOf, hc]
  rw [eraseFirst, hprefix, if_neg Bool.false_ne_true]

/-- No pair of quotes stands in a list of names. -/
theorem eraseFirst_names (ns : List Name) :
    eraseFirst ['"', '"']
        ('"' :: List.intercalate ['"', ',', ' ', '"'] (ns.map Name.body) ++ ['"']) =
      List.intercalate [',', ' '] (ns.map fun n => n.literal.quoted) := by
  have hquoted (n : Name) (t : Text) : eraseFirst ['"', '"'] ('"' :: (n.body ++ '"' :: t)) =
      '"' :: (n.body ++ eraseFirst ['"', '"'] ('"' :: t)) := by
    have hquote : '"' ∉ n.body := n.not_mem (by decide)
    have hhead : (n.body ++ '"' :: t).head? ≠ some '"' := by
      rw [List.head?_append_of_ne_nil _ n.ne_nil]
      exact fun h => hquote (List.mem_of_mem_head? h)
    rw [eraseFirst_quote hhead, eraseFirst_append hquote]
  induction ns with
  | nil => rfl
  | cons n ns ih =>
    cases ns with
    | nil =>
      have hone := hquoted n []
      have hlast : eraseFirst ['"', '"'] ['"'] = ['"'] := rfl
      rw [hlast] at hone
      simpa [List.intercalate, Name.literal, Literal.quoted] using hone
    | cons n' ns =>
      have htext : '"' :: List.intercalate ['"', ',', ' ', '"'] ((n :: n' :: ns).map Name.body) ++
          ['"'] = '"' :: (n.body ++ '"' :: ([',', ' '] ++ ('"' :: List.intercalate
            ['"', ',', ' ', '"'] ((n' :: ns).map Name.body) ++ ['"']))) := by
        simp [List.intercalate]
      have hnames : List.intercalate [',', ' '] ((n :: n' :: ns).map fun n => n.literal.quoted) =
          '"' :: (n.body ++ '"' :: ([',', ' '] ++ List.intercalate [',', ' ']
            ((n' :: ns).map fun n => n.literal.quoted))) := by
        simp [List.intercalate, Name.literal, Literal.quoted]
      rw [htext, hquoted, eraseFirst_quote (by simp), eraseFirst_append (by decide), ih, hnames]

theorem quoteUsers_names (ns : List Name) :
    quoteUsers (List.intercalate [','] (ns.map Name.body)) =
      List.intercalate [',', ' '] (ns.map fun n => n.literal.quoted) := by
  rw [← eraseFirst_names, quoteUsers]
  by_cases hne : ns = []
  · subst hne
    rfl
  · rw [splitOn_names ns hne, between_names]

/-- What is printed for a group: its object and a comma. -/
theorem groupEntry_line : groupEntry g.line = unlines [objectText g.object ++ [',']] := by
  have husers : capture (unlines ((lines (echo [g.line])).map fun l => quoteUsers (cut ':' 4 l))) =
      List.intercalate [',', ' '] (g.members.map fun n => n.literal.quoted) := by
    rw [g.lines_echo, List.map_singleton, g.cut_four, quoteUsers_names]
    apply capture_unlines_singleton
    apply Lists.not_mem_intercalate (by decide)
    intro l hl
    obtain ⟨n, -, rfl⟩ := List.mem_map.mp hl
    exact n.literal.token.line
  have hentry := isEntry_object g.sound_object g.bare_object (List.cons_ne_nil _ _)
  have hargs : List.intercalate [' ']
      [text "\x7b", text "\"group\": \"" ++ g.name.body ++ text "\",",
        text "\"gid\": \"" ++ decimal g.gid ++ text "\",",
        text "\"users\": [" ++
          List.intercalate [',', ' '] (g.members.map fun n => n.literal.quoted) ++ text "]",
        text "\x7d,"] = objectText g.object ++ [','] := by
    simp [List.intercalate, objectText, Group.object, Val.text, Name.literal, numberLiteral,
      Literal.quoted]
    rfl
  have hbare : '\\' ∉ objectText g.object ++ [','] := by simp [hentry.bare]
  rw [groupEntry, g.column_one, g.column_three, husers]
  have he (args : List Text) : echo (text "-e" :: args) = echoWith ⟨true, true⟩ args := rfl
  rw [he, echoWith, if_neg (by decide), echoRest, hargs, unescape_plain hbare]
  simp

end Saved

section Restored

variable {table : List Group} {glob : Text → List Text}

theorem savegroups_eq (table : List Group) : savegroups (groupFile table) =
    arrayText (unlines
      ((table.map Group.object).map fun members => objectText members ++ [','])) := by
  have hentries : (table.map Group.line).flatMap groupEntry =
      unlines ((table.map Group.object).map fun members => objectText members ++ [',']) := by
    induction table with
    | nil => rfl
    | cons g table ih =>
      simp only [List.map_cons, List.flatMap_cons, ih, groupEntry_line, unlines_cons, unlines_nil]
      simp
  have hcomments : (table.map Group.line).filter (fun line => !isComment line) =
      table.map Group.line := by
    rw [List.filter_eq_self]
    intro l hl
    obtain ⟨g, -, rfl⟩ := List.mem_map.mp hl
    simp [g.not_isComment]
  rw [savegroups, readLines_groupFile, hcomments, hentries]

def Group.leaves (g : Group) : List Leaf := leavesOf g.object

/-- What `json -b` prints of the groups that were saved. -/
theorem json_savegroups (table : List Group) :
    capture (json (savegroups (groupFile table))) = flat (table.map Group.leaves) := by
  have hjson := json_objects (table.map Group.object)
    (by
      intro members hmembers
      obtain ⟨g, -, rfl⟩ := List.mem_map.mp hmembers
      exact g.sound_object)
    (by
      intro members hmembers
      obtain ⟨g, -, rfl⟩ := List.mem_map.mp hmembers
      exact g.bare_object)
    (by
      intro members hmembers
      obtain ⟨g, -, rfl⟩ := List.mem_map.mp hmembers
      exact List.cons_ne_nil _ _)
  rw [savegroups_eq, hjson, List.map_map]
  rfl

/-- The leaves of the members. -/
def userLeaves (ns : List Name) : List Leaf :=
  (ns.map fun n => n.literal.quoted).mapIdx (fun j token => ⟨text "users", some j, token⟩)

theorem Group.leaves_eq (g : Group) : g.leaves =
    [⟨text "group", none, g.name.literal.quoted⟩,
      ⟨text "gid", none, (numberLiteral g.gid).quoted⟩] ++ userLeaves g.members := by
  simp [Group.leaves, leavesOf, Group.object, Val.leaves, userLeaves]

theorem Group.sound_leaves (g : Group) : ∀ leaf ∈ g.leaves, leaf.Sound := by
  intro leaf hleaf
  rw [g.leaves_eq, List.mem_append] at hleaf
  rcases hleaf with hleaf | hleaf
  · simp only [List.mem_cons, List.not_mem_nil, or_false] at hleaf
    rcases hleaf with rfl | rfl
    · exact ⟨show IsKey (text "group") by decide, g.name.literal.token⟩
    · exact ⟨show IsKey (text "gid") by decide, (numberLiteral g.gid).token⟩
  · obtain ⟨j, hj, rfl⟩ := List.mem_mapIdx.mp hleaf
    refine ⟨show IsKey (text "users") by decide, ?_⟩
    simp only [List.getElem_map]
    exact Literal.token _

theorem sound_table (table : List Group) :
    ∀ leaves ∈ table.map Group.leaves, ∀ leaf ∈ leaves, leaf.Sound := by
  intro leaves hleaves
  obtain ⟨g, -, rfl⟩ := List.mem_map.mp hleaves
  exact g.sound_leaves

theorem printed_name (n : Name) (name : Text) (index : Option Nat) :
    (⟨name, index, n.literal.quoted⟩ : Leaf).printed = true := by
  have hne : n.literal.body ≠ [] := n.ne_nil
  simp [Leaf.printed, n.literal.quoted_eq_empty, hne]

theorem mem_userLeaves {ns : List Name} {leaf : Leaf} (h : leaf ∈ userLeaves ns) :
    leaf.name = text "users" ∧ leaf.printed = true := by
  obtain ⟨j, hj, rfl⟩ := List.mem_mapIdx.mp h
  refine ⟨rfl, ?_⟩
  simp only [List.getElem_map]
  exact printed_name _ _ _

theorem values_userLeaves (ns : List Name) :
    (userLeaves ns).map (fun leaf => unquote leaf.value) = ns.map Name.body := by
  apply List.ext_getElem
  · simp [userLeaves]
  · intro j hj hj'
    simp [userLeaves, Literal.unquote, Name.literal]

theorem field_group {i : Nat} {g : Group} (hi : table[i]? = some g) :
    field (flat (table.map Group.leaves)) (.at i) (text "group") = [g.name.body] := by
  have husers : (userLeaves g.members).filter
      (fun leaf => leaf.printed && leaf.name = text "group") = [] := by
    rw [List.filter_eq_nil_iff]
    intro leaf hleaf
    have hname : (text "users" = text "group") = False := by decide
    simp [(mem_userLeaves hleaf).1, hname]
  have hleaves : (table.map Group.leaves)[i]? = some g.leaves := by simp [hi]
  have hgid : (text "gid" = text "group") = False := by decide
  rw [field_flat (sound_table table) (by decide), hleaves, Option.getD_some, g.leaves_eq,
    List.filter_append, husers]
  have hvalue : unquote g.name.literal.quoted = g.name.body := g.name.literal.unquote
  simp [printed_name, hgid, hvalue]

theorem field_users {i : Nat} {g : Group} (hi : table[i]? = some g) :
    field (flat (table.map Group.leaves)) (.at i) (text "users") = g.members.map Name.body := by
  have husers : (userLeaves g.members).filter
      (fun leaf => leaf.printed && leaf.name = text "users") = userLeaves g.members := by
    rw [List.filter_eq_self]
    intro leaf hleaf
    simp [mem_userLeaves hleaf]
  have hleaves : (table.map Group.leaves)[i]? = some g.leaves := by simp [hi]
  have hgroup : (text "group" = text "users") = False := by decide
  have hgid : (text "gid" = text "users") = False := by decide
  rw [field_flat (sound_table table) (by decide), hleaves, Option.getD_some, g.leaves_eq,
    List.filter_append, husers]
  simp [hgroup, hgid, values_userLeaves]

/-- The number of the last entry. -/
theorem last_groups (table : List Group) :
    last (flat (table.map Group.leaves)) = (table.length : Int) - 1 := by
  rw [last_flat (sound_table table), List.length_map]
  intro leaves hleaves
  obtain ⟨g, -, rfl⟩ := List.mem_map.mp hleaves
  refine ⟨⟨text "group", none, g.name.literal.quoted⟩, by simp [g.leaves_eq], ?_⟩
  exact printed_name _ _ _

/-- The members of a group but for those whose name has the name of the group in it. -/
def Group.readded (g : Group) : List Text :=
  (g.members.map Name.body).filter (fun user => !contains g.name.body user)

theorem usersOf_group {i : Nat} {g : Group} (hi : table[i]? = some g) :
    usersOf glob (flat (table.map Group.leaves)) i g.name.body = g.readded := by
  have hnames {user : Text} (hu : user ∈ g.readded) : ∃ n : Name, n.body = user := by
    obtain ⟨n, -, rfl⟩ := List.mem_map.mp (List.mem_filter.mp hu).1
    exact ⟨n, rfl⟩
  have hwords : words (capture (unlines g.readded)) = g.readded := by
    apply words_capture
    intro user hu
    obtain ⟨n, rfl⟩ := hnames hu
    exact ⟨n.ne_nil, fun c hc => isBlank_nameChar (n.isNameChar_of_mem hc)⟩
  have hmatch : NoMatch glob (capture (unlines g.readded)) := by
    intro w hw hpattern
    rw [hwords] at hw
    obtain ⟨n, rfl⟩ := hnames hw
    obtain ⟨c, hc, hspecial⟩ := List.any_eq_true.mp hpattern
    simp only [Bool.or_eq_true, decide_eq_true_eq] at hspecial
    have hname := n.isNameChar_of_mem hc
    rcases hspecial with (rfl | rfl) | rfl
    all_goals exact absurd hname (by decide)
  rw [usersOf, field_users hi]
  exact (expand_noMatch hmatch).trans hwords

variable {s : Accounts} {group : Text}

theorem foldl_usermod (h : group ∈ s.groups) (users : List Text) :
    users.foldl (fun s user => usermod s group user) s =
      { s with memberships := s.memberships ++
          (users.filter (· ∈ s.users)).map (fun user => (group, user)) } := by
  induction users generalizing s with
  | nil => simp
  | cons user users ih =>
    by_cases huser : user ∈ s.users
    · have hstep : usermod s group user =
          { s with memberships := s.memberships ++ [(group, user)] } := if_pos ⟨h, huser⟩
      rw [List.foldl_cons, hstep, ih (by exact h)]
      simp [huser]
    · have hstep : usermod s group user = s := if_neg fun hmem => huser hmem.2
      rw [List.foldl_cons, hstep, ih h]
      simp [huser]

/-- The users of a group that are added to it again. -/
def Group.added (users : List Text) (g : Group) : List (Text × Text) :=
  (g.readded.filter (· ∈ users)).map (fun user => (g.name.body, user))

theorem modGroup_eq {i : Nat} {g : Group} (hi : table[i]? = some g) (h : g.name.body ∈ s.groups) :
    modGroup glob (flat (table.map Group.leaves)) s i =
      { s with memberships := s.memberships ++ g.added s.users } := by
  have hgroup : capture (unlines (field (flat (table.map Group.leaves)) (.at i) (text "group"))) =
      g.name.body := by
    rw [field_group hi]
    exact capture_unlines_singleton (g.name.not_mem (by decide))
  rw [modGroup, hgroup, usersOf_group hi, foldl_usermod h]
  rfl

/-- The entries up to a number add the users of their groups. -/
theorem foldl_modGroup (h : ∀ g ∈ table, g.name.body ∈ s.groups) (n : Nat) (hn : n ≤ table.length) :
    (List.range n).foldl (modGroup glob (flat (table.map Group.leaves))) s =
      { s with memberships := s.memberships ++ (table.take n).flatMap (Group.added s.users) } := by
  induction n with
  | zero => simp
  | succ n ih =>
    have hi : table[n]? = some (table[n]) := List.getElem?_eq_getElem hn
    have hname : (table[n]).name.body ∈ s.groups := h _ (List.getElem_mem hn)
    rw [List.range_succ, List.foldl_append, ih (Nat.le_of_succ_le hn), List.foldl_cons,
      List.foldl_nil, modGroup_eq hi (by exact hname), List.take_succ_eq_append_getElem hn,
      List.flatMap_append, List.flatMap_singleton, ← List.append_assoc]

/-- The memberships after groups were saved and restored. -/
theorem memberships_modusers (glob : Text → List Text) (table : List Group) (users : List Text) :
    (modusers glob (savegroups (groupFile table))
        ⟨table.map (fun g => g.name.body), users, []⟩).memberships =
      table.flatMap (Group.added users) := by
  have hcount : (last (flat (table.map Group.leaves)) + 1).toNat = table.length := by
    rw [last_groups]
    omega
  rw [modusers, json_savegroups, hcount, foldl_modGroup _ _ (le_refl _), List.take_length]
  · simp
  · intro g hg
    exact List.mem_map.mpr ⟨g, hg, rfl⟩

theorem mem_added {users : List Text} {group user : Text} :
    (group, user) ∈ table.flatMap (Group.added users) ↔
      user ∈ users ∧ ∃ g ∈ table, g.name.body = group ∧
        ∃ n ∈ g.members, n.body = user ∧ contains g.name.body n.body = false := by
  simp only [List.mem_flatMap, Group.added, Group.readded, List.mem_map, List.mem_filter,
    decide_eq_true_eq, Bool.not_eq_true', Prod.mk.injEq]
  constructor
  · rintro ⟨g, hg, u, ⟨⟨⟨n, hn, rfl⟩, hcontains⟩, huser⟩, rfl, rfl⟩
    exact ⟨huser, g, hg, rfl, n, hn, rfl, hcontains⟩
  · rintro ⟨huser, g, hg, rfl, n, hn, rfl, hcontains⟩
    exact ⟨g, hg, n.body, ⟨⟨⟨n, hn, rfl⟩, hcontains⟩, huser⟩, rfl, rfl⟩

end Restored

/-- Every user is in every group of which it was a member, and in no other. -/
def Restored (table : List Group) (users : List Text) (memberships : List (Text × Text)) : Prop :=
  ∀ group user, (group, user) ∈ memberships ↔
    user ∈ users ∧ ∃ g ∈ table, g.name.body = group ∧ ∃ n ∈ g.members, n.body = user

/-- Groups that are saved come back exactly when no user has in its name the name of a group of
which it is a member. -/
theorem restored_iff (glob : Text → List Text) (table : List Group) (users : List Text) :
    Restored table users (modusers glob (savegroups (groupFile table))
        ⟨table.map (fun g => g.name.body), users, []⟩).memberships ↔
      ∀ g ∈ table, ∀ n ∈ g.members, n.body ∈ users → contains g.name.body n.body = false := by
  rw [memberships_modusers]
  constructor
  · intro h g hg n hn huser
    have hmem := (h g.name.body n.body).mpr ⟨huser, g, hg, rfl, n, hn, rfl⟩
    obtain ⟨-, g', -, hname, n', -, hbody, hcontains⟩ := mem_added.mp hmem
    rw [← hname, ← hbody]
    exact hcontains
  · intro h group user
    rw [mem_added]
    constructor
    · rintro ⟨huser, g, hg, hname, n, hn, hbody, -⟩
      exact ⟨huser, g, hg, hname, n, hn, hbody⟩
    · rintro ⟨huser, g, hg, hname, n, hn, hbody⟩
      exact ⟨huser, g, hg, hname, n, hn, hbody, h g hg n hn (hbody ▸ huser)⟩

/-- A user `annie` in a group `ann`. -/
def annName : Name := ⟨text "ann", by decide, by decide, by decide⟩

def annGroup : Group where
  name := annName
  password := text "x"
  gid := 1000
  members := [⟨text "annie", by decide, by decide, by decide⟩]
  password_bare := by decide

/-- A member whose name has the group's name in it is not added again. -/
theorem not_restored_ann :
    ¬∀ (glob : Text → List Text) (table : List Group) (users : List Text),
      Restored table users (modusers glob (savegroups (groupFile table))
        ⟨table.map (fun g => g.name.body), users, []⟩).memberships := by
  intro h
  have hrestored := h (fun _ => []) [annGroup] [text "annie"]
  rw [memberships_modusers] at hrestored
  have hmem := (hrestored (text "ann") (text "annie")).mpr
    ⟨List.mem_singleton_self _, annGroup, List.mem_singleton_self _, rfl,
      ⟨text "annie", by decide, by decide, by decide⟩, List.mem_singleton_self _, rfl⟩
  exact absurd hmem (by decide)

end HackerUnion.Sbin
