import Mathlib.Data.List.Dedup
import HackerUnion.Sbin.Recreate

namespace HackerUnion.Sbin

open Bash

/-- `groupadd --gid`, of a group's name and its number. It refuses what is taken, and several
names. -/
def groupadd (groups : List (Text × Text)) (gid : Text) : List Text → List (Text × Text)
  | [name] =>
    if groups.any (fun g => g.1 = name || g.2 = gid) then groups else groups ++ [(name, gid)]
  | _ => groups

def createGroup (glob : Text → List Text) (json : Text) (groups : List (Text × Text)) (i : Nat) :
    List (Text × Text) :=
  groupadd groups (capture (unlines (field json (.at i) (text "gid"))))
    (expand glob (capture (unlines (field json (.at i) (text "group")))))

/-- `file` is `group.json`. -/
def creategroups (glob : Text → List Text) (file : Text) (groups : List (Text × Text)) :
    List (Text × Text) :=
  let json := capture (json file)
  (List.range (last json + 1).toNat).foldl (createGroup glob json) groups

/-- A line of `/etc/group`. A user is added to a group once. -/
def groupLine (memberships : List (Text × Text)) (g : Text × Text) : Text :=
  g.1 ++ ':' :: (text "x" ++ ':' :: (g.2 ++ ':' :: List.intercalate [',']
    ((memberships.filter (·.1 = g.1)).map Prod.snd).eraseDups))

/-- What `sync` does with groups: those of a system are given, with the users it has after
`createusers`, and the file it leaves. -/
def sync (glob : Text → List Text) (file : Text) (groups : List (Text × Text))
    (users : List Text) : Text :=
  let groups := creategroups glob file groups
  let s := modusers glob file ⟨groups.map Prod.fst, users, []⟩
  savegroups (unlines (groups.map (groupLine s.memberships)))

theorem bare_x : ':' ∉ text "x" ∧ Line (text "x") ∧ '\\' ∉ text "x" := by decide

/-- As `groupadd` enters it. -/
def Group.entered (g : Group) : Group :=
  { g with password := text "x", password_bare := bare_x }

/-- A group's name and its number. -/
def Group.pair (g : Group) : Text × Text := (g.name.body, decimal g.gid)

/-- A group with two members. -/
def crew : Group where
  name := ⟨text "crew", by decide, by decide, by decide⟩
  password := text "x"
  gid := 1340
  members := [⟨text "robin", by decide, by decide, by decide⟩,
    ⟨text "kim", by decide, by decide, by decide⟩]
  password_bare := bare_x

section Create

variable {glob : Text → List Text} {table : List Group} {groups pairs : List (Text × Text)}

theorem field_gid {i : Nat} {g : Group} (hi : table[i]? = some g) :
    field (flat (table.map Group.leaves)) (.at i) (text "gid") = [decimal g.gid] := by
  have husers : (userLeaves g.members).filter
      (fun leaf => leaf.printed && leaf.name = text "gid") = [] := by
    rw [List.filter_eq_nil_iff]
    intro leaf hleaf
    have hname : (text "users" = text "gid") = False := by decide
    simp [(mem_userLeaves hleaf).1, hname]
  have hleaves : (table.map Group.leaves)[i]? = some g.leaves := by simp [hi]
  have hgroup : (text "group" = text "gid") = False := by decide
  have hprinted : (⟨text "gid", none, (numberLiteral g.gid).quoted⟩ : Leaf).printed = true := by
    have hne : (numberLiteral g.gid).body ≠ [] := decimal_ne_nil g.gid
    simp [Leaf.printed, (numberLiteral g.gid).quoted_eq_empty, hne]
  have hvalue : unquote (numberLiteral g.gid).quoted = decimal g.gid :=
    (numberLiteral g.gid).unquote
  rw [field_flat (sound_table table) (by decide), hleaves, Option.getD_some, g.leaves_eq,
    List.filter_append, husers]
  simp [hprinted, hgroup, hvalue]

theorem createGroup_eq {i : Nat} {g : Group} (hi : table[i]? = some g) :
    createGroup glob (flat (table.map Group.leaves)) groups i =
      groupadd groups (decimal g.gid) [g.name.body] := by
  have hname : capture (unlines [g.name.body]) = g.name.body :=
    capture_unlines_singleton (g.name.not_mem (by decide))
  have hgid : capture (unlines [decimal g.gid]) = decimal g.gid :=
    capture_unlines_singleton (not_mem_decimal (by decide) g.gid)
  rw [createGroup, field_gid hi, field_group hi, hname, hgid, expand_name]

theorem foldl_createGroup (n : Nat) (hn : n ≤ table.length) :
    (List.range n).foldl (createGroup glob (flat (table.map Group.leaves))) groups =
      ((table.take n).map Group.pair).foldl (fun groups p => groupadd groups p.2 [p.1]) groups := by
  induction n with
  | zero => rfl
  | succ n ih =>
    have hi : table[n]? = some (table[n]) := List.getElem?_eq_getElem hn
    rw [List.range_succ, List.foldl_append, ih (Nat.le_of_succ_le hn), List.foldl_cons,
      List.foldl_nil, createGroup_eq hi, List.take_succ_eq_append_getElem hn, List.map_append,
      List.foldl_append]
    rfl

/-- A name or a number that a system has. -/
def taken (groups : List (Text × Text)) (p : Text × Text) : Bool :=
  groups.any (fun g => g.1 = p.1 || g.2 = p.2)

/-- Of groups that have nothing in common with each other those are added that have nothing in
common with one that is there. -/
theorem foldl_groupadd (hnames : (pairs.map Prod.fst).Nodup) (hgids : (pairs.map Prod.snd).Nodup) :
    pairs.foldl (fun groups p => groupadd groups p.2 [p.1]) groups =
      groups ++ pairs.filter (fun p => !taken groups p) := by
  induction pairs generalizing groups with
  | nil => simp
  | cons p pairs ih =>
    rw [List.map_cons, List.nodup_cons] at hnames hgids
    have hstep : groupadd groups p.2 [p.1] = if taken groups p then groups else groups ++ [p] := rfl
    rw [List.foldl_cons, hstep]
    by_cases htaken : taken groups p = true
    · rw [if_pos htaken, ih hnames.2 hgids.2, List.filter_cons_of_neg (by simpa using htaken)]
    · have hsame : pairs.filter (fun q => !taken (groups ++ [p]) q) =
          pairs.filter (fun q => !taken groups q) := by
        refine List.filter_congr fun q hq => ?_
        have hname : p.1 ≠ q.1 := fun h => hnames.1 (h ▸ List.mem_map_of_mem hq)
        have hgid : p.2 ≠ q.2 := fun h => hgids.1 (h ▸ List.mem_map_of_mem hq)
        simp [taken, hname, hgid]
      rw [if_neg htaken, ih hnames.2 hgids.2, hsame,
        List.filter_cons_of_pos (by simpa using htaken), List.append_assoc]
      rfl

/-- The groups that are saved are there again, with those the system had. -/
theorem creategroups_eq (hnames : (table.map Group.name).Nodup)
    (hgids : (table.map Group.gid).Nodup) (glob : Text → List Text)
    (groups : List (Text × Text)) : creategroups glob (savegroups (groupFile table)) groups =
      groups ++ (table.map Group.pair).filter (fun p => !taken groups p) := by
  have hcount : (last (flat (table.map Group.leaves)) + 1).toNat = table.length := by
    rw [last_groups]
    omega
  have hfst : ((table.map Group.pair).map Prod.fst).Nodup := by
    have hbodies : (table.map Group.pair).map Prod.fst = (table.map Group.name).map Name.body := by
      simp [Group.pair]
    rw [hbodies]
    exact hnames.map fun _ _ => Name.eq_of_body
  have hsnd : ((table.map Group.pair).map Prod.snd).Nodup := by
    have hdecimals : (table.map Group.pair).map Prod.snd = (table.map Group.gid).map decimal := by
      simp [Group.pair]
    rw [hdecimals]
    exact hgids.map decimal_injective
  rw [creategroups, json_savegroups, hcount, foldl_createGroup _ (le_refl _), List.take_length,
    foldl_groupadd hfst hsnd]

theorem pair_unique (hnames : (table.map Group.name).Nodup) (hgids : (table.map Group.gid).Nodup)
    {p q : Text × Text} (hp : p ∈ table.map Group.pair) (hq : q ∈ table.map Group.pair)
    (h : p.1 = q.1 ∨ p.2 = q.2) : p = q := by
  obtain ⟨a, ha, rfl⟩ := List.mem_map.mp hp
  obtain ⟨b, hb, rfl⟩ := List.mem_map.mp hq
  rcases h with h | h
  · rw [List.inj_on_of_nodup_map hnames ha hb (Name.eq_of_body h)]
  · rw [List.inj_on_of_nodup_map hgids ha hb (decimal_injective h)]

end Create

section Return

variable {glob : Text → List Text} {table : List Group} {groups : List (Text × Text)}
  {users : List Text}

theorem mem_creategroups (glob : Text → List Text) (hnames : (table.map Group.name).Nodup)
    (hgids : (table.map Group.gid).Nodup) (hgroups : ∀ p ∈ groups, p ∈ table.map Group.pair)
    (p : Text × Text) : p ∈ creategroups glob (savegroups (groupFile table)) groups ↔
      p ∈ table.map Group.pair := by
  rw [creategroups_eq hnames hgids, List.mem_append, List.mem_filter]
  constructor
  · intro h
    rcases h with h | h
    · exact hgroups p h
    · exact h.1
  · intro h
    by_cases htaken : taken groups p = true
    · obtain ⟨q, hq, hsame⟩ := List.any_eq_true.mp htaken
      have heq : q = p := pair_unique hnames hgids (hgroups q hq) h (by simpa using hsame)
      exact Or.inl (heq ▸ hq)
    · exact Or.inr ⟨h, by simpa using htaken⟩

theorem memberships_after (h : ∀ g ∈ table, g.name.body ∈ groups.map Prod.fst)
    (glob : Text → List Text) (users : List Text) (memberships : List (Text × Text)) :
    (modusers glob (savegroups (groupFile table))
        ⟨groups.map Prod.fst, users, memberships⟩).memberships =
      memberships ++ table.flatMap (Group.added users) := by
  have hcount : (last (flat (table.map Group.leaves)) + 1).toNat = table.length := by
    rw [last_groups]
    omega
  rw [modusers, json_savegroups, hcount, foldl_modGroup h _ (le_refl _), List.take_length]

/-- On a system that has some of the groups that were saved, all of them are there afterwards and no
others, with their numbers, and so is every membership of a user that is there, but for those of
users that have in their name the name of the group. -/
theorem groups_return (glob : Text → List Text) (users : List Text)
    (memberships : List (Text × Text)) (hnames : (table.map Group.name).Nodup)
    (hgids : (table.map Group.gid).Nodup) (hgroups : ∀ p ∈ groups, p ∈ table.map Group.pair) :
    (∀ p, p ∈ creategroups glob (savegroups (groupFile table)) groups ↔
        p ∈ table.map Group.pair) ∧
      ∀ group user, (group, user) ∈ (modusers glob (savegroups (groupFile table))
          ⟨(creategroups glob (savegroups (groupFile table)) groups).map Prod.fst, users,
            memberships⟩).memberships ↔
        (group, user) ∈ memberships ∨ user ∈ users ∧ ∃ g ∈ table, g.name.body = group ∧
          ∃ n ∈ g.members, n.body = user ∧ contains g.name.body n.body = false := by
  have hmem := mem_creategroups glob hnames hgids hgroups
  refine ⟨hmem, fun group user => ?_⟩
  have hthere : ∀ g ∈ table, g.name.body ∈
      (creategroups glob (savegroups (groupFile table)) groups).map Prod.fst := by
    intro g hg
    exact List.mem_map.mpr ⟨g.pair, (hmem g.pair).mpr (List.mem_map_of_mem hg), rfl⟩
  rw [memberships_after hthere, List.mem_append, mem_added]

theorem groups_return_crew :
    (∀ p, p ∈ creategroups (fun _ => []) (savegroups (groupFile [crew])) [crew.pair] ↔
        p ∈ [crew].map Group.pair) ∧
      ∀ group user, (group, user) ∈ (modusers (fun _ => []) (savegroups (groupFile [crew]))
          ⟨(creategroups (fun _ => []) (savegroups (groupFile [crew])) [crew.pair]).map
            Prod.fst, [text "robin"], []⟩).memberships ↔
        (group, user) ∈ [] ∨ user ∈ [text "robin"] ∧ ∃ g ∈ [crew], g.name.body = group ∧
          ∃ n ∈ g.members, n.body = user ∧ contains g.name.body n.body = false :=
  groups_return (fun _ => []) [text "robin"] [] (by decide) (by decide) (by decide)

end Return

section Again

variable {table : List Group} {users : List Text}

theorem eraseDups_of_nodup {α : Type} [BEq α] [LawfulBEq α] {l : List α} (h : l.Nodup) :
    l.eraseDups = l := by
  induction l with
  | nil => rfl
  | cons a l ih =>
    rw [List.nodup_cons] at h
    have hfilter : l.filter (fun b => !b == a) = l := by
      rw [List.filter_eq_self]
      intro b hb
      have hne : b ≠ a := fun heq => h.1 (heq ▸ hb)
      simpa using hne
    rw [List.eraseDups_cons, hfilter, ih h.2]

theorem fst_added {g : Group} {p : Text × Text} (hp : p ∈ g.added users) :
    p.1 = g.name.body := by
  obtain ⟨user, -, rfl⟩ := List.mem_map.mp hp
  rfl

/-- Of the users that are added, those of one group. -/
theorem filter_added (hnames : (table.map Group.name).Nodup) {g : Group} (hg : g ∈ table) :
    (table.flatMap (Group.added users)).filter (·.1 = g.name.body) = g.added users := by
  have hown (a : Group) : (a.added users).filter (·.1 = a.name.body) = a.added users := by
    rw [List.filter_eq_self]
    intro p hp
    simpa using fst_added hp
  have hother (a : Group) (h : a.name ≠ g.name) :
      (a.added users).filter (·.1 = g.name.body) = [] := by
    rw [List.filter_eq_nil_iff]
    intro p hp hsame
    exact h (Name.eq_of_body ((fst_added hp).symm.trans (by simpa using hsame)))
  induction table with
  | nil => cases hg
  | cons a table ih =>
    rw [List.map_cons, List.nodup_cons] at hnames
    rw [List.flatMap_cons, List.filter_append]
    by_cases ha : a.name = g.name
    · have hrest : (table.flatMap (Group.added users)).filter (·.1 = g.name.body) = [] := by
        rw [List.filter_flatMap, List.flatMap_eq_nil_iff]
        intro b hb
        exact hother b fun hname => hnames.1 (ha.trans hname.symm ▸ List.mem_map_of_mem hb)
      have heq : g = a := by
        rcases List.mem_cons.mp hg with heq | hmem
        · exact heq
        · exact absurd (ha ▸ List.mem_map_of_mem hmem) hnames.1
      rw [hrest, List.append_nil, heq, hown]
    · have hmem : g ∈ table := (List.mem_cons.mp hg).resolve_left fun heq => ha (heq ▸ rfl)
      rw [hother a ha, List.nil_append, ih hnames.2 hmem]

/-- The entry of a group to which its members were added again. -/
theorem groupLine_added (hnames : (table.map Group.name).Nodup)
    {g : Group} (hg : g ∈ table) (hnodup : g.members.Nodup)
    (hmembers : ∀ n ∈ g.members, n.body ∈ users ∧ contains g.name.body n.body = false) :
    groupLine (table.flatMap (Group.added users)) g.pair = g.entered.line := by
  have hbodies : (g.members.map Name.body).Nodup := hnodup.map fun _ _ => Name.eq_of_body
  have hreadded : g.readded = g.members.map Name.body := by
    rw [Group.readded, List.filter_eq_self]
    intro user huser
    obtain ⟨n, hn, rfl⟩ := List.mem_map.mp huser
    simpa using (hmembers n hn).2
  have hadded : (g.added users).map Prod.snd = g.members.map Name.body := by
    have hthere : (g.members.map Name.body).filter (· ∈ users) = g.members.map Name.body := by
      rw [List.filter_eq_self]
      intro user huser
      obtain ⟨n, hn, rfl⟩ := List.mem_map.mp huser
      simpa using (hmembers n hn).1
    rw [Group.added, hreadded, hthere, List.map_map]
    simp
  have hline : g.entered.line = g.name.body ++ ':' :: (text "x" ++ ':' :: (decimal g.gid ++ ':' ::
      List.intercalate [','] (g.members.map Name.body))) := rfl
  rw [groupLine, Group.pair, filter_added hnames hg, hadded, eraseDups_of_nodup hbodies, hline]

/-- A system that has the first groups that were saved has all of them afterwards, in their
order. -/
theorem creategroups_take (glob : Text → List Text) (hnames : (table.map Group.name).Nodup)
    (hgids : (table.map Group.gid).Nodup) (k : Nat) :
    creategroups glob (savegroups (groupFile table)) ((table.take k).map Group.pair) =
      table.map Group.pair := by
  have hfirst : ((table.take k).map Group.pair).filter
      (fun p => !taken ((table.take k).map Group.pair) p) = [] := by
    rw [List.filter_eq_nil_iff]
    intro p hp
    have htaken : taken ((table.take k).map Group.pair) p = true :=
      List.any_eq_true.mpr ⟨p, hp, by simp⟩
    rw [htaken]
    exact Bool.false_ne_true
  have hrest : ((table.drop k).map Group.pair).filter
      (fun p => !taken ((table.take k).map Group.pair) p) = (table.drop k).map Group.pair := by
    rw [List.filter_eq_self]
    intro p hp
    rw [Bool.not_eq_true', Bool.eq_false_iff]
    intro htaken
    obtain ⟨q, hq, hsame⟩ := List.any_eq_true.mp htaken
    obtain ⟨b, hb, rfl⟩ := List.mem_map.mp hp
    obtain ⟨a, ha, rfl⟩ := List.mem_map.mp hq
    have heq : a.pair = b.pair := pair_unique hnames hgids
      (List.mem_map_of_mem (List.mem_of_mem_take ha))
      (List.mem_map_of_mem (List.mem_of_mem_drop hb)) (by simpa using hsame)
    have hname : a.name = b.name := Name.eq_of_body (congrArg Prod.fst heq)
    have hab : a = b := List.inj_on_of_nodup_map hnames (List.mem_of_mem_take ha)
      (List.mem_of_mem_drop hb) hname
    exact List.disjoint_take_drop (List.Nodup.of_map _ hnames) (le_refl k) ha (hab ▸ hb)
  have hparts : table.map Group.pair =
      (table.take k).map Group.pair ++ (table.drop k).map Group.pair := by
    rw [← List.map_append, List.take_append_drop]
  rw [creategroups_eq hnames hgids]
  generalize (table.take k).map Group.pair = first at *
  rw [hparts, List.filter_append, hfirst, hrest, List.nil_append]

/-- On a system that has the first groups that were saved, `sync` saves what it was given, if every
member is a user, once, and has not in its name the name of the group. -/
theorem sync_again (glob : Text → List Text) (hnames : (table.map Group.name).Nodup)
    (hgids : (table.map Group.gid).Nodup) (hnodup : ∀ g ∈ table, g.members.Nodup)
    (hmembers : ∀ g ∈ table, ∀ n ∈ g.members,
      n.body ∈ users ∧ contains g.name.body n.body = false) (k : Nat) :
    sync glob (savegroups (groupFile table)) ((table.take k).map Group.pair) users =
      savegroups (groupFile table) := by
  have hthere : ∀ g ∈ table, g.name.body ∈ (table.map Group.pair).map Prod.fst := by
    intro g hg
    exact List.mem_map.mpr ⟨g.pair, List.mem_map_of_mem hg, rfl⟩
  have hlines : (table.map Group.pair).map (groupLine (table.flatMap (Group.added users))) =
      (table.map Group.entered).map Group.line := by
    rw [List.map_map, List.map_map]
    refine List.map_congr_left fun g hg => ?_
    exact groupLine_added hnames hg (hnodup g hg) (hmembers g hg)
  have hobjects : (table.map Group.entered).map Group.object = table.map Group.object := by
    rw [List.map_map]
    rfl
  have hfile : savegroups (groupFile (table.map Group.entered)) = savegroups (groupFile table) := by
    rw [savegroups_eq, savegroups_eq, hobjects]
  rw [sync, creategroups_take glob hnames hgids, memberships_after hthere, List.nil_append, hlines]
  exact hfile

theorem sync_again_crew : sync (fun _ => []) (savegroups (groupFile [crew]))
    (([crew].take 0).map Group.pair) [text "kim", text "robin"] =
      savegroups (groupFile [crew]) :=
  sync_again (fun _ => []) (by decide) (by decide) (by decide) (by decide) 0

end Again

end HackerUnion.Sbin
