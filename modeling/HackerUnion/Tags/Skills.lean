import HackerUnion.Bash.Text
import HackerUnion.Durable.Handler
import HackerUnion.Durable.Serial
import HackerUnion.Run.Steps
import HackerUnion.Tags.Spelling

namespace HackerUnion.Tags

open Bash (Text text)
open Durable
open Durable.Handler

/-- The tags that users list. -/
inductive Kind where
  | skill
  | affiliation
  deriving DecidableEq

/-- A skill or an affiliation. All tags have their keys from one table. -/
structure Tag where
  pk : Nat
  kind : Kind
  name : Text
  deriving DecidableEq

/-- A tag among the `skills` or `affiliations` of a profile. -/
structure Mark where
  kind : Kind
  profile : Nat
  tag : Nat
  deriving DecidableEq

structure Db where
  tags : Serial Tag Tag.pk
  marks : List Mark

inductive Exn where
  | multipleObjects
  | databaseError
  deriving DecidableEq

/-- Nothing but the database is called. -/
abbrev M := Handler Empty Exn Db

/-- What Python knows of characters, and what the database keeps of a name, if it takes it. -/
structure Setting where
  script : Script Char
  column : Text → Option Text

section Models

variable (env : Setting)

/-- The name that `Tag.save` gives a new tag. -/
def saveName (name : Text) : Text :=
  env.script.strip (env.script.lower (env.script.collapse name))

/-- `objects.get_or_create(name=...)` -/
def getOrCreate (kind : Kind) (name : Text) : M Tag := do
  match (← read).tags.rows.filter (fun t => t.kind = kind && t.name = name) with
  | [] =>
    match env.column (saveName env name) with
    | none => throw .databaseError
    | some stored => do
      let tag : Tag := ⟨(← read).tags.next, kind, stored⟩
      write fun db => { db with tags := db.tags.save tag }
      return tag
  | [tag] => return tag
  | _ => throw .multipleObjects

def add (mark : Mark) : M Unit :=
  write fun db => { db with marks := if mark ∈ db.marks then db.marks else db.marks ++ [mark] }

def clear (kind : Kind) (profile : Nat) : M Unit :=
  write fun db => { db with
    marks := db.marks.filter fun m => !(m.kind = kind && m.profile = profile) }

/-- What is posted to `AccountSkillForm`; a field that is missing is empty. -/
structure SkillData where
  skills : Text := []
  affiliations : Text := []
  deriving DecidableEq

def SkillData.field (data : SkillData) : Kind → Text
  | .skill => data.skills
  | .affiliation => data.affiliations

namespace AccountSkillForm

/-- The names in a field as they were typed. -/
def parts (field : Text) : List Text :=
  (field.splitOn ',').filter fun s => env.script.strip s ≠ []

/-- `clean_skills` and `clean_affiliations` -/
def clean (field : Text) : List Text :=
  (parts env field).map fun s => env.script.lower (env.script.strip s)

def save (profile : Nat) (data : SkillData) : M Unit := do
  clear .skill profile
  clear .affiliation profile
  (clean env data.skills).forM fun name => do
    let skill ← getOrCreate env .skill name
    add ⟨.skill, profile, skill.pk⟩
  (clean env data.affiliations).forM fun name => do
    let affiliation ← getOrCreate env .affiliation name
    add ⟨.affiliation, profile, affiliation.pk⟩

end AccountSkillForm

end Models

/-- A form that is submitted for a profile. -/
structure Submission where
  profile : Nat
  data : SkillData
  deriving DecidableEq

def names (db : Db) (kind : Kind) : List Text :=
  (db.tags.rows.filter fun t => t.kind = kind).map Tag.name

/-- The names of what a profile has. -/
def marked (db : Db) (kind : Kind) (profile : Nat) : List Text :=
  (db.tags.rows.filter fun t => t.kind = kind && decide (⟨kind, profile, t.pk⟩ ∈ db.marks)).map
    Tag.name

/-- No two skills have one name, and no two affiliations. -/
def Distinct (db : Db) : Prop := ∀ kind, (names db kind).Nodup

variable (env : Setting)

/-- Up to case and runs of white space, these are the names that those are. -/
def Same (found typed : List Text) : Prop :=
  ∀ x, x ∈ found.map env.script.squeeze ↔ x ∈ typed.map env.script.squeeze

def noFaults : Nat → Empty → Bool := fun _ service => service.elim

def step (db : Db) (s : Submission) : Db :=
  (exec (AccountSkillForm.save env s.profile s.data) ⟨db, noFaults⟩).2.db

def histories (db : Db) (submissions : List Submission) : List Db :=
  Run.states (fun db s => some (step env db s)) db submissions

/-- Each submission meets a condition where it is made. -/
def EachSubmission (C : Db → Submission → Prop) (db : Db) (submissions : List Submission) : Prop :=
  Run.Throughout (fun db s => some (step env db s)) C db submissions

/-- The submission succeeds, and the profile has what is listed and nothing else. -/
structure Succeeds (db : Db) (s : Submission) : Prop where
  returns : (exec (AccountSkillForm.save env s.profile s.data) ⟨db, noFaults⟩).1 = .ok ()
  lists : ∀ kind, Same env (marked (step env db s) kind s.profile)
    (AccountSkillForm.parts env (s.data.field kind))

/-- Each name is found, or neither it nor the one it would be stored under is there, and the
database keeps that one as it is. -/
def Fits : List Text → List Text → Prop
  | _, [] => True
  | there, name :: rest => name ∈ there ∧ Fits there rest ∨
      name ∉ there ∧ saveName env name ∉ there ∧
        env.column (saveName env name) = some (saveName env name) ∧
        Fits (there ++ [saveName env name]) rest

/-- No name is listed in a spelling that is not the one that is stored. -/
def Submission.Spelled (db : Db) (s : Submission) : Prop :=
  ∀ kind, Fits env (names db kind) (AccountSkillForm.clean env (s.data.field kind))

instance decidableFits : ∀ there listed, Decidable (Fits env there listed)
  | _, [] => isTrue trivial
  | there, name :: rest =>
    have := decidableFits there rest
    have := decidableFits (there ++ [saveName env name]) rest
    inferInstanceAs (Decidable (name ∈ there ∧ Fits env there rest ∨
      name ∉ there ∧ saveName env name ∉ there ∧
        env.column (saveName env name) = some (saveName env name) ∧
        Fits env (there ++ [saveName env name]) rest))

variable {env : Setting} {db db' : Db} {kind other : Kind} {profile : Nat} {name stored : Text}

section Names

theorem mem_names {x : Text} : x ∈ names db kind ↔
    ∃ t ∈ db.tags.rows, t.kind = kind ∧ t.name = x := by
  simp [names, and_assoc]

theorem mem_marked {x : Text} : x ∈ marked db kind profile ↔
    ∃ t ∈ db.tags.rows, t.kind = kind ∧ ⟨kind, profile, t.pk⟩ ∈ db.marks ∧ t.name = x := by
  simp [marked, and_assoc]

/-- Among distinct names one that is there is found once. -/
theorem filter_found (h : (names db kind).Nodup) (hname : name ∈ names db kind) :
    ∃ tag ∈ db.tags.rows, tag.kind = kind ∧ tag.name = name ∧
      db.tags.rows.filter (fun t => t.kind = kind && t.name = name) = [tag] := by
  have hfilter : db.tags.rows.filter (fun t => t.kind = kind && t.name = name) =
      (db.tags.rows.filter fun t => t.kind = kind).filter fun t => t.name = name := by
    rw [List.filter_filter]
    congr 1
    funext t
    rw [Bool.and_comm]
  have hlength : (db.tags.rows.filter fun t => t.kind = kind && t.name = name).length = 1 := by
    have hcount := List.count_eq_one_of_mem h hname
    rw [hfilter, ← List.countP_eq_length_filter]
    rw [names, List.count_eq_countP, List.countP_map] at hcount
    rw [← hcount]
    congr 1
    funext t
    exact (beq_eq_decide _ _).symm
  obtain ⟨tag, htag⟩ := List.length_eq_one_iff.mp hlength
  have hmem : tag ∈ db.tags.rows.filter (fun t => t.kind = kind && t.name = name) := by
    rw [htag]
    exact List.mem_singleton_self tag
  obtain ⟨hrow, hmatch⟩ := List.mem_filter.mp hmem
  rw [Bool.and_eq_true, decide_eq_true_eq, decide_eq_true_eq] at hmatch
  exact ⟨tag, hrow, hmatch.1, hmatch.2, htag⟩

theorem filter_unfound (hname : name ∉ names db kind) :
    db.tags.rows.filter (fun t => t.kind = kind && t.name = name) = [] := by
  rw [List.filter_eq_nil_iff]
  intro t ht hmatch
  rw [Bool.and_eq_true, decide_eq_true_eq, decide_eq_true_eq] at hmatch
  exact hname (mem_names.mpr ⟨t, ht, hmatch⟩)

end Names

section Round

/-- All calls of services may fail, of which there are none. -/
abbrev anyhow : Empty → Bool → Prop := fun _ _ => True

/-- These names have been listed for the profile as tags of this kind, and nothing else was done to
its tags or to the names there are. -/
structure Listed (env : Setting) (db : Db) (kind : Kind) (profile : Nat) (listed : List Text)
    (db' : Db) : Prop where
  distinct : (names db' kind).Nodup
  others : ∀ other, other ≠ kind → names db' other = names db other
  marked : ∀ x, x ∈ (marked db' kind profile).map env.script.squeeze ↔
    x ∈ (marked db kind profile).map env.script.squeeze ∨ x ∈ listed.map env.script.squeeze
  unmarked : ∀ other, other ≠ kind → ∀ x,
    x ∈ Tags.marked db' other profile ↔ x ∈ Tags.marked db other profile

theorem Listed.nil (h : (names db kind).Nodup) : Listed env db kind profile [] db where
  distinct := h
  others := fun _ _ => rfl
  marked := by simp
  unmarked := fun _ _ _ => Iff.rfl

/-- One more name. -/
theorem Listed.snoc {listed : List Text} {db'' : Db} (h : Listed env db kind profile listed db')
    (hnext : Listed env db' kind profile [name] db'') :
    Listed env db kind profile (listed ++ [name]) db'' where
  distinct := hnext.distinct
  others := fun other hne => (hnext.others other hne).trans (h.others other hne)
  marked := by
    intro x
    rw [hnext.marked, h.marked, List.map_append, List.mem_append, or_assoc]
  unmarked := fun other hne x => (hnext.unmarked other hne x).trans (h.unmarked other hne x)

theorem mem_marks_add {marks : List Mark} {m mark : Mark} :
    m ∈ (if mark ∈ marks then marks else marks ++ [mark]) ↔ m ∈ marks ∨ m = mark := by
  split
  · rename_i hmem
    constructor
    · exact Or.inl
    · intro h
      rcases h with h | rfl
      · exact h
      · exact hmem
  · rw [List.mem_append, List.mem_singleton]

/-- A tag that is there is added to those of the profile. -/
theorem add_listed {tag : Tag} (hrow : tag ∈ db.tags.rows) (hkind : tag.kind = kind)
    (hdistinct : (names db kind).Nodup)
    (hname : env.script.squeeze tag.name = env.script.squeeze name) {R : Db → Prop} :
    Ensures anyhow db (add ⟨kind, profile, tag.pk⟩)
      (fun _ db' => names db' kind = names db kind ∧ Listed env db kind profile [name] db') R := by
  apply ensures_write
  refine ⟨rfl, hdistinct, fun _ _ => rfl, ?_, ?_⟩
  · intro x
    simp only [List.mem_map, mem_marked, mem_marks_add, List.mem_singleton, List.map_cons,
      List.map_nil]
    constructor
    · intro h
      obtain ⟨y, ⟨t, ht, htkind, hmark | hmark, rfl⟩, rfl⟩ := h
      · exact Or.inl ⟨t.name, ⟨t, ht, htkind, hmark, rfl⟩, rfl⟩
      · have hpk : t.pk = tag.pk := congrArg Mark.tag hmark
        rw [Table.eq_of_key ht hrow hpk]
        exact Or.inr hname
    · intro h
      rcases h with ⟨y, ⟨t, ht, htkind, hmark, rfl⟩, rfl⟩ | rfl
      · exact ⟨t.name, ⟨t, ht, htkind, Or.inl hmark, rfl⟩, rfl⟩
      · exact ⟨tag.name, ⟨tag, hrow, hkind, Or.inr rfl, rfl⟩, hname⟩
  · intro other hne x
    have hother (t : Tag) : (⟨other, profile, t.pk⟩ : Mark) ≠ ⟨kind, profile, tag.pk⟩ :=
      fun h => hne (congrArg Mark.kind h)
    simp only [mem_marked, mem_marks_add, hother, or_false]

/-- The store when a tag is new. -/
def Db.withTag (db : Db) (kind : Kind) (stored : Text) : Db :=
  { db with tags := db.tags.save ⟨db.tags.next, kind, stored⟩ }

theorem rows_withTag : (db.withTag kind stored).tags.rows =
    db.tags.rows ++ [⟨db.tags.next, kind, stored⟩] :=
  Serial.rows_save_next rfl

theorem names_withTag : names (db.withTag kind stored) kind = names db kind ++ [stored] := by
  simp [names, rows_withTag]

theorem names_withTag_of_ne (h : other ≠ kind) :
    names (db.withTag kind stored) other = names db other := by
  simp [names, rows_withTag, h.symm]

theorem marked_withTag_of_ne (h : other ≠ kind) :
    marked (db.withTag kind stored) other profile = marked db other profile := by
  have hmarks : (db.withTag kind stored).marks = db.marks := rfl
  simp [marked, rows_withTag, hmarks, h.symm]

/-- A profile that has its key already has one name more. -/
theorem mem_marked_withTag {x : Text} :
    (x ∈ marked (db.withTag kind stored) kind profile → x ∈ marked db kind profile ∨ x = stored) ∧
      (x ∈ marked db kind profile → x ∈ marked (db.withTag kind stored) kind profile) := by
  have hmarks : (db.withTag kind stored).marks = db.marks := rfl
  simp only [mem_marked, rows_withTag, hmarks, List.mem_append, List.mem_singleton]
  constructor
  · intro h
    obtain ⟨t, ht | rfl, hkind, hmark, hname⟩ := h
    · exact Or.inl ⟨t, ht, hkind, hmark, hname⟩
    · exact Or.inr hname.symm
  · intro h
    obtain ⟨t, ht, hrest⟩ := h
    exact ⟨t, Or.inl ht, hrest⟩

/-- What is listed of a new tag is listed of the store before it. -/
theorem Listed.withTag (hstored : env.script.squeeze stored = env.script.squeeze name)
    (h : Listed env (db.withTag kind stored) kind profile [name] db') :
    Listed env db kind profile [name] db' where
  distinct := h.distinct
  others := fun other hne => (h.others other hne).trans (names_withTag_of_ne hne)
  marked := by
    intro x
    rw [h.marked]
    simp only [List.mem_map, List.mem_singleton, exists_eq_left]
    constructor
    · intro hx
      rcases hx with ⟨y, hy, rfl⟩ | hx
      · rcases mem_marked_withTag.1 hy with hy | rfl
        · exact Or.inl ⟨y, hy, rfl⟩
        · exact Or.inr hstored.symm
      · exact Or.inr hx
    · intro hx
      rcases hx with ⟨y, hy, rfl⟩ | hx
      · exact Or.inl ⟨y, mem_marked_withTag.2 hy, rfl⟩
      · exact Or.inr hx
  unmarked := by
    intro other hne x
    rw [h.unmarked other hne, marked_withTag_of_ne hne]

theorem squeeze_saveName (name : Text) :
    env.script.squeeze (saveName env name) = env.script.squeeze name := by
  unfold saveName
  rw [Script.squeeze_strip, Script.squeeze_lower, Script.squeeze_collapse]

/-- A round of the form. -/
def listOne (env : Setting) (kind : Kind) (profile : Nat) (name : Text) : M Unit := do
  let tag ← getOrCreate env kind name
  add ⟨kind, profile, tag.pk⟩

theorem listOne_listed {rest : List Text} (hdistinct : (names db kind).Nodup)
    (hfits : Fits env (names db kind) (name :: rest)) :
    Ensures anyhow db (listOne env kind profile name)
      (fun _ db' => Listed env db kind profile [name] db' ∧ Fits env (names db' kind) rest)
      (fun _ => False) := by
  unfold listOne getOrCreate
  apply ensures_bind
  apply ensures_read
  rcases hfits with ⟨hname, hrest⟩ | ⟨hname, hnew, hcolumn, hrest⟩
  · obtain ⟨tag, hrow, hkind, hmatch, hfilter⟩ := filter_found hdistinct hname
    rw [hfilter]
    have hsqueeze : env.script.squeeze tag.name = env.script.squeeze name := by rw [hmatch]
    apply ensures_pure
    refine ensures_weaken (add_listed hrow hkind hdistinct hsqueeze) ?_
    intro _ db' h
    exact ⟨h.2, by rw [h.1]; exact hrest⟩
  · rw [filter_unfound hname]
    dsimp only
    rw [hcolumn]
    apply ensures_read
    apply ensures_bind
    apply ensures_write
    apply ensures_pure
    have hrow : (⟨db.tags.next, kind, saveName env name⟩ : Tag) ∈
        (db.withTag kind (saveName env name)).tags.rows := by
      rw [rows_withTag]
      exact List.mem_append_right _ (List.mem_singleton_self _)
    have hdistinct' : (names (db.withTag kind (saveName env name)) kind).Nodup := by
      rw [names_withTag]
      refine List.nodup_append.mpr ⟨hdistinct, List.nodup_singleton _, ?_⟩
      intro a ha b hb heq
      rw [List.mem_singleton] at hb
      exact hnew (hb ▸ heq ▸ ha)
    have hsqueeze : env.script.squeeze (saveName env name) = env.script.squeeze name :=
      squeeze_saveName name
    refine ensures_weaken (add_listed hrow rfl hdistinct' hsqueeze) ?_
    intro _ db' h
    refine ⟨h.2.withTag hsqueeze, ?_⟩
    rw [h.1, names_withTag]
    exact hrest

/-- All rounds of a field. -/
theorem forM_listed {listed : List Text} (hdistinct : (names db kind).Nodup)
    (hfits : Fits env (names db kind) listed) :
    Ensures anyhow db (listed.forM (listOne env kind profile))
      (fun _ => Listed env db kind profile listed) (fun _ => False) := by
  let I : List Text → Db → Prop := fun rest db' => ∃ done, listed = done ++ rest ∧
    Listed env db kind profile done db' ∧ Fits env (names db' kind) rest
  have hround (name : Text) (rest : List Text) (db' : Db) (hi : I (name :: rest) db') :
      Ensures anyhow db' (listOne env kind profile name) (fun _ => I rest) (fun _ => False) := by
    obtain ⟨done, hlisted, hdone, hfits⟩ := hi
    refine ensures_weaken (listOne_listed hdone.distinct hfits) ?_
    intro _ db'' h
    exact ⟨done ++ [name], by simp [hlisted], hdone.snoc h.1, h.2⟩
  refine ensures_weaken (ensures_forM hround ⟨[], rfl, .nil hdistinct, hfits⟩) ?_
  intro _ db' h
  obtain ⟨done, hlisted, hdone, -⟩ := h
  rw [List.append_nil] at hlisted
  exact hlisted ▸ hdone

end Round

section Save

theorem clear_cleared (kind : Kind) (profile : Nat) {R : Db → Prop} :
    Ensures anyhow db (clear kind profile) (fun _ db' => db'.tags = db.tags ∧
      ∀ m, m ∈ db'.marks ↔ m ∈ db.marks ∧ ¬(m.kind = kind ∧ m.profile = profile)) R := by
  apply ensures_write
  refine ⟨rfl, ?_⟩
  intro m
  rw [List.mem_filter, Bool.not_eq_true', Bool.and_eq_false_iff, decide_eq_false_iff_not,
    decide_eq_false_iff_not, not_and_or]

/-- What is typed and what is looked up are the same up to case and white space. -/
theorem squeeze_clean (field : Text) :
    (AccountSkillForm.clean env field).map env.script.squeeze =
      (AccountSkillForm.parts env field).map env.script.squeeze := by
  unfold AccountSkillForm.clean
  rw [List.map_map]
  refine List.map_congr_left ?_
  intro part _
  rw [Function.comp_apply, Script.squeeze_lower, Script.squeeze_strip]

/-- A submission without other spellings keeps the names distinct and succeeds. -/
theorem save_lists {s : Submission} (hdistinct : Distinct db) (hspelled : s.Spelled env db) :
    Ensures anyhow db (AccountSkillForm.save env s.profile s.data)
      (fun _ db' => Distinct db' ∧ ∀ kind, Same env (marked db' kind s.profile)
        (AccountSkillForm.parts env (s.data.field kind)))
      (fun _ => False) := by
  unfold AccountSkillForm.save
  apply ensures_seq (clear_cleared .skill s.profile)
  intro _ db₁ h₁
  apply ensures_seq (clear_cleared .affiliation s.profile)
  intro _ db₂ h₂
  have htags : db₂.tags = db.tags := h₂.1.trans h₁.1
  have hnames (kind : Kind) : names db₂ kind = names db kind := by
    unfold names
    rw [htags]
  have hmarked (kind : Kind) : marked db₂ kind s.profile = [] := by
    unfold marked
    rw [List.map_eq_nil_iff, List.filter_eq_nil_iff]
    intro t _ ht
    rw [Bool.and_eq_true, decide_eq_true_eq, decide_eq_true_eq, h₂.2, h₁.2] at ht
    cases kind with
    | skill => exact ht.2.1.2 ⟨rfl, rfl⟩
    | affiliation => exact ht.2.2 ⟨rfl, rfl⟩
  have hskills := hspelled .skill
  have haffiliations := hspelled .affiliation
  rw [← hnames] at hskills haffiliations
  apply ensures_seq (forM_listed (hnames .skill ▸ hdistinct .skill) hskills)
  intro _ db₃ h₃
  have hsame : names db₃ .affiliation = names db₂ .affiliation :=
    h₃.others _ (by decide)
  rw [← hsame] at haffiliations
  have hdistinct' : (names db₃ .affiliation).Nodup := by
    rw [hsame, hnames]
    exact hdistinct .affiliation
  refine ensures_weaken (forM_listed hdistinct' haffiliations) ?_
  intro _ db₄ h₄
  constructor
  · intro kind
    cases kind with
    | skill =>
      rw [h₄.others _ (by decide)]
      exact h₃.distinct
    | affiliation => exact h₄.distinct
  · intro kind x
    rw [← squeeze_clean]
    cases kind with
    | skill =>
      have hkept : x ∈ (marked db₄ .skill s.profile).map env.script.squeeze ↔
          x ∈ (marked db₃ .skill s.profile).map env.script.squeeze := by
        simp only [List.mem_map, h₄.unmarked .skill (by decide)]
      rw [hkept, h₃.marked, hmarked]
      simp [SkillData.field]
    | affiliation =>
      have hnone : x ∉ (marked db₃ .affiliation s.profile).map env.script.squeeze := by
        simp only [List.mem_map, h₃.unmarked .affiliation (by decide), hmarked]
        simp
      rw [h₄.marked]
      simp [SkillData.field, hnone]

end Save

theorem step_succeeds {s : Submission} (hdistinct : Distinct db) (hspelled : s.Spelled env db) :
    Distinct (step env db s) ∧ Succeeds env db s := by
  have hwithin : Within anyhow noFaults := fun _ _ => trivial
  obtain ⟨_, hreturns, hdistinct, hlists⟩ := ok_of_ensures (save_lists hdistinct hspelled) hwithin
  exact ⟨hdistinct, hreturns, hlists⟩

/-- As long as nobody lists a name in another spelling than the one that is stored, the names stay
distinct, and everyone gets what he lists. -/
theorem histories_distinct (env : Setting) (db : Db) (submissions : List Submission)
    (hdistinct : Distinct db)
    (hspelled : EachSubmission env (fun db s => s.Spelled env db) db submissions) :
    (∀ db' ∈ histories env db submissions, Distinct db') ∧
      EachSubmission env (Succeeds env) db submissions := by
  have hstep : ∀ (db : Db) (s : Submission) (db' : Db), Distinct db → s.Spelled env db →
      some (step env db s) = some db' → Distinct db' := by
    intro db s db' h hs hdb
    obtain rfl := Option.some.inj hdb
    exact (step_succeeds h hs).1
  exact ⟨Run.states_invariant hstep hdistinct hspelled,
    Run.throughout_of_invariant hstep (fun _ _ h hs => (step_succeeds h hs).2) hdistinct hspelled⟩

section Examples

theorem toLower_toLower (c : Char) : c.toLower.toLower = c.toLower := by
  delta Char.toLower
  split
  · split
    · exfalso
      grind [UInt32.toNat_add, Char.toNat_val]
    · rfl
  · rfl

/-- A letter is no white space. -/
theorem isWhitespace_toLower (c : Char) : c.toLower.isWhitespace = c.isWhitespace := by
  delta Char.toLower Char.isWhitespace
  split
  · rename_i h
    have hleft := UInt32.le_iff_toNat_le.mp h.1
    have hright := UInt32.le_iff_toNat_le.mp h.2
    simp only [Char.ext_iff, UInt32.ext_iff, UInt32.toNat_add]
    simp at hleft hright ⊢
    grind
  · rfl

/-- The characters of ASCII. -/
def ascii : Script Char where
  isSpace := Char.isWhitespace
  isBlank := Char.isWhitespace
  blank := ' '
  lowered := Char.toLower
  isBlank_blank := by decide
  isSpace_of_isBlank := fun _ h => h
  isSpace_lowered := isWhitespace_toLower
  lowered_lowered := toLower_toLower

/-- The database takes names of up to fifty characters. -/
def asciiSetting : Setting := ⟨ascii, fun name => if name.length ≤ 50 then some name else none⟩

def untagged : Db := ⟨.empty, []⟩

theorem untagged_distinct : Distinct untagged := fun _ => List.nodup_nil

def listed (profile : Nat) (skills affiliations : String) : Submission :=
  ⟨profile, ⟨text skills, text affiliations⟩⟩

/-- One skill twice, with two blanks in it. -/
def twoBlanks : List Submission := [listed 1 "Web  design" "", listed 1 "Web  design" ""]

/-- The skill is made twice. -/
theorem histories_not_distinct :
    ¬∀ (env : Setting) (db : Db) (submissions : List Submission), Distinct db →
      (∀ db' ∈ histories env db submissions, Distinct db') ∧
        EachSubmission env (Succeeds env) db submissions := by
  intro h
  have hlast : twoBlanks.foldl (step asciiSetting) untagged ∈
      histories asciiSetting untagged twoBlanks := Run.foldl_mem_states _ _ _
  have hdistinct := (h asciiSetting untagged twoBlanks untagged_distinct).1 _ hlast .skill
  revert hdistinct
  decide +kernel

/-- Two profiles list their tags, and one of them lists others then. -/
def goodLists : List Submission :=
  [listed 1 " Web Design, C" "ACM", listed 2 "c,web design," "", listed 1 "c" "acm, IEEE"]

theorem histories_distinct_goodLists :
    (∀ db' ∈ histories asciiSetting untagged goodLists, Distinct db') ∧
      EachSubmission asciiSetting (Succeeds asciiSetting) untagged goodLists :=
  histories_distinct asciiSetting untagged goodLists untagged_distinct
    ⟨fun kind => by cases kind <;> decide +kernel, fun _ h₁ => by
      obtain rfl := Option.some.inj h₁
      exact ⟨fun kind => by cases kind <;> decide +kernel, fun _ h₂ => by
        obtain rfl := Option.some.inj h₂
        exact ⟨fun kind => by cases kind <;> decide +kernel, fun _ _ => trivial⟩⟩⟩

end Examples

end HackerUnion.Tags
