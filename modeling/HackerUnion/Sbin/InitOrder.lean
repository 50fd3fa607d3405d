import HackerUnion.Sbin.Init

namespace HackerUnion.Sbin

open Bash

/-- A task of `init.json`. -/
structure Task where
  priority : Nat
  context : Literal
  process : Literal
  async : Option Bool
  deriving DecidableEq

def Task.leaves (t : Task) : List Leaf :=
  [⟨text "priority", none, decimal t.priority⟩, ⟨text "context", none, t.context.quoted⟩] ++
    (t.async.map fun b => ⟨text "async", none, text (if b then "true" else "false")⟩).toList ++
    [⟨text "process", none, t.process.quoted⟩]

inductive Context where
  | boot | halt
  deriving DecidableEq

def Context.text : Context → Text
  | .boot => "boot".toList
  | .halt => "halt".toList

/-- `grep -viq '^\(boot\|halt\)$'` finds no line. -/
def validContext (context : Text) : Bool :=
  (lines (echo [context])).all (fun l => lower l = Context.boot.text || lower l = Context.halt.text)

/-- `test -z` is given what is left of the value when it is split into words: nothing when the field
is missing, and then it holds. -/
def asyncMark (init : Text) (i : Nat) : Text :=
  if (capture (unlines (field init (.at i) (text "async")))).all isBlank then [] else ['&']

def entry (init : Text) (i : Nat) : Text :=
  capture (unlines (field init (.at i) (text "priority"))) ++ ':' ::
    capture (unlines (field init (.at i) (text "process"))) ++ asyncMark init i

def selected (init context : Text) : List Nat :=
  (List.range (last init + 1).toNat).filter (fun i =>
    (field init (.at i) (text "context")).any (inOrderCI [context]))

/-- The entries one after the other, with `\n` written out between them. -/
def tasksText (init context : Text) : Text :=
  List.intercalate (text "\\n") ((selected init context).map (entry init))

/-- The lines that the runner is called with. -/
def schedule (c : Collation) (init context : Text) : List Text :=
  readLines (unlines ((sortUnique c (lines (echo [text "-e", tasksText init context]))).map
    (cut ':' 2)))

/-- `init` is what `json -b` makes of `init.json`, `status` what each process exits with. -/
def main (c : Collation) (init context : Text) (status : Text → Nat) : Run :=
  if validContext context then
    runList context ((schedule c init context).map fun line => (line, status (process line)))
  else ⟨[], [], .exit 1⟩

/-- The line of a task in the list that is sorted. -/
def Task.line (t : Task) : Text :=
  decimal t.priority ++ ':' :: t.process.body ++ (if t.async.isSome then ['&'] else [])

/-- The context is found in that of the task. -/
def Task.chosen (context : Context) (t : Task) : Bool := inOrderCI [context.text] t.context.body

/-- The task is of the context. Small and capital letters are the same everywhere in init. -/
def Task.isOf (context : Context) (t : Task) : Bool := lower t.context.body = context.text

/-- The process and its mark, as they stand in the line of the task. -/
def Task.job (t : Task) : Text := t.process.body ++ (if t.async.isSome then ['&'] else [])

/-- A task whose process the list and the shell give back as it is. What stands at the end of the
process is lost only where no mark follows it. -/
structure Task.PlainProcess (t : Task) : Prop where
  plain : Plain t.job
  colon : ':' ∉ t.process.body
  mark : t.async = none → t.process.body.getLast? ≠ some '&'

/-- The tasks of the context are started, each once, in an order in which priorities do not
decrease. -/
def InOrder (context : Context) (tasks : List Task) (started : List Text) : Prop :=
  ∃ order : List Task, order.Perm (tasks.filter (Task.isOf context)) ∧
    order.Pairwise (fun s t => s.priority ≤ t.priority) ∧
    started = order.map (fun t => t.process.body)

section Entries

variable {tasks : List Task} {t : Task} {i : Nat}

theorem Task.leaves_sound (t : Task) : ∀ leaf ∈ t.leaves, leaf.Sound := by
  have hdecimal : Token (decimal t.priority) :=
    token_bare fun c hc => Or.inl (isDigit_of_mem_decimal hc)
  have hbool (b : Bool) : Token (text (if b then "true" else "false")) := by
    apply token_bare
    cases b <;> decide
  intro leaf hleaf
  simp only [leaves, List.mem_append, List.mem_cons, List.not_mem_nil, or_false,
    Option.mem_toList, Option.map_eq_some_iff] at hleaf
  rcases hleaf with ((rfl | rfl) | ⟨b, -, rfl⟩) | rfl
  · exact ⟨(by decide : IsKey (text "priority")), hdecimal⟩
  · exact ⟨(by decide : IsKey (text "context")), t.context.token⟩
  · exact ⟨(by decide : IsKey (text "async")), hbool b⟩
  · exact ⟨(by decide : IsKey (text "process")), t.process.token⟩

/-- What `json -b` makes of `init.json`. -/
def initText (tasks : List Task) : Text := flat (tasks.map Task.leaves)

theorem table_sound (tasks : List Task) :
    ∀ leaves ∈ tasks.map Task.leaves, ∀ leaf ∈ leaves, leaf.Sound := by
  intro leaves hleaves
  obtain ⟨t, -, rfl⟩ := List.mem_map.mp hleaves
  exact t.leaves_sound

theorem decimal_printed (n : Nat) : decimal n ≠ text "\"\"" := by
  intro h
  have hmem : '"' ∈ decimal n := by
    rw [h]
    decide
  exact not_mem_decimal (by decide) n hmem

theorem last_initText (tasks : List Task) :
    last (initText tasks) = (tasks.length : Int) - 1 := by
  rw [initText, last_flat (table_sound tasks), List.length_map]
  intro leaves hleaves
  obtain ⟨t, -, rfl⟩ := List.mem_map.mp hleaves
  refine ⟨⟨text "priority", none, decimal t.priority⟩, by simp [Task.leaves], ?_⟩
  simpa [Leaf.printed] using decimal_printed t.priority

/-- What `field` prints of a task. -/
theorem field_initText (ht : tasks[i]? = some t) {name : Text} (hn : IsKey name) :
    field (initText tasks) (.at i) name =
      (t.leaves.filter (fun leaf => leaf.printed && leaf.name = name)).map
        (fun leaf => unquote leaf.value) := by
  rw [initText, field_flat (table_sound tasks) hn]
  simp [ht]

theorem field_priority (ht : tasks[i]? = some t) :
    field (initText tasks) (.at i) (text "priority") = [decimal t.priority] := by
  have hp : Leaf.printed ⟨text "priority", none, decimal t.priority⟩ = true := by
    simpa [Leaf.printed] using decimal_printed t.priority
  have hu : unquote (decimal t.priority) = decimal t.priority :=
    unquote_bare fun c hc => Or.inl (isDigit_of_mem_decimal hc)
  have hne : text "context" ≠ text "priority" ∧ text "async" ≠ text "priority" ∧
      text "process" ≠ text "priority" := by decide
  rw [field_initText ht (by decide)]
  cases hasync : t.async <;> simp [Task.leaves, hasync, hne, hp, hu]

theorem printed_quoted (name : Text) (l : Literal) :
    Leaf.printed ⟨name, none, l.quoted⟩ = decide (l.body ≠ []) := by
  simp [Leaf.printed, l.quoted_eq_empty]

theorem field_context (ht : tasks[i]? = some t) :
    field (initText tasks) (.at i) (text "context") =
      if t.context.body = [] then [] else [t.context.body] := by
  have hne : text "priority" ≠ text "context" ∧ text "async" ≠ text "context" ∧
      text "process" ≠ text "context" := by decide
  have hp := printed_quoted (text "context") t.context
  rw [field_initText ht (by decide)]
  by_cases h : t.context.body = [] <;> cases hasync : t.async <;>
    simp [Task.leaves, hasync, hne, hp, h, t.context.unquote]

theorem field_process (ht : tasks[i]? = some t) :
    field (initText tasks) (.at i) (text "process") =
      if t.process.body = [] then [] else [t.process.body] := by
  have hne : text "priority" ≠ text "process" ∧ text "context" ≠ text "process" ∧
      text "async" ≠ text "process" := by decide
  have hp := printed_quoted (text "process") t.process
  rw [field_initText ht (by decide)]
  by_cases h : t.process.body = [] <;> cases hasync : t.async <;>
    simp [Task.leaves, hasync, hne, hp, h, t.process.unquote]

theorem field_async (ht : tasks[i]? = some t) :
    field (initText tasks) (.at i) (text "async") =
      (t.async.map fun b => text (if b then "true" else "false")).toList := by
  have hne : text "priority" ≠ text "async" ∧ text "context" ≠ text "async" ∧
      text "process" ≠ text "async" := by decide
  have hb (b : Bool) :
      Leaf.printed ⟨text "async", none, text (if b then "true" else "false")⟩ = true ∧
      unquote (text (if b then "true" else "false")) = text (if b then "true" else "false") := by
    cases b <;> decide
  rw [field_initText ht (by decide)]
  cases hasync : t.async with
  | none => simp [Task.leaves, hasync, hne]
  | some b => simp only [Task.leaves, hasync, Option.map_some, Option.toList_some,
      List.filter_append, List.filter_cons, hne, hb, decide_false, decide_true, Bool.and_false,
      Bool.and_true, Bool.false_eq_true, if_false, if_true, List.filter_nil, List.append_nil,
      List.nil_append, List.map_cons, List.map_nil]

theorem asyncMark_initText (ht : tasks[i]? = some t) :
    asyncMark (initText tasks) i = if t.async.isSome then ['&'] else [] := by
  have hb (b : Bool) :
      (capture (unlines [text (if b then "true" else "false")])).all isBlank = false := by
    cases b <;> decide
  rw [asyncMark, field_async ht]
  cases t.async with
  | none => rfl
  | some b =>
    simp only [Option.map_some, Option.toList_some, hb, Option.isSome_some]
    rfl

/-- A field that is missing and one that is empty give the same. -/
theorem capture_body (l : Literal) :
    capture (unlines (if l.body = [] then [] else [l.body])) = l.body := by
  split
  · rename_i h
    rw [h]
    rfl
  · exact capture_unlines_singleton l.line

theorem entry_initText (ht : tasks[i]? = some t) : entry (initText tasks) i = t.line := by
  have hline : Line (decimal t.priority) := not_mem_decimal (by decide) _
  rw [entry, field_priority ht, field_process ht, asyncMark_initText ht, capture_body,
    capture_unlines_singleton hline, Task.line, List.append_assoc, List.cons_append]

theorem any_context (context : Context) (ht : tasks[i]? = some t) :
    (field (initText tasks) (.at i) (text "context")).any (inOrderCI [context.text]) =
      t.chosen context := by
  rw [field_context ht, Task.chosen]
  split
  · rename_i h
    rw [h]
    cases context <;> decide
  · simp

/-- The tasks that are chosen come in the order of the table. -/
theorem map_selected (context : Context) (tasks : List Task) :
    (selected (initText tasks) context.text).map (entry (initText tasks)) =
      (tasks.filter (Task.chosen context)).map Task.line := by
  have hcount : (last (initText tasks) + 1).toNat = tasks.length := by
    rw [last_initText]
    omega
  have hrange : List.range tasks.length = tasks.zipIdx.map Prod.snd := by
    rw [List.zipIdx_map_snd, List.range_eq_range']
  have htasks : tasks = tasks.zipIdx.map Prod.fst := (List.zipIdx_map_fst 0 tasks).symm
  have hget (p : Task × Nat) (hp : p ∈ tasks.zipIdx) : tasks[p.2]? = some p.1 :=
    List.mem_zipIdx_iff_getElem?.mp hp
  have hleft : (selected (initText tasks) context.text).map (entry (initText tasks)) =
      (tasks.zipIdx.filter (fun p => p.1.chosen context)).map (fun p => p.1.line) := by
    have hfilter : tasks.zipIdx.filter ((fun i =>
        (field (initText tasks) (.at i) (text "context")).any (inOrderCI [context.text])) ∘
          Prod.snd) = tasks.zipIdx.filter (fun p => p.1.chosen context) :=
      List.filter_congr fun p hp => any_context context (hget p hp)
    rw [selected, hcount, hrange, List.filter_map, List.map_map, hfilter]
    exact List.map_congr_left fun p hp => entry_initText (hget p (List.mem_filter.mp hp).1)
  have hright : (tasks.filter (Task.chosen context)).map Task.line =
      (tasks.zipIdx.filter (fun p => p.1.chosen context)).map (fun p => p.1.line) := by
    conv_lhs => rw [htasks]
    rw [List.filter_map, List.map_map]
    rfl
  rw [hleft, hright]

end Entries

section Schedule

variable {tasks : List Task} {t : Task} {context : Context}

theorem Task.line_eq (t : Task) : t.line = decimal t.priority ++ ':' :: t.job := by
  simp [Task.line, Task.job]

theorem Task.job_spec (h : t.PlainProcess) :
    ':' ∉ t.job ∧ Line t.job ∧ Sbin.process t.job = t.process.body := by
  have hline : '\n' ∉ t.process.body := t.process.line
  have hcolon := h.colon
  cases hasync : t.async with
  | none =>
    have hmark := h.mark hasync
    have hjob : t.job = t.process.body := by simp [Task.job, hasync]
    rw [hjob]
    exact ⟨hcolon, hline, by simp [Sbin.process, inBackground, hmark]⟩
  | some b =>
    have hjob : t.job = t.process.body ++ ['&'] := by simp [Task.job, hasync]
    rw [hjob]
    exact ⟨by simp [hcolon], by simp [Line, hline], by simp [Sbin.process, inBackground]⟩

/-- The line tells the process. -/
theorem Task.body_of_line {s t : Task} (hs : s.PlainProcess) (ht : t.PlainProcess)
    (h : s.line = t.line) : s.process.body = t.process.body := by
  rw [Task.line_eq, Task.line_eq] at h
  obtain ⟨-, hjob⟩ :=
    append_cons_inj (not_mem_decimal (by decide) _) (not_mem_decimal (by decide) _) h
  rw [← (Task.job_spec hs).2.2, ← (Task.job_spec ht).2.2, hjob]

/-- The chosen tasks in the order their lines are sorted in. -/
def sorted (c : Collation) (context : Context) (tasks : List Task) : List Task :=
  (tasks.filter (Task.chosen context)).insertionSort (fun s t => c.le s.line t.line = true)

theorem sorted_perm (c : Collation) (context : Context) (tasks : List Task) :
    (sorted c context tasks).Perm (tasks.filter (Task.chosen context)) :=
  List.perm_insertionSort _ _

theorem sorted_pairwise (c : Collation) (context : Context) (tasks : List Task) :
    (sorted c context tasks).Pairwise (fun s t => c.le s.line t.line = true) := by
  have : Std.Total (fun s t : Task => c.le s.line t.line = true) := ⟨fun s t => c.total _ _⟩
  have : IsTrans Task (fun s t => c.le s.line t.line = true) := ⟨fun s t u => c.trans _ _ _⟩
  exact List.pairwise_insertionSort _ _

variable (c : Collation) (hdistinct : (tasks.map fun t => t.process.body).Nodup)
  (hplain : ∀ t ∈ tasks, t.chosen context = true → t.PlainProcess)

include hdistinct hplain

theorem lines_nodup : ((tasks.filter (Task.chosen context)).map Task.line).Nodup := by
  have hsub : ((tasks.filter (Task.chosen context)).map fun t => t.process.body).Nodup :=
    hdistinct.sublist (List.filter_sublist.map _)
  rw [List.Nodup, List.pairwise_map] at hsub ⊢
  refine hsub.imp_of_mem fun {s t} hs ht hne hline => hne ?_
  have hs := List.mem_filter.mp hs
  have ht := List.mem_filter.mp ht
  exact Task.body_of_line (hplain s hs.1 hs.2) (hplain t ht.1 ht.2) hline

/-- What the runner is called with, where something is chosen. -/
theorem schedule_initText (hne : tasks.filter (Task.chosen context) ≠ []) :
    schedule c (initText tasks) context.text = (sorted c context tasks).map Task.job := by
  let chosen := tasks.filter (Task.chosen context)
  have hgiven (t : Task) (ht : t ∈ chosen) : t.PlainProcess :=
    hplain t (List.mem_filter.mp ht).1 (List.mem_filter.mp ht).2
  have hspec (t : Task) (ht : t ∈ chosen) := Task.job_spec (hgiven t ht)
  have hlines : lines (echo [text "-e", tasksText (initText tasks) context.text]) =
      chosen.map Task.line := by
    rw [tasksText, map_selected]
    apply lines_echo_joined (by simpa using hne)
    · intro l hl
      obtain ⟨t, ht, rfl⟩ := List.mem_map.mp hl
      have hjob : '\n' ∉ t.job := (hspec t ht).2.1
      have hpriority : '\n' ∉ decimal t.priority := not_mem_decimal (by decide) _
      rw [Task.line_eq]
      simp [Line, hjob, hpriority]
    · intro l hl
      obtain ⟨t, ht, rfl⟩ := List.mem_map.mp hl
      have hpriority : '\\' ∉ decimal t.priority := not_mem_decimal (by decide) _
      rw [Task.line_eq]
      simp [(hgiven t ht).plain.1, hpriority]
    · obtain ⟨t, ts, hts⟩ := List.exists_cons_of_ne_nil hne
      have hline : t.line ≠ [] := by simp [Task.line_eq]
      apply isOption_of_head
      rw [hts, List.map_cons, Lists.head?_intercalate hline, Task.line_eq,
        List.head?_append_of_ne_nil _ (decimal_ne_nil _)]
      intro hhead
      exact not_mem_decimal (by decide) t.priority (List.mem_of_mem_head? hhead)
  have hsort : sort c (chosen.map Task.line) = (sorted c context tasks).map Task.line :=
    (List.map_insertionSort _ _ Task.line chosen fun _ _ _ _ => Iff.rfl).symm
  have hcut : ((sorted c context tasks).map Task.line).map (cut ':' 2) =
      (sorted c context tasks).map Task.job := by
    rw [List.map_map]
    refine List.map_congr_left fun t ht => ?_
    have hcolon := (hspec t ((sorted_perm c context tasks).mem_iff.mp ht)).1
    rw [Function.comp_apply, Task.line_eq]
    exact cut_two_last (not_mem_decimal (by decide) _) hcolon
  rw [schedule, hlines, sortUnique_of_nodup c (lines_nodup hdistinct hplain), hsort, hcut]
  apply readLines_plain
  · intro l hl
    obtain ⟨t, ht, rfl⟩ := List.mem_map.mp hl
    exact (hspec t ((sorted_perm c context tasks).mem_iff.mp ht)).2.1
  · intro l hl
    obtain ⟨t, ht, rfl⟩ := List.mem_map.mp hl
    exact (hgiven t ((sorted_perm c context tasks).mem_iff.mp ht)).plain

end Schedule

section Order

variable {tasks : List Task} {context : Context}

/-- What init starts when no process fails. -/
def startedBy (c : Collation) (tasks : List Task) (context : Context) : List Text :=
  (main c (initText tasks) context.text (fun _ => 0)).started

theorem startedBy_eq (c : Collation) (tasks : List Task) (context : Context) :
    startedBy c tasks context = (schedule c (initText tasks) context.text).map process := by
  have hvalid : validContext context.text = true := by cases context <;> decide
  have hfails : ∀ task ∈ (schedule c (initText tasks) context.text).map (fun line => (line, 0)),
      fails task = false := by
    intro task htask
    obtain ⟨line, -, rfl⟩ := List.mem_map.mp htask
    simp [fails]
  rw [startedBy, main, if_pos hvalid, runList]
  simp only [runAll_started, through_eq_self hfails, List.map_map]
  rfl

/-- Without a task to start the list is one empty line. -/
theorem startedBy_none (c : Collation) (h : tasks.filter (Task.chosen context) = []) :
    startedBy c tasks context = [[]] := by
  have htext : tasksText (initText tasks) context.text = [] := by
    rw [tasksText, map_selected, h]
    rfl
  rw [startedBy_eq, schedule, htext]
  rfl

theorem chosen_of_isOf {t : Task} (h : t.isOf context = true) : t.chosen context = true := by
  have hof : lower t.context.body = context.text := by simpa [Task.isOf] using h
  unfold Task.chosen inOrderCI
  rw [hof]
  cases context <;> decide

theorem map_injOn {α β : Type} {f : α → β} {l l₁ l₂ : List α}
    (hf : ∀ a ∈ l, ∀ b ∈ l, f a = f b → a = b) (h₁ : l₁ ⊆ l) (h₂ : l₂ ⊆ l)
    (h : l₁.map f = l₂.map f) : l₁ = l₂ := by
  induction l₁ generalizing l₂ with
  | nil => simpa using h.symm
  | cons a l₁ ih =>
    cases l₂ with
    | nil => cases h
    | cons b l₂ =>
      simp only [List.map_cons, List.cons.injEq] at h
      have hab := hf a (h₁ List.mem_cons_self) b (h₂ List.mem_cons_self) h.1
      rw [hab, ih (fun x hx => h₁ (List.mem_cons_of_mem _ hx))
        (fun x hx => h₂ (List.mem_cons_of_mem _ hx)) h.2]

theorem pairwise_either {α : Type} {R : α → α → Prop} {l : List α} (h : l.Pairwise R) {a b : α}
    (ha : a ∈ l) (hb : b ∈ l) (hne : a ≠ b) : R a b ∨ R b a := by
  have : Std.Symm (fun a b => R a b ∨ R b a) := ⟨fun _ _ h => h.symm⟩
  have heither : l.Pairwise (fun a b => R a b ∨ R b a) := h.imp Or.inl
  exact heither.forall ha hb hne

/-- Which tasks are started, and in which order, is right exactly when something is chosen, nothing
is chosen that is not of the context, and the lines are sorted as the priorities are. -/
theorem init_order (c : Collation) (tasks : List Task) (context : Context)
    (hdistinct : (tasks.map fun t => t.process.body).Nodup)
    (hplain : ∀ t ∈ tasks, t.chosen context = true → t.PlainProcess) :
    InOrder context tasks (startedBy c tasks context) ↔
      (∃ t ∈ tasks, t.chosen context = true) ∧
      (∀ t ∈ tasks, t.chosen context = true → t.isOf context = true) ∧
      ∀ s ∈ tasks, ∀ t ∈ tasks, s.chosen context = true → t.chosen context = true →
        s.priority < t.priority → c.le s.line t.line = true := by
  have hinj : ∀ s ∈ tasks, ∀ t ∈ tasks, s.process.body = t.process.body → s = t :=
    fun s hs t ht h => List.inj_on_of_nodup_map hdistinct hs ht h
  have hmem (t : Task) : t ∈ sorted c context tasks ↔ t ∈ tasks ∧ t.chosen context = true := by
    rw [(sorted_perm c context tasks).mem_iff, List.mem_filter]
  by_cases hne : tasks.filter (Task.chosen context) = []
  · have hnone : ¬ ∃ t ∈ tasks, t.chosen context = true := by
      simpa using hne
    refine iff_of_false ?_ (fun h => hnone h.1)
    rintro ⟨order, hperm, -, hstarted⟩
    rw [startedBy_none c hne] at hstarted
    obtain ⟨t, ht⟩ : ∃ t, t ∈ order := by
      cases order with
      | nil => cases hstarted
      | cons t order => exact ⟨t, List.mem_cons_self⟩
    have ht := List.mem_filter.mp (hperm.mem_iff.mp ht)
    exact hnone ⟨t, ht.1, chosen_of_isOf ht.2⟩
  · have hstarted : startedBy c tasks context =
        (sorted c context tasks).map (fun t => t.process.body) := by
      rw [startedBy_eq, schedule_initText c hdistinct hplain hne, List.map_map]
      refine List.map_congr_left fun t ht => ?_
      obtain ⟨htasks, hchosen⟩ := (hmem t).mp ht
      exact (Task.job_spec (hplain t htasks hchosen)).2.2
    have hsome : ∃ t ∈ tasks, t.chosen context = true := by
      simpa using hne
    rw [hstarted]
    constructor
    · rintro ⟨order, hperm, hpriority, heq⟩
      have hsub : order ⊆ tasks := fun t ht => (List.mem_filter.mp (hperm.mem_iff.mp ht)).1
      have horder := map_injOn hinj (fun t ht => ((hmem t).mp ht).1) hsub heq
      subst horder
      refine ⟨hsome, ?_, ?_⟩
      · intro t ht hchosen
        exact (List.mem_filter.mp (hperm.mem_iff.mp ((hmem t).mpr ⟨ht, hchosen⟩))).2
      · intro s hs t ht hsc htc hlt
        have hboth := (sorted_pairwise c context tasks).and hpriority
        have hst : s ≠ t := by
          rintro rfl
          omega
        rcases pairwise_either hboth ((hmem s).mpr ⟨hs, hsc⟩) ((hmem t).mpr ⟨ht, htc⟩) hst with
          h | h
        · exact h.1
        · have hts := h.2
          omega
    · rintro ⟨-, hof, hle⟩
      refine ⟨sorted c context tasks, ?_, ?_, rfl⟩
      · have hfilter : tasks.filter (Task.isOf context) = tasks.filter (Task.chosen context) := by
          refine List.filter_congr fun t ht => ?_
          rw [Bool.eq_iff_iff]
          exact ⟨chosen_of_isOf, hof t ht⟩
        rw [hfilter]
        exact sorted_perm c context tasks
      · refine (sorted_pairwise c context tasks).imp_of_mem fun {s t} hs ht hst => ?_
        by_contra hlt
        have hs := (hmem s).mp hs
        have ht := (hmem t).mp ht
        have hts := hle t ht.1 s hs.1 ht.2 hs.2 (by omega)
        have hline := c.antisymm _ _ hst hts
        have heq := hinj s hs.1 t ht.1
          (Task.body_of_line (hplain s hs.1 hs.2) (hplain t ht.1 ht.2) hline)
        rw [heq] at hlt
        omega

section Examples

def fsck : Task := ⟨0, ⟨text "boot", by decide⟩, ⟨text "/sbin/fsck", by decide⟩, none⟩

def lockfs : Task := ⟨2, ⟨text "boot", by decide⟩, ⟨text "/sbin/lockfs", by decide⟩, none⟩

def startcron : Task := ⟨9, ⟨text "boot", by decide⟩, ⟨text "/sbin/startcron", by decide⟩, none⟩

def rc : Task := ⟨10, ⟨text "boot", by decide⟩, ⟨text "/sbin/rc", by decide⟩, some true⟩

def savemeta : Task := ⟨0, ⟨text "halt", by decide⟩, ⟨text "/sbin/savemeta&", by decide⟩, none⟩

def launch : Task := ⟨3, ⟨text "boot", by decide⟩, ⟨text "/sbin/launch&", by decide⟩, some true⟩

end Examples

/-- An '&' at the end does no harm to a task with a mark, nor to one that is not started. -/
theorem init_order_boot :
    InOrder .boot [lockfs, fsck, savemeta, launch]
      (startedBy .bytes [lockfs, fsck, savemeta, launch] .boot) := by
  have hplain : ∀ t ∈ [lockfs, fsck, savemeta, launch], t.chosen .boot = true →
      t.PlainProcess := by
    intro t ht hchosen
    simp only [List.mem_cons, List.not_mem_nil, or_false] at ht
    rcases ht with rfl | rfl | rfl | rfl
    · exact ⟨⟨by decide, by decide, by decide⟩, by decide, by decide⟩
    · exact ⟨⟨by decide, by decide, by decide⟩, by decide, by decide⟩
    · exact absurd hchosen (by decide)
    · exact ⟨⟨by decide, by decide, by decide⟩, by decide, by decide⟩
  exact (init_order .bytes _ .boot (by decide) hplain).mpr (by decide)

/-- The task of priority 10 is started before that of priority 9. -/
theorem not_init_order :
    ¬ ∀ (tasks : List Task) (context : Context), (tasks.map fun t => t.process.body).Nodup →
      (∀ t ∈ tasks, ':' ∉ t.process.body) →
      InOrder context tasks (startedBy .bytes tasks context) := by
  intro h
  obtain ⟨order, hperm, hpriority, hstarted⟩ :=
    h [startcron, rc] .boot (by decide) (by decide)
  have hwrong : startedBy .bytes [startcron, rc] .boot =
      [rc.process.body, startcron.process.body] := by
    decide +kernel
  have hinj : ∀ s ∈ [startcron, rc], ∀ t ∈ [startcron, rc],
      s.process.body = t.process.body → s = t := by decide
  have hall : [startcron, rc].filter (Task.isOf .boot) = [startcron, rc] := by decide
  rw [hall] at hperm
  have horder : order = [rc, startcron] := by
    apply map_injOn hinj hperm.subset (by decide)
    rw [← hstarted, hwrong]
    rfl
  subst horder
  revert hpriority
  decide

end Order

end HackerUnion.Sbin
