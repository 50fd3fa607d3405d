import HackerUnion.Membership.Decide
import Mathlib.Data.List.Perm.Basic
import Mathlib.Algebra.BigOperators.Group.List.Basic
import Mathlib.Algebra.Order.BigOperators.Group.List
import Mathlib.Algebra.Order.Group.Nat

namespace HackerUnion.Membership

open Bash

variable (env : Env)

/-- The lines with their decisions that are logged, for lines with a decision or, when they are to
be kept, none. -/
def logged (ls : List (Text × Option Char)) : List (Char × Text) :=
  ls.filterMap (fun (line, decision) => decision.map (·, line))

def kept (ls : List (Text × Option Char)) : List Text :=
  ls.filterMap (fun (line, decision) => if decision = none then some line else none)

/-- Each line of the data file that is not empty is logged with a decision or kept, in order, and no
line is added. -/
def Conserved (data : Text) (s : State) : Prop :=
  (∃ decisions : List (Option Char),
    let ls := (lines data).filter (· ≠ [])
    decisions.length = ls.length ∧
      s.log.map (fun e => (e.decision, e.line)) = logged (ls.zip decisions) ∧
      (lines (rewritten s)).filter (· ≠ []) = kept (ls.zip decisions)) ∧
    ∀ line ∈ lines (rewritten s), line ∈ lines data

/-- A data file that the run reads as it is. -/
structure Readable (data : Text) : Prop where
  ended : unlines (lines data) = data
  blank : [] ∈ lines data
  records : ∀ line ∈ lines data, line ≠ [] → Plain line ∧ supported env line = true

variable {env} {s s' t : State}

/-- How a record is dealt with: logged with a decision, or kept. -/
def Dealt (s s' : State) (line : Text) : Option Char → Prop
  | some decision => (∃ date, s'.log = s.log ++ [⟨decision, date, line⟩]) ∧ s'.next = s.next
  | none => s'.log = s.log ∧ s'.next = s.next ++ text "\\n" ++ line

section Run

variable {line : Text} {decision : Option Char}

theorem Dealt.congr (hlog : s.log = t.log) (hnext : s.next = t.next)
    (h : Dealt t s' line decision) : Dealt s s' line decision := by
  cases decision with
  | none => exact ⟨h.1.trans (by rw [hlog]), h.2.trans (by rw [hnext])⟩
  | some d =>
    obtain ⟨⟨date, hd⟩, hn⟩ := h
    exact ⟨⟨date, by rw [hd, hlog]⟩, by rw [hn, hnext]⟩

/-- What an action comes to: it leaves the log and the list alone and goes round again, or deals
with the record. -/
def TurnSpec (s : State) (line : Text) : Turn → Prop
  | .again s' _ => s'.log = s.log ∧ s'.next = s.next
  | .done s' => ∃ decision, Dealt s s' line decision

theorem act_spec (env : Env) (s : State) (r : Record) (login : Text) (round : Round)
    (action : Option Char) : TurnSpec s r.line (act env s r login round action) := by
  have same : s.log = s.log ∧ s.next = s.next := ⟨rfl, rfl⟩
  have again {s' : State} (h : s'.log = s.log ∧ s'.next = s.next) :
    TurnSpec s r.line (.again s' login) := h
  have logs {s' : State} (d : Char) (h : s'.log = s.log ∧ s'.next = s.next) :
    TurnSpec s r.line (.done (s'.record d round.date r.line)) :=
      ⟨some d, ⟨round.date, by simp [State.record, h.1]⟩, h.2⟩
  have keeps {s' : State} (h : s'.log = s.log ∧ s'.next = s.next) :
    TurnSpec s r.line (.done (s'.keep r.line)) :=
      ⟨none, h.1, by simp [State.keep, h.2]⟩
  unfold act
  split
  iterate 2
    · split
      · exact again same
      · split
        · exact again same
        · split
          · exact again same
          · exact logs 'a' same
  iterate 2
    · split
      · exact again same
      · split
        · exact again same
        · exact logs 'r' same
  iterate 2
    · split
      · exact again same
      · exact logs 'd' same
  iterate 2
    · split
      · exact again same
      · exact keeps same
  iterate 2
    · exact again same
  iterate 2
    · split
      · exact again same
      · exact keeps same
  iterate 2
    · split
      · exact again same
      · exact keeps same
  · exact again same

theorem turn_spec (env : Env) (s : State) (r : Record) (login : Text) (round : Round) :
    TurnSpec s r.line (turn env s r login round) := by
  unfold turn
  split
  · -- the report and what is left of the addresses are in neither
    have h := act_spec env { s.report (.duplicate r.ip) with seen := env.forget s.seen r.ip }
      r login round (some 'd')
    exact h
  · exact act_spec env s r login round round.action

/-- The inner loop ends with the record dealt with. -/
theorem deliberate_spec (env : Env) (r : Record) (rounds : List Round) {rest : List Round}
    {login : Text} (h : deliberate env s r login rounds = some (s', rest)) :
    ∃ decision, Dealt s s' r.line decision := by
  induction rounds generalizing s login with
  | nil =>
    simp only [deliberate] at h
    split at h
    · cases h
      exact ⟨none, rfl, rfl⟩
    · cases h
  | cons round rounds ih =>
    simp only [deliberate] at h
    split at h
    · cases h
      exact ⟨none, rfl, rfl⟩
    · have hturn := turn_spec env s r login round
      split at h
      · rename_i t login' heq
        rw [heq] at hturn
        obtain ⟨decision, hdealt⟩ := ih h
        exact ⟨decision, hdealt.congr hturn.1.symm hturn.2.symm⟩
      · rename_i t heq
        rw [heq] at hturn
        cases h
        exact hturn

theorem logged_cons (line : Text) (decision : Option Char) (ls : List (Text × Option Char)) :
    logged ((line, decision) :: ls) = (decision.map (·, line)).toList ++ logged ls := by
  cases decision <;> rfl

/-- Each supported line is dealt with, in order. -/
theorem visitAll_spec (env : Env) (ls : List Text) {rounds : List Round}
    (h : visitAll env s ls rounds = some s') :
    ∃ decisions : List (Option Char),
      decisions.length = (ls.filter (supported env)).length ∧
      s'.log.map (fun e => (e.decision, e.line)) =
        s.log.map (fun e => (e.decision, e.line)) ++
          logged ((ls.filter (supported env)).zip decisions) ∧
      s'.next = s.next ++
        (kept ((ls.filter (supported env)).zip decisions)).flatMap (text "\\n" ++ ·) := by
  induction ls generalizing s rounds with
  | nil =>
    cases h
    exact ⟨[], rfl, by simp [logged], by simp [kept]⟩
  | cons line ls ih =>
    simp only [visitAll] at h
    cases hline : supported env line with
    | false =>
      obtain ⟨reports, hvisit⟩ := visit_unsupported env s hline
      rw [hvisit] at h
      simpa [hline] using ih h
    | true =>
      rw [visit_supported env s hline] at h
      split at h
      · cases h
      · rename_i t rest hdeliberate
        obtain ⟨decision, hdealt⟩ := deliberate_spec env _ _ hdeliberate
        obtain ⟨decisions, hlength, hlog, hnext⟩ := ih h
        refine ⟨decision :: decisions, by simp [hline, hlength], ?_, ?_⟩
        · rw [hlog, List.filter_cons_of_pos hline, List.zip_cons_cons, logged_cons]
          cases decision with
          | none => simp [hdealt.1]
          | some d =>
            obtain ⟨⟨date, hd⟩, -⟩ := hdealt
            simp [hd, parse]
        · rw [hnext, List.filter_cons_of_pos hline, List.zip_cons_cons]
          cases decision with
          | none => simp [kept, hdealt.2, parse]
          | some d => simp [kept, hdealt.2]

end Run

section Accounting

variable {ls : List Text} {decisions : List (Option Char)}

/-- What is counted in lines is counted in those logged and in those kept. -/
theorem sum_logged_add_kept (f : Text → Nat) (h : decisions.length = ls.length) :
    ((logged (ls.zip decisions)).map (fun e => f e.2)).sum +
      ((kept (ls.zip decisions)).map f).sum = (ls.map f).sum := by
  induction ls generalizing decisions with
  | nil => simp [logged, kept]
  | cons line ls ih =>
    cases decisions with
    | nil => cases h
    | cons decision decisions =>
      have hls := ih (Nat.succ.inj h)
      rw [List.zip_cons_cons, logged_cons]
      cases decision with
      | none =>
        simp only [kept, List.filterMap_cons, if_true, List.map_cons, List.sum_cons] at hls ⊢
        simp
        omega
      | some d =>
        simp only [kept, List.filterMap_cons, reduceCtorEq, if_false, List.map_cons,
          List.sum_cons] at hls ⊢
        simp
        omega

theorem mem_of_mem_kept {line : Text} (h : line ∈ kept (ls.zip decisions)) : line ∈ ls := by
  obtain ⟨⟨l, decision⟩, hmem, heq⟩ := List.mem_filterMap.mp h
  cases decision with
  | none =>
    cases heq
    exact (List.of_mem_zip hmem).1
  | some d => cases heq

theorem isOption_joined (ls : List Text) : isOption (ls.flatMap (text "\\n" ++ ·)) = false := by
  apply isOption_of_head
  cases ls with
  | nil => simp
  | cons l ls => exact fun h => absurd (Option.some.inj h) (by decide)

/-- The list of lines that are kept comes out with an empty line before it. -/
theorem lines_rewritten (h : s.next = ls.flatMap (text "\\n" ++ ·)) (hline : ∀ l ∈ ls, Line l)
    (hb : ∀ l ∈ ls, '\\' ∉ l) : lines (rewritten s) = [] :: ls := by
  have hopt := isOption_joined ls
  rw [← Lists.intercalate_nil_cons] at h hopt
  rw [rewritten, h]
  apply lines_echo_joined (List.cons_ne_nil _ _) _ _ hopt
  · intro l hl
    rcases List.mem_cons.mp hl with rfl | hl
    · exact List.not_mem_nil
    · exact hline l hl
  · intro l hl
    rcases List.mem_cons.mp hl with rfl | hl
    · exact List.not_mem_nil
    · exact hb l hl

theorem loose_joined (ls : List Text) :
    loose (ls.flatMap (text "\\n" ++ ·)) ≤ (ls.map (List.count '\\')).sum := by
  induction ls with
  | nil => exact le_refl _
  | cons l ls ih =>
    have hnewline (t : Text) : loose ('\\' :: 'n' :: t) = loose t := by simp [loose]
    have happend := loose_append l (ls.flatMap (text "\\n" ++ ·))
    simp only [List.flatMap_cons, List.map_cons, List.sum_cons]
    change loose ('\\' :: 'n' :: (l ++ _)) ≤ _
    rw [hnewline]
    omega

theorem count_rewritten (h : s.next = ls.flatMap (text "\\n" ++ ·)) :
    (rewritten s).count '\\' ≤ (ls.map (List.count '\\')).sum := by
  have he : echo [text "-e", s.next] = echoWith ⟨true, true⟩ [s.next] := rfl
  have hout := (count_unescape 0 s.next).trans (h ▸ loose_joined ls)
  rw [rewritten, he, echoWith, if_neg (by simp [h, isOption_joined])]
  simp only [echoRest, List.intercalate, List.intersperse, List.flatten_cons, List.flatten_nil,
    List.append_nil, if_true]
  split
  · rw [List.count_append]
    exact hout
  · exact hout

end Accounting

theorem not_supported_nil (env : Env) : supported env [] = false := rfl

theorem ne_nil_of_supported {line : Text} (h : supported env line = true) : line ≠ [] := by
  rintro rfl
  cases h

/-- The records of a data file, and what the run makes of them. -/
theorem runDecide_spec {data : Text} {rounds : List Round}
    (h : runDecide env data rounds = some s) :
    ∃ decisions : List (Option Char),
      decisions.length = (records env data).length ∧
      s.log.map (fun e => (e.decision, e.line)) = logged ((records env data).zip decisions) ∧
      s.next = (kept ((records env data).zip decisions)).flatMap (text "\\n" ++ ·) := by
  simpa [start, records] using visitAll_spec env (readLines data) h

section Sufficient

variable {data : Text}

theorem Readable.plain (h : Readable env data) {line : Text} (hl : line ∈ lines data) :
    Plain line := by
  by_cases hnil : line = []
  · subst hnil
    decide
  · exact (h.records line hl hnil).1

theorem Readable.readLines (h : Readable env data) : readLines data = lines data := by
  conv_lhs => rw [← h.ended]
  exact readLines_plain (fun _ => line_of_mem_lines) (fun _ => h.plain)

/-- The records are the lines that are not empty. -/
theorem Readable.records_eq (h : Readable env data) :
    Membership.records env data = (lines data).filter (· ≠ []) := by
  rw [Membership.records, h.readLines]
  apply List.filter_congr
  intro line hl
  by_cases hnil : line = []
  · simp [hnil, not_supported_nil]
  · simp [hnil, (h.records line hl hnil).2]

theorem Readable.conserved (h : Readable env data) {rounds : List Round}
    (hrun : runDecide env data rounds = some s) : Conserved data s := by
  obtain ⟨decisions, hlength, hlog, hnext⟩ := runDecide_spec hrun
  rw [h.records_eq] at hlength hlog hnext
  have hmem {l : Text} (hl : l ∈ kept (((lines data).filter (· ≠ [])).zip decisions)) :
      l ∈ lines data ∧ l ≠ [] := by
    simpa using mem_of_mem_kept hl
  have hlines := lines_rewritten hnext (fun l hl => line_of_mem_lines (hmem hl).1)
    (fun l hl => (h.plain (hmem hl).1).1)
  refine ⟨⟨decisions, hlength, hlog, ?_⟩, ?_⟩
  · rw [hlines, List.filter_cons_of_neg (by simp), List.filter_eq_self]
    intro l hl
    simp [(hmem hl).2]
  · rw [hlines]
    intro l hl
    rcases List.mem_cons.mp hl with rfl | hl
    · exact h.blank
    · exact (hmem hl).1

end Sufficient

section Necessary

variable {data : Text} {records : List Text} {decisions : List (Option Char)}

theorem sum_filter (p : Text → Bool) (f : Text → Nat) (ls : List Text) :
    ((ls.filter p).map f).sum = (ls.map (fun l => if p l then f l else 0)).sum := by
  induction ls with
  | nil => rfl
  | cons l ls ih =>
    rw [List.filter_cons]
    split
    · rename_i hp
      simp [ih, hp]
    · rename_i hp
      simp [ih, hp]

theorem sum_filter_le (p : Text → Bool) (f : Text → Nat) (ls : List Text) :
    ((ls.filter p).map f).sum ≤ (ls.map f).sum := by
  rw [sum_filter]
  apply List.sum_le_sum
  intro l _
  split
  · exact le_refl _
  · exact Nat.zero_le _

/-- What is counted in the lines of the data file is in the log or in the new data file; what is
counted in the records is in the log or kept. -/
theorem Conserved.balance (h : Conserved data s) (hlength : decisions.length = records.length)
    (hlog : s.log.map (fun e => (e.decision, e.line)) = logged (records.zip decisions))
    (f : Text → Nat) :
    (((lines data).filter (· ≠ [])).map f).sum + ((kept (records.zip decisions)).map f).sum =
      (records.map f).sum + (((lines (rewritten s)).filter (· ≠ [])).map f).sum := by
  obtain ⟨⟨decisions', hlength', hlog', hkept⟩, -⟩ := h
  have hrecords := sum_logged_add_kept f hlength
  have hdata := sum_logged_add_kept f hlength'
  rw [← hlog'] at hdata
  rw [← hlog] at hrecords
  rw [hkept]
  omega

/-- A backslash is lost. -/
theorem Conserved.no_backslash (h : Conserved data s) {rounds : List Round}
    (hrun : runDecide env data rounds = some s) : '\\' ∉ data := by
  obtain ⟨decisions, hlength, hlog, hnext⟩ := runDecide_spec hrun
  have hbalance := h.balance hlength hlog (List.count '\\')
  have hrecords : ((records env data).map (List.count '\\')).sum ≤
      ((readLines data).map (List.count '\\')).sum := sum_filter_le _ _ _
  have hnew : (((lines (rewritten s)).filter (· ≠ [])).map (List.count '\\')).sum ≤
      (rewritten s).count '\\' := (sum_filter_le _ _ _).trans (count_lines (by decide) _).le
  have hdata : (((lines data).filter (· ≠ [])).map (List.count '\\')).sum = data.count '\\' := by
    rw [sum_filter, ← count_lines (by decide) data]
    congr 2
    funext l
    by_cases hl : l = [] <;> simp [hl]
  have hkept := count_rewritten hnext
  have hread := count_readLines data
  rw [← List.count_eq_zero]
  omega

/-- What a record weighs is at most what its line does. -/
theorem weight_le (env : Env) (l : Text) :
    (if supported env (trim l) then (trim l).length + 1 else 0) ≤
      if l ≠ [] then l.length + 1 else 0 := by
  have hlength := (trim_sublist l).length_le
  split
  · rename_i hsupported
    have hne : l ≠ [] := by
      rintro rfl
      cases hsupported
    rw [if_pos hne]
    omega
  · exact Nat.zero_le _

/-- Lines that weigh as much as the records read from them are the records. -/
theorem records_of_weights {ls : List Text} {rest : Text}
    (h : (((ls ++ if rest = [] then [] else [rest]).filter (· ≠ [])).map
        (fun l => l.length + 1)).sum =
      (((ls.map trim).filter (supported env)).map (fun l => l.length + 1)).sum) :
    rest = [] ∧ ∀ l ∈ ls, l ≠ [] → trim l = l ∧ supported env l = true := by
  rw [sum_filter, sum_filter, List.map_append, List.sum_append, List.map_map] at h
  have hle := List.sum_le_sum (fun l (_ : l ∈ ls) => weight_le env l)
  have hrest : rest = [] := by
    by_contra hne
    simp only [Function.comp_def, decide_eq_true_eq, if_neg hne, List.map_cons, if_pos hne,
      List.sum_cons] at h
    omega
  refine ⟨hrest, ?_⟩
  intro l hl hne
  have heq : (if supported env (trim l) then (trim l).length + 1 else 0) =
      if l ≠ [] then l.length + 1 else 0 := by
    by_contra hlt
    have hsum := List.sum_lt_sum _ _ (fun l (_ : l ∈ ls) => weight_le env l)
      ⟨l, hl, lt_of_le_of_ne (weight_le env l) hlt⟩
    simp only [Function.comp_def, decide_eq_true_eq, hrest, if_true, List.map_nil,
      List.sum_nil] at h
    omega
  rw [if_pos hne] at heq
  split at heq
  · rename_i hsupported
    have htrim : trim l = l := (trim_sublist l).eq_of_length_le (by omega)
    exact ⟨htrim, htrim ▸ hsupported⟩
  · cases heq

/-- Every line that is not empty is ended, bare at both ends and supported. -/
theorem Conserved.readable (h : Conserved data s) {rounds : List Round}
    (hrun : runDecide env data rounds = some s) : Readable env data := by
  have hbs := h.no_backslash hrun
  obtain ⟨decisions, hlength, hlog, hnext⟩ := runDecide_spec hrun
  have hmem {l : Text} (hl : l ∈ kept ((records env data).zip decisions)) :
      l ∈ readLines data ∧ supported env l = true := by
    simpa [records] using mem_of_mem_kept hl
  have hnew := lines_rewritten hnext (fun l hl => line_of_mem_readLines (hmem hl).1)
    (fun l hl => no_backslash_of_mem_readLines hbs (hmem hl).1)
  have hkept : (lines (rewritten s)).filter (· ≠ []) =
      kept ((records env data).zip decisions) := by
    rw [hnew, List.filter_cons_of_neg (by simp), List.filter_eq_self]
    intro l hl
    simpa using ne_nil_of_supported (hmem hl).2
  have hbalance := h.balance hlength hlog (fun l => l.length + 1)
  rw [hkept, Nat.add_right_cancel_iff] at hbalance
  have hblank : [] ∈ lines data := h.2 [] (by rw [hnew]; exact List.mem_cons_self)
  obtain ⟨ls, rest, rfl, hls, hrest⟩ := exists_unlines_append data
  have hb {l : Text} (hl : l ∈ ls) : '\\' ∉ l := by
    intro hmem
    apply hbs
    simp only [unlines, List.mem_append, List.mem_flatMap]
    exact .inl ⟨l, hl, .inl hmem⟩
  have hbrest : '\\' ∉ rest := fun hmem => hbs (List.mem_append_right _ hmem)
  rw [records, readLines_unlines_append hls (fun l hl => hb hl) hrest hbrest,
    lines_unlines_append hls hrest] at hbalance
  obtain ⟨rfl, hrecords⟩ := records_of_weights hbalance
  rw [List.append_nil] at hblank ⊢
  rw [lines_unlines hls] at hblank
  refine ⟨by rw [lines_unlines hls], by rwa [lines_unlines hls], ?_⟩
  rw [lines_unlines hls]
  intro l hl hne
  obtain ⟨htrim, hsupported⟩ := hrecords l hl hne
  exact ⟨plain_of_trim (hb hl) htrim, hsupported⟩

end Necessary

/-- A run keeps account of every application exactly when it reads the data file as it is. -/
theorem conserved_iff (env : Env) (data : Text) (rounds : List Round) (s : State)
    (hrun : runDecide env data rounds = some s) : Conserved data s ↔ Readable env data :=
  ⟨fun h => h.readable hrun, fun h => h.conserved hrun⟩

/-- The answers that delete a record. -/
def deleted : Round := ⟨some 'd', some 'y', [], false, false, text "Tue"⟩

theorem conserved_iff_deleted :
    ∃ s, runDecide bareEnv (text "\n1|10.0.0.1|Ann|ann@x.org|ann|Mon|hi\n") [deleted] = some s ∧
      (Conserved (text "\n1|10.0.0.1|Ann|ann@x.org|ann|Mon|hi\n") s ↔
        Readable bareEnv (text "\n1|10.0.0.1|Ann|ann@x.org|ann|Mon|hi\n")) :=
  ⟨_, rfl, conserved_iff bareEnv _ [deleted] _ rfl⟩

/-- A comment that has a backslash is logged without it. -/
theorem not_conserved_backslash :
    ¬∀ env data rounds s, runDecide env data rounds = some s → Conserved data s := by
  intro h
  have hrun : ∃ s, runDecide bareEnv (text "\n1|10.0.0.1|Ann|ann@x.org|ann|Mon|C:\\dir\n")
      [deleted] = some s := ⟨_, rfl⟩
  obtain ⟨s, hrun⟩ := hrun
  exact (h _ _ _ s hrun).no_backslash hrun (by decide)

end HackerUnion.Membership
