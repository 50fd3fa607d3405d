import HackerUnion.Membership.Mail

namespace HackerUnion.Membership

open Bash

variable (glob : Text → List Text) (env : Env)

/-- What decide reads of an application: address, name, e-mail and login. -/
def Record.fields (r : Record) : Text × Text × Text × Text :=
  (r.ip, r.fullname, r.email, r.userlogin)

def reading (data : Text) : List (Text × Text × Text × Text) :=
  (records env data).map (fun line => (parse env line).fields)

/-- What was submitted, with each run of blanks one space. -/
def Submission.fields (s : Submission) : Text × Text × Text × Text :=
  (squeeze s.ip, squeeze s.name, squeeze s.email, lower (squeeze s.username))

/-- An application that comes out of the data file as it went in: no field that is read back has a
separator, a newline or a backslash; the note leaves no backslash pending and none of its further
lines is a record; and no word of the line matches a file name. -/
structure Clean (s : Submission) : Prop where
  name : Bare s.name
  email : Bare s.email
  username : Bare s.username
  ended : pending false (spaced glob s.note) = false
  rest : ∀ l ∈ (readLines (spaced glob s.note ++ ['\n'])).tail, supported env l = false
  names : ∀ l ∈ (readLines (applied glob s ++ ['\n'])).head?, NoMatch env.glob l

variable {glob env} {s : Submission} {note : Text}

section Line

/-- The line of an application with some note. -/
def lineOf (s : Submission) (note : Text) : Text :=
  List.intercalate ['|'] [text "1", s.ip, s.name, s.email, s.username, s.date, note]

theorem lineOf_eq (s : Submission) (note : Text) :
    lineOf s note = '1' :: '|' :: (s.ip ++ '|' :: (s.name ++ '|' :: (s.email ++ '|' ::
      (s.username ++ '|' :: (s.date ++ '|' :: note))))) := by
  simp [lineOf, List.intercalate]
  rfl

/-- What stands before the note. -/
def front (s : Submission) : Text :=
  '1' :: '|' :: (s.ip ++ '|' :: (s.name ++ '|' :: (s.email ++ '|' ::
    (s.username ++ '|' :: s.date))))

theorem lineOf_front (s : Submission) (note : Text) : lineOf s note = front s ++ '|' :: note := by
  simp [lineOf_eq, front]

theorem front_bare (h : Clean glob env s) : Line (front s ++ ['|']) ∧ '\\' ∉ front s ++ ['|'] := by
  obtain ⟨-, hip, hip'⟩ := s.ip_bare
  obtain ⟨-, hdate, hdate'⟩ := s.date_bare
  obtain ⟨-, hname, hname'⟩ := h.name
  obtain ⟨-, hemail, hemail'⟩ := h.email
  obtain ⟨-, hlogin, hlogin'⟩ := h.username
  simp only [Line] at *
  simp [front, *]

/-- The first line that is read of an application is its line with some note, and the others are
those of the note. -/
theorem readLines_applied (h : Clean glob env s) :
    ∃ note, ∀ rest, readLines (applied glob s ++ '\n' :: rest) =
      lineOf s note :: (readLines (spaced glob s.note ++ ['\n'])).tail ++ readLines rest := by
  obtain ⟨read, ls, hread⟩ := exists_readLoop h.ended
  obtain ⟨hline, hslash⟩ := front_bare h
  have hfront : front s ++ ['|'] = '1' :: (front s).tail ++ ['|'] := rfl
  obtain ⟨note, hnote⟩ := trimmed_front (c := '1') (d := '|') rfl rfl (front s).tail read
  have htail : (readLines (spaced glob s.note ++ ['\n'])).tail = ls := by
    rw [readLines, hread]
    rfl
  refine ⟨note, fun rest => ?_⟩
  have happlied : applied glob s ++ '\n' :: rest =
      (front s ++ ['|']) ++ (spaced glob s.note ++ '\n' :: rest) := by
    have h := lineOf_front s (spaced glob s.note)
    rw [lineOf] at h
    rw [applied, h]
    simp
  rw [happlied, readLines, readLoop_bare hline hslash, readLoop_append h.ended, hread, htail,
    List.nil_append, hfront, hnote, lineOf_front]
  rfl

end Line

section Fields

theorem lines_one {l : Text} (h : Line l) : lines (l ++ ['\n']) = [l] := lines_ended h []

/-- The line with each run of blanks one space. -/
theorem joined_lineOf (s : Submission) (note : Text) :
    joined (lineOf s note) =
      '1' :: '|' :: (squeeze s.ip ++ '|' :: (squeeze s.name ++ '|' :: (squeeze s.email ++ '|' ::
        (squeeze s.username ++ '|' :: (squeeze s.date ++ '|' ::
          (squeeze note).rdropWhile isBlank))))) := by
  have hbar : isBlank '|' = false := rfl
  have hhead : (lineOf s note).head?.any isBlank = false := by
    rw [lineOf_eq]
    rfl
  have hsqueeze : squeeze (lineOf s note) =
      ('1' :: '|' :: (squeeze s.ip ++ '|' :: (squeeze s.name ++ '|' :: (squeeze s.email ++ '|' ::
        (squeeze s.username ++ '|' :: squeeze s.date))))) ++ '|' :: squeeze note := by
    have hone (t : Text) : squeeze ('1' :: '|' :: t) = '1' :: '|' :: squeeze t := rfl
    rw [lineOf_eq, hone]
    simp only [squeeze_append_cons hbar, List.cons_append, List.append_assoc]
  have hdrop := rdropWhile_squeeze (lineOf s note)
  rw [hhead, if_neg Bool.false_ne_true] at hdrop
  rw [← hdrop, hsqueeze, rdropWhile_append_cons hbar]
  simp

theorem line_joined_lineOf (s : Submission) (note : Text) : Line (joined (lineOf s note)) := by
  have hnote : '\n' ∉ (squeeze note).rdropWhile isBlank := fun h =>
    line_squeeze note ((List.rdropWhile_prefix _ _).subset h)
  have hsqueeze (t : Text) : '\n' ∉ squeeze t := line_squeeze t
  rw [joined_lineOf]
  simp [Line, hnote, hsqueeze]

/-- Every field is cut out of the one line that is echoed. -/
theorem field_lineOf (hmatch : NoMatch env.glob (lineOf s note)) (n : Nat) :
    field env n (lineOf s note) = capture (unlines [cut '|' n (joined (lineOf s note))]) := by
  have hecho : echo (expand env.glob (lineOf s note)) = joined (lineOf s note) ++ ['\n'] := by
    rw [expand_noMatch hmatch, lineOf_eq]
    exact echo_words rfl (by decide) _
  rw [field, hecho, lines_one (line_joined_lineOf s note)]
  rfl

theorem capture_cut {t : Text} {n : Nat} {line : Text} (h : cut '|' n line = squeeze t) :
    capture (unlines [cut '|' n line]) = squeeze t := by
  rw [h, capture_unlines_singleton (line_squeeze t)]

theorem not_mem_squeeze {t : Text} (h : Bare t) : '|' ∉ squeeze t := by
  intro hmem
  rcases mem_squeeze hmem with heq | ⟨-, hmem⟩
  · exact absurd heq (by decide)
  · exact h.1 hmem

theorem version_lineOf (hmatch : NoMatch env.glob (lineOf s note)) :
    version env (lineOf s note) = text "1" := by
  have hone (t : Text) : cut '|' 1 ('1' :: '|' :: t) = text "1" :=
    cut_one (a := ['1']) (by decide) t
  rw [version, field_lineOf hmatch, joined_lineOf, hone]
  decide

/-- The fields that decide reads are those submitted. -/
theorem fields_lineOf (h : Clean glob env s) (hmatch : NoMatch env.glob (lineOf s note)) :
    (parse env (lineOf s note)).fields = s.fields := by
  have hip := not_mem_squeeze s.ip_bare
  have hname := not_mem_squeeze h.name
  have hemail := not_mem_squeeze h.email
  have hlogin := not_mem_squeeze h.username
  have hone (n : Nat) (t : Text) (ht : '|' ∈ t) :
      cut '|' (n + 2) ('1' :: '|' :: t) = cut '|' (n + 1) t :=
    cut_succ (a := ['1']) (by decide) n ht
  have hbar (a b : Text) : '|' ∈ a ++ '|' :: b := by simp
  have hfield (n : Nat) {t : Text} (hcut : cut '|' n (joined (lineOf s note)) = squeeze t) :
      field env n (lineOf s note) = squeeze t := by
    rw [field_lineOf hmatch, capture_cut hcut]
  have h2 : field env 2 (lineOf s note) = squeeze s.ip := by
    apply hfield
    rw [joined_lineOf, hone 0 _ (hbar _ _), cut_one hip]
  have h3 : field env 3 (lineOf s note) = squeeze s.name := by
    apply hfield
    rw [joined_lineOf, hone 1 _ (hbar _ _), cut_succ hip 0 (hbar _ _), cut_one hname]
  have h4 : field env 4 (lineOf s note) = squeeze s.email := by
    apply hfield
    rw [joined_lineOf, hone 2 _ (hbar _ _), cut_succ hip 1 (hbar _ _),
      cut_succ hname 0 (hbar _ _), cut_one hemail]
  have h5 : field env 5 (lineOf s note) = squeeze s.username := by
    apply hfield
    rw [joined_lineOf, hone 3 _ (hbar _ _), cut_succ hip 2 (hbar _ _),
      cut_succ hname 1 (hbar _ _), cut_succ hemail 0 (hbar _ _), cut_one hlogin]
  simp [Record.fields, Submission.fields, parse, h2, h3, h4, h5]

theorem supported_lineOf (hline : Line (lineOf s note))
    (hmatch : NoMatch env.glob (lineOf s note)) : supported env (lineOf s note) = true := by
  have hopt : isOption (lineOf s note) = false := by
    rw [lineOf_eq]
    exact isOption_of_head (by simp)
  have hskip : skipped (lineOf s note) = false := by
    rw [skipped, echo_quoted hopt, lines_one hline, lineOf_eq]
    rfl
  simp [supported, hskip, version_lineOf hmatch]

end Fields

section Run

/-- The records of a data file to which an application is added. -/
theorem records_applied (h : Clean glob env s) :
    ∃ note, (parse env (lineOf s note)).fields = s.fields ∧
      ∀ rest, (readLines (applied glob s ++ '\n' :: rest)).filter (supported env) =
        lineOf s note :: (readLines rest).filter (supported env) := by
  obtain ⟨note, hread⟩ := readLines_applied h
  have hfirst : readLines (applied glob s ++ ['\n']) =
      lineOf s note :: (readLines (spaced glob s.note ++ ['\n'])).tail := by
    have hrest := hread []
    rwa [show readLines [] = [] from rfl, List.append_nil] at hrest
  have hline : Line (lineOf s note) :=
    line_of_mem_readLines (t := applied glob s ++ ['\n']) (by simp [hfirst])
  have hmatch : NoMatch env.glob (lineOf s note) := h.names _ (by simp [hfirst])
  refine ⟨note, fields_lineOf h hmatch, fun rest => ?_⟩
  have hfilter : (readLines (spaced glob s.note ++ ['\n'])).tail.filter (supported env) = [] := by
    rw [List.filter_eq_nil_iff]
    intro l hl
    simp [h.rest l hl]
  rw [hread rest, List.filter_append, List.filter_cons_of_pos (supported_lineOf hline hmatch),
    hfilter]
  rfl

/-- The data file has the lines of the applications that were accepted. -/
theorem applyAll_eq (glob : Text → List Text) (submissions : List Submission) :
    applyAll glob submissions =
      (submissions.filter accepted).flatMap (fun s => applied glob s ++ ['\n']) := by
  have hecho (s : Submission) : echo [applied glob s] = applied glob s ++ ['\n'] := by
    apply echo_quoted
    apply isOption_of_head
    rw [applied, Lists.head?_intercalate (by decide)]
    decide
  have hfold (data : Text) : submissions.foldl (apply glob) data =
      data ++ (submissions.filter accepted).flatMap (fun s => applied glob s ++ ['\n']) := by
    induction submissions generalizing data with
    | nil => simp
    | cons s submissions ih =>
      rw [List.foldl_cons, ih, apply]
      split
      · rename_i haccepted
        simp [save, hecho, haccepted]
      · rename_i hrejected
        simp [hrejected]
  exact hfold []

/-- What decide reads after any requests is what the accepted ones submitted, in order. -/
theorem reading_applyAll (glob : Text → List Text) (env : Env) (submissions : List Submission)
    (h : ∀ s ∈ submissions, accepted s = true → Clean glob env s) :
    reading env (applyAll glob submissions) =
      (submissions.filter accepted).map Submission.fields := by
  have hclean : ∀ s ∈ submissions.filter accepted, Clean glob env s := by
    intro s hs
    obtain ⟨hmem, haccepted⟩ := List.mem_filter.mp hs
    exact h s hmem haccepted
  rw [applyAll_eq, reading, records]
  generalize submissions.filter accepted = saved at hclean
  induction saved with
  | nil => rfl
  | cons s saved ih =>
    obtain ⟨note, hfields, hrecords⟩ := records_applied (hclean s List.mem_cons_self)
    have hrest := ih fun s hs => hclean s (List.mem_cons_of_mem _ hs)
    rw [List.flatMap_cons, List.append_assoc, List.singleton_append, hrecords, List.map_cons,
      hfields, hrest]
    rfl

end Run

theorem clean_plainApplication : Clean bareEnv.glob bareEnv plainApplication where
  name := by decide
  email := by decide
  username := by decide
  ended := by decide
  rest := by
    have htail : (readLines (spaced bareEnv.glob plainApplication.note ++ ['\n'])).tail = [] := by
      decide
    simp [htail]
  names _ _ _ _ _ := rfl

theorem clean_secondApplication : Clean bareEnv.glob bareEnv secondApplication where
  name := by decide
  email := by decide
  username := by decide
  ended := by decide
  rest := by
    have htail : (readLines (spaced bareEnv.glob secondApplication.note ++ ['\n'])).tail = [] := by
      decide
    simp [htail]
  names _ _ _ _ _ := rfl

/-- The username of the one between them is too short. -/
def between : Submission := { plainApplication with username := text "a" }

theorem reading_applyAll_plain :
    reading bareEnv (applyAll bareEnv.glob [plainApplication, between, secondApplication]) =
      ([plainApplication, between, secondApplication].filter accepted).map Submission.fields := by
  apply reading_applyAll
  intro s hs haccepted
  simp only [List.mem_cons, List.not_mem_nil, or_false] at hs
  rcases hs with rfl | rfl | rfl
  · exact clean_plainApplication
  · exact absurd haccepted (by decide)
  · exact clean_secondApplication

/-- An application whose name has a separator. -/
def separated : Submission := { plainApplication with name := text "Ann|Lee" }

/-- The part of a name after a separator is read as the address. -/
theorem not_reading_separated :
    ¬∀ (glob : Text → List Text) (env : Env) (submissions : List Submission),
      reading env (applyAll glob submissions) =
        (submissions.filter accepted).map Submission.fields := by
  intro h
  have haccepted : accepted separated = true := by decide
  have hread : reading bareEnv (applyAll bareEnv.glob [separated]) =
      [(text "10.0.0.1", text "Ann", text "Lee", text "ann@x.org")] := by decide
  have heq := h bareEnv.glob bareEnv [separated]
  rw [hread, List.filter_cons_of_pos haccepted] at heq
  exact absurd heq (by decide)

end HackerUnion.Membership
