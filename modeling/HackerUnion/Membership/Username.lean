import HackerUnion.Bash.Length
import HackerUnion.Cgi.Fields
import HackerUnion.Membership.Apply

namespace HackerUnion.Membership

open Bash Cgi

variable (glob : Text → List Text)

/-- What a run of the script is started with, and what `date` prints in it. -/
structure Visit where
  request : Request
  ip : Text
  date : Text
  ip_bare : Bare ip
  date_bare : Bare date

/-- `cgi_getvars POST name email username note submit` -/
def asked : List Text := [text "name", text "email", text "username", text "note", text "submit"]

abbrev Variables := Text → Text

def Variables.assign (vars : Variables) (a : Assignment) : Variables := Function.update vars a.1 a.2

section Run

/- The variables that the script inherits, and those that a request leaves which is not read as
assignments: a value that ends its quotes is a command, and may set any of them. -/
variable (inherited : Variables) (shell : Trouble → Request → Variables)

/-- The variables after `cgi_getvars`. -/
def getvars (r : Request) : Variables :=
  match cgiGetvars glob asked .post r with
  | .ok assigned => assigned.foldl Variables.assign inherited
  | .error trouble => shell trouble r

/-- What the script checks and saves. -/
def submission (v : Visit) : Submission :=
  let vars := getvars glob inherited shell v.request
  { ip := v.ip
    name := vars (text "name")
    email := vars (text "email")
    username := vars (text "username")
    note := vars (text "note")
    submit := vars (text "submit")
    date := v.date
    ip_bare := v.ip_bare
    date_bare := v.date_bare }

end Run

/-- The value of a field as `echo` prints it. -/
def Field.entered (f : Field) : Text := Listing.echoed (valueOf f.value)

/-- A form that is posted, and nothing in its values ends the quotes that they are put between. -/
structure Fills (r : Request) (fields : List Field) : Prop where
  sound : ∀ f ∈ fields, f.Sound
  posted : Posted r fields
  quotes : ∀ f ∈ fields, f.key ∈ asked → quoted (Field.entered f) = some (Field.entered f)

/-- The last field of a name is what counts. -/
def fill (vars : Variables) (f : Field) : Variables :=
  if f.key ∈ asked then vars.assign (f.key, Field.entered f) else vars

/-- What is asked of the username and of the note, as submitted and as written. -/
structure Valid (s : Submission) : Prop where
  username : 2 ≤ s.username.length ∧ s.username.length ≤ 10 ∧
    ∀ c ∈ s.username, isLetterOrDigit c = true
  note : s.note.length < 5000
  written : (spaced glob s.note).length < 5000

/-- The lines of a text, each with its end. -/
def total (t : Text) : Nat := ((lines (t ++ ['\n'])).map fun l => l.length + 1).sum

/-- Where the checks, which look at one line at a time and for one match in it, are enough. -/
structure Within (s : Submission) : Prop where
  username : s.username.length ≤ 10 ∧ ∀ c ∈ s.username, isLetterOrDigit c = true
  /-- The note is one line that `echo` prints, or its lines are short together. -/
  note : Line s.note ∧ isOption s.note = false ∨ total s.note ≤ 5000
  /-- No word of the note names files, or what is printed with their names is short. -/
  names : NoMatch glob s.note ∨ (capture (echo (expand glob s.note))).length < 5000

variable {glob} {s : Submission} {note username : Text}

section Form

variable {r : Request} {fields : List Field}

theorem askable_asked : Askable asked where
  ne_nil := List.cons_ne_nil _ _
  not_all := by decide
  no_space := by decide
  free := by decide

theorem foldl_fill (fields : List Field) (vars : Variables) :
    ((fields.filter (·.key ∈ asked)).map fun f => (f.key, Field.entered f)).foldl
      Variables.assign vars = fields.foldl fill vars := by
  induction fields generalizing vars with
  | nil => rfl
  | cons f fields ih =>
    rw [List.foldl_cons, fill, ← ih]
    by_cases hmem : f.key ∈ asked
    · rw [List.filter_cons_of_pos (by simpa using hmem), if_pos hmem, List.map_cons,
        List.foldl_cons]
    · rw [List.filter_cons_of_neg (by simpa using hmem), if_neg hmem]

/-- The variables are what the fields of such a form say. -/
theorem getvars_fills (glob : Text → List Text) (inherited : Variables)
    (shell : Trouble → Request → Variables) (h : Fills r fields) :
    getvars glob inherited shell r = fields.foldl fill inherited := by
  have hcarries : Carries r fields .post := h.posted
  have hget : cgiGetvars glob asked .post r = _ :=
    (cgiGetvars_carries askable_asked h.sound hcarries).trans
    (mapM_received h.quotes)
  rw [getvars, hget]
  exact foldl_fill fields inherited

end Form

section Username

theorem isOption_of_alnum (h : ∀ c ∈ username, isLetterOrDigit c = true) :
    isOption username = false := by
  refine isOption_of_head fun hhead => ?_
  have hdash := h '-' (List.mem_of_mem_head? hhead)
  exact absurd hdash (by decide)

theorem line_of_alnum (h : ∀ c ∈ username, isLetterOrDigit c = true) : Line username :=
  fun hmem => absurd (h '\n' hmem) (by decide)

/-- Of one line, `grep -v` looks at the whole text. -/
theorem everyLine_line (hline : Line note) (hopt : isOption note = false) (p : Text → Bool) :
    everyLine p note = p note := by
  have hlines := lines_ended hline []
  rw [everyLine, echo_quoted hopt, hlines]
  simp [lines]

theorem hasRun_length {p : Char → Bool} {n : Nat} (h : hasRun p n note = true) :
    n ≤ note.length := by
  obtain ⟨t, ht, hn⟩ := List.any_eq_true.mp h
  have hsuffix := ((List.mem_tails _ _).mp ht).length_le
  have htake := (List.takeWhile_prefix p (l := t)).length_le
  have hn := of_decide_eq_true hn
  omega

/-- A username without other characters that passes has two at least. -/
theorem length_of_validUsername (h : validUsername username = true)
    (halnum : ∀ c ∈ username, isLetterOrDigit c = true) : 2 ≤ username.length := by
  rw [validUsername, everyLine_line (line_of_alnum halnum) (isOption_of_alnum halnum)] at h
  exact hasRun_length h

end Username

section Note

theorem total_eq (t : Text) : total t = t.length + 1 := by
  rw [total, ← length_unlines, unlines_lines, List.length_append, List.length_singleton]

theorem length_of_validNote (h : validNote note = true) (hline : Line note)
    (hopt : isOption note = false) : note.length < 5000 := by
  rw [validNote, everyLine_line hline hopt] at h
  exact of_decide_eq_true h

/-- What is written of a note is as long as what `echo` prints of its words. -/
theorem length_spaced (glob : Text → List Text) (note : Text) :
    (spaced glob note).length = (capture (echo (expand glob note))).length := by
  let keep (c : Char) : Char := if c = '\n' then c else if isSpace c then ' ' else c
  have hkeep : ∀ c, keep c = '\n' ↔ c = '\n' := by
    intro c
    unfold keep
    split
    · simp [*]
    · split
      · simp [*]
      · simp [*]
  set out := echo (expand glob note) with hout
  have hblank : (lines out).map (List.map fun c => if isSpace c then ' ' else c) =
      (lines out).map (List.map keep) := by
    refine List.map_congr_left fun l hl => List.map_congr_left fun c hc => ?_
    have hne : c ≠ '\n' := fun h => line_of_mem_lines hl (h ▸ hc)
    simp [keep, hne]
  have hspaced : spaced glob note = capture ((unlines (lines out)).map keep) := by
    rw [map_unlines hkeep, ← hblank]
    rfl
  rw [hspaced, length_capture_map hkeep, capture_unlines_lines]

/-- Where no word names files, what is written is no longer than what was submitted. -/
theorem length_spaced_le (h : NoMatch glob note) :
    (spaced glob note).length ≤ note.length := by
  rw [length_spaced, expand_noMatch h]
  exact (length_capture_echo _).trans (length_joined note).1

end Note

/-- A submission that is accepted has the username and the note that are asked for just where the
checks are enough. -/
theorem valid_iff_within (h : accepted s = true) : Valid glob s ↔ Within glob s := by
  simp only [accepted, Bool.and_eq_true] at h
  obtain ⟨⟨⟨-, hnote⟩, -⟩, husername⟩ := h
  constructor
  · intro hvalid
    obtain ⟨-, hmost, halnum⟩ := hvalid.username
    have hshort := hvalid.note
    have hwritten := hvalid.written
    refine ⟨⟨hmost, halnum⟩, .inr ?_, .inr ?_⟩
    · rw [total_eq]
      omega
    · rwa [length_spaced] at hwritten
  · intro hwithin
    obtain ⟨hmost, halnum⟩ := hwithin.username
    have hshort : s.note.length < 5000 := by
      rcases hwithin.note with ⟨hline, hopt⟩ | htotal
      · exact length_of_validNote hnote hline hopt
      · rw [total_eq] at htotal
        omega
    refine ⟨⟨length_of_validUsername husername halnum, hmost, halnum⟩, hshort, ?_⟩
    rcases hwithin.names with hnames | hprinted
    · have hle := length_spaced_le hnames
      omega
    · rwa [length_spaced]

/-- A request that is saved leaves a username and a note as they are asked for exactly when the
checks are enough for the variables that `cgi_getvars` sets, which are the fields of the form where
no value ends its quotes. -/
theorem saved_valid_iff (glob : Text → List Text) (inherited : Variables)
    (shell : Trouble → Request → Variables) (v : Visit)
    (h : accepted (submission glob inherited shell v) = true) :
    (Valid glob (submission glob inherited shell v) ↔
        Within glob (submission glob inherited shell v)) ∧
      ∀ fields, Fills v.request fields →
        getvars glob inherited shell v.request = fields.foldl fill inherited :=
  ⟨valid_iff_within h, fun _ hfills => getvars_fills glob inherited shell hfills⟩

/-- A form with some username and a short note, as a browser posts it. -/
def filledIn (username : String) : Visit where
  request :=
    { queryString := []
      requestMethod := text "POST"
      contentLength := text "80"
      input := text "name=Ann+Lee&email=ann%40example.org&username=" ++ text username ++
        text "&note=hello&submit=Save" }
  ip := text "192.0.2.1"
  date := text "Thu Jan  1 00:00:00 UTC 1970"
  ip_bare := by decide
  date_bare := by decide

/-- One letter in each line would do, and what stands around the match is not looked at. -/
theorem saved_not_valid :
    ¬∀ (glob : Text → List Text) (inherited : Variables) (shell : Trouble → Request → Variables)
      (v : Visit), accepted (submission glob inherited shell v) = true →
        Valid glob (submission glob inherited shell v) := by
  intro h
  have hvalid := h (fun _ => []) (fun _ => []) (fun _ _ _ => []) (filledIn "..%2Froot")
    (by decide +kernel)
  have hslash := hvalid.username.2.2 '/' (by decide +kernel)
  exact absurd hslash (by decide)

/-- A line break that is posted is dropped. -/
theorem saved_valid_ann :
    (Valid (fun _ => []) (submission (fun _ => []) (fun _ => []) (fun _ _ _ => [])
          (filledIn "ann%0A42")) ↔
        Within (fun _ => []) (submission (fun _ => []) (fun _ => []) (fun _ _ _ => [])
          (filledIn "ann%0A42"))) ∧
      ∀ fields, Fills (filledIn "ann%0A42").request fields →
        getvars (fun _ => []) (fun _ => []) (fun _ _ _ => []) (filledIn "ann%0A42").request =
          fields.foldl fill (fun _ => []) :=
  saved_valid_iff _ _ _ _ (by decide +kernel)

end HackerUnion.Membership
