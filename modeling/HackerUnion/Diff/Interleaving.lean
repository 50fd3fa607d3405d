import HackerUnion.Diff.Tool
import HackerUnion.Durable.History
import HackerUnion.Run.Steps

namespace HackerUnion.Diff

open Js

inductive Phase where
  | looked
  | read
  | done (saved : Bool) (msg : String)
  deriving DecidableEq

/-- A request that is under way. `looked` is how many writes there had been when its file was looked
at, `seen` how many when what it will show was in the file. -/
structure Job (E : Type) where
  editor : E
  save : Bool
  form : Form
  file : Option Metadata
  phase : Phase
  looked : Nat
  seen : Option Nat

/-- A page that an editor has been shown. -/
structure Shown (E : Type) where
  editor : E
  page : Page
  seen : Option Nat

/-- The files with what has been written, the time, the requests under way and the pages that have
been shown. -/
structure World (E P κ β : Type) where
  files : Durable.History κ (File β)
  now : Int
  jobs : P → Option (Job E)
  pages : List (Shown E)

inductive Act (E P : Type) where
  | tick (ms : Nat)
  | request (p : P) (e : E) (post : Bool) (form : Form)
  | read (p : P)
  | write (p : P)
  | respond (p : P)

variable {E P κ β : Type} [DecidableEq κ]

def start (disk : Disk κ β) (now : Int) : World E P κ β := ⟨⟨disk, []⟩, now, fun _ => none, []⟩

def World.setJob [DecidableEq P] (w : World E P κ β) (p : P) (job : Option (Job E)) : World E P κ β :=
  { w with jobs := Function.update w.jobs p job }

section Step

variable [DecidableEq P] (host : Host κ β) (access : E → Access κ)

/-- A request comes in, and its file is looked at. -/
def request (w : World E P κ β) (e : E) (post : Bool) (form : Form) : Option (Job E) :=
  let looks (save : Bool) (pathname : Field) (timestamp : Option Int) : Job E :=
    ⟨e, save, form, some (statFile host w.files.store pathname timestamp), .looked,
      w.files.writes.length, none⟩
  if post && !form.diff.truthy then
    if missing form then
      some ⟨e, true, form, none, .done false missingMessage, w.files.writes.length, none⟩
    else some (looks true form.pathname (parseInt form.timestamp.joined))
  else (viewPathname host form).map fun pathname => looks false pathname (viewTimestamp form)

def readJob (w : World E P κ β) (job : Job E) (obj : Metadata) : Job E :=
  let obj := readData host (access job.editor) w.files.store
    (if job.save then job.form.original else .absent) obj
  { job with file := some obj, phase := .read, seen := obj.data.map fun _ => w.files.writes.length }

/-- The page at the end of a request. -/
def jobPage (now : Int) (job : Job E) : Option Page :=
  match job.phase, job.file with
  | .done saved msg, some file =>
    respond (some file) job.form.modified (saveTimestamp file now) job.form.next (some msg) saved
  | .done saved msg, none =>
    respond none job.form.modified now job.form.next (some msg) saved
  | _, some file => viewPage now job.form file
  | _, none => none

def step (w : World E P κ β) : Act E P → Option (World E P κ β)
  | .tick ms => some { w with now := w.now + ms }
  | .request p e post form =>
    match w.jobs p with
    | some _ => none
    | none => some (w.setJob p (request host w e post form))
  | .read p =>
    match w.jobs p with
    | none => none
    | some job =>
      match job.phase, job.file with
      | .looked, some obj => some (w.setJob p (some (readJob host access w job obj)))
      | _, _ => none
  | .write p =>
    match w.jobs p with
    | none => none
    | some job =>
      match job.save, job.phase, job.file with
      | true, .read, some file =>
        match saveFile host (access job.editor) w.now job.form file with
        | .error msg => some (w.setJob p (some { job with phase := .done false msg }))
        | .ok (k, f) =>
          -- Of a form without a text the page shows nothing of what was written.
          let seen := if job.form.modified = .absent then none else some (w.files.writes.length + 1)
          some
            { w.setJob p (some { job with phase := .done true savedMessage, seen }) with
              files := w.files.put k f }
      | _, _, _ => none
  | .respond p =>
    match w.jobs p with
    | none => none
    | some job =>
      if job.phase = .looked ∨ job.save ∧ job.phase = .read then none
      else
        some
          { w.setJob p none with
            pages := w.pages ++
              (jobPage w.now job).toList.map fun page => ⟨job.editor, page, job.seen⟩ }

end Step

section Fits

variable (host : Host κ β)

/-- What the page will show as the text of the file. -/
def Job.original (job : Job E) : String :=
  match job.phase with
  | .done true _ => printed job.form.modified
  | _ => (job.file.bind Metadata.data).getD ""

/-- What a request knows is so of the files as they were when it found it out. -/
structure JobFits (h : Durable.History κ (File β)) (job : Job E) : Prop where
  looked : job.looked ≤ h.writes.length
  seen : ∀ n ∈ job.seen, n ≤ h.writes.length
  unread : job.phase = .looked → ∀ obj ∈ job.file, obj.data = none
  file : job.file = none → job.seen = none
  pathname : job.save = true → ∀ obj ∈ job.file, obj.pathname = job.form.pathname
  conflict : job.save = true → ∀ obj ∈ job.file, ∀ t ∈ obj.timestamp,
    obj.conflict = later (parseInt job.form.timestamp.joined) t
  timestamp : job.save = true → ∀ obj ∈ job.file, ∀ k ∈ place host job.form.pathname,
    ∀ f ∈ h.past job.looked k, obj.timestamp = some f.mtime
  shows : ∀ n ∈ job.seen, ∀ obj ∈ job.file, ∀ k ∈ place host obj.pathname, ∀ f ∈ h.past n k,
    host.decode f.contents = job.original

/-- A page shows what was in its file. -/
structure PageFits (h : Durable.History κ (File β)) (s : Shown E) : Prop where
  seen : ∀ n ∈ s.seen, n ≤ h.writes.length
  shows : ∀ n ∈ s.seen, ∀ k ∈ place host s.page.pathname, ∀ f ∈ h.past n k,
    host.decode f.contents = s.page.original

structure Fits (w : World E P κ β) : Prop where
  jobs : ∀ p, ∀ job ∈ w.jobs p, JobFits host w.files job
  pages : ∀ s ∈ w.pages, PageFits host w.files s

variable {host} {h : Durable.History κ (File β)} {job : Job E} {s : Shown E} {w : World E P κ β}
  {p : P} {e : E}

theorem JobFits.put (hj : JobFits host h job) (k : κ) (f : File β) :
    JobFits host (h.put k f) job where
  looked := by
    have := hj.looked
    simp
    omega
  seen n hn := by
    have := hj.seen n hn
    simp
    omega
  unread := hj.unread
  file := hj.file
  pathname := hj.pathname
  conflict := hj.conflict
  timestamp := by
    rw [Durable.History.past_put hj.looked]
    exact hj.timestamp
  shows n hn := by
    rw [Durable.History.past_put (hj.seen n hn)]
    exact hj.shows n hn

theorem PageFits.put (hs : PageFits host h s) (k : κ) (f : File β) :
    PageFits host (h.put k f) s where
  seen n hn := by
    have := hs.seen n hn
    simp
    omega
  shows n hn := by
    rw [Durable.History.past_put (hs.seen n hn)]
    exact hs.shows n hn

theorem Fits.put (hw : Fits host w) (k : κ) (f : File β) :
    Fits host { w with files := w.files.put k f } :=
  ⟨fun p job hjob => (hw.jobs p job hjob).put k f, fun s hs => (hw.pages s hs).put k f⟩

theorem Fits.setJob [DecidableEq P] (hw : Fits host w) {new : Option (Job E)}
    (h : ∀ job ∈ new, JobFits host w.files job) : Fits host (w.setJob p new) where
  jobs q job hjob := by
    by_cases hq : q = p
    · subst hq
      simp only [World.setJob, Function.update_self] at hjob
      exact h job hjob
    · simp only [World.setJob, Function.update_of_ne hq] at hjob
      exact hw.jobs q job hjob
  pages := hw.pages

/-- A file has just been looked at. -/
theorem statFile_fits {save : Bool} {form : Form} {pathname : Field} {timestamp : Option Int}
    (hsave : save = true → pathname = form.pathname ∧
      timestamp = parseInt form.timestamp.joined) :
    JobFits host h (⟨e, save, form, some (statFile host h.store pathname timestamp), .looked,
      h.writes.length, none⟩ : Job E) where
  looked := Nat.le_refl _
  seen := by simp
  unread := by simp
  file := by simp
  pathname hs := by simp [hsave hs]
  conflict hs := by
    obtain ⟨-, rfl⟩ := hsave hs
    simpa using statFile_conflict (parseInt form.timestamp.joined)
  timestamp hs obj hobj k hk f hf := by
    obtain ⟨rfl, rfl⟩ := hsave hs
    obtain rfl := Option.some.inj hobj
    rw [Durable.History.past_length] at hf
    exact statFile_timestamp hk hf _
  shows := by simp

theorem request_fits {post : Bool} {form : Form} :
    ∀ job ∈ request host w e post form, JobFits host w.files job := by
  intro job hjob
  simp only [request] at hjob
  split at hjob
  · split at hjob
    · obtain rfl := Option.some.inj hjob
      exact
        { looked := Nat.le_refl _
          seen := by simp
          unread := by simp
          file := by simp
          pathname := by simp
          conflict := by simp
          timestamp := by simp
          shows := by simp }
    · obtain rfl := Option.some.inj hjob
      exact statFile_fits fun _ => ⟨rfl, rfl⟩
  · obtain ⟨pathname, -, rfl⟩ := Option.map_eq_some_iff.mp hjob
    exact statFile_fits fun h => absurd h Bool.false_ne_true

theorem readJob_fits {access : E → Access κ} {obj : Metadata} (hj : JobFits host w.files job)
    (hobj : job.file = some obj) (hphase : job.phase = .looked) :
    JobFits host w.files (readJob host access w job obj) where
  looked := hj.looked
  seen n hn := by
    simp only [readJob, Option.mem_def, Option.map_eq_some_iff] at hn
    obtain ⟨-, -, rfl⟩ := hn
    exact Nat.le_refl _
  unread := by simp [readJob]
  file := by simp [readJob]
  pathname hs := by simpa [readJob] using hj.pathname hs obj hobj
  conflict hs := by simpa [readJob] using hj.conflict hs obj hobj
  timestamp hs := by simpa [readJob] using hj.timestamp hs obj hobj
  shows n hn obj' hobj' k hk f hf := by
    obtain rfl := Option.some.inj hobj'
    simp only [readJob, Option.mem_def, Option.map_eq_some_iff] at hn
    obtain ⟨text, htext, rfl⟩ := hn
    rw [Durable.History.past_length, Option.mem_def] at hf
    rw [readData_pathname, Option.mem_def] at hk
    rcases readData_cases host (access job.editor) w.files.store
      (if job.save then job.form.original else .absent) obj with hdata | ⟨k', f', hk', hf', hdata⟩
    · rw [hdata, hj.unread hphase obj hobj] at htext
      exact absurd htext (by simp)
    · obtain rfl := Option.some.inj (hk.symm.trans hk')
      obtain rfl := Option.some.inj (hf.symm.trans hf')
      simp [Job.original, readJob, hdata]

/-- A rejected save shows what the request has read. -/
theorem rejected_fits (hj : JobFits host h job) (hphase : job.phase = .read) (msg : String) :
    JobFits host h { job with phase := .done false msg } where
  looked := hj.looked
  seen := hj.seen
  unread := by simp
  file := hj.file
  pathname := hj.pathname
  conflict := hj.conflict
  timestamp := hj.timestamp
  shows := by simpa [Job.original, hphase] using hj.shows

/-- A save shows what it has written. -/
theorem saved_fits (hj : JobFits host h job) {file : Metadata} (hfile : job.file = some file)
    {k : κ} (hk : place host file.pathname = some k) (now : Int) :
    JobFits host (h.put k ⟨host.encode job.form.modified.joined, now⟩)
      { job with
        phase := .done true savedMessage
        seen := if job.form.modified = .absent then none else some (h.writes.length + 1) } where
  looked := (hj.put k _).looked
  seen n hn := by
    simp only [Option.mem_def] at hn
    split at hn
    · simp at hn
    · obtain rfl := Option.some.inj hn
      simp
  unread := by simp
  file := by simp [hfile]
  pathname := hj.pathname
  conflict := hj.conflict
  timestamp := (hj.put k _).timestamp
  shows n hn obj hobj k' hk' f hf := by
    simp only [Option.mem_def] at hn
    split at hn
    · simp at hn
    · rename_i hmodified
      obtain rfl := Option.some.inj hn
      obtain rfl := Option.some.inj (hfile.symm.trans hobj)
      obtain rfl := Option.some.inj (hk.symm.trans hk')
      have hlength : h.writes.length + 1 =
          (h.put k ⟨host.encode job.form.modified.joined, now⟩).writes.length := by simp
      rw [hlength, Durable.History.past_length, Durable.History.store_put, Function.update_self,
        Option.mem_def] at hf
      obtain rfl := Option.some.inj hf
      rw [host.decode_encode]
      cases hm : job.form.modified with
      | absent => exact absurd hm hmodified
      | text t => simp [Job.original, printed, hm]
      | many ts => simp [Job.original, printed, hm]

theorem respond_shows {file : Option Metadata} {modified next : Field} {now : Int}
    {msg : Option String} {saved : Bool} {page : Page}
    (h : respond file modified now next msg saved = some page) :
    page.original = (if saved then printed modified else (file.bind Metadata.data).getD "") ∧
      page.pathname = (file.map Metadata.pathname).getD (.text "") := by
  unfold respond at h
  split at h
  · simp at h
  · obtain rfl := Option.some.inj h
    exact ⟨rfl, rfl⟩

theorem jobPage_shows {now : Int} {page : Page} (h : jobPage now job = some page) :
    page.original = job.original ∧
      page.pathname = (job.file.map Metadata.pathname).getD (.text "") := by
  cases hfile : job.file with
  | none =>
    cases hphase : job.phase with
    | done saved msg =>
      have hshows := respond_shows (by simpa [jobPage, hphase, hfile] using h)
      cases saved <;> simpa [Job.original, hphase, hfile] using hshows
    | looked => simp [jobPage, hphase, hfile] at h
    | read => simp [jobPage, hphase, hfile] at h
  | some file =>
    cases hphase : job.phase with
    | done saved msg =>
      have hshows := respond_shows (by simpa [jobPage, hphase, hfile] using h)
      cases saved <;> simpa [Job.original, hphase, hfile] using hshows
    | looked =>
      have hshows := respond_shows (by simpa [jobPage, hphase, hfile, viewPage] using h)
      simpa [Job.original, hphase, hfile] using hshows
    | read =>
      have hshows := respond_shows (by simpa [jobPage, hphase, hfile, viewPage] using h)
      simpa [Job.original, hphase, hfile] using hshows

theorem page_fits (hj : JobFits host h job) {now : Int} {page : Page}
    (hpage : jobPage now job = some page) : PageFits host h ⟨job.editor, page, job.seen⟩ where
  seen := hj.seen
  shows n hn k hk f hf := by
    obtain ⟨horiginal, hpathname⟩ := jobPage_shows hpage
    rw [horiginal]
    cases hfile : job.file with
    | none =>
      rw [hj.file hfile] at hn
      simp at hn
    | some obj =>
      rw [hfile] at hpathname
      rw [hpathname] at hk
      exact hj.shows n hn obj hfile k hk f hf

theorem start_fits (disk : Disk κ β) (now : Int) :
    Fits host (start disk now : World E P κ β) where
  jobs p job hjob := by simp [start] at hjob
  pages s hs := by simp [start] at hs

end Fits

section Run

variable [DecidableEq P] {host : Host κ β} {access : E → Access κ} {w w' : World E P κ β} {p : P}

/-- A write ends the save with a message, or puts the text in the file. -/
theorem write_cases (h : step host access w (.write p) = some w') :
    ∃ job file, w.jobs p = some job ∧ job.save = true ∧ job.phase = .read ∧ job.file = some file ∧
      ((∃ msg, saveFile host (access job.editor) w.now job.form file = .error msg ∧
          w' = w.setJob p (some { job with phase := .done false msg })) ∨
        ∃ k, saveFile host (access job.editor) w.now job.form file =
            .ok (k, ⟨host.encode job.form.modified.joined, w.now⟩) ∧
          w' =
            { w.setJob p (some
                { job with
                  phase := .done true savedMessage
                  seen := if job.form.modified = .absent then none
                    else some (w.files.writes.length + 1) }) with
              files := w.files.put k ⟨host.encode job.form.modified.joined, w.now⟩ }) := by
  simp only [step] at h
  split at h
  · simp at h
  · rename_i job hjob
    split at h
    · rename_i file hsave hphase hfile
      refine ⟨job, file, hjob, hsave, hphase, hfile, ?_⟩
      split at h
      · rename_i msg hmsg
        exact .inl ⟨msg, hmsg, (Option.some.inj h).symm⟩
      · rename_i k f hok
        obtain ⟨-, -, -, rfl⟩ := saveFile_ok hok
        exact .inr ⟨k, hok, (Option.some.inj h).symm⟩
    · simp at h

/-- Every other step leaves the files. -/
theorem step_files {act : Act E P} (h : step host access w act = some w')
    (hact : ∀ p, act ≠ .write p) : w'.files = w.files := by
  cases act with
  | tick ms =>
    obtain rfl := Option.some.inj h
    rfl
  | request p e post form =>
    simp only [step] at h
    split at h
    · simp at h
    · obtain rfl := Option.some.inj h
      rfl
  | read p =>
    simp only [step] at h
    split at h
    · simp at h
    · split at h
      · obtain rfl := Option.some.inj h
        rfl
      · simp at h
  | write p => exact absurd rfl (hact p)
  | respond p =>
    simp only [step] at h
    split at h
    · simp at h
    · split at h
      · simp at h
      · obtain rfl := Option.some.inj h
        rfl

theorem step_fits {act : Act E P} (hw : Fits host w) (h : step host access w act = some w') :
    Fits host w' := by
  cases act with
  | tick ms =>
    obtain rfl := Option.some.inj h
    exact ⟨hw.jobs, hw.pages⟩
  | request p e post form =>
    simp only [step] at h
    split at h
    · simp at h
    · obtain rfl := Option.some.inj h
      exact hw.setJob request_fits
  | read p =>
    simp only [step] at h
    split at h
    · simp at h
    · rename_i job hjob
      split at h
      · rename_i obj hphase hobj
        obtain rfl := Option.some.inj h
        refine hw.setJob fun job' hjob' => ?_
        obtain rfl := Option.some.inj hjob'
        exact readJob_fits (hw.jobs p job hjob) hobj hphase
      · simp at h
  | write p =>
    obtain ⟨job, file, hjob, hsave, hphase, hfile, ⟨msg, -, rfl⟩ | ⟨k, hok, rfl⟩⟩ := write_cases h
    · refine hw.setJob fun job' hjob' => ?_
      obtain rfl := Option.some.inj hjob'
      exact rejected_fits (hw.jobs p job hjob) hphase msg
    · refine (hw.put k ⟨host.encode job.form.modified.joined, w.now⟩).setJob fun job' hjob' => ?_
      obtain rfl := Option.some.inj hjob'
      exact saved_fits (hw.jobs p job hjob) hfile (saveFile_ok hok).2.1 w.now
  | respond p =>
    simp only [step] at h
    split at h
    · simp at h
    · rename_i job hjob
      split at h
      · simp at h
      · obtain rfl := Option.some.inj h
        have hset : Fits host (w.setJob p none) := hw.setJob (by simp)
        refine ⟨hset.jobs, fun s hs => ?_⟩
        rcases List.mem_append.mp hs with hs | hs
        · exact hw.pages s hs
        · obtain ⟨page, hpage, rfl⟩ := List.mem_map.mp hs
          exact page_fits (hw.jobs p job hjob) (by simpa using hpage)

/-- A save that nothing comes between is `doSave`. -/
theorem save_alone {e : E} {form : Form} (hfree : w.jobs p = none)
    (hdiff : form.diff.truthy = false) (hm : missing form = false) :
    ([.request p e true form, .read p, .write p, .respond p].foldlM (step host access) w).map
        (fun w' => (w'.files.store, w'.pages.map Shown.page)) =
      some ((doSave host (access e) w.files.store w.now form).disk,
        w.pages.map Shown.page ++
          (doSave host (access e) w.files.store w.now form).page.toList) := by
  have hdata : readData host (access e) w.files.store form.original
      (statFile host w.files.store form.pathname (parseInt form.timestamp.joined)) =
        readWithMetadata host (access e) w.files.store form.pathname
          (parseInt form.timestamp.joined) form.original := rfl
  cases hs : saveFile host (access e) w.now form (readWithMetadata host (access e) w.files.store
      form.pathname (parseInt form.timestamp.joined) form.original) with
  | error msg =>
    simp [step, request, hfree, hdiff, hm, World.setJob, readJob, hdata, hs, doSave, jobPage,
      Function.comp_def]
  | ok written =>
    simp [step, request, hfree, hdiff, hm, World.setJob, readJob, hdata, hs, doSave, jobPage,
      Function.comp_def, Durable.History.store_put]

end Run

end HackerUnion.Diff
