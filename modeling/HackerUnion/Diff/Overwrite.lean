import HackerUnion.Diff.Interleaving

namespace HackerUnion.Diff

open Js

variable {E P κ β : Type} [DecidableEq P] [DecidableEq κ]

section Runs

variable (host : Host κ β) (access : E → Access κ)

/-- An editor has been shown the text as that of the file. -/
def Shows (w : World E P κ β) (e : E) (k : κ) (text : String) : Prop :=
  ∃ s ∈ w.pages, s.editor = e ∧ place host s.page.pathname = some k ∧ s.page.original = text

/-- What a step takes from a file has been shown to the editor whose save it is. -/
def NoBlindWrite (w : World E P κ β) (act : Act E P) : Prop :=
  ∀ k, ∀ f ∈ w.files.store k, ∀ w' ∈ step host access w act, w'.files.store k ≠ some f →
    ∃ p, ∃ job ∈ w.jobs p, act = .write p ∧ Shows host w job.editor k (host.decode f.contents)

/-- All that has been written to the file since what a page shows of it was in it is later than the
time. -/
def Covers (w : World E P κ β) (ts : Int) (k : κ) (s : Shown E) : Prop :=
  place host s.page.pathname = some k ∧
    ∃ n ∈ s.seen, ∀ write ∈ w.files.writes.drop n, write.1 = k → ts < write.2.mtime

/-- The time that a save is sent with is not zero, and the modification time that it has found is
later, or it covers a page that the editor has been shown and nothing has been written since that
modification time was found. -/
def Timely (w : World E P κ β) : Act E P → Prop
  | .write p =>
    ∀ job ∈ w.jobs p, ∀ k ∈ place host job.form.pathname, ∀ _ ∈ w.files.store k,
      (access job.editor).write k = true →
        ∃ ts ∈ parseInt job.form.timestamp.joined, ts ≠ 0 ∧
          ((∃ file ∈ job.file, ∃ t ∈ file.timestamp, ts < t) ∨
            w.files.Untouched job.looked k ∧ ∃ s ∈ w.pages, s.editor = job.editor ∧
              Covers host w ts k s)
  | _ => True

instance decidableCovers (w : World E P κ β) (ts : Int) (k : κ) (s : Shown E) :
    Decidable (Covers host w ts k s) :=
  inferInstanceAs (Decidable (_ ∧ ∃ n ∈ s.seen, ∀ write ∈ w.files.writes.drop n, _ → _))

instance decidableTimely [DecidableEq E] (w : World E P κ β) :
    ∀ act, Decidable (Timely host access w act)
  | .write p => inferInstanceAs (Decidable (∀ job ∈ w.jobs p,
      ∀ k ∈ place host job.form.pathname, ∀ _ ∈ w.files.store k, _ → ∃ ts ∈ _, _))
  | .tick _ => isTrue trivial
  | .request .. => isTrue trivial
  | .read _ => isTrue trivial
  | .respond _ => isTrue trivial

variable {host access} {w : World E P κ β}

/-- A write that its conditions hold for takes only what has been shown. -/
theorem noBlindWrite_of_timely (hw : Fits host w) {act : Act E P}
    (ht : Timely host access w act) : NoBlindWrite host access w act := by
  intro k f hf w' hstep hchanged
  by_cases hact : ∀ p, act ≠ .write p
  · rw [step_files hstep hact] at hchanged
    exact absurd hf hchanged
  · push Not at hact
    obtain ⟨p, rfl⟩ := hact
    obtain ⟨job, file, hjob, hsave, -, hfile, ⟨msg, -, rfl⟩ | ⟨k', hok, rfl⟩⟩ := write_cases hstep
    · exact absurd hf hchanged
    · obtain ⟨hconflict, hplace, hwrite, -⟩ := saveFile_ok hok
      have hfits := hw.jobs p job hjob
      have hkey : k = k' := by
        by_contra hne
        refine hchanged ?_
        simp only [Durable.History.store_put, Function.update_of_ne hne]
        exact hf
      subst hkey
      rw [hfits.pathname hsave file hfile] at hplace
      obtain ⟨ts, hts, hne, htimes⟩ := ht job hjob k hplace f hf hwrite
      -- No modification was found that is later than the time of the form.
      have hnot : ∀ t ∈ file.timestamp, t ≤ ts := by
        intro t hmem
        have hlater := hfits.conflict hsave file hfile t hmem
        rw [hconflict, hts] at hlater
        simpa [later, truthy, hne] using hlater
      rcases htimes with ⟨file', hfile', t, hmem, hlt⟩ | ⟨huntouched, s, hs, heditor, hpage, n, hn, hwrites⟩
      · obtain rfl := Option.some.inj (hfile.symm.trans hfile')
        have hle := hnot t hmem
        omega
      · have hpast := hf
        rw [Option.mem_def, Durable.History.store_of_untouched huntouched] at hpast
        have hle := hnot f.mtime (hfits.timestamp hsave file hfile k hplace f hpast)
        have hshown : w.files.Untouched n k := by
          by_contra htouched
          obtain ⟨write, hmem, hkey, hstore⟩ := Durable.History.exists_of_not_untouched htouched
          obtain rfl := Option.some.inj (hf.symm.trans hstore)
          have hlt := hwrites write hmem hkey
          omega
        have hseen := hf
        rw [Option.mem_def, Durable.History.store_of_untouched hshown] at hseen
        exact ⟨p, job, hjob, rfl, s, hs, heditor, hpage,
          ((hw.pages s hs).shows n hn k hpage f hseen).symm⟩

end Runs

/-- A save that could be done replaces its file only when nothing has changed exactly if the file was
modified after a time other than zero or nothing has changed, and whatever views and saves come
between each other, saves that are timely overwrite only what their editors have been shown. -/
theorem guarded_noBlindWrite (host : Host κ β) (access : E → Access κ) :
    (∀ e disk now form k f, place host form.pathname = some k → disk k = some f →
      (Guarded host (access e) disk now form k f ↔ GuardedWhen host (access e) form k f)) ∧
    ∀ disk now (acts : List (Act E P)),
      Run.Throughout (step host access) (Timely host access) (start disk now) acts →
        Run.Throughout (step host access) (NoBlindWrite host access) (start disk now) acts :=
  ⟨fun _ _ _ _ _ _ hk hf => guarded_iff hk hf, fun disk now _ h =>
    Run.throughout_of_invariant (fun _ _ _ hw _ hstep => step_fits hw hstep)
      (fun _ _ hw ht => noBlindWrite_of_timely hw ht) (start_fits disk now) h⟩

section Sample

/-- One file, of text. -/
def sampleHost : Host Unit String where
  locate s := if s = "/srv/notes" then some () else none
  urlToPathname s := "/srv" ++ s
  decode s := s
  encode s := s
  decode_encode _ := rfl
  writeError := "EACCES, permission denied"

def sampleAccess : Access Unit := ⟨fun _ => true, fun _ => true⟩

def sampleDisk : Disk Unit String := fun _ => some ⟨"one", 5⟩

def samplePage (original : String) (timestamp : Int) : Page :=
  ⟨original, .text "/srv/notes", timestamp, .absent, none, false⟩

def sampleView : Form :=
  ⟨.absent, .absent, .text "/srv/notes", .absent, .absent, .absent, .absent⟩

def sampleStep : World Bool Bool Unit String → Act Bool Bool → Option (World Bool Bool Unit String) :=
  step sampleHost fun _ => sampleAccess

/-- One editor's save comes between what the other's page shows and the time that is put on it. The
other then saves from that page. -/
def staleView : List (Act Bool Bool) :=
  [.request false false false sampleView, .read false,
    .request true true true ((samplePage "one" 10).form "two"), .read true, .write true, .tick 1,
    .respond true, .respond false,
    .request false false true ((samplePage "one" 11).form "three"), .read false]

/-- Another text than the one submitted as the original is replaced, and one that was not shown. -/
theorem not_guarded_noBlindWrite :
    ¬Guarded sampleHost sampleAccess sampleDisk 20 ((samplePage "two" 10).form "three") ()
        ⟨"one", 5⟩ ∧
      ¬Run.Throughout sampleStep (NoBlindWrite sampleHost fun _ => sampleAccess)
        (start sampleDisk 10) (staleView ++ [.write false]) := by
  constructor
  · rw [guarded_iff (by decide) (by decide)]
    decide +kernel
  · intro h
    have hrun : ((staleView.foldlM sampleStep (start sampleDisk 10)).bind fun w =>
        (sampleStep w (.write false)).map fun w' =>
          (w.files.store (), w'.files.store (), (w.jobs false).map Job.editor,
            w.pages.map fun s => (s.editor, s.page.original))) =
          some (some ⟨"two", 10⟩, some ⟨"three", 11⟩, some false,
            [(true, "two"), (false, "one")]) := by
      decide +kernel
    obtain ⟨w, hw, hafter⟩ := Option.bind_eq_some_iff.mp hrun
    obtain ⟨w', hw', heq⟩ := Option.map_eq_some_iff.mp hafter
    simp only [Prod.mk.injEq] at heq
    obtain ⟨hbefore, hstore, heditor, hpages⟩ := heq
    have hchanged : w'.files.store () ≠ some ⟨"two", 10⟩ := by
      rw [hstore]
      decide
    obtain ⟨p, job, hjob, hact, s, hs, hself, -, htext⟩ :=
      Run.throughout_last h hw () ⟨"two", 10⟩ hbefore w' hw' hchanged
    obtain rfl := Act.write.inj hact
    have hmem : (s.editor, s.page.original) ∈ [(true, "two"), (false, "one")] :=
      hpages ▸ List.mem_map.mpr ⟨s, hs, rfl⟩
    rw [Option.mem_def.mp hjob] at heditor
    rw [hself, htext, show job.editor = false from Option.some.inj heditor] at hmem
    revert hmem
    decide

/-- Two editors view the file and save, the second too late. -/
def inTurn : List (Act Bool Bool) :=
  [.request false false false sampleView, .read false, .respond false,
    .request true true false sampleView, .read true, .respond true, .tick 1,
    .request false false true ((samplePage "one" 10).form "two"), .read false, .write false,
    .respond false,
    .request true true true ((samplePage "one" 10).form "three"), .read true, .write true]

theorem guarded_noBlindWrite_inTurn :
    Guarded sampleHost sampleAccess sampleDisk 20 ((samplePage "one" 10).form "three") ()
        ⟨"one", 5⟩ ∧
      (inTurn.foldlM sampleStep (start sampleDisk 10)).isSome = true ∧
      Run.Throughout sampleStep (NoBlindWrite sampleHost fun _ => sampleAccess)
        (start sampleDisk 10) inTurn :=
  have h := guarded_noBlindWrite (P := Bool) sampleHost fun _ : Bool => sampleAccess
  ⟨(h.1 true sampleDisk 20 _ () ⟨"one", 5⟩ (by decide) rfl).mpr (by decide +kernel),
    by decide +kernel, h.2 sampleDisk 10 inTurn (by decide +kernel)⟩

end Sample

end HackerUnion.Diff
