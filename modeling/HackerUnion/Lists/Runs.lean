import Mathlib.Data.List.SplitBy

namespace HackerUnion.Lists

/-! The maximal runs of the elements of one kind, and what is put in their place. -/

variable {α : Type} (p : α → Bool)

/-- The maximal runs, and what is between them. -/
def pieces (l : List α) : List (List α) := l.splitBy fun a b => p a && p b

def runs (l : List α) : List (List α) := (pieces p l).filter (·.all p)

def mapRun (f : List α → List α) (piece : List α) : List α :=
  if piece.all p then f piece else piece

def mapRuns (f : List α → List α) (l : List α) : List α := (pieces p l).flatMap (mapRun p f)

/-- A list that can be a run. -/
def IsRun (w : List α) : Prop := w ≠ [] ∧ w.all p = true

variable {p} {f g : List α → List α} {l w : List α}

@[simp] theorem flatten_pieces (l : List α) : (pieces p l).flatten = l := List.flatten_splitBy _ l

theorem mem_runs : w ∈ runs p l ↔ w ∈ pieces p l ∧ w.all p = true := List.mem_filter

theorem isRun_of_mem (h : w ∈ runs p l) : IsRun p w :=
  ⟨List.ne_nil_of_mem_splitBy (mem_runs.mp h).1, (mem_runs.mp h).2⟩

theorem mapRun_run (hw : w.all p = true) : mapRun p f w = f w := if_pos hw

theorem mapRun_other (hw : ¬w.all p = true) : mapRun p f w = w := if_neg hw

theorem mapRuns_congr (h : ∀ w ∈ runs p l, f w = g w) : mapRuns p f l = mapRuns p g l := by
  refine List.flatMap_congr fun w hw => ?_
  by_cases hall : w.all p = true
  · rw [mapRun_run hall, mapRun_run hall, h w (mem_runs.mpr ⟨hw, hall⟩)]
  · rw [mapRun_other hall, mapRun_other hall]

theorem mapRuns_id (l : List α) : mapRuns p (fun w => w) l = l := by
  have hid : mapRun p (fun w => w) = id := funext fun w => ite_self w
  rw [mapRuns, hid, List.flatMap_id, flatten_pieces]

theorem mem_mapRuns {c : α} (h : c ∈ mapRuns p f l) : c ∈ l ∨ ∃ w ∈ runs p l, c ∈ f w := by
  obtain ⟨w, hw, hc⟩ := List.mem_flatMap.mp h
  by_cases hall : w.all p = true
  · rw [mapRun_run hall] at hc
    exact Or.inr ⟨w, mem_runs.mpr ⟨hw, hall⟩, hc⟩
  · rw [mapRun_other hall] at hc
    rw [← flatten_pieces (p := p) l]
    exact Or.inl (List.mem_flatten.mpr ⟨w, hw, hc⟩)

theorem isChain_of_all (hw : w.all p = true) : w.IsChain fun a b => (p a && p b) = true := by
  rw [List.all_eq_true] at hw
  refine List.Pairwise.isChain (List.pairwise_of_forall_mem_list fun a ha b hb => ?_)
  simp [hw a ha, hw b hb]

/-- What is put in place of a run begins and ends like one. -/
theorem mapRun_ends (hf : w.all p = true → IsRun p (f w)) (hw : w ≠ []) :
    ∃ hne : mapRun p f w ≠ [], p ((mapRun p f w).getLast hne) = p (w.getLast hw) ∧
      p ((mapRun p f w).head hne) = p (w.head hw) := by
  by_cases hall : w.all p = true
  · have hrun := hf hall
    have hfw := List.all_eq_true.mp hrun.2
    have hin := List.all_eq_true.mp hall
    rw [mapRun_run hall]
    refine ⟨hrun.1, ?_, ?_⟩
    · rw [hfw _ (List.getLast_mem _), hin _ (List.getLast_mem _)]
    · rw [hfw _ (List.head_mem _), hin _ (List.head_mem _)]
  · rw [mapRun_other hall]
    exact ⟨hw, rfl, rfl⟩

/-- The runs that are put in place of runs are the runs of what comes out. -/
theorem pieces_mapRuns (hf : ∀ w ∈ runs p l, IsRun p (f w)) :
    pieces p (mapRuns p f l) = (pieces p l).map (mapRun p f) := by
  have hrun : ∀ w ∈ pieces p l, w.all p = true → IsRun p (f w) :=
    fun w hw hall => hf w (mem_runs.mpr ⟨hw, hall⟩)
  have hne : ∀ w ∈ pieces p l, w ≠ [] := fun w hw => List.ne_nil_of_mem_splitBy hw
  rw [mapRuns, List.flatMap_def, pieces]
  refine List.splitBy_flatten ?_ ?_ ?_
  · intro hnil
    obtain ⟨w, hw, hfw⟩ := List.mem_map.mp hnil
    exact (mapRun_ends (hrun w hw) (hne w hw)).1 hfw
  · intro v hv
    obtain ⟨w, hw, rfl⟩ := List.mem_map.mp hv
    by_cases hall : w.all p = true
    · rw [mapRun_run hall]
      exact isChain_of_all (hrun w hw hall).2
    · rw [mapRun_other hall]
      exact List.isChain_of_mem_splitBy hw
  · rw [List.isChain_map]
    refine List.IsChain.imp_of_mem_imp ?_ (List.isChain_getLast_head_splitBy _ l)
    intro v w hv hw hvw
    obtain ⟨hvne, hwne, happart⟩ := hvw
    obtain ⟨hvf, hlast, _⟩ := mapRun_ends (hrun v hv) hvne
    obtain ⟨hwf, _, hhead⟩ := mapRun_ends (hrun w hw) hwne
    exact ⟨hvf, hwf, by rw [hlast, hhead, happart]⟩

theorem mapRuns_mapRuns (hf : ∀ w ∈ runs p l, IsRun p (f w)) :
    mapRuns p g (mapRuns p f l) = mapRuns p (fun w => g (f w)) l := by
  rw [mapRuns, pieces_mapRuns hf, List.flatMap_map]
  refine List.flatMap_congr fun w hw => ?_
  by_cases hall : w.all p = true
  · rw [mapRun_run hall, mapRun_run hall]
    exact mapRun_run (hf w (mem_runs.mpr ⟨hw, hall⟩)).2
  · rw [mapRun_other hall, mapRun_other hall, mapRun_other hall]

/-- Between the runs nothing changes. -/
theorem length_mapRuns (l : List α) : (mapRuns p f l).length =
    ((runs p l).flatMap f).length + ((pieces p l).filter (!·.all p)).flatten.length := by
  rw [mapRuns, runs]
  induction pieces p l with
  | nil => rfl
  | cons w ws ih =>
    by_cases hall : w.all p = true
    · have hnot : ¬(!w.all p) = true := by simp [hall]
      rw [List.flatMap_cons, mapRun_run hall, List.length_append, ih, List.filter_cons,
        List.filter_cons, if_pos hall, if_neg hnot, List.flatMap_cons, List.length_append]
      omega
    · have hnot : (!w.all p) = true := by simpa using hall
      rw [List.flatMap_cons, mapRun_other hall, List.length_append, ih, List.filter_cons,
        List.filter_cons, if_neg hall, if_pos hnot, List.flatten_cons, List.length_append]
      omega

/-- One replacement after the other does to each run what they all do to it. -/
theorem foldl_mapRuns {β : Type} {step : β → List α → List α} (bs : List β)
    (hstep : ∀ b ∈ bs, ∀ w, IsRun p w → IsRun p (step b w)) (l : List α) :
    bs.foldl (fun l b => mapRuns p (step b) l) l =
      mapRuns p (fun w => bs.foldl (fun w b => step b w) w) l := by
  induction bs generalizing l with
  | nil => exact (mapRuns_id l).symm
  | cons b bs ih =>
    rw [List.foldl_cons, ih (fun b hb => hstep b (List.mem_cons_of_mem _ hb)),
      mapRuns_mapRuns fun w hw => hstep b List.mem_cons_self w (isRun_of_mem hw)]
    rfl

end HackerUnion.Lists
