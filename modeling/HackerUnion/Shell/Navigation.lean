import HackerUnion.Shell.Kernel
import Mathlib.Data.List.InsertIdx
import Mathlib.Data.List.Perm.Basic

namespace HackerUnion.Shell

variable {J : Type} {parse : String → Option J} {root cwd₀ : Path} {k : Kernel J}

/-- No `.index` file and no file to execute on arrival. -/
def NoIndex (dir : List File) : Prop :=
  dir.any (fun file => file.path = ".index") = false ∧
    (dir.filter visible).filter (isIndex false) = []

/-- What an absolute string names, wherever the kernel is. -/
def absPath (uri : String) : Path := path [] uri

def Absolute (uri : String) : Prop := (split uri).head? = some ""

/-- Calls with absolute paths inside the root; listings that arrive, in answers or from the cache,
and hold no index files. -/
def Calm (root : Path) : Event → Prop
  | .cd uri _ => Absolute uri ∧ root <+: absPath uri
  | .lsCache cache => ∀ uri, ∀ dir ∈ cache uri, NoIndex dir
  | .listing _ response => ∃ dir, response = .ok (some dir) ∧ NoIndex dir
  | .catCache _ | .contents _ _ | .ran _ _ => True

/-- The paths of the calls, in the order of the calls. -/
def calls : List Event → List Path
  | [] => []
  | .cd uri _ :: events => absPath uri :: calls events
  | _ :: events => calls events

/-- The paths of the calls in the order they are answered in: those the cache answers at once, the
others as their listings arrive. `waiting` are the calls still to be answered. -/
def answers (cache : String → Option (List File)) (waiting : List Path) : List Event → List Path
  | [] => []
  | .cd uri _ :: events =>
    if (cache (uriOf (absPath uri))).isSome then absPath uri :: answers cache waiting events
    else answers cache (waiting ++ [absPath uri]) events
  | .lsCache cache :: events => answers cache waiting events
  | .listing i _ :: events =>
    match waiting[i]? with
    | some path => path :: answers cache (waiting.eraseIdx i) events
    | none => answers cache waiting events
  | _ :: events => answers cache waiting events

/-- Nothing is pending but listings, and the cache holds no index files. -/
structure Quiet (root : Path) (k : Kernel J) : Prop where
  rooted : k.root = root
  pending : ∀ w ∈ k.pending, ∃ path strict, w = .ls path strict
  cache : ∀ uri, ∀ dir ∈ k.lsCache uri, NoIndex dir

theorem path_of_absolute {uri : String} (h : Absolute uri) (cwd : Path) :
    path cwd uri = absPath uri := by
  unfold Absolute at h
  simp only [absPath, path, h, if_true]

theorem filter_isIndex {dir : List File} (h : NoIndex dir) (strict : Bool) :
    (dir.filter visible).filter (isIndex strict) = [] := by
  cases strict with
  | false => exact h.2
  | true => simp [isIndex]

/-- A listing without index files makes its directory the current one. -/
theorem listed_noIndex {dir : List File} (h : NoIndex dir) (k : Kernel J) (path : Path)
    (strict : Bool) : listed parse k path strict (.ok (some dir)) =
      arrive k path ⟨dir.filter visible, none⟩ none := by
  simp only [listed, h.1, Bool.false_eq_true, if_false, process, filter_isIndex h, if_true]

theorem Quiet.arrive (h : Quiet root k) (path : Path) (opts : Opts J) :
    Quiet root (arrive k path opts none) ∧ (Shell.arrive k path opts none).cwd = path ∧
      (Shell.arrive k path opts none).pending = k.pending ∧
      (Shell.arrive k path opts none).lsCache = k.lsCache :=
  ⟨⟨h.rooted, h.pending, h.cache⟩, rfl, rfl, rfl⟩

/-- What a call does: it is answered at once or starts to wait. -/
theorem Quiet.cd (h : Quiet root k) (parse : String → Option J) {uri : String} {strict : Bool}
    (hc : Calm root (.cd uri strict)) :
    let k' := cd parse k uri strict
    Quiet root k' ∧ k'.lsCache = k.lsCache ∧
      if (k.lsCache (uriOf (absPath uri))).isSome then
        k'.cwd = absPath uri ∧ k'.pending = k.pending
      else k'.cwd = k.cwd ∧ k'.pending = k.pending ++ [.ls (absPath uri) strict] := by
  have hd : denied k.root (absPath uri) = false := by
    rw [denied_eq_false, h.rooted]
    exact hc.2
  simp only [Shell.cd, path_of_absolute hc.1, hd, Bool.false_eq_true, if_false]
  cases hhit : k.lsCache (uriOf (absPath uri)) with
  | some dir =>
    simp only [Option.isSome_some, if_true]
    rw [listed_noIndex (h.cache _ dir hhit)]
    obtain ⟨hq, hcwd, hpending, hcache⟩ := h.arrive (absPath uri) ⟨dir.filter visible, none⟩
    exact ⟨hq, hcache, hcwd, hpending⟩
  | none =>
    simp only [Option.isSome_none, Bool.false_eq_true, if_false]
    refine ⟨⟨h.rooted, ?_, h.cache⟩, rfl, rfl, rfl⟩
    intro w hw
    rcases List.mem_append.mp hw with hw | hw
    · exact h.pending w hw
    · exact ⟨_, _, List.mem_singleton.mp hw⟩

theorem Quiet.settled (h : Quiet root k) (i : Nat) : Quiet root (settled k i) :=
  ⟨h.rooted, fun w hw => h.pending w (List.mem_of_mem_eraseIdx hw), h.cache⟩

def waiting (k : Kernel J) : List Path := k.pending.map Pending.path

/-- An event answers at most one call. -/
theorem Quiet.step (h : Quiet root k) (parse : String → Option J) {event : Event}
    (hc : Calm root event) :
    let k' := step parse k event
    Quiet root k' ∧ ∃ a : Option Path, k'.cwd = a.getD k.cwd ∧
      (a.toList ++ waiting k').Perm (waiting k ++ calls [event]) ∧
      ∀ events, answers k.lsCache (waiting k) (event :: events) =
        a.toList ++ answers k'.lsCache (waiting k') events := by
  cases event with
  | cd uri strict =>
    obtain ⟨hq, hcache, hanswer⟩ := h.cd parse hc
    refine ⟨hq, ?_⟩
    split at hanswer
    · rename_i hhit
      refine ⟨some (absPath uri), hanswer.1, ?_, ?_⟩
      · simp only [waiting, Shell.step, hanswer.2, calls, Option.toList_some]
        exact List.perm_append_comm
      · intro events
        simp only [waiting, Shell.step, answers, if_pos hhit, hanswer.2, hcache]
        rfl
    · rename_i hmiss
      refine ⟨none, hanswer.1, ?_, ?_⟩
      · simp [waiting, Shell.step, hanswer.2, calls, Pending.path]
      · intro events
        simp [waiting, Shell.step, answers, hmiss, hanswer.2, hcache, Pending.path]
  | lsCache cache =>
    refine ⟨⟨h.rooted, h.pending, hc⟩, none, rfl, ?_, fun _ => rfl⟩
    simp [calls, waiting, Shell.step]
  | catCache cache =>
    refine ⟨⟨h.rooted, h.pending, h.cache⟩, none, rfl, ?_, fun _ => rfl⟩
    simp [calls, waiting, Shell.step]
  | listing i response =>
    obtain ⟨dir, rfl, hdir⟩ := hc
    simp only [Shell.step, answers, waiting, List.getElem?_map]
    cases hw : k.pending[i]? with
    | none => exact ⟨h, none, rfl, by simp [calls], fun _ => rfl⟩
    | some w =>
      obtain ⟨path, strict, rfl⟩ := h.pending w (List.mem_of_getElem? hw)
      obtain ⟨hq, hcwd, hpending, hcache⟩ :=
        (h.settled i).arrive path ⟨dir.filter visible, none⟩
      simp only [listed_noIndex hdir, hpending, hcache, Option.map_some, Pending.path]
      refine ⟨hq, some path, hcwd, ?_, ?_⟩
      · obtain ⟨hi, hget⟩ := List.getElem?_eq_some_iff.mp hw
        have hperm := (List.getElem_cons_eraseIdx_perm hi).map Pending.path
        rw [hget] at hperm
        simpa [calls, Shell.settled, Pending.path] using hperm
      · intro events
        simp [Shell.settled, List.eraseIdx_map]
  | contents i response =>
    have hstep : Shell.step parse k (.contents i response) = k := by
      simp only [Shell.step]
      split
      · obtain ⟨path, strict, hls⟩ := h.pending _ (List.mem_of_getElem? ‹_›)
        cases hls
      · rfl
    rw [hstep]
    exact ⟨h, none, rfl, by simp [calls], fun _ => rfl⟩
  | ran i err =>
    have hstep : Shell.step parse k (.ran i err) = k := by
      simp only [Shell.step]
      split
      · obtain ⟨path, strict, hls⟩ := h.pending _ (List.mem_of_getElem? ‹_›)
        cases hls
      · rfl
    rw [hstep]
    exact ⟨h, none, rfl, by simp [calls], fun _ => rfl⟩

theorem calls_cons (event : Event) (events : List Event) :
    calls (event :: events) = calls [event] ++ calls events := by
  cases event <;> rfl

/-- Every call is answered once or still waits, and the directory is that of the call answered
last. -/
theorem Quiet.run (h : Quiet root k) (parse : String → Option J) {events : List Event}
    (hc : ∀ e ∈ events, Calm root e) :
    let order := answers k.lsCache (waiting k) events
    let k' := run parse k events
    (order ++ waiting k').Perm (waiting k ++ calls events) ∧
      k'.cwd = order.getLast?.getD k.cwd := by
  induction events generalizing k with
  | nil => simp [answers, calls, Shell.run]
  | cons event events ih =>
    obtain ⟨hq, a, hcwd, hperm, hanswers⟩ := h.step parse (hc event List.mem_cons_self)
    obtain ⟨hperms, hcwds⟩ := ih hq (fun e he => hc e (List.mem_cons_of_mem _ he))
    intro order k'
    have horder : order = a.toList ++ answers (Shell.step parse k event).lsCache
      (waiting (Shell.step parse k event)) events := hanswers events
    rw [horder, calls_cons]
    constructor
    · rw [List.append_assoc, ← List.append_assoc (waiting k)]
      refine (hperms.append_left _).trans ?_
      rw [← List.append_assoc]
      exact hperm.append_right _
    · refine hcwds.trans ?_
      rw [hcwd]
      cases a with
      | none => rfl
      | some path => rw [Option.toList_some, List.singleton_append, List.getLast?_cons]; rfl

theorem Quiet.chroot (cwd₀ : Path) (uri : String) :
    Quiet (path cwd₀ uri) (chroot (boot cwd₀) uri : Kernel J) := by
  refine ⟨rfl, ?_, ?_⟩
  · intro w hw
    cases hw
  · intro _ dir hdir
    cases hdir

/-- Once every call is answered, the directory is that of the call answered last. -/
theorem navigation_order (parse : String → Option J) (cwd₀ : Path) (root : String)
    (events : List Event) (hc : ∀ e ∈ events, Calm (path cwd₀ root) e)
    (hdone : (run parse (chroot (boot cwd₀) root) events).pending = []) :
    let order := answers (fun _ => none) [] events
    order.Perm (calls events) ∧
      (run parse (chroot (boot cwd₀) root) events).cwd = order.getLast?.getD cwd₀ := by
  obtain ⟨hperm, hcwd⟩ := (Quiet.chroot cwd₀ root).run parse hc
  refine ⟨?_, hcwd⟩
  have hwaiting : waiting (run parse (chroot (boot cwd₀) root) events) = [] := by
    rw [waiting, hdone, List.map_nil]
  rw [hwaiting, List.append_nil] at hperm
  exact hperm

/-- Two calls whose listings arrive in the opposite order. -/
def overtaken : List Event :=
  [.cd "/home/a" false, .cd "/home/b" false, .listing 1 (.ok (some [])), .listing 0 (.ok (some []))]

theorem overtaken_calm : ∀ e ∈ overtaken, Calm (path [] "/home") e := by
  have hempty : NoIndex [] := by simp [NoIndex]
  have habs (uri : String) (h : (split uri).head? = some "" ∧ path [] "/home" <+: absPath uri) :
      Calm (path [] "/home") (.cd uri false) := h
  simp only [overtaken, List.forall_mem_cons, List.not_mem_nil, false_imp_iff, implies_true,
    and_true]
  exact ⟨habs _ (by decide), habs _ (by decide), ⟨[], rfl, hempty⟩, ⟨[], rfl, hempty⟩⟩

theorem navigation_order_overtaken :
    (answers (fun _ => none) [] overtaken).Perm (calls overtaken) ∧
      (run (fun _ => some ()) (chroot (boot []) "/home") overtaken).cwd = ["home", "a"] :=
  navigation_order (fun _ => some ()) [] "/home" overtaken overtaken_calm (by decide)

/-- The call made first may be answered last. -/
theorem not_navigation_order :
    ¬ ∀ (cwd₀ : Path) (root : String) (events : List Event),
      (∀ e ∈ events, Calm (path cwd₀ root) e) →
      (run (fun _ => some ()) (chroot (boot cwd₀) root) events).pending = [] →
      (run (fun _ => some ()) (chroot (boot cwd₀) root) events).cwd =
        (calls events).getLast?.getD cwd₀ := by
  intro h
  have hlast := h [] "/home" overtaken overtaken_calm (by decide)
  revert hlast
  decide

end HackerUnion.Shell
