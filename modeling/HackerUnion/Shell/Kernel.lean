import Mathlib.Data.List.DropRight
import Mathlib.Data.List.Infix

namespace HackerUnion.Shell

abbrev Path := List String

def split (uri : String) : List String := (uri.toList.splitOn '/').map String.ofList

/-- Empty segments at the end are dropped while more than one is left. -/
def dropEmpty : List String → List String
  | [] => []
  | dir :: dirs => dir :: dirs.rdropWhile (· == "")

def collapse (all : Path) (c : String) : Path :=
  if c = "." then all else if c = ".." then all.dropLast else all ++ [c]

def path (cwd : Path) (uri : String) : Path :=
  let dirs := split uri
  let dirs := if dirs.head? = some "" then dirs.tail else cwd ++ dirs
  (dropEmpty dirs).foldl collapse []

def uriOf (path : Path) : String := "/" ++ "/".intercalate path

/-- An entry of a directory listing. -/
structure File where
  path : String
  type : String
  deriving DecidableEq

def visible (file : File) : Bool :=
  file.path ≠ "" && (file.path.toList.head? ≠ some '.' || file.path = "..")

def isIndex (strict : Bool) (file : File) : Bool :=
  !strict && ("index.".toList.isPrefixOf file.path.toList ||
    "README".toList.isPrefixOf file.path.toList) && file.type = "-"

inductive Endpoint where
  | ls | cat
  deriving DecidableEq

structure Request where
  endpoint : Endpoint
  data : String
  deriving DecidableEq

/-- What an answer brings: a message of failure, or an object that may be missing. -/
abbrev Response (α : Type) := Except String (Option α)

variable {J : Type}

/-- `J` is what the JSON of a `.index` file is parsed to. -/
structure Opts (J : Type) where
  dir : List File
  index : Option J
  deriving DecidableEq

/-- A call of the continuation `next`. -/
inductive Reply (J : Type) where
  | denied
  | cd (err : Option String) (arrived : Option (String × Opts J))
  /-- An index file was executed. -/
  | exec (err : Option String)
  deriving DecidableEq

/-- What a navigation waits for: the listing, the contents of `.index`, or `left` index files
that are being executed. -/
inductive Pending (J : Type) where
  | ls (path : Path) (strict : Bool)
  | cat (path : Path) (strict : Bool) (dir : List File)
  | execs (path : Path) (opts : Opts J) (left : Nat) (failed : Bool)
  deriving DecidableEq

def Pending.path : Pending J → Path
  | .ls path _ | .cat path _ _ | .execs path _ _ _ => path

structure Kernel (J : Type) where
  cwd : Path
  root : Path
  lsCache : String → Option (List File)
  catCache : String → Option String
  pending : List (Pending J)
  requests : List Request
  replies : List (Reply J)

def boot (cwd : Path) : Kernel J := ⟨cwd, [], fun _ => none, fun _ => none, [], [], []⟩

def chroot (k : Kernel J) (uri : String) : Kernel J := { k with root := path k.cwd uri }

def reply (k : Kernel J) (r : Reply J) : Kernel J := { k with replies := k.replies ++ [r] }

def await (k : Kernel J) (p : Pending J) : Kernel J := { k with pending := k.pending ++ [p] }

def request (k : Kernel J) (endpoint : Endpoint) (path : Path) : Kernel J :=
  { k with requests := k.requests ++ [⟨endpoint, uriOf path⟩] }

/-- The final callback of `async.parallel`. -/
def arrive (k : Kernel J) (path : Path) (opts : Opts J) (err : Option String) : Kernel J :=
  let k := if err = none then { k with cwd := path } else k
  reply k (.cd err (some (uriOf k.cwd, opts)))

/-- Every index file is executed at once; without one the callback is called straight away. -/
def process (k : Kernel J) (path : Path) (strict : Bool) (opts : Opts J) : Kernel J :=
  let opts := { opts with dir := opts.dir.filter visible }
  let index := opts.dir.filter (isIndex strict)
  if index = [] then arrive k path opts none
  else await k (.execs path opts index.length false)

variable (parse : String → Option J)

/-- The contents of `.index`, or the failure to read it. -/
def indexed (k : Kernel J) (path : Path) (strict : Bool) (dir : List File) :
    Response String → Kernel J
  | .ok (some value) => process k path strict ⟨dir, parse value⟩
  | _ => process k path strict ⟨dir, none⟩

def listed (k : Kernel J) (path : Path) (strict : Bool) : Response (List File) → Kernel J
  | .error err => reply k (.cd (some err) none)
  | .ok none => reply k (.cd none none)
  | .ok (some dir) =>
    if dir.any (fun file => file.path = ".index") then
      match k.catCache (uriOf (path ++ [".index"])) with
      | some hit => indexed parse k path strict dir (.ok (some hit))
      | none => await (request k .cat (path ++ [".index"])) (.cat path strict dir)
    else process k path strict ⟨dir, none⟩

/-- Some segment of the root is missing from `path` or differs. -/
def denied (root path : Path) : Bool :=
  root.zipIdx.any (fun (v, i) => i ≥ path.length || path[i]? ≠ some v)

def cd (k : Kernel J) (uri : String) (strict : Bool) : Kernel J :=
  let path := path k.cwd uri
  if denied k.root path then reply k .denied
  else
    match k.lsCache (uriOf path) with
    | some hit => listed parse k path strict (.ok (some hit))
    | none => await (request k .ls path) (.ls path strict)

/-- An index file has been executed. The callback is called at the first failure, or when the
last file is done and none has failed. -/
def ran (k : Kernel J) (path : Path) (opts : Opts J) (left : Nat) (failed : Bool)
    (err : Option String) : Kernel J :=
  let k := reply k (.exec err)
  let k := if left ≤ 1 then k else await k (.execs path opts (left - 1) (failed || err ≠ none))
  if !failed && (err ≠ none || left ≤ 1) then arrive k path opts err else k

/-- Answers name what they answer by its position among what is pending, so that they come in
any order. -/
inductive Event where
  | cd (uri : String) (strict : Bool)
  | lsCache (cache : String → Option (List File))
  | catCache (cache : String → Option String)
  | listing (i : Nat) (response : Response (List File))
  | contents (i : Nat) (response : Response String)
  | ran (i : Nat) (err : Option String)

def settled (k : Kernel J) (i : Nat) : Kernel J := { k with pending := k.pending.eraseIdx i }

def step (k : Kernel J) : Event → Kernel J
  | .cd uri strict => cd parse k uri strict
  | .lsCache cache => { k with lsCache := cache }
  | .catCache cache => { k with catCache := cache }
  | .listing i response =>
    match k.pending[i]? with
    | some (.ls path strict) => listed parse (settled k i) path strict response
    | _ => k
  | .contents i response =>
    match k.pending[i]? with
    | some (.cat path strict dir) => indexed parse (settled k i) path strict dir response
    | _ => k
  | .ran i err =>
    match k.pending[i]? with
    | some (.execs path opts left failed) => ran (settled k i) path opts left failed err
    | _ => k

def run (k : Kernel J) (events : List Event) : Kernel J := events.foldl (step parse) k

variable {parse} {cwd₀ root p : Path} {k : Kernel J}

/-- A path under the root. A slash inside a segment can only come from the directory the kernel
was given to start in. -/
structure Inside (cwd₀ root p : Path) : Prop where
  isPrefix : root <+: p
  dot : "." ∉ p
  dotdot : ".." ∉ p
  slash : ∀ c ∈ p, '/' ∈ c.toList → c ∈ cwd₀

/-- What no navigation breaks. -/
structure Confined (cwd₀ root : Path) (k : Kernel J) : Prop where
  rooted : k.root = root
  cwd : k.cwd = cwd₀ ∨ Inside cwd₀ root k.cwd
  pending : ∀ w ∈ k.pending, Inside cwd₀ root w.path
  requests : ∀ r ∈ k.requests, r.endpoint = .ls → ∃ p, r.data = uriOf p ∧ Inside cwd₀ root p

section Path

theorem splitOn_not_mem {α : Type} [DecidableEq α] (sep : α) (xs : List α) :
    ∀ c ∈ xs.splitOn sep, sep ∉ c := by
  induction xs with
  | nil => simp
  | cons x xs ih =>
    rw [List.splitOn_cons_eq_if_modifyHead]
    split
    · simpa using ih
    · rename_i hne
      have hne : x ≠ sep := by simpa using hne
      obtain ⟨c, cs, hcs⟩ := List.exists_cons_of_ne_nil (List.splitOn_ne_nil sep xs)
      rw [hcs] at ih ⊢
      intro d hd
      rcases List.mem_cons.mp hd with rfl | hd
      · simpa [hne.symm] using ih c List.mem_cons_self
      · exact ih d (List.mem_cons_of_mem _ hd)

theorem split_slash (uri : String) : ∀ c ∈ split uri, '/' ∉ c.toList := by
  intro c hc
  obtain ⟨cs, hcs, rfl⟩ := List.mem_map.mp hc
  rw [String.toList_ofList]
  exact splitOn_not_mem '/' _ cs hcs

theorem dropEmpty_subset (dirs : List String) : dropEmpty dirs ⊆ dirs := by
  cases dirs with
  | nil => exact List.Subset.refl _
  | cons dir dirs =>
    apply List.cons_subset_cons
    exact (List.rdropWhile_prefix _ _).subset

/-- Going up and down never brings a dot segment or one that was not there. -/
theorem foldl_collapse (dirs all : Path) (h : "." ∉ all ∧ ".." ∉ all) :
    ("." ∉ dirs.foldl collapse all ∧ ".." ∉ dirs.foldl collapse all) ∧
      dirs.foldl collapse all ⊆ all ++ dirs := by
  induction dirs generalizing all with
  | nil => simpa using h
  | cons c dirs ih =>
    have hc : ("." ∉ collapse all c ∧ ".." ∉ collapse all c) ∧ collapse all c ⊆ all ++ [c] := by
      unfold collapse
      split
      · exact ⟨h, List.subset_append_left ..⟩
      · split
        · have hsub : all.dropLast ⊆ all := (List.dropLast_prefix all).subset
          refine ⟨⟨fun hd => h.1 (hsub hd), fun hd => h.2 (hsub hd)⟩, ?_⟩
          exact List.subset_append_of_subset_left _ hsub
        · rename_i hdot hdd
          refine ⟨?_, List.Subset.refl _⟩
          simp [h.1, h.2, Ne.symm hdot, Ne.symm hdd]
    obtain ⟨hclean, hsub⟩ := ih (collapse all c) hc.1
    refine ⟨hclean, fun d hd => ?_⟩
    have hd := hsub hd
    rw [List.mem_append] at hd
    rcases hd with hd | hd
    · have hd := hc.2 hd
      simp only [List.mem_append, List.mem_cons] at hd ⊢
      tauto
    · simp [hd]

theorem path_clean (cwd : Path) (uri : String) :
    "." ∉ path cwd uri ∧ ".." ∉ path cwd uri := (foldl_collapse _ [] (by simp)).1

theorem path_slash (cwd : Path) (uri : String) :
    ∀ c ∈ path cwd uri, '/' ∈ c.toList → c ∈ cwd := by
  intro c hc hslash
  have hc := (foldl_collapse _ [] (by simp)).2 hc
  rw [List.nil_append] at hc
  have hc := dropEmpty_subset _ hc
  have hno := split_slash uri c
  split at hc
  · exact absurd hslash (hno (List.mem_of_mem_tail hc))
  · rcases List.mem_append.mp hc with hc | hc
    · exact hc
    · exact absurd hslash (hno hc)

theorem denied_eq_false (root path : Path) : denied root path = false ↔ root <+: path := by
  simp only [denied, List.any_eq_false, Bool.or_eq_true, decide_eq_true_eq, ne_eq, not_or,
    not_not, Prod.forall, List.mk_mem_zipIdx_iff_getElem?]
  rw [List.prefix_iff_getElem?]
  constructor
  · intro h i hi
    exact (h root[i] i (by simp [hi])).2
  · intro h v i hv
    obtain ⟨hi, rfl⟩ := List.getElem?_eq_some_iff.mp hv
    have hget := h i hi
    obtain ⟨hlen, -⟩ := List.getElem?_eq_some_iff.mp hget
    exact ⟨by omega, hget⟩

end Path

namespace Confined

theorem reply (h : Confined cwd₀ root k) (r : Reply J) : Confined cwd₀ root (reply k r) :=
  ⟨h.rooted, h.cwd, h.pending, h.requests⟩

theorem await (h : Confined cwd₀ root k) {w : Pending J} (hw : Inside cwd₀ root w.path) :
    Confined cwd₀ root (await k w) := by
  refine ⟨h.rooted, h.cwd, ?_, h.requests⟩
  intro w' hw'
  rcases List.mem_append.mp hw' with hw' | hw'
  · exact h.pending w' hw'
  · cases List.mem_singleton.mp hw'
    exact hw

/-- Only a request for a listing has to be for a path inside. -/
theorem request (h : Confined cwd₀ root k) {endpoint : Endpoint}
    (hp : endpoint = .ls → Inside cwd₀ root p) : Confined cwd₀ root (request k endpoint p) := by
  refine ⟨h.rooted, h.cwd, h.pending, ?_⟩
  intro r hr hls
  rcases List.mem_append.mp hr with hr | hr
  · exact h.requests r hr hls
  · cases List.mem_singleton.mp hr
    exact ⟨p, rfl, hp hls⟩

theorem settled (h : Confined cwd₀ root k) (i : Nat) : Confined cwd₀ root (settled k i) :=
  ⟨h.rooted, h.cwd, fun w hw => h.pending w (List.mem_of_mem_eraseIdx hw), h.requests⟩

theorem arrive (h : Confined cwd₀ root k) (hp : Inside cwd₀ root p) (opts : Opts J)
    (err : Option String) : Confined cwd₀ root (arrive k p opts err) := by
  unfold Shell.arrive
  by_cases herr : err = none
  · simp only [herr, if_true]
    have hcwd : Confined cwd₀ root { k with cwd := p } :=
      ⟨h.rooted, Or.inr hp, h.pending, h.requests⟩
    exact hcwd.reply _
  · simp only [herr, if_false]
    exact h.reply _

theorem process (h : Confined cwd₀ root k) (hp : Inside cwd₀ root p) (strict : Bool)
    (opts : Opts J) : Confined cwd₀ root (process k p strict opts) := by
  simp only [Shell.process]
  split
  · exact h.arrive hp _ _
  · exact h.await hp

theorem indexed (h : Confined cwd₀ root k) (hp : Inside cwd₀ root p) (strict : Bool)
    (dir : List File) (response : Response String) :
    Confined cwd₀ root (indexed parse k p strict dir response) := by
  unfold Shell.indexed
  split
  · exact h.process hp _ _
  · exact h.process hp _ _

theorem listed (h : Confined cwd₀ root k) (hp : Inside cwd₀ root p) (strict : Bool)
    (response : Response (List File)) : Confined cwd₀ root (listed parse k p strict response) := by
  unfold Shell.listed
  split
  · exact h.reply _
  · exact h.reply _
  · split
    · split
      · exact h.indexed hp _ _ _
      · refine Confined.await (h.request ?_) hp
        intro hcat
        cases hcat
    · exact h.process hp _ _

/-- A relative path starts from where the kernel is, so its segments come from there too. -/
theorem inside (h : Confined cwd₀ root k) {uri : String}
    (hd : denied k.root (path k.cwd uri) = false) :
    Inside cwd₀ root (path k.cwd uri) := by
  obtain ⟨hdot, hdotdot⟩ := path_clean k.cwd uri
  rw [h.rooted, denied_eq_false] at hd
  refine ⟨hd, hdot, hdotdot, ?_⟩
  intro c hc hslash
  have hc := path_slash k.cwd uri c hc hslash
  rcases h.cwd with hcwd | hin
  · rwa [hcwd] at hc
  · exact hin.slash c hc hslash

theorem cd (h : Confined cwd₀ root k) (uri : String) (strict : Bool) :
    Confined cwd₀ root (cd parse k uri strict) := by
  simp only [Shell.cd]
  split
  · exact h.reply _
  · rename_i hd
    have hin := h.inside (Bool.eq_false_iff.mpr hd)
    split
    · exact h.listed hin _ _
    · exact Confined.await (h.request fun _ => hin) hin

theorem ran (h : Confined cwd₀ root k) (hp : Inside cwd₀ root p) (opts : Opts J) (left : Nat)
    (failed : Bool) (err : Option String) : Confined cwd₀ root (ran k p opts left failed err) := by
  have hr := h.reply (.exec err)
  have ha := hr.await (w := .execs p opts (left - 1) (failed || err ≠ none)) hp
  simp only [Shell.ran]
  split
  · split
    · exact hr.arrive hp _ _
    · exact ha.arrive hp _ _
  · split
    · exact hr
    · exact ha

theorem step (h : Confined cwd₀ root k) (event : Event) :
    Confined cwd₀ root (step parse k event) := by
  have inside {i : Nat} {w : Pending J} (hw : k.pending[i]? = some w) :
      Inside cwd₀ root w.path := h.pending w (List.mem_of_getElem? hw)
  cases event with
  | cd uri strict => exact h.cd uri strict
  | lsCache cache => exact ⟨h.rooted, h.cwd, h.pending, h.requests⟩
  | catCache cache => exact ⟨h.rooted, h.cwd, h.pending, h.requests⟩
  | listing i response =>
    simp only [Shell.step]
    split
    · rename_i path strict hw
      exact (h.settled i).listed (inside hw) strict response
    · exact h
  | contents i response =>
    simp only [Shell.step]
    split
    · rename_i path strict dir hw
      exact (h.settled i).indexed (inside hw) strict dir response
    · exact h
  | ran i err =>
    simp only [Shell.step]
    split
    · rename_i path opts left failed hw
      exact (h.settled i).ran (inside hw) opts left failed err
    · exact h

theorem run (h : Confined cwd₀ root k) (parse : String → Option J) (events : List Event) :
    Confined cwd₀ root (run parse k events) := by
  induction events generalizing k with
  | nil => exact h
  | cons event events ih => exact ih (h.step event)

theorem chroot (cwd₀ : Path) (uri : String) :
    Confined cwd₀ (path cwd₀ uri) (chroot (boot cwd₀) uri : Kernel J) := by
  refine ⟨rfl, Or.inl rfl, ?_, ?_⟩
  · intro w hw
    cases hw
  · intro r hr
    cases hr

end Confined

/-- In every run after `chroot`, the directory is the one the kernel was given to start in or lies
under the root, has no dot segment of its own, and no listing is requested but of a path under the
root. -/
theorem cd_confined (parse : String → Option J) (cwd₀ : Path) (uri : String)
    (events : List Event) :
    let k := run parse (chroot (boot cwd₀) uri) events
    (k.cwd = cwd₀ ∨ Inside cwd₀ (path cwd₀ uri) k.cwd) ∧
      (∀ c ∈ k.cwd, c = "." ∨ c = ".." → c ∈ cwd₀) ∧
      ∀ r ∈ k.requests, r.endpoint = .ls →
        ∃ p, r.data = uriOf p ∧ Inside cwd₀ (path cwd₀ uri) p := by
  have h := (Confined.chroot cwd₀ uri).run parse events
  refine ⟨h.cwd, ?_, h.requests⟩
  intro c hc hdot
  rcases h.cwd with hcwd | hin
  · rwa [hcwd] at hc
  · rcases hdot with rfl | rfl
    · exact absurd hc hin.dot
    · exact absurd hc hin.dotdot

/-- A directory above the root is refused, wherever it is reached from. -/
example : (run (fun _ => some ()) (chroot (boot []) "/home/guest")
      [.cd "/home/guest/a" false, .listing 0 (.ok (some [])), .cd "../../b" false,
        .cd ".././c//" false, .listing 0 (.ok (some []))]).cwd = ["home", "guest", "c"] := by
  decide

end HackerUnion.Shell
