import HackerUnion.Lists.SplitOn
import HackerUnion.Lists.Stack
import HackerUnion.Shell.Navigation

namespace HackerUnion.Shell

open HackerUnion.Lists (Move TakenBack Stays OnlyOne kept)

/-- The segments of an absolute string that are gone through, one after another. -/
def segments (uri : String) : List String := dropEmpty (split uri).tail

def segmentMove (c : String) : Move :=
  if c = "." then .stay else if c = ".." then .pop else .push

/-- The directory that a string spells, to which it makes no difference how many slashes stand in
one place. -/
def spelled (uri : String) : Path := ((split uri).filter (· ≠ "")).foldl collapse []

/-- A string whose path is found again from its own spelling, in which no segment is empty or made
of dots, and which is the same as that of the plain spelling of the directory. -/
structure Canonical (uri : String) : Prop where
  again : absPath (uriOf (absPath uri)) = absPath uri
  nonempty : uriOf (absPath uri) = "/" ∨ "" ∉ (split (uriOf (absPath uri))).tail
  dot : "." ∉ split (uriOf (absPath uri))
  dotdot : ".." ∉ split (uriOf (absPath uri))
  plain : absPath uri = absPath (uriOf (spelled uri))

/-- Some segment stays that no `..` takes back; if an empty one stays nothing else does; and a name
that is taken back where empty segments are passed over is so where they are counted. -/
structure Settled (dirs : List String) : Prop where
  some : ∃ pre c rest, Stays segmentMove dirs pre c rest
  empty : OnlyOne segmentMove dirs ""
  passed : ∀ pre c rest, dirs = pre ++ c :: rest → segmentMove c = .push → c ≠ "" →
    TakenBack segmentMove (rest.filter (· ≠ "")) → TakenBack segmentMove rest

variable {uri : String} {p : Path}

section Spelling

theorem split_uriOf (hp : p ≠ []) (hslash : ∀ c ∈ p, '/' ∉ c.toList) :
    split (uriOf p) = "" :: p := by
  have hne : p.map String.toList ≠ [] := fun h => hp (List.map_eq_nil_iff.mp h)
  have hmap : ∀ c ∈ p.map String.toList, '/' ∉ c := by
    intro c hc
    obtain ⟨c', hc', rfl⟩ := List.mem_map.mp hc
    exact hslash c' hc'
  have htext : (uriOf p).toList = [] ++ '/' :: ['/'].intercalate (p.map String.toList) := by
    rw [uriOf, String.toList_append, String.toList_intercalate]
    rfl
  rw [split, htext, List.splitOn_append_cons_self_of_not_mem List.not_mem_nil,
    List.splitOn_intercalate '/' hmap hne, List.map_cons, List.map_map]
  have hback : String.ofList ∘ String.toList = id := funext fun c => String.ofList_toList
  rw [hback, List.map_id]

theorem collapse_eq : collapse = Lists.act segmentMove := by
  funext all c
  unfold collapse Lists.act segmentMove
  split
  · rfl
  · split
    · rfl
    · rfl

theorem absPath_eq (h : Absolute uri) : absPath uri = kept segmentMove (segments uri) := by
  unfold Absolute at h
  rw [absPath, path, if_pos h, collapse_eq, Lists.foldl_act_nil]
  rfl

theorem dropEmpty_of_nonempty (h : "" ∉ p) : dropEmpty p = p := by
  cases p with
  | nil => rfl
  | cons dir dirs =>
    refine congrArg (dir :: ·) (List.rdropWhile_eq_self_iff.mpr ?_)
    intro hne hlast
    have hmem := List.mem_cons_of_mem dir (List.getLast_mem hne)
    rw [beq_iff_eq.mp hlast] at hmem
    exact h hmem

theorem kept_of_push (h : ∀ c ∈ p, segmentMove c = .push) : kept segmentMove p = p := by
  induction p with
  | nil => rfl
  | cons c p ih =>
    obtain ⟨hc, hp⟩ := List.forall_mem_cons.mp h
    have hexcess : Lists.excess segmentMove p = 0 := by
      by_contra hpos
      obtain ⟨q, hq, hlt⟩ := Lists.takenBack_iff.mpr (Nat.pos_of_ne_zero hpos)
      have hpop : (q.map segmentMove).count .pop = 0 := by
        refine List.count_eq_zero.mpr ?_
        intro hmem
        obtain ⟨d, hd, hdpop⟩ := List.mem_map.mp hmem
        rw [hp d (hq.subset hd)] at hdpop
        cases hdpop
      omega
    rw [kept, if_pos ⟨hc, hexcess⟩, ih hp]

theorem push_of_clean (hdot : "." ∉ p) (hdotdot : ".." ∉ p) :
    ∀ c ∈ p, segmentMove c = .push := by
  intro c hc
  have hc' : c ≠ "." ∧ c ≠ ".." := ⟨fun h => hdot (h ▸ hc), fun h => hdotdot (h ▸ hc)⟩
  rw [segmentMove, if_neg hc'.1, if_neg hc'.2]

/-- A path without dots and empty segments is found again. -/
theorem absPath_uriOf (hp : p ≠ []) (hslash : ∀ c ∈ p, '/' ∉ c.toList) (hempty : "" ∉ p)
    (hdot : "." ∉ p) (hdotdot : ".." ∉ p) : absPath (uriOf p) = p := by
  have hsplit := split_uriOf hp hslash
  have habsolute : Absolute (uriOf p) := by
    rw [Absolute, hsplit]
    rfl
  rw [absPath_eq habsolute, segments, hsplit, List.tail_cons, dropEmpty_of_nonempty hempty,
    kept_of_push (push_of_clean hdot hdotdot)]

theorem absPath_slash : absPath "/" = [""] := by decide +kernel

theorem rdropWhile_filter (dirs : List String) :
    (dirs.rdropWhile (· == "")).filter (· ≠ "") = dirs.filter (· ≠ "") := by
  induction dirs using List.reverseRecOn with
  | nil => rfl
  | append_singleton dirs dir ih =>
    rw [List.rdropWhile_concat]
    split
    · next h =>
      rw [ih, beq_iff_eq.mp h]
      simp
    · rfl

theorem segments_filter (h : Absolute uri) :
    (segments uri).filter (· ≠ "") = (split uri).filter (· ≠ "") := by
  have hdrop (dirs : List String) : (dropEmpty dirs).filter (· ≠ "") = dirs.filter (· ≠ "") := by
    cases dirs with
    | nil => rfl
    | cons dir dirs => rw [dropEmpty, List.filter_cons, List.filter_cons, rdropWhile_filter]
  rw [segments, hdrop]
  cases hsplit : split uri with
  | nil => rfl
  | cons dir dirs =>
    rw [Absolute, hsplit] at h
    rw [Option.some.inj h]
    simp

end Spelling

section Canonical

theorem spelled_eq (h : Absolute uri) :
    spelled uri = kept segmentMove ((segments uri).filter (· ≠ "")) := by
  rw [spelled, collapse_eq, Lists.foldl_act_nil, segments_filter h]

theorem spelled_clean : "." ∉ spelled uri ∧ ".." ∉ spelled uri :=
  (foldl_collapse _ [] (by simp)).1

theorem spelled_nonempty : "" ∉ spelled uri := by
  intro h
  have hmem := (foldl_collapse _ [] (by simp)).2 h
  simp at hmem

theorem spelled_slash : ∀ c ∈ spelled uri, '/' ∉ c.toList := by
  intro c hc
  have hmem := (foldl_collapse _ [] (by simp)).2 hc
  rw [List.nil_append] at hmem
  exact split_slash uri c (List.mem_of_mem_filter hmem)

theorem absPath_slashless : ∀ c ∈ absPath uri, '/' ∉ c.toList := by
  intro c hc hslash
  cases path_slash [] uri c hc hslash

/-- Whether a string is canonical, by its path. -/
theorem canonical_iff_path : Canonical uri ↔
    absPath uri ≠ [] ∧ ("" ∉ absPath uri ∨ absPath uri = [""]) ∧
      spelled uri = (absPath uri).filter (· ≠ "") := by
  obtain ⟨hdot, hdotdot⟩ := path_clean [] uri
  constructor
  · intro hcanonical
    obtain ⟨hagain, hnonempty, -, -, hplain⟩ := hcanonical
    have hne : absPath uri ≠ [] := by
      intro hnil
      rw [hnil] at hagain
      cases absPath_slash.symm.trans hagain
    have hempty : "" ∉ absPath uri ∨ absPath uri = [""] := by
      rcases hnonempty with hroot | hnonempty
      · refine Or.inr ?_
        rw [← hagain, hroot]
        exact absPath_slash
      · rw [split_uriOf hne absPath_slashless, List.tail_cons] at hnonempty
        exact Or.inl hnonempty
    refine ⟨hne, hempty, ?_⟩
    by_cases hroot : spelled uri = []
    · rw [hroot] at hplain
      rw [hroot, hplain]
      exact (congrArg (List.filter (· ≠ "")) absPath_slash).symm
    · have hspelled : absPath uri = spelled uri := by
        rw [hplain]
        exact absPath_uriOf hroot spelled_slash spelled_nonempty spelled_clean.1 spelled_clean.2
      rw [hspelled, List.filter_eq_self.mpr]
      intro c hc
      have hc' : c ≠ "" := fun heq => spelled_nonempty (heq ▸ hc)
      simpa using hc'
  · intro hpath
    obtain ⟨hne, hempty, hspelled⟩ := hpath
    have hsplit := split_uriOf hne absPath_slashless
    have hagain : absPath (uriOf (absPath uri)) = absPath uri := by
      rcases hempty with hempty | hroot
      · exact absPath_uriOf hne absPath_slashless hempty hdot hdotdot
      · rw [hroot]
        exact absPath_slash
    refine ⟨hagain, ?_, ?_, ?_, ?_⟩
    · rcases hempty with hempty | hroot
      · rw [hsplit, List.tail_cons]
        exact Or.inr hempty
      · rw [hroot]
        exact Or.inl rfl
    · rw [hsplit, List.mem_cons, not_or]
      exact ⟨by decide, hdot⟩
    · rw [hsplit, List.mem_cons, not_or]
      exact ⟨by decide, hdotdot⟩
    · rcases hempty with hempty | hroot
      · rw [List.filter_eq_self.mpr] at hspelled
        · rw [hspelled, hagain]
        · intro c hc
          have hc' : c ≠ "" := fun heq => hempty (heq ▸ hc)
          simpa using hc'
      · rw [hroot] at hspelled ⊢
        rw [hspelled]
        exact absPath_slash.symm

theorem settled_iff (dirs : List String) : Settled dirs ↔
    kept segmentMove dirs ≠ [] ∧ ("" ∉ kept segmentMove dirs ∨ kept segmentMove dirs = [""]) ∧
      kept segmentMove (dirs.filter (· ≠ "")) = (kept segmentMove dirs).filter (· ≠ "") := by
  have hpush : ∀ c : String, decide (c ≠ "") = false → segmentMove c = .push := by
    intro c hc
    have hc : c = "" := by simpa using hc
    subst hc
    decide
  rw [Lists.kept_filter_iff hpush, ← Lists.onlyOne_iff]
  have hsome : kept segmentMove dirs ≠ [] ↔ ∃ pre c rest, Stays segmentMove dirs pre c rest := by
    rw [ne_eq, List.eq_nil_iff_forall_not_mem]
    simp only [Lists.mem_kept_iff]
    push Not
    constructor
    · intro h
      obtain ⟨c, pre, rest, h⟩ := h
      exact ⟨pre, c, rest, h⟩
    · intro h
      obtain ⟨pre, c, rest, h⟩ := h
      exact ⟨c, pre, rest, h⟩
  rw [hsome]
  constructor
  · intro h
    refine ⟨h.some, h.empty, ?_⟩
    intro pre c rest hsplit hmove hc
    exact h.passed pre c rest hsplit hmove (by simpa using hc)
  · intro h
    obtain ⟨hsome, hempty, hpassed⟩ := h
    refine ⟨hsome, hempty, ?_⟩
    intro pre c rest hsplit hmove hc
    exact hpassed pre c rest hsplit hmove (by simpa using hc)

end Canonical

/-- A string is canonical just where it is settled, and another one that spells the same directory
gives the same path and the same key of the cache. -/
theorem path_canonical_iff (h : Absolute uri) : (Canonical uri ↔ Settled (segments uri)) ∧
    ∀ other, Absolute other → Canonical uri → Canonical other → spelled uri = spelled other →
      absPath uri = absPath other ∧ uriOf (absPath uri) = uriOf (absPath other) := by
  constructor
  · rw [canonical_iff_path, settled_iff, absPath_eq h, spelled_eq h]
  · intro other _ hcanonical hother hspelled
    have hsame : absPath uri = absPath other := by
      rw [hcanonical.plain, hother.plain, hspelled]
    exact ⟨hsame, congrArg uriOf hsame⟩

theorem absolute_of_slash {c : Char} {cs : List Char} (h : uri.toList = c :: cs) (hc : c = '/') :
    Absolute uri := by
  subst hc
  rw [Absolute, split, h, List.splitOn_cons_eq_if_modifyHead, if_pos (beq_self_eq_true _)]
  rfl

/-- Two spellings of one directory. -/
theorem path_canonical_dots : Canonical "/a/./b/" ∧ Canonical "/a/c/../b" ∧
    absPath "/a/./b/" = absPath "/a/c/../b" ∧
      uriOf (absPath "/a/./b/") = uriOf (absPath "/a/c/../b") := by
  have hfirst : Absolute "/a/./b/" := absolute_of_slash rfl rfl
  have hsecond : Absolute "/a/c/../b" := absolute_of_slash rfl rfl
  obtain ⟨hfirst_iff, hsame⟩ := path_canonical_iff hfirst
  have hcanonical := hfirst_iff.mpr ((settled_iff _).mpr (by decide +kernel))
  have hcanonical' := (path_canonical_iff hsecond).1.mpr ((settled_iff _).mpr (by decide +kernel))
  exact ⟨hcanonical, hcanonical',
    hsame _ hsecond hcanonical hcanonical' (by decide +kernel)⟩

/-- A slash too many stays where it is. -/
theorem path_not_canonical : ¬∀ uri, Absolute uri → Canonical uri := by
  intro h
  have hcanonical := h "/a//b" (absolute_of_slash rfl rfl)
  rcases hcanonical.nonempty with hroot | hnonempty
  · exact absurd hroot (by decide +kernel)
  · exact hnonempty (by decide +kernel)

end HackerUnion.Shell
