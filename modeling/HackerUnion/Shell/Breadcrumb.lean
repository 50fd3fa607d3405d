import HackerUnion.Lists.Intercalate
import Mathlib.Data.List.Basic

namespace HackerUnion.Shell

/-- The code units of a string. -/
abbrev Text := List UInt16

def slash : UInt16 := 47

/-- `cnt` -/
def dots : Text := [46, 46, 46]

/-- `MSG_MAX` -/
def msgMax : Nat := 25

def unknownError : Text := "Unknown error".toList.map fun c => UInt16.ofNat c.toNat

structure Link where
  text : Text
  dir : Text
  deriving DecidableEq

/-- What stands in the message: a text, or links, perhaps behind three dots. -/
inductive Message where
  | text (s : Text)
  | nav (dotted : Bool) (links : List Link)
  deriving DecidableEq

/-- The rounds of `forEachRight` that are left, which come to `res`, `s` and `root`. -/
def abbreviate (path : List Text) : Nat → Text → Text → Text × Text × Text
  | 0, res, s => (res, s, [])
  | i + 1, res, s =>
    let p := path.getD i []
    let res := (if p = [] then p else slash :: p) ++ res
    if msgMax < res.length + dots.length then (res, s, [slash].intercalate (path.take (i + 1)))
    else abbreviate path i res res

/-- `s.match(/\/[^\/]+/g)` -/
def slashedPieces (s : Text) : List Text :=
  ((s.splitOn slash).tail.filter (· ≠ [])).map (slash :: ·)

/-- Each link leads to where the one before does, and one component further. -/
def linksFrom (path : Text) : List Text → List Link
  | [] => []
  | v :: pieces => ⟨v, path ++ v⟩ :: linksFrom (path ++ v) pieces

/-- Where nothing matches there is nothing to call `forEach` on, and an exception is raised. -/
def msg (s : Text) (isUri : Bool) : Option Message :=
  let s := if s = [] then unknownError else s
  let (s, root) :=
    if isUri && msgMax < s.length then
      let path := s.splitOn slash
      let (res, s, root) := abbreviate path path.length [] s
      (if res = [] then s else dots ++ s, root)
    else (s, [])
  let s := if msgMax < s.length then dots ++ s.drop (s.length - msgMax) else s
  if !isUri then some (.text s)
  else if slashedPieces s = [] then none
  else some (.nav (dots.isPrefixOf s) (linksFrom root (slashedPieces s)))

/-- A normalised absolute uri. -/
def slashed (components : List Text) : Text := components.flatMap (slash :: ·)

/-- A link leads to a place on the way, and shows the last component of it. -/
def Leads (components : List Text) (link : Link) : Prop :=
  ∃ before c after, components = before ++ c :: after ∧
    link.dir = slashed (before ++ [c]) ∧ link.text = slash :: c

/-- Nothing is raised, and every link leads to a place on the way. -/
def Linked (components : List Text) : Prop :=
  ∃ dotted links, msg (slashed components) true = some (.nav dotted links) ∧
    ∀ link ∈ links, Leads components link

variable {components before after : List Text} {c : Text}

section Links

theorem slashed_append (before after : List Text) :
    slashed (before ++ after) = slashed before ++ slashed after := List.flatMap_append

theorem slashed_concat (before : List Text) (c : Text) :
    slashed (before ++ [c]) = slashed before ++ slash :: c := by
  rw [slashed_append]
  simp [slashed]

theorem intercalate_slash (first : Text) (components : List Text) :
    [slash].intercalate (first :: components) = first ++ slashed components := by
  cases components with
  | nil => simp [slashed]
  | cons c components =>
    have htail := Lists.intercalate_nil_cons [slash] (c :: components)
    rw [List.intercalate_cons_cons] at htail ⊢
    rw [List.append_assoc, ← List.nil_append ([slash] ++ _), ← List.append_assoc [], htail]
    rfl

theorem splitOn_slashed {first : Text} (hfirst : slash ∉ first)
    (hslash : ∀ c ∈ components, slash ∉ c) :
    (first ++ slashed components).splitOn slash = first :: components := by
  rw [← intercalate_slash, List.splitOn_intercalate slash _ (List.cons_ne_nil _ _)]
  exact List.forall_mem_cons.mpr ⟨hfirst, hslash⟩

theorem slashedPieces_slashed {first : Text} (hfirst : slash ∉ first)
    (hslash : ∀ c ∈ components, slash ∉ c) (hne : ∀ c ∈ components, c ≠ []) :
    slashedPieces (first ++ slashed components) = components.map (slash :: ·) := by
  rw [slashedPieces, splitOn_slashed hfirst hslash, List.tail_cons, List.filter_eq_self.mpr]
  intro c hc
  exact decide_eq_true (hne c hc)

theorem leads_of_mem_linksFrom {link : Link}
    (h : link ∈ linksFrom (slashed before) (after.map (slash :: ·))) :
    Leads (before ++ after) link := by
  induction after generalizing before with
  | nil => cases h
  | cons c after ih =>
    rw [List.map_cons, linksFrom] at h
    rcases List.mem_cons.mp h with rfl | h
    · exact ⟨before, c, after, rfl, (slashed_concat before c).symm, rfl⟩
    · rw [← slashed_concat] at h
      have hleads := ih h
      rw [List.append_assoc] at hleads
      exact hleads

theorem Leads.length_le {link : Link} (h : Leads components link) :
    link.dir.length ≤ (slashed components).length := by
  obtain ⟨before, c, after, rfl, hdir, -⟩ := h
  have hsplit : before ++ c :: after = before ++ [c] ++ after := by simp
  rw [hdir, hsplit, slashed_append (before ++ [c]), List.length_append]
  exact Nat.le_add_right _ _

end Links

section Abbreviate

/-- How the rounds end for a uri that is too long: at the first component, counted from the right,
with which there would be too much. -/
theorem abbreviate_slashed (hne : ∀ c ∈ before ++ after, c ≠ [])
    (hlong : msgMax < (slashed (before ++ after)).length)
    (hfits : after = [] ∨ (slashed after).length + dots.length ≤ msgMax) (s : Text) :
    ∃ pre c mid, before = pre ++ c :: mid ∧
      msgMax < (slashed (c :: (mid ++ after))).length + dots.length ∧
      (mid ++ after = [] ∨ (slashed (mid ++ after)).length + dots.length ≤ msgMax) ∧
      abbreviate ([] :: (before ++ after)) (before.length + 1) (slashed after) s =
        (slashed (c :: (mid ++ after)), if mid = [] then s else slashed (mid ++ after),
          slashed (pre ++ [c])) := by
  induction before using List.reverseRecOn generalizing after s with
  | nil =>
    rw [List.nil_append] at hlong
    rcases hfits with rfl | hfits
    · cases hlong
    · omega
  | append_singleton before c ih =>
    have hsplit : before ++ [c] ++ after = before ++ c :: after := by simp
    rw [hsplit] at hne hlong ⊢
    have hc : c ≠ [] := hne c (List.mem_append_right _ List.mem_cons_self)
    have hlength : (before ++ [c]).length = before.length + 1 := List.length_append
    have hget : ([] :: (before ++ c :: after)).getD (before.length + 1) [] = c := by simp
    have htake : ([] :: (before ++ c :: after)).take (before.length + 1 + 1) =
        [] :: (before ++ [c]) := by
      rw [List.take_succ_cons, ← hsplit, ← hlength, List.take_left]
    have hres : slash :: c ++ slashed after = slashed (c :: after) := rfl
    rw [hlength, abbreviate, hget, if_neg hc, hres, htake, intercalate_slash, List.nil_append]
    by_cases hover : msgMax < (slashed (c :: after)).length + dots.length
    · refine ⟨before, c, [], rfl, hover, hfits, ?_⟩
      rw [if_pos hover, if_pos rfl]
      rfl
    · have hfits' : (slashed (c :: after)).length + dots.length ≤ msgMax := Nat.le_of_not_lt hover
      obtain ⟨pre, d, mid, rfl, hd, hrest, hrun⟩ :=
        ih hne hlong (Or.inr hfits') (slashed (c :: after))
      have hmid : mid ++ [c] ++ after = mid ++ c :: after := by simp
      refine ⟨pre, d, mid ++ [c], by simp, ?_⟩
      rw [if_neg hover, hrun, hmid, if_neg (List.concat_ne_nil c mid)]
      refine ⟨hd, hrest, ?_⟩
      split
      · next hnil => rw [hnil, List.nil_append]
      · rfl

end Abbreviate

section Msg

theorem slashed_ne_nil (h : components ≠ []) : slashed components ≠ [] := by
  cases components with
  | nil => exact absurd rfl h
  | cons c components => exact List.cons_ne_nil _ _

theorem msg_short (h : components ≠ []) (hslash : ∀ c ∈ components, slash ∉ c)
    (hne : ∀ c ∈ components, c ≠ []) (hshort : (slashed components).length ≤ msgMax) :
    msg (slashed components) true = some (.nav (dots.isPrefixOf (slashed components))
      (linksFrom [] (components.map (slash :: ·)))) := by
  have hpieces : slashedPieces (slashed components) = components.map (slash :: ·) :=
    slashedPieces_slashed List.not_mem_nil hslash hne
  have hmap : components.map (slash :: ·) ≠ [] := fun hnil => h (List.map_eq_nil_iff.mp hnil)
  have hnot : ¬msgMax < (slashed components).length := Nat.not_lt.mpr hshort
  simp only [msg, if_neg (slashed_ne_nil h), hnot, decide_false, Bool.and_false, Bool.false_eq_true,
    if_false, Bool.not_true, hpieces, hmap]

theorem dots_slashless : slash ∉ dots := by decide

theorem mem_slashedPieces {s v : Text} (h : v ∈ slashedPieces s) : v ≠ [] := by
  obtain ⟨piece, -, rfl⟩ := List.mem_map.mp h
  exact List.cons_ne_nil _ _

/-- The message of a uri that is too long, by where the rounds end. -/
theorem msg_long (hslash : ∀ c ∈ components, slash ∉ c) (hne : ∀ c ∈ components, c ≠ [])
    (hlong : msgMax < (slashed components).length) :
    ∃ pre c post, components = pre ++ c :: post ∧
      msgMax < (slashed (c :: post)).length + dots.length ∧
      (post ≠ [] → (slashed post).length + dots.length ≤ msgMax ∧
        msg (slashed components) true = some (.nav true
          (linksFrom (slashed (pre ++ [c])) (post.map (slash :: ·))))) ∧
      (post = [] → ∃ s, msg (slashed components) true =
        if slashedPieces s = [] then none
        else some (.nav (dots.isPrefixOf s)
          (linksFrom (slashed components) (slashedPieces s)))) := by
  have hcomponents : components ≠ [] := by
    intro hnil
    rw [hnil] at hlong
    cases hlong
  obtain ⟨pre, c, post, rfl, hover, hfits, hrun⟩ :=
    @abbreviate_slashed components [] (by rw [List.append_nil]; exact hne)
      (by rw [List.append_nil]; exact hlong) (Or.inl rfl) (slashed components)
  rw [List.append_nil] at hover hfits hrun
  rw [List.append_nil] at hrun
  have hpath : (slashed (pre ++ c :: post)).splitOn slash = [] :: (pre ++ c :: post) :=
    splitOn_slashed List.not_mem_nil hslash
  have hres : slashed (c :: post) ≠ [] := List.cons_ne_nil _ _
  have hstart : slashed ([] : List Text) = [] := rfl
  rw [hstart] at hrun
  refine ⟨pre, c, post, rfl, hover, ?_, ?_⟩
  · intro hpost
    have hfits := hfits.resolve_left hpost
    have hslash' : ∀ d ∈ post, slash ∉ d := fun d hd =>
      hslash d (List.mem_append_right _ (List.mem_cons_of_mem c hd))
    have hne' : ∀ d ∈ post, d ≠ [] := fun d hd =>
      hne d (List.mem_append_right _ (List.mem_cons_of_mem c hd))
    have hpieces := slashedPieces_slashed dots_slashless hslash' hne'
    have hmap : post.map (slash :: ·) ≠ [] := fun hnil => hpost (List.map_eq_nil_iff.mp hnil)
    have hnot : ¬msgMax < (dots ++ slashed post).length := by
      rw [List.length_append]
      omega
    have hprefix : dots.isPrefixOf (dots ++ slashed post) = true :=
      List.isPrefixOf_iff_prefix.mpr (List.prefix_append _ _)
    refine ⟨hfits, ?_⟩
    simp only [msg, if_neg (slashed_ne_nil hcomponents), hlong, decide_true, Bool.and_self, if_true,
      hpath, List.length_cons, hrun, if_neg hres, if_neg hpost, hnot, if_false, Bool.not_true,
      Bool.false_eq_true, hpieces, if_neg hmap, hprefix]
  · intro hpost
    subst hpost
    have hcut : msgMax < (dots ++ slashed (pre ++ [c])).length := by
      rw [List.length_append]
      omega
    refine ⟨dots ++ (dots ++ slashed (pre ++ [c])).drop
      ((dots ++ slashed (pre ++ [c])).length - msgMax), ?_⟩
    simp only [msg, if_neg (slashed_ne_nil hcomponents), hlong, decide_true, Bool.and_self, if_true,
      hpath, List.length_cons, hrun, if_neg hres, hcut, Bool.not_true, Bool.false_eq_true, if_false]

end Msg

/-- Every link leads to a place on the way if and only if the uri fits in, or its last component
does behind a slash and the dots. -/
theorem msg_linked_iff (before : List Text) (c : Text)
    (hslash : ∀ d ∈ before ++ [c], slash ∉ d) (hne : ∀ d ∈ before ++ [c], d ≠ []) :
    Linked (before ++ [c]) ↔
      (slashed (before ++ [c])).length ≤ msgMax ∨ c.length + 1 + dots.length ≤ msgMax := by
  by_cases hlong : msgMax < (slashed (before ++ [c])).length
  · obtain ⟨pre, d, post, hsplit, hover, hgood, hbad⟩ := msg_long hslash hne hlong
    by_cases hpost : post = []
    · obtain ⟨s, hmsg⟩ := hbad hpost
      subst hpost
      obtain ⟨-, hd⟩ := List.append_inj' hsplit rfl
      obtain rfl := (List.cons.inj hd).1
      have hnot : ¬Linked (before ++ [c]) := by
        intro hlinked
        obtain ⟨dotted, links, hlinks, hleads⟩ := hlinked
        rw [hmsg] at hlinks
        cases hpieces : slashedPieces s with
        | nil =>
          rw [if_pos hpieces] at hlinks
          cases hlinks
        | cons v pieces =>
          -- the first link already leads past the end
          rw [if_neg (by rw [hpieces]; exact List.cons_ne_nil v pieces), hpieces] at hlinks
          cases hlinks
          have hle := (hleads _ List.mem_cons_self).length_le
          have hv : v ≠ [] := mem_slashedPieces (s := s) (by rw [hpieces]; exact List.mem_cons_self)
          have hpos := List.length_pos_iff.mpr hv
          rw [List.length_append] at hle
          omega
      have hlength : (slashed [c]).length = c.length + 1 := by simp [slashed]
      simp only [hnot, false_iff, not_or]
      omega
    · obtain ⟨hfits, hmsg⟩ := hgood hpost
      have hle : c.length + 1 ≤ (slashed post).length := by
        obtain ⟨post, e, rfl⟩ := (List.eq_nil_or_concat' post).resolve_left hpost
        have hend : before ++ [c] = pre ++ d :: post ++ [e] := by simpa using hsplit
        obtain rfl := (List.cons.inj (List.append_inj' hend rfl).2).1
        rw [slashed_concat, List.length_append, List.length_cons]
        exact Nat.le_add_left _ _
      have hlinked : Linked (before ++ [c]) := by
        refine ⟨true, _, hmsg, ?_⟩
        intro link hlink
        have hleads := leads_of_mem_linksFrom hlink
        rw [hsplit, List.append_cons]
        exact hleads
      simp only [hlinked, true_iff]
      right
      omega
  · have hshort := Nat.le_of_not_lt hlong
    have hlinked : Linked (before ++ [c]) := by
      refine ⟨_, _, msg_short (List.concat_ne_nil c before) hslash hne hshort, ?_⟩
      intro link hlink
      have hleads : Leads ([] ++ (before ++ [c])) link := leads_of_mem_linksFrom hlink
      exact hleads
    simp only [hlinked, hshort, true_or]

/-- Thirty letters, and one below them. -/
theorem msg_linked_iff_below : Linked [List.replicate 30 97, [98]] ↔
    (slashed [List.replicate 30 97, [98]]).length ≤ msgMax ∨
      ([98] : Text).length + 1 + dots.length ≤ msgMax :=
  msg_linked_iff [List.replicate 30 97] [98] (by decide) (by decide)

/-- A component of twenty-five letters leaves no slash in the message. -/
theorem msg_not_linked : ¬∀ components : List Text, components ≠ [] →
    (∀ d ∈ components, slash ∉ d ∧ d ≠ []) → Linked components := by
  intro h
  obtain ⟨dotted, links, hmsg, -⟩ := h [List.replicate 25 97] (by decide) (by decide)
  have hnone : msg (slashed [List.replicate 25 97]) true = none := by decide +kernel
  rw [hnone] at hmsg
  cases hmsg

end HackerUnion.Shell
