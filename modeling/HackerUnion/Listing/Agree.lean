import HackerUnion.Listing.Live
import HackerUnion.Listing.Walk

namespace HackerUnion.Listing

open Bash Js.Json

/-- A cached listing, in the code units of strings. -/
def inUnits (cached : List (Text × Text)) : List (List Nat × List Nat) :=
  cached.map fun e => (utf16 e.1, utf16 e.2)

/-- The paths of two listings are the same, and the same of them are those of directories. -/
def SamePaths (a b : List (List Nat × List Nat)) : Prop :=
  (∀ p, p ∈ a.map Prod.fst ↔ p ∈ b.map Prod.fst) ∧
    ∀ p, (p, utf16 (text "/")) ∈ a ↔ (p, utf16 (text "/")) ∈ b

/-- An answer is a listing in which each name of a directory is once, and it is as the cached
listing of the directory is, if there is one. -/
def Agree (body : Text) (d : Directory) (cached : Option (List (Text × Text))) : Prop :=
  ∃ live, (parse body).bind listingOf = some live ∧
    (live.map Prod.fst).Perm (d.rows.map fun r => utf16 r.name) ∧
    ∀ c ∈ cached, SamePaths live (inUnits c)

/-- A row that the script tells the name of: it has no blank, is no option of `echo`, and does not
end as if it were marked. -/
structure Exact (r : Row) : Prop where
  word : ∀ c ∈ r.name, isBlank c = false
  printed : isOption r.name = false
  unmarked : r.mark = .plain → ∀ c ∈ r.name.getLast?, isType c = false

/-- The script can list a directory at a path. -/
structure Listed (path : Text) (d : Directory) : Prop where
  quotable : Quotable path
  searchable : d.searchable = true
  exact : ∀ r ∈ d.rows, Exact r

/-- The line of a row, as the script takes it. -/
def rowItem (r : Row) : Text := bang (r.name ++ r.mark.text)

/-- The type that is printed of a row. -/
def Mark.type : Mark → Text
  | .plain => ['-']
  | m => m.text

section Rows

variable {c : Char} {t : Text} {r : Row} {rows : List Row}

theorem bang_concat (t : Text) (c : Char) :
    bang (t ++ [c]) = t ++ [if c = '*' then '!' else c] := by
  by_cases hc : c = '*' <;> simp [bang, hc]

theorem itemName_concat (h : Line (t ++ [c])) :
    itemName (t ++ [c]) = if isType c then t else t ++ [c] := by
  rw [itemName, hasType_eq h]
  cases hc : isType c <;> simp [hc]

theorem itemType_concat (h : Line (t ++ [c])) :
    itemType (t ++ [c]) = if isType c then [c] else text "-" := by
  rw [itemType, hasType_eq h]
  cases hc : isType c <;> simp [hc]

/-- A mark is taken off again, and is the type. -/
theorem rowItem_marked (h : Line r.name) (hmark : r.mark ≠ .plain) :
    itemName (rowItem r) = r.name ∧ printedType (itemType (rowItem r)) = r.mark.type := by
  obtain ⟨name, mark⟩ := r
  have hitem (c d : Char) (hd : (if c = '*' then '!' else c) = d) (htype : isType d = true) :
      itemName (bang (name ++ [c])) = name ∧ itemType (bang (name ++ [c])) = [d] := by
    have hline : Line (name ++ [d]) := by
      intro hmem
      rcases List.mem_append.mp hmem with hmem | hmem
      · exact h hmem
      · obtain rfl := List.mem_singleton.mp hmem
        exact absurd htype (by decide)
    rw [bang_concat, hd, itemName_concat hline, itemType_concat hline, htype]
    exact ⟨rfl, rfl⟩
  have hprinted (m : Mark) (d : Char) (h : itemType (bang (name ++ m.text)) = [d]) :
      printedType (itemType (rowItem ⟨name, m⟩)) = printedType [d] := by
    rw [rowItem, h]
  cases mark with
  | plain => exact absurd rfl hmark
  | directory => exact (hitem '/' '/' rfl rfl).imp_right (hprinted .directory '/')
  | executable => exact (hitem '*' '!' rfl rfl).imp_right (hprinted .executable '!')
  | link => exact (hitem '@' '@' rfl rfl).imp_right (hprinted .link '@')
  | fifo => exact (hitem '|' '|' rfl rfl).imp_right (hprinted .fifo '|')
  | socket => exact (hitem '=' '=' rfl rfl).imp_right (hprinted .socket '=')

/-- Without a mark, the name stays if it does not end as if it had one. -/
theorem rowItem_plain (h : Line r.name) (hmark : r.mark = .plain)
    (hlast : ∀ c ∈ r.name.getLast?, isType c = false) :
    itemName (rowItem r) = r.name ∧ printedType (itemType (rowItem r)) = r.mark.type := by
  obtain ⟨name, mark⟩ := r
  obtain rfl : mark = .plain := hmark
  cases name using List.reverseRecOn with
  | nil => exact ⟨rfl, rfl⟩
  | append_singleton init c =>
    have hc : isType c = false := hlast c (by simp)
    have hstar : c ≠ '*' := by
      rintro rfl
      exact absurd hc (by decide)
    have hitem : rowItem ⟨init ++ [c], .plain⟩ = init ++ [c] := by
      rw [rowItem, Mark.text, List.append_nil, bang_concat, if_neg hstar]
    rw [hitem, itemName_concat h, itemType_concat h, hc]
    exact ⟨rfl, rfl⟩

/-- If it does, it is one character shorter. -/
theorem rowItem_short (h : Line r.name) (hmark : r.mark = .plain)
    (hlast : ∃ c ∈ r.name.getLast?, isType c = true) :
    (itemName (rowItem r)).length < r.name.length := by
  obtain ⟨name, mark⟩ := r
  obtain rfl : mark = .plain := hmark
  obtain ⟨c, hmem, hc⟩ := hlast
  cases name using List.reverseRecOn with
  | nil => cases hmem
  | append_singleton init c' =>
    obtain rfl : c' = c := by simpa using hmem
    have hbang : isType (if c' = '*' then '!' else c') = true := by
      split
      · rfl
      · exact hc
    have hline : Line (init ++ [if c' = '*' then '!' else c']) := by
      intro hmem
      rcases List.mem_append.mp hmem with hmem | hmem
      · exact h (List.mem_append_left _ hmem)
      · rw [← List.mem_singleton.mp hmem] at hbang
        exact absurd hbang (by decide)
    rw [rowItem, Mark.text, List.append_nil, bang_concat, itemName_concat hline, if_pos hbang]
    simp

theorem Exact.line (h : Exact r) : Line r.name := fun hmem => absurd (h.word _ hmem) (by decide)

theorem Exact.item (h : Exact r) :
    echoed (itemName (rowItem r)) = r.name ∧ printedType (itemType (rowItem r)) = r.mark.type := by
  have hitem : itemName (rowItem r) = r.name ∧
      printedType (itemType (rowItem r)) = r.mark.type := by
    by_cases hmark : r.mark = .plain
    · exact rowItem_plain h.line hmark (h.unmarked hmark)
    · exact rowItem_marked h.line hmark
  rw [hitem.1, echoed, h.printed]
  exact ⟨rfl, hitem.2⟩

/-- What is printed of a row is no longer than its name, and shorter if the row is not exact. -/
theorem length_echoed (hword : ∀ c ∈ r.name, isBlank c = false) (hne : r.name ≠ []) :
    (echoed (itemName (rowItem r))).length ≤ r.name.length ∧
      ((echoed (itemName (rowItem r))).length = r.name.length → Exact r) := by
  have hline : Line r.name := fun hmem => absurd (hword _ hmem) (by decide)
  have hechoed (t : Text) : (echoed t).length ≤ t.length := by
    unfold echoed
    split <;> simp
  have hpos := List.length_pos_iff.mpr hne
  by_cases hshort : r.mark = .plain ∧ ∃ c ∈ r.name.getLast?, isType c = true
  · have hlt := rowItem_short hline hshort.1 hshort.2
    have hle := hechoed (itemName (rowItem r))
    exact ⟨by omega, fun h => by omega⟩
  · have hunmarked (hmark : r.mark = .plain) : ∀ c ∈ r.name.getLast?, isType c = false := by
      intro c hc
      by_contra htype
      exact hshort ⟨hmark, c, hc, by simpa using htype⟩
    have hname : itemName (rowItem r) = r.name := by
      by_cases hmark : r.mark = .plain
      · exact (rowItem_plain hline hmark (hunmarked hmark)).1
      · exact (rowItem_marked hline hmark).1
    rw [hname]
    refine ⟨hechoed r.name, fun h => ⟨hword, ?_, hunmarked⟩⟩
    by_contra hoption
    rw [echoed, if_pos (by simpa using hoption)] at h
    simp at h
    omega

theorem line_rowItem (h : ∀ c ∈ r.name, isBlank c = false) :
    ∀ c ∈ r.name ++ r.mark.text, isBlank c = false := by
  intro c hc
  rcases List.mem_append.mp hc with hc | hc
  · exact h c hc
  · have hmark : ∀ m : Mark, ∀ c ∈ m.text, isBlank c = false := by
      intro m
      cases m <;> decide
    exact hmark r.mark c hc

/-- Rows without blanks in their names are the words of the listing. -/
theorem words_listed (h : ∀ r ∈ rows, r.name ≠ [] ∧ ∀ c ∈ r.name, isBlank c = false) :
    words (listed rows) = rows.map rowItem := by
  have hlines : lines (lsOutput rows) = rows.map fun r => r.name ++ r.mark.text := by
    refine lines_unlines fun l hl => ?_
    obtain ⟨r, hr, rfl⟩ := List.mem_map.mp hl
    exact fun hmem => absurd (line_rowItem (h r hr).2 _ hmem) (by decide)
  have hbang (t : Text) (hne : t ≠ []) (ht : ∀ c ∈ t, isBlank c = false) :
      bang t ≠ [] ∧ ∀ c ∈ bang t, isBlank c = false := by
    cases t using List.reverseRecOn with
    | nil => exact absurd rfl hne
    | append_singleton init c =>
      rw [bang_concat]
      refine ⟨by simp, fun d hd => ?_⟩
      rcases List.mem_append.mp hd with hd | hd
      · exact ht d (List.mem_append_left _ hd)
      · rw [List.mem_singleton.mp hd]
        split
        · rfl
        · exact ht c (by simp)
  have hmap : (rows.map fun r => r.name ++ r.mark.text).map bang = rows.map rowItem := by
    rw [List.map_map]
    rfl
  rw [listed, sed, hlines, hmap]
  refine words_capture fun l hl => ?_
  obtain ⟨r, hr, rfl⟩ := List.mem_map.mp hl
  exact hbang _ (by simp [(h r hr).1]) (line_rowItem (h r hr).2)

end Rows

section Cached

variable {e : Entries} {d root : Directory} {names : List Text} {dir path name : Text}
  {walked : Bool} {cached : List (Text × Text)}

theorem entries_ne_nil (he : e.WellFormed) : ∀ r ∈ e.rows, r.name ≠ [] := by
  induction e with
  | nil => simp [Entries.rows]
  | leaf name kind runs rest ih => exact List.forall_mem_cons.mpr ⟨he.1.1, ih he.2.2⟩
  | dir name r s inside rest _ ih => exact List.forall_mem_cons.mpr ⟨he.1.1, ih he.2.2.2⟩

theorem rows_ne_nil (he : d.entries.WellFormed) : ∀ r ∈ d.rows, r.name ≠ [] := by
  have hdots : text "." ≠ [] ∧ text ".." ≠ [] := by decide
  exact List.forall_mem_cons.mpr
    ⟨hdots.1, List.forall_mem_cons.mpr ⟨hdots.2, entries_ne_nil he⟩⟩

theorem wellFormed_find (he : root.entries.WellFormed) (h : root.find names = some (walked, d)) :
    d.entries.WellFormed := by
  induction names generalizing root walked with
  | nil =>
    obtain ⟨-, rfl⟩ := Prod.mk.inj (Option.some.inj h)
    exact he
  | cons name names ih =>
    rw [Directory.find] at h
    split at h
    · obtain ⟨e, hsub, hfind⟩ := Option.bind_eq_some_iff.mp h
      obtain ⟨⟨walked', d'⟩, hfound, hpair⟩ := Option.map_eq_some_iff.mp hfind
      obtain ⟨-, rfl⟩ := Prod.mk.inj hpair
      exact ih (wellFormed_sub he hsub) hfound
    · cases h

theorem items_names (e : Entries) (dir : Text) (s : Bool) :
    (e.items dir s).map Item.file = e.rows.map Row.name := by
  induction e with
  | nil => rfl
  | leaf name kind runs rest ih => simp [Entries.items, Entries.rows, ih]
  | dir name r s' inside rest _ ih => simp [Entries.items, Entries.rows, ih]

/-- The entries that `tree` takes for directories are those that `ls` marks as such. -/
theorem mem_items_directory (e : Entries) (dir name : Text) :
    (name, text "/") ∈ (e.items dir true).map (fun item => (item.file, classify item.stat)) ↔
      ⟨name, .directory⟩ ∈ e.rows := by
  have hleaf (s : Option Stat) (hs : ∀ x ∈ s, x.isDirectory = false) : classify s ≠ text "/" := by
    cases s with
    | none => decide
    | some x =>
      rw [classify, hs x rfl]
      cases x.runs <;> decide
  have hkind (k : Kind) : k.mark ≠ .directory := by
    cases k with
    | regular x => cases x <;> decide
    | _ => decide
  induction e with
  | nil => simp [Entries.items, Entries.rows]
  | leaf name' kind runs rest ih =>
    have hclassify : text "/" ≠
        classify (if true && kind ≠ .dangling then some ⟨false, runs⟩ else none) := by
      refine Ne.symm (hleaf _ fun x hx => ?_)
      split at hx
      · obtain rfl := Option.some.inj hx
        rfl
      · cases hx
    simp only [Entries.items, Entries.rows, List.map_cons, List.mem_cons, ih, Prod.mk.injEq,
      Row.mk.injEq]
    simp only [hclassify, (hkind kind).symm, and_false, false_or]
  | dir name' r s inside rest _ ih =>
    have hclassify : classify (some ⟨true, true⟩) = text "/" := rfl
    simp [Entries.items, Entries.rows, ih, hclassify]

/-- What `tree` has of a directory. -/
theorem tree_eq_some (he : root.entries.WellFormed) (hvalid : ∀ n ∈ names, ValidName n)
    (h : root.find names = some (walked, d))
    (hc : (tree path root).get (joinAll path names) = some cached) :
    cached = dots ++ (d.entries.items (joinAll path names) d.searchable).map fun item =>
      (item.file, classify item.stat) := by
  have hempty : (Js.Obj.empty : Js.Obj Text (List (Text × Text))).get (joinAll path names) = none :=
    rfl
  rw [tree, foldl_addItem, walk_find he hvalid h path, hempty] at hc
  cases hw : walked && d.readable
  · simp [hw] at hc
  · rw [hw, if_pos rfl] at hc
    by_cases hnil : d.entries.items (joinAll path names) d.searchable = []
    · simp [hnil] at hc
    · rw [if_neg hnil] at hc
      exact (Option.some.inj hc).symm

theorem mem_tree (he : root.entries.WellFormed) (hvalid : ∀ n ∈ names, ValidName n)
    (h : root.find names = some (walked, d)) (hsearch : d.searchable = true)
    (hc : cached ∈ (tree path root).get (joinAll path names)) :
    cached.map Prod.fst = d.rows.map Row.name ∧
      ∀ name, (name, text "/") ∈ cached ↔ ⟨name, .directory⟩ ∈ d.rows := by
  obtain rfl := tree_eq_some he hvalid h hc
  refine ⟨?_, fun name => ?_⟩
  · have hnames := items_names d.entries (joinAll path names) d.searchable
    simpa [dots, Directory.rows, Function.comp_def] using hnames
  · have hitems := mem_items_directory d.entries (joinAll path names) name
    rw [hsearch, List.mem_append, hitems]
    simp [dots, Directory.rows, or_assoc]

/-- A directory has a cached listing if it has an entry and can be reached. -/
theorem tree_isSome (he : root.entries.WellFormed) (hvalid : ∀ n ∈ names, ValidName n)
    (h : root.find names = some (walked, d)) (hread : d.readable = true) :
    ((tree path root).get (joinAll path names)).isSome = true ↔
      walked = true ∧ d.entries ≠ .nil := by
  have hitems : d.entries.items (joinAll path names) d.searchable = [] ↔ d.entries = .nil := by
    cases d.entries <;> simp [Entries.items]
  have hempty : (Js.Obj.empty : Js.Obj Text (List (Text × Text))).get (joinAll path names) = none :=
    rfl
  rw [tree, foldl_addItem, walk_find he hvalid h path, hempty, hread]
  cases walked
  · simp
  · by_cases hnil : d.entries.items (joinAll path names) d.searchable = []
    · simp [hitems.mp hnil, Entries.items]
    · simp [hnil, mt hitems.mpr hnil]

end Cached

section Agree

variable {glob : Text → List Text} {path : Text} {d : Directory} {order : List Row}
  {cached : Option (List (Text × Text))}

theorem mark_type (m : Mark) : m.type = text "/" ↔ m = .directory := by
  cases m <;> decide

/-- What the script answers of rows that are all exact. -/
theorem live_exact (hexact : ∀ r ∈ order, Exact r) (hne : ∀ r ∈ order, r.name ≠ [])
    (hquotable : Quotable path) (hlisted : NoMatch glob (listed order))
    (hdata : NoMatch glob (dataOf (expand glob (listed order)))) :
    (parse (ls glob path true order).body).bind listingOf =
      some (order.map fun r => (utf16 r.name, utf16 r.mark.type)) := by
  have hitems : expand glob (listed order) = order.map rowItem := by
    rw [expand_noMatch hlisted]
    exact words_listed fun r hr => ⟨hne r hr, (hexact r hr).word⟩
  have hwords : Words (expand glob (listed order)) := by
    rw [expand_noMatch hlisted]
    exact fun item hitem c hc => (mem_words hitem hc).1
  have hsound : Sound (expand glob (listed order)) := by
    rw [hitems]
    intro item hitem
    obtain ⟨r, hr, rfl⟩ := List.mem_map.mp hitem
    have htype : ∀ m : Mark, m.type ≠ text "\\" := by
      intro m
      cases m <;> decide
    rw [(hexact r hr).item.2]
    exact htype r.mark
  rcases live_eq path hwords hdata with ⟨-, -, hlive⟩ | ⟨hbad, -⟩
  · have hentry : ∀ r ∈ order, (utf16 (echoed (itemName (rowItem r))),
        utf16 (printedType (itemType (rowItem r)))) = (utf16 r.name, utf16 r.mark.type) := by
      intro r hr
      rw [(hexact r hr).item.1, (hexact r hr).item.2]
    rw [hlive, hitems, List.map_map]
    exact congrArg some (List.map_congr_left hentry)
  · exact absurd ⟨hquotable, hsound⟩ hbad

/-- If each name is in the answer once, then all rows are exact: no name can make up for one that
is shortened. -/
theorem exact_of_perm (hne : ∀ r ∈ order, r.name ≠ []) (hlisted : NoMatch glob (listed order))
    (hperm : ((expand glob (listed order)).map fun item => echoed (itemName item)).Perm
      (order.map Row.name)) :
    ∀ r ∈ order, Exact r := by
  rw [expand_noMatch hlisted] at hperm
  have hword : ∀ r ∈ order, ∀ c ∈ r.name, isBlank c = false := by
    intro r hr c hc
    obtain ⟨item, hitem, hname⟩ := List.mem_map.mp (hperm.mem_iff.mpr (List.mem_map_of_mem hr))
    rw [← hname] at hc
    exact (mem_words hitem (mem_itemName (mem_echoed hc))).1
  have hitems := words_listed fun r hr => ⟨hne r hr, hword r hr⟩
  have hlength := fun r hr => length_echoed (hword r hr) (hne r hr)
  have hsum : (order.map fun r => (echoed (itemName (rowItem r))).length).sum =
      (order.map fun r => r.name.length).sum := by
    have hlengths := (hperm.map List.length).sum_eq
    rw [hitems] at hlengths
    simpa [Function.comp_def] using hlengths
  intro r hr
  refine (hlength r hr).2 ?_
  by_contra hshort
  have hlt := List.sum_lt_sum (fun r => (echoed (itemName (rowItem r))).length)
    (fun r => r.name.length) (fun r hr => (hlength r hr).1)
    ⟨r, hr, lt_of_le_of_ne (hlength r hr).1 hshort⟩
  omega

/-- A directory that may not be entered is answered as one without entries. -/
theorem live_closed (hdata : NoMatch glob (text "[]"))
    {live : List (List Nat × List Nat)}
    (h : (parse (ls glob path false order).body).bind listingOf = some live) : live = [] := by
  have hhead : (text "\x7b \"path\": \"" ++ path).head? = some '\x7b' := rfl
  have hoption := isOption_append hhead (by decide) (text "\", \"value\": ")
  have hwords : words (text "[]") = [text "[]"] := words_word (by decide) (by decide)
  have hbody : (ls glob path false order).body = answer path (text "[]") := by
    have hecho : (ls glob path false order).body =
        echo ((text "\x7b \"path\": \"" ++ path ++ text "\", \"value\": ") ::
          expand glob (text "[]") ++ [text " \x7d"]) := rfl
    rw [hecho, expand_noMatch hdata, hwords, echo_between hoption (List.cons_ne_nil _ _)]
    rfl
  have hvalue : ∀ stack, run ⟨.value, stack⟩ (text "[]") = some ⟨.after (.array []), stack⟩ :=
    fun _ => rfl
  rcases parse_answer path hvalue with ⟨-, ms, hparse⟩ | ⟨-, hparse⟩
  · rw [hbody, hparse, Option.bind_some, listingOf_append] at h
    simpa using h.symm
  · rw [hbody, hparse] at h
    cases h

theorem samePaths_live {live : List (List Nat × List Nat)} {c : List (Text × Text)}
    (horder : order.Perm d.rows)
    (hlive : live = order.map fun r => (utf16 r.name, utf16 r.mark.type))
    (hnames : c.map Prod.fst = d.rows.map Row.name)
    (hdirs : ∀ name, (name, text "/") ∈ c ↔ ⟨name, .directory⟩ ∈ d.rows) :
    SamePaths live (inUnits c) := by
  subst hlive
  refine ⟨fun p => ?_, fun p => ?_⟩
  · have hcached : (inUnits c).map Prod.fst = (d.rows.map Row.name).map utf16 := by
      rw [← hnames, inUnits, List.map_map, List.map_map]
      rfl
    rw [hcached]
    simp [horder.mem_iff]
  · have hmem : (p, utf16 (text "/")) ∈ inUnits c ↔
        ∃ name, (name, text "/") ∈ c ∧ utf16 name = p := by
      simp [inUnits, utf16_injective.eq_iff]
    rw [hmem]
    constructor
    · intro h
      obtain ⟨⟨name, mark⟩, hr, hpair⟩ := List.mem_map.mp h
      obtain ⟨hname, htype⟩ := Prod.mk.inj hpair
      obtain rfl := (mark_type mark).mp (utf16_injective htype)
      exact ⟨name, (hdirs name).mpr (horder.mem_iff.mp hr), hname⟩
    · rintro ⟨name, hname, rfl⟩
      have hr := horder.mem_iff.mpr ((hdirs name).mp hname)
      exact List.mem_map.mpr ⟨_, hr, rfl⟩

variable {root : Directory} {names : List Text} {walked : Bool}

variable (glob) in
/-- Listings that agree are of a directory that the script can list. -/
theorem listed_of_agree (hne : ∀ r ∈ d.rows, r.name ≠ []) (horder : order.Perm d.rows)
    (hlisted : NoMatch glob (listed order))
    (hdata : NoMatch glob
      (if d.searchable then dataOf (expand glob (listed order)) else text "[]"))
    (h : Agree (ls glob path d.searchable order).body d cached) : Listed path d := by
  obtain ⟨live, hlive, hperm, -⟩ := h
  cases hsearch : d.searchable with
  | false =>
    rw [hsearch] at hlive hdata
    rw [if_neg Bool.false_ne_true] at hdata
    obtain rfl := live_closed hdata hlive
    simp [Directory.rows] at hperm
  | true =>
    rw [hsearch] at hlive hdata
    rw [if_pos rfl] at hdata
    have hwords : Words (expand glob (listed order)) := by
      rw [expand_noMatch hlisted]
      exact fun item hitem c hc => (mem_words hitem hc).1
    rcases live_eq path hwords hdata with ⟨hquotable, -, heq⟩ | ⟨-, hnone⟩
    · have hunits : (((expand glob (listed order)).map fun item =>
          echoed (itemName item)).map utf16).Perm ((order.map Row.name).map utf16) := by
        obtain rfl := Option.some.inj (hlive.symm.trans heq)
        have hrows := horder.symm.map fun r => utf16 r.name
        simpa [Function.comp_def] using hperm.trans hrows
      have hexact := exact_of_perm (fun r hr => hne r (horder.mem_iff.mp hr)) hlisted
        ((List.map_perm_map_iff utf16_injective).mp hunits)
      exact ⟨hquotable, hsearch, fun r hr => hexact r (horder.mem_iff.mpr hr)⟩
    · rw [hnone] at hlive
      cases hlive

theorem agree_of_listed (he : root.entries.WellFormed) (hvalid : ∀ name ∈ names, ValidName name)
    (hfind : root.find names = some (walked, d)) (horder : order.Perm d.rows)
    (hlisted : NoMatch glob (listed order))
    (hdata : NoMatch glob
      (if d.searchable then dataOf (expand glob (listed order)) else text "[]"))
    (h : Listed (joinAll path names) d) :
    Agree (ls glob (joinAll path names) d.searchable order).body d
      ((tree path root).get (joinAll path names)) := by
  have hne := rows_ne_nil (wellFormed_find he hfind)
  rw [h.searchable] at hdata ⊢
  rw [if_pos rfl] at hdata
  have hlive := live_exact (fun r hr => h.exact r (horder.mem_iff.mp hr))
    (fun r hr => hne r (horder.mem_iff.mp hr)) h.quotable hlisted hdata
  refine ⟨_, hlive, ?_, fun c hc => ?_⟩
  · have hrows := horder.map fun r => utf16 r.name
    simpa [Function.comp_def] using hrows
  · obtain ⟨hnames, hdirs⟩ := mem_tree he hvalid hfind h.searchable hc
    exact samePaths_live horder rfl hnames hdirs

variable (path) in
/-- The listings of a directory agree if and only if the script can list it. There is a cached one
if the directory has an entry and those on the way to it can be read. -/
theorem listings_agree_iff (he : root.entries.WellFormed)
    (hvalid : ∀ name ∈ names, ValidName name) (hfind : root.find names = some (walked, d))
    (hread : d.readable = true) (horder : order.Perm d.rows)
    (hlisted : NoMatch glob (listed order))
    (hdata : NoMatch glob
      (if d.searchable then dataOf (expand glob (listed order)) else text "[]")) :
    (Agree (ls glob (joinAll path names) d.searchable order).body d
        ((tree path root).get (joinAll path names)) ↔ Listed (joinAll path names) d) ∧
      (((tree path root).get (joinAll path names)).isSome = true ↔
        walked = true ∧ d.entries ≠ .nil) :=
  ⟨⟨listed_of_agree glob (rows_ne_nil (wellFormed_find he hfind)) horder hlisted hdata,
    agree_of_listed he hvalid hfind horder hlisted hdata⟩, tree_isSome he hvalid hfind hread⟩

/-- A directory with a directory, in which is a file. -/
def home : Directory :=
  ⟨true, true,
    .dir (text "guest") true true (.leaf (text "notes") (.regular false) false .nil) .nil⟩

def guest : Directory := ⟨true, true, .leaf (text "notes") (.regular false) false .nil⟩

theorem listings_agree_guest :
    Agree (ls (fun _ => []) (text "/home/guest") true guest.rows).body guest
      ((tree (text "/home") home).get (text "/home/guest")) := by
  have hlisted : Listed (text "/home/guest") guest := by
    refine ⟨by unfold Quotable; decide +kernel, rfl, fun r hr => ?_⟩
    simp only [guest, Directory.rows, Entries.rows, Kind.mark, List.mem_cons, List.not_mem_nil,
      or_false] at hr
    rcases hr with rfl | rfl | rfl <;> exact ⟨by decide, by decide, by decide⟩
  have hvalid : ∀ name ∈ [text "guest"], ValidName name := by
    unfold ValidName
    decide
  have he : home.entries.WellFormed := by
    refine ⟨?_, ?_, ⟨?_, ?_, trivial⟩, trivial⟩ <;> (try unfold ValidName) <;> decide
  exact (listings_agree_iff (text "/home") he hvalid rfl rfl (List.Perm.refl guest.rows)
    (fun _ _ _ => rfl) (fun _ _ _ => rfl)).1.mpr hlisted

/-- A name with a blank is listed as two. -/
theorem listings_differ_blank :
    ¬Agree (ls (fun _ => []) (text "/home") true
        (Directory.rows ⟨true, true, .leaf (text "to do") (.regular false) false .nil⟩)).body
      ⟨true, true, .leaf (text "to do") (.regular false) false .nil⟩
      ((tree (text "/home") ⟨true, true, .leaf (text "to do") (.regular false) false .nil⟩).get
        (text "/home")) := by
  intro h
  have hne : ∀ r ∈ Directory.rows ⟨true, true, .leaf (text "to do") (.regular false) false .nil⟩,
      r.name ≠ [] := by
    decide
  have hlisted := listed_of_agree (fun _ => []) hne (List.Perm.refl _)
    (fun _ _ _ => rfl) (fun _ _ _ => rfl) h
  have hblank := (hlisted.exact ⟨text "to do", .plain⟩ (by decide)).word ' ' (by decide)
  exact absurd hblank (by decide)

end Agree

end HackerUnion.Listing
