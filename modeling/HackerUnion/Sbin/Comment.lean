import HackerUnion.Bash.Base64
import HackerUnion.Sbin.Save

namespace HackerUnion.Sbin

open Bash

/-- What `bool` prints. -/
def bool (arg : Text) : Text :=
  if arg ≠ [] ∧ arg ≠ text "false" then text "true" else []

/-- What `nullstring` prints. -/
def nullstring (arg : Text) : Text :=
  if text "null" ∈ lines (echo [text "-e", arg]) then text "null" else '"' :: arg ++ ['"']

/-- `COMMENT` -/
def commentOf (uri info service : Text) : Text :=
  base64 (echo [text "\x7b \"uri\": " ++ uri ++ text ", \"info\": \"" ++ info ++
    text "\", \"service\": " ++ service ++ text " \x7d"])

/-- What is kept of the comment of an account. -/
structure Kept where
  info : Text
  service : Text
  uri : Text
  deriving DecidableEq

def keptOf (comment : Text) : Kept :=
  let decoded := unbase64 (echo [comment])
  if (parse (tokenize decoded)).2.isSome then
    let json := capture (json decoded)
    { info := capture (unlines (field json .any (text "info")))
      service := capture (unlines (field json .any (text "service")))
      uri := capture (unlines (field json .any (text "uri"))) }
  else ⟨comment, text "false", text "null"⟩

section Flat

/-- The line of a key of an object that stands alone. -/
def rootLine (name token : Text) : Text := '[' :: '"' :: (name ++ '"' :: (text "]\t" ++ token))

/-- No quotes stand in a text but for those around it. -/
def Enclosed (token : Text) : Prop :=
  ∃ body, '"' ∉ body ∧ (token = body ∨ token = '"' :: body ++ ['"'])

variable {name key token : Text} {pairs : List (Text × Text)}

theorem lower_rootLine (h : IsKey name) (token : Text) :
    lower (rootLine name token) = '[' :: '"' :: (name ++ '"' :: (text "]\t" ++ lower token)) := by
  have hcons (c : Char) (t : Text) : lower (c :: t) = c.toLower :: lower t := rfl
  rw [rootLine, hcons, hcons, lower_append, hcons, lower_key h, lower_append]
  rfl

theorem Enclosed.lower (h : Enclosed token) : Enclosed (lower token) := by
  have hquote {t : Text} (ht : '"' ∉ t) : '"' ∉ Bash.lower t := by
    intro hmem
    obtain ⟨c, hc, heq⟩ := List.mem_map.mp hmem
    rw [toLower_eq_iff (by decide) (by decide)] at heq
    exact ht (heq ▸ hc)
  obtain ⟨body, hbody, rfl | rfl⟩ := h
  · exact ⟨Bash.lower token, hquote hbody, Or.inl rfl⟩
  · refine ⟨Bash.lower body, hquote hbody, Or.inr ?_⟩
    rw [List.cons_append, List.cons_append]
    have hcons (c : Char) (t : Text) : Bash.lower (c :: t) = c.toLower :: Bash.lower t := rfl
    rw [hcons, lower_append]
    rfl

/-- What stands between quotes in the line of a key, with something after it, is the key. -/
theorem key_of_rootLine {x d : Text} (hn : IsKey name) (hk : IsKey key) (h : Enclosed token)
    (hd : d ≠ []) (heq : rootLine name token = x ++ '"' :: (key ++ '"' :: d)) : name = key := by
  have hline : rootLine name token = text "[" ++ '"' :: (name ++ '"' :: (text "]\t" ++ token)) :=
    rfl
  have htab : text "]\t" ≠ key := by
    rintro rfl
    exact absurd hk (by decide)
  have hfree {t : Text} (ht : '"' ∉ t) : '"' ∉ text "]\t" ++ t := by
    rw [List.mem_append, not_or]
    exact ⟨by decide, ht⟩
  rw [hline] at heq
  rcases append_cons_cases (by decide) heq with ⟨-, heq⟩ | ⟨y, -, heq⟩
  · exact (append_cons_inj (quote_not_mem_key hn) (quote_not_mem_key hk) heq).1
  rcases append_cons_cases (quote_not_mem_key hn) heq with ⟨-, heq⟩ | ⟨z, -, heq⟩
  · obtain ⟨body, hbody, rfl | rfl⟩ := h
    · exact absurd (by simp [heq]) (hfree hbody)
    · exact absurd (append_cons_inj (by decide) (quote_not_mem_key hk) heq).1 htab
  · obtain ⟨body, hbody, rfl | rfl⟩ := h
    · exact absurd (by simp [heq]) (hfree hbody)
    · rcases append_cons_cases (by decide) heq with ⟨-, heq⟩ | ⟨w, -, heq⟩
      · exact absurd (append_cons_inj hbody (quote_not_mem_key hk) heq).2.symm hd
      · rcases append_cons_cases hbody heq with ⟨-, heq⟩ | ⟨v, -, heq⟩
        · simp at heq
        · simp at heq

/-- The query for a key finds its line only. -/
theorem inOrderCI_rootLine (hn : IsKey name) (hk : IsKey key) (h : Enclosed token) :
    inOrderCI (query .any key) (rootLine name token) = true ↔ name = key := by
  have hquery : (query .any key).map lower = [text "[", '"' :: (key ++ ['"']), text "]"] := by
    have hcons (c : Char) (t : Text) : lower (c :: t) = c.toLower :: lower t := rfl
    simp only [query, List.map_cons, List.map_nil, List.cons_append, hcons, lower_append,
      lower_key hk]
    rfl
  have hlower : lower (rootLine name token) = rootLine name (lower token) :=
    lower_rootLine hn token
  rw [inOrderCI, hquery, hlower, inOrder_cons]
  constructor
  · rintro ⟨a, b, heq, hb⟩
    obtain ⟨x, y, rfl, hy⟩ := (inOrder_cons _ _ _).mp hb
    have hne : y ≠ [] := by
      rintro rfl
      cases hy
    exact key_of_rootLine (x := a ++ text "[" ++ x) hn hk h.lower hne (by simpa using heq)
  · rintro rfl
    refine ⟨[], '"' :: (name ++ '"' :: (text "]\t" ++ lower token)), rfl, ?_⟩
    refine (inOrder_cons _ _ _).mpr ⟨[], text "]\t" ++ lower token, by simp, ?_⟩
    exact (inOrder_cons _ _ _).mpr ⟨[], '\t' :: lower token, rfl, rfl⟩

/-- What `json -b` prints of an object of leaves that stands alone. -/
def rootLines (pairs : List (Text × Text)) : List Text :=
  (pairs.filter (fun p => p.2 ≠ text "\"\"")).map (fun p => rootLine p.1 p.2)

/-- A key and a value as `field` finds them. -/
structure SoundPair (p : Text × Text) : Prop where
  key : IsKey p.1
  enclosed : Enclosed p.2
  line : Line p.2
  tab : '\t' ∉ p.2

theorem filter_key {p : Text × Text} (h : (pairs.map Prod.fst).Nodup) (hp : p ∈ pairs) :
    pairs.filter (fun q => q.1 = p.1) = [p] := by
  induction pairs with
  | nil => cases hp
  | cons q pairs ih =>
    rw [List.map_cons, List.nodup_cons] at h
    have hother {r : Text × Text} (hr : r ∈ pairs) : r.1 ≠ q.1 :=
      fun heq => h.1 (heq ▸ List.mem_map_of_mem hr)
    rcases List.mem_cons.mp hp with rfl | hp
    · have hnone : pairs.filter (fun r => r.1 = p.1) = [] := by
        rw [List.filter_eq_nil_iff]
        intro r hr
        simpa using hother hr
      rw [List.filter_cons_of_pos (by simp), hnone]
    · have hne := (hother hp).symm
      rw [List.filter_cons_of_neg (by simpa using hne), ih h.2 hp]

theorem cut_rootLine (hn : IsKey name) (htab : '\t' ∉ token) :
    cut '\t' 2 (rootLine name token) = token := by
  have hline : rootLine name token = ('[' :: '"' :: (name ++ text "\"]")) ++ '\t' :: token := by
    simp [rootLine]
    rfl
  have hname : '\t' ∉ name := fun hmem => absurd (hn '\t' hmem) (by decide)
  rw [hline]
  apply cut_two_last _ htab
  simp [hname]
  decide

theorem lines_rootLines (h : ∀ p ∈ pairs, SoundPair p) :
    lines (echo [capture (unlines (rootLines pairs))]) =
      if rootLines pairs = [] then [[]] else rootLines pairs := by
  apply lines_echo_capture
  · intro l hl
    obtain ⟨p, hp, rfl⟩ := List.mem_map.mp hl
    have hs := h p (List.mem_filter.mp hp).1
    have hname : '\n' ∉ p.1 := fun hmem => absurd (hs.key '\n' hmem) (by decide)
    have hvalue : '\n' ∉ p.2 := hs.line
    simp [Line, rootLine, hname, hvalue]
    decide
  · intro l hl
    obtain ⟨p, -, rfl⟩ := List.mem_map.mp hl
    exact List.cons_ne_nil _ _
  · intro l hl
    obtain ⟨p, -, rfl⟩ := List.mem_map.mp hl
    simp [rootLine]

/-- What `field` prints for a key of an object that stands alone. -/
theorem field_rootLines (h : ∀ p ∈ pairs, SoundPair p) (hk : IsKey key) :
    field (capture (unlines (rootLines pairs))) .any key =
      (pairs.filter (fun p => p.2 ≠ text "\"\"" && p.1 = key)).map (fun p => unquote p.2) := by
  have hfilter : (rootLines pairs).filter (inOrderCI (query .any key)) =
      (pairs.filter (fun p => p.2 ≠ text "\"\"" && p.1 = key)).map
        (fun p => rootLine p.1 p.2) := by
    rw [rootLines, List.filter_map, List.filter_filter]
    refine congrArg _ (List.filter_congr fun p hp => ?_)
    have hiff := inOrderCI_rootLine (h p hp).key hk (h p hp).enclosed
    rw [Bool.and_comm]
    congr 1
    exact Bool.eq_iff_iff.mpr (by simpa using hiff)
  have hlines : (lines (echo [capture (unlines (rootLines pairs))])).filter
      (inOrderCI (query .any key)) = (rootLines pairs).filter (inOrderCI (query .any key)) := by
    rw [lines_rootLines h]
    split
    · rename_i hnil
      have hblank : inOrderCI (query .any key) [] = false := by
        simp [inOrderCI, query, inOrder, lower]
      simp [hnil, hblank]
    · rfl
  rw [field, hlines, hfilter, List.map_map]
  refine List.map_congr_left fun p hp => ?_
  have hs := h p (List.mem_filter.mp hp).1
  simp [cut_rootLine hs.key hs.tab]

end Flat

section Kept

/-- The object in the comment of an account. -/
def commentPairs (uri : Text) (info : Literal) (service : Text) : List (Text × Text) :=
  [(text "uri", uri), (text "info", info.quoted), (text "service", service)]

def objectOf (pairs : List (Text × Text)) : List (Text × Val) :=
  pairs.map (fun p => (p.1, .one p.2))

variable {pairs : List (Text × Text)} {uri service : Text} {info : Literal}

theorem objectOut_root (pairs : List (Text × Text)) :
    objectOut (objectOf pairs) [] = rootLines pairs := by
  induction pairs with
  | nil => rfl
  | cons p pairs ih =>
    have hcons : objectOut (objectOf (p :: pairs)) [] =
        leafOut p.2 ('"' :: p.1 ++ ['"']) ++ objectOut (objectOf pairs) [] := rfl
    rw [hcons, ih, leafOut]
    by_cases hempty : p.2 = text "\"\""
    · simp [rootLines, hempty]
    · simp [rootLines, rootLine, hempty]

theorem tokenize_object (h : ∀ m ∈ objectOf pairs, SoundMember m) (hne : pairs ≠ []) :
    tokenize (objectText (objectOf pairs) ++ ['\n']) = objectTokens (objectOf pairs) := by
  have hline : Line (objectText (objectOf pairs)) := by
    apply not_mem_objectText _ (by decide)
    intro m hm
    exact ⟨(⟨m.1, (h m hm).key⟩ : Literal).line, fun t ht => ((h m hm).value.scalars t ht).line⟩
  have htokens := (spelt_object h (by simpa [objectOf] using hne)).tokens []
  rw [List.append_nil] at htokens
  rw [tokenize_eq, lines_ended hline, lines, List.flatMap_singleton, htokens]
  exact List.append_nil _

theorem commentOf_eq (uri service : Text) (info : Literal) : commentOf uri info.body service =
    base64 (objectText (objectOf (commentPairs uri info service)) ++ ['\n']) := by
  have htext : text "\x7b \"uri\": " ++ uri ++ text ", \"info\": \"" ++ info.body ++
      text "\", \"service\": " ++ service ++ text " \x7d" =
        objectText (objectOf (commentPairs uri info service)) := by
    simp [objectText, objectOf, commentPairs, Val.text, Literal.quoted, List.intercalate]
    rfl
  have hopt : isOption (objectText (objectOf (commentPairs uri info service))) = false :=
    isOption_of_head (by simp [objectText])
  rw [commentOf, htext, echo_quoted hopt]

theorem isOption_base64 (t : Text) : isOption (base64 t) = false := by
  apply isOption_of_head
  intro hhead
  exact not_mem_base64 (by decide) t (List.mem_of_mem_head? hhead)

def keywords : List Text := [text "null", text "false", text "true"]

/-- A keyword is letters. -/
theorem isLower_keyword {t : Text} (h : t ∈ keywords) : ∀ c ∈ t, c.isLower = true := by
  have hall : ∀ t ∈ keywords, ∀ c ∈ t, c.isLower = true := by decide
  exact hall t h

theorem IsScalar.keyword {t : Text} (h : t ∈ keywords) : IsScalar t where
  leaf := by
    have hall : ∀ t ∈ keywords, t ≠ text "\x7b" ∧ t ≠ text "[" ∧ isNoValue t = false := by decide
    obtain ⟨hobject, harray, hvalue⟩ := hall t h
    exact ⟨hobject, harray, hvalue⟩
  spelt := ⟨tokens_keyword h⟩
  line := (token_bare fun c hc => Or.inr (isLower_keyword h c hc)).line
  bare hmem := absurd (isLower_keyword h _ hmem) (by decide)

theorem SoundPair.keyword {name t : Text} (hn : IsKey name) (h : t ∈ keywords) :
    SoundPair (name, t) where
  key := hn
  enclosed := ⟨t, fun hmem => absurd (isLower_keyword h _ hmem) (by decide), Or.inl rfl⟩
  line := (IsScalar.keyword h).line
  tab hmem := absurd (isLower_keyword h _ hmem) (by decide)

theorem IsScalar.sound {token : Text} (h : IsScalar token) : Val.Sound (.one token) :=
  ⟨fun _ hmem => List.mem_singleton.mp hmem ▸ h⟩

theorem SoundPair.quoted {name : Text} {l : Literal} (hn : IsKey name) (hquote : '"' ∉ l.body) :
    SoundPair (name, l.quoted) where
  key := hn
  enclosed := ⟨l.body, hquote, Or.inr rfl⟩
  line := l.token.line
  tab := l.token.tab

/-- What `createusers` puts in a comment without quotes: a keyword, or a string without quotes in
it. -/
def IsPart (token : Text) : Prop :=
  token ∈ keywords ∨ ∃ l : Literal, token = l.quoted ∧ '\\' ∉ l.body ∧ '"' ∉ l.body

theorem IsPart.scalar {token : Text} (h : IsPart token) : IsScalar token := by
  rcases h with h | ⟨l, rfl, hslash, -⟩
  · exact .keyword h
  · exact .quoted hslash

theorem IsPart.pair {name token : Text} (hn : IsKey name) (h : IsPart token) :
    SoundPair (name, token) := by
  rcases h with h | ⟨l, rfl, -, hquote⟩
  · exact .keyword hn h
  · exact .quoted hn hquote

/-- What is found of a part is the part without its quotes, also where it is empty. -/
theorem IsPart.found {token : Text} (h : IsPart token) :
    Line (unquote token) ∧ (token = text "\"\"" → unquote token = []) := by
  rcases h with h | ⟨l, rfl, -, -⟩
  · have hbare := unquote_bare fun c hc => Or.inr (isLower_keyword h c hc)
    have hall : ∀ t ∈ keywords, t ≠ text "\"\"" := by decide
    rw [hbare]
    exact ⟨(IsScalar.keyword h).line, fun hempty => absurd hempty (hall token h)⟩
  · rw [l.unquote]
    exact ⟨l.line, l.quoted_eq_empty.mp⟩

/-- The parts of a comment. -/
structure SoundComment (uri : Text) (info : Literal) (service : Text) : Prop where
  uri : IsPart uri
  service : IsPart service
  slash : '\\' ∉ info.body
  quote : '"' ∉ info.body

theorem SoundComment.part (h : SoundComment uri info service) {p : Text × Text}
    (hp : p ∈ commentPairs uri info service) : IsKey p.1 ∧ IsPart p.2 := by
  have hkeys : ∀ name ∈ [text "uri", text "info", text "service"], IsKey name := by decide
  have hkey : p.1 ∈ [text "uri", text "info", text "service"] :=
    List.mem_map_of_mem (f := Prod.fst) hp
  refine ⟨hkeys _ hkey, ?_⟩
  simp only [commentPairs, List.mem_cons, List.not_mem_nil, or_false] at hp
  rcases hp with rfl | rfl | rfl
  · exact h.uri
  · exact Or.inr ⟨info, rfl, h.slash, h.quote⟩
  · exact h.service

theorem isStringBody_key {name : Text} (hn : IsKey name) : isStringBody false name = true := by
  apply isStringBody_of
  intro c hc
  have hlower := hn c hc
  refine ⟨?_, ?_, isControl_of_alphanum (by simp [Char.isAlphanum, isAlpha_eq, hlower])⟩
  · rintro rfl
    cases hlower
  · rintro rfl
    cases hlower

theorem SoundComment.members (h : SoundComment uri info service) :
    ∀ m ∈ objectOf (commentPairs uri info service), SoundMember m := by
  intro m hm
  obtain ⟨p, hp, rfl⟩ := List.mem_map.mp hm
  obtain ⟨hkey, hpart⟩ := h.part hp
  exact ⟨isStringBody_key hkey, hpart.scalar.sound⟩

/-- What was put in a comment is read back from it. -/
theorem keptOf_commentOf (h : SoundComment uri info service) :
    keptOf (commentOf uri info.body service) = ⟨info.body, unquote service, unquote uri⟩ := by
  have hpairs : ∀ p ∈ commentPairs uri info service, SoundPair p :=
    fun p hp => (h.part hp).2.pair (h.part hp).1
  have hdecoded : unbase64 (echo [commentOf uri info.body service]) =
      objectText (objectOf (commentPairs uri info service)) ++ ['\n'] := by
    rw [commentOf_eq, echo_quoted (isOption_base64 _), unbase64_base64]
  have hreads := reads_object h.members
  rw [← tokenize_object h.members (List.cons_ne_nil _ _)] at hreads
  have hjson := json_eq hreads
  rw [objectOut_root] at hjson
  have hkeys : ((commentPairs uri info service).map Prod.fst).Nodup := by
    have hnodup : [text "uri", text "info", text "service"].Nodup := by decide
    exact hnodup
  have hfound {t n : Text} (hp : (n, t) ∈ commentPairs uri info service) :
      capture (unlines
        (field (capture (json (unbase64 (echo [commentOf uri info.body service])))) .any n)) =
        unquote t := by
    obtain ⟨hline, hempty⟩ := (h.part hp).2.found
    rw [hdecoded, hjson, field_rootLines hpairs (h.part hp).1, ← List.filter_filter,
      filter_key hkeys hp]
    by_cases ht : t = text "\"\""
    · rw [List.filter_cons_of_neg (by simp [ht]), hempty ht]
      rfl
    · rw [List.filter_cons_of_pos (by simp [ht])]
      exact capture_unlines_singleton hline
  have hinfo := hfound (t := info.quoted) (n := text "info") (by simp [commentPairs])
  have hservice := hfound (t := service) (n := text "service") (by simp [commentPairs])
  have huri := hfound (t := uri) (n := text "uri") (by simp [commentPairs])
  have hsome : (parse (tokenize (unbase64 (echo [commentOf uri info.body service])))).2.isSome =
      true := by
    rw [hdecoded, parse_eq hreads]
    rfl
  rw [info.unquote] at hinfo
  rw [keptOf, if_pos hsome]
  simp only [hinfo, hservice, huri]

end Kept

end HackerUnion.Sbin
