import HackerUnion.Sbin.Users
import Mathlib.Data.List.Nodup

namespace HackerUnion.Sbin

open Bash

section Found

variable {home : Home} {h : Host home} {a : Account} {accounts : List Account}
  {glob : Text → List Text} {i : Nat}

namespace Account

/-- What is found of a URI is a number or a keyword that was printed. -/
theorem uriFound_cases (ha : a.Ordinary h) : a.uriFound = [] ∨
    ∃ token ts, a.uriFound = [(text "uri", token)] ∧ a.uriTokens = token :: ts ∧ token ≠ [] ∧
      isNoValue token = false ∧ ∀ c ∈ token, isValueChar c = true := by
  have hchars := a.uriText_chars ha
  by_cases hne : a.uriText = []
  · left
    have hnil : a.uriTokens = [] := by
      rw [uriTokens, hne]
      rfl
    rw [uriFound, hnil]
  · obtain ⟨ts, hts⟩ := tokens_first (fun c hc => (hchars c hc).1) hne
    have htokens : a.uriTokens = a.uriText.take (matchLength a.uriText) :: ts := hts
    cases hvalue : isNoValue (a.uriText.take (matchLength a.uriText)) with
    | true =>
      left
      rw [uriFound, htokens]
      simp [hvalue]
    | false =>
      right
      refine ⟨_, ts, ?_, htokens, ?_, hvalue, value_chars (fun c hc => (hchars c hc).1) hvalue⟩
      · rw [uriFound, htokens]
        simp [hvalue]
      · intro hnil
        rw [hnil] at hvalue
        cases hvalue

/-- The value of the URI that is found. -/
def uriValue (a : Account) : Text := (a.uriFound.head?.map Prod.snd).getD []

theorem unquote_value {token : Text} (h : ∀ c ∈ token, isValueChar c = true) :
    unquote token = token := by
  unfold unquote
  rw [if_neg]
  rintro ⟨-, hhead, -⟩
  have hmem : '"' ∈ token := List.mem_of_mem_head? (by simp [hhead])
  exact absurd (h _ hmem) (by decide)

theorem token_value {token : Text} (h : ∀ c ∈ token, isValueChar c = true) : Token token := by
  have hno (c : Char) (hc : isValueChar c = false) : c ∉ token := by
    intro hmem
    rw [h c hmem] at hc
    cases hc
  refine ⟨hno _ (by decide), hno _ (by decide), ?_⟩
  have hcomma := noKey_append (hno ',' (by decide)) []
  rw [List.append_nil] at hcomma
  exact hcomma

theorem token_part {token : Text} (h : IsPart token) : Token token := by
  rcases h with h | ⟨l, rfl, -, -⟩
  · exact token_bare fun c hc => Or.inr (isLower_keyword h c hc)
  · exact l.token

theorem leaves_eq (a : Account) : a.leaves = a.pairs.map (fun p => ⟨p.1, none, p.2⟩) := by
  rw [leaves, leavesOf, objectOf, List.flatMap_map, List.map_eq_flatMap]
  rfl

theorem sound_leaves (ha : a.Ordinary h) : ∀ leaf ∈ a.leaves, leaf.Sound := by
  intro leaf hleaf
  rw [a.leaves_eq] at hleaf
  obtain ⟨p, hp, rfl⟩ := List.mem_map.mp hleaf
  rcases List.mem_append.mp hp with hp | hp
  · exact ⟨isKey_regular hp, token_part (isPart_regular ha.info hp)⟩
  · rcases a.uriFound_cases ha with hnone | ⟨token, -, hfound, -, -, -, hchars⟩
    · rw [hnone] at hp
      cases hp
    · rw [hfound] at hp
      rw [List.mem_singleton.mp hp]
      exact ⟨show IsKey (text "uri") by decide, token_value hchars⟩

end Account

theorem sound_accounts (hall : ∀ a ∈ accounts, a.Ordinary h) :
    ∀ leaves ∈ accounts.map Account.leaves, ∀ leaf ∈ leaves, leaf.Sound := by
  intro leaves hleaves
  obtain ⟨a, ha, rfl⟩ := List.mem_map.mp hleaves
  exact a.sound_leaves (hall a ha)

/-- What `field` prints for a key of an entry. -/
theorem field_pairs (hall : ∀ a ∈ accounts, a.Ordinary h) (hi : accounts[i]? = some a)
    {key : Text} (hkey : IsKey key) :
    field (flat (accounts.map Account.leaves)) (.at i) key =
      ((a.pairs.filter (fun q => q.1 = key)).filter (fun q => q.2 ≠ text "\"\"")).map
        (fun q => unquote q.2) := by
  have hleaves : (accounts.map Account.leaves)[i]? = some a.leaves := by simp [hi]
  rw [field_flat (sound_accounts hall) hkey, hleaves, Option.getD_some, a.leaves_eq,
    List.filter_map, List.map_map, List.filter_filter]
  rfl

theorem Account.filter_regular {p : Text × Text} (hp : p ∈ a.regular) :
    a.regular.filter (fun q => q.1 = p.1) = [p] := by
  apply filter_key _ hp
  have hnodup : Account.keys.Nodup := by decide
  exact hnodup

theorem Account.uri_not_mem_keys {p : Text × Text} (hp : p ∈ a.regular) : p.1 ≠ text "uri" := by
  have hall : ∀ name ∈ Account.keys, name ≠ text "uri" := by decide
  exact hall _ (List.mem_map_of_mem (f := Prod.fst) hp)

theorem Account.key_uriFound {q : Text × Text} (hq : q ∈ a.uriFound) : q.1 = text "uri" := by
  unfold uriFound at hq
  split at hq
  · cases hq
  · split at hq
    · cases hq
    · rw [List.mem_singleton.mp hq]

/-- The values before the URI come back without their quotes. -/
theorem field_regular (hall : ∀ a ∈ accounts, a.Ordinary h) (hi : accounts[i]? = some a)
    {p : Text × Text} (hp : p ∈ a.regular) :
    capture (unlines (field (flat (accounts.map Account.leaves)) (.at i) p.1)) = unquote p.2 := by
  have huri : a.uriFound.filter (fun q => q.1 = p.1) = [] := by
    rw [List.filter_eq_nil_iff]
    intro q hq
    simpa [Account.key_uriFound hq] using (Account.uri_not_mem_keys hp).symm
  obtain ⟨hline, hempty⟩ :=
    (Account.isPart_regular (hall a (List.mem_of_getElem? hi)).info hp).found
  rw [field_pairs hall hi (Account.isKey_regular hp), Account.pairs, List.filter_append, huri,
    List.append_nil, Account.filter_regular hp]
  by_cases ht : p.2 = text "\"\""
  · rw [List.filter_cons_of_neg (by simp [ht]), hempty ht]
    rfl
  · rw [List.filter_cons_of_pos (by simp [ht])]
    exact capture_unlines_singleton hline

theorem field_uri (hall : ∀ a ∈ accounts, a.Ordinary h) (hi : accounts[i]? = some a) :
    capture (unlines (field (flat (accounts.map Account.leaves)) (.at i) (text "uri"))) =
      a.uriValue := by
  have hregular : a.regular.filter (fun q => q.1 = text "uri") = [] := by
    rw [List.filter_eq_nil_iff]
    intro q hq
    simpa using Account.uri_not_mem_keys hq
  have hfound : a.uriFound.filter (fun q => q.1 = text "uri") = a.uriFound := by
    rw [List.filter_eq_self]
    intro q hq
    simpa using Account.key_uriFound hq
  rw [field_pairs hall hi (by decide), Account.pairs, List.filter_append, hregular, hfound,
    List.nil_append, Account.uriValue]
  rcases a.uriFound_cases (hall a (List.mem_of_getElem? hi)) with
    hnone | ⟨token, -, hsome, -, -, -, hchars⟩
  · rw [hnone]
    rfl
  · have hempty : token ≠ text "\"\"" := by
      rintro rfl
      exact absurd (hchars '"' (by decide)) (by decide)
    rw [hsome, List.filter_cons_of_pos (by simp [hempty]), List.filter_nil, List.map_singleton,
      Account.unquote_value hchars]
    exact capture_unlines_singleton (Account.token_value hchars).line

theorem last_users (hall : ∀ a ∈ accounts, a.Ordinary h) :
    last (flat (accounts.map Account.leaves)) = (accounts.length : Int) - 1 := by
  rw [last_flat (sound_accounts hall), List.length_map]
  intro leaves hleaves
  obtain ⟨a, -, rfl⟩ := List.mem_map.mp hleaves
  refine ⟨⟨text "username", none, quoted a.name.body⟩, ?_, ?_⟩
  · rw [a.leaves_eq]
    exact List.mem_map.mpr ⟨(text "username", quoted a.name.body),
      by simp [Account.pairs, Account.regular], rfl⟩
  · exact printed_name a.name _ _

/-- The number of an entry has no service in it. -/
theorem serviceField_eq (i : Nat) : serviceField i = [] := by
  have hline : Line (decimal i) := not_mem_decimal (by decide) i
  have hopt : isOption (decimal i) = false := by
    apply isOption_of_head
    intro hhead
    exact not_mem_decimal (by decide) i (List.mem_of_mem_head? hhead)
  have hnone : inOrderCI [text "[service,\"\"", text "]"] (decimal i) = false := by
    rw [Bool.eq_false_iff]
    intro hmatch
    rw [inOrderCI, lower_decimal] at hmatch
    obtain ⟨x, y, heq, -⟩ := (inOrder_cons _ _ _).mp hmatch
    have hmem : '[' ∈ decimal i := by
      rw [heq]
      have hopen : '[' ∈ lower (text "[service,\"\"") := by decide
      exact List.mem_append_left _ (List.mem_append_right _ hopen)
    exact not_mem_decimal (by decide) i hmem
  rw [serviceField, echo_quoted hopt, lines_ended hline]
  simp [lines, hnone]

/-- No service is found for any entry. -/
theorem bool_serviceField (glob : Text → List Text) (i : Nat) :
    bool ((expand glob (capture (unlines (serviceField i)))).headD []) = [] := by
  rw [serviceField_eq]
  rfl

/-- A word that is no pattern is itself. -/
theorem expand_word {w : Text} (hne : w ≠ []) (hblank : ∀ c ∈ w, isBlank c = false)
    (hpattern : isPattern w = false) : expand glob w = [w] := by
  have hwords := words_word hne hblank
  have hmatch : NoMatch glob w := by
    intro v hv hp
    rw [hwords, List.mem_singleton] at hv
    rw [hv, hpattern] at hp
    cases hp
  rw [expand_noMatch hmatch, hwords]

theorem isPattern_of {w : Text} (h : ∀ c ∈ w, c ∉ ['*', '?', '[']) : isPattern w = false := by
  rw [isPattern, List.any_eq_false]
  intro c hc
  have hnot := h c hc
  simp only [List.mem_cons, List.not_mem_nil, or_false, not_or] at hnot
  simp [hnot]

theorem expand_name (n : Name) : expand glob n.body = [n.body] := by
  apply expand_word n.ne_nil
  · exact fun c hc => isBlank_nameChar (n.isNameChar_of_mem hc)
  · apply isPattern_of
    intro c hc hspecial
    have hall : ∀ c ∈ ['*', '?', '['], isNameChar c = false := by decide
    have hname := n.isNameChar_of_mem hc
    rw [hall c hspecial] at hname
    cases hname

theorem expand_uriValue (ha : a.Ordinary h) : (expand glob a.uriValue).headD [] = a.uriValue := by
  rw [Account.uriValue]
  rcases a.uriFound_cases ha with hnone | ⟨token, -, hsome, -, hne, -, hchars⟩
  · rw [hnone]
    rfl
  · have hnot {c : Char} (hc : isValueChar c = false) : c ∉ token := by
      intro hmem
      rw [hchars c hmem] at hc
      cases hc
    have hblank : ∀ c ∈ token, isBlank c = false := by
      intro c hc
      by_contra hblank
      simp only [Bool.not_eq_false, isBlank, Bool.or_eq_true, decide_eq_true_eq] at hblank
      rcases hblank with (rfl | rfl) | rfl
      all_goals exact hnot (by decide) hc
    have hpattern : isPattern token = false := by
      apply isPattern_of
      intro c hc hspecial
      have hall : ∀ c ∈ ['*', '?', '['], isValueChar c = false := by decide
      exact hnot (hall c hspecial) hc
    rw [hsome, List.head?_cons, Option.map_some, Option.getD_some,
      expand_word hne hblank hpattern]
    rfl

/-- The user that an entry gives: no service, and what is found of the URI. -/
def Account.found (home : Home) (a : Account) : User :=
  { a.user home with
    comment := commentOf (nullstring a.uriValue) a.info (text "false")
    system := false }

/-- An entry gives its user, where the name and the number are not taken. -/
theorem createUser_eq (hall : ∀ a ∈ accounts, a.Ordinary h) (hi : accounts[i]? = some a)
    {users : List User} (hname : ∀ u ∈ users, u.name ≠ a.name.body)
    (huid : ∀ u ∈ users, u.uid ≠ decimal a.uid) :
    createUser glob home.path (flat (accounts.map Account.leaves)) users i =
      users ++ [a.found home] := by
  have ha := hall a (List.mem_of_getElem? hi)
  have hquoted {n t : Text} (hp : (n, quoted t) ∈ a.regular) :
      capture (unlines (field (flat (accounts.map Account.leaves)) (.at i) n)) = t := by
    have hvalue := field_regular (p := (n, quoted t)) hall hi hp
    simp only at hvalue
    rw [hvalue]
    simp [unquote, quoted, List.getLast?_cons]
  have hfree : users.any (fun u => u.name = a.name.body || u.uid = decimal a.uid) = false := by
    rw [List.any_eq_false]
    intro u hu
    simp [hname u hu, huid u hu]
  have husername := hquoted (n := text "username") (t := a.name.body) (by simp [Account.regular])
  have hpassword := hquoted (n := text "password") (t := a.password) (by simp [Account.regular])
  have hnumber := hquoted (n := text "uid") (t := decimal a.uid) (by simp [Account.regular])
  have hgid := hquoted (n := text "gid") (t := decimal a.gid) (by simp [Account.regular])
  have hinfo := hquoted (n := text "info") (t := a.info) (by simp [Account.regular])
  have hshell := hquoted (n := text "shell") (t := a.shell) (by simp [Account.regular])
  simp only [createUser, bool_serviceField, field_uri hall hi, expand_uriValue ha, husername,
    expand_name, hpassword, hnumber, hgid, hinfo, hshell, useradd, hfree, if_true,
    Bool.false_eq_true, if_false]
  rfl

theorem Name.eq_of_body {m n : Name} (h : m.body = n.body) : m = n := by
  cases m
  cases n
  cases h
  rfl

/-- The entries up to a number give the users up to it. -/
theorem foldl_createUser (hall : ∀ a ∈ accounts, a.Ordinary h)
    (hnames : (accounts.map Account.name).Nodup) (huids : (accounts.map Account.uid).Nodup)
    (n : Nat) (hn : n ≤ accounts.length) :
    (List.range n).foldl (createUser glob home.path (flat (accounts.map Account.leaves))) [] =
      (accounts.take n).map (Account.found home) := by
  induction n with
  | zero => rfl
  | succ n ih =>
    have hi : accounts[n]? = some (accounts[n]) := List.getElem?_eq_getElem hn
    have hother {β : Type} (f : Account → β) (hf : (accounts.map f).Nodup) :
        ∀ a ∈ accounts.take n, f a ≠ f (accounts[n]) := by
      intro a ha
      have hnodup := hf.sublist ((List.take_sublist (n + 1) accounts).map f)
      rw [List.take_succ_eq_append_getElem hn, List.map_append, List.nodup_append] at hnodup
      exact hnodup.2.2 (f a) (List.mem_map_of_mem ha) (f (accounts[n])) (by simp)
    rw [List.range_succ, List.foldl_append, ih (Nat.le_of_succ_le hn), List.foldl_cons,
      List.foldl_nil, createUser_eq hall hi, List.take_succ_eq_append_getElem hn, List.map_append,
      List.map_singleton]
    · intro u hu heq
      obtain ⟨a, ha, rfl⟩ := List.mem_map.mp hu
      exact hother Account.name hnames a ha (Name.eq_of_body heq)
    · intro u hu heq
      obtain ⟨a, ha, rfl⟩ := List.mem_map.mp hu
      exact hother Account.uid huids a ha (decimal_injective heq)

theorem reached_front (accounts : List Account) : reached accounts <+: accounts := by
  rcases reached_cases accounts with ⟨heq, -⟩ | ⟨before, a, after, rfl, heq, -, -⟩
  · rw [heq]
  · rw [heq]
    exact ⟨after, by simp⟩

/-- The accounts after the ones of a host were saved: those that are reached, as they are found. -/
theorem recreated_eq (hall : ∀ a ∈ h.members, a.Ordinary h) :
    h.recreated glob = (reached h.members).map (Account.found home) := by
  have hfront := reached_front h.members
  have hreached : ∀ a ∈ reached h.members, a.Ordinary h :=
    fun a ha => hall a (hfront.subset ha)
  have hcount : (last (flat ((reached h.members).map Account.leaves)) + 1).toNat =
      (reached h.members).length := by
    rw [last_users hreached]
    omega
  have hnames := h.names.sublist (hfront.sublist.map Account.name)
  have huids := h.uids.sublist (hfront.sublist.map Account.uid)
  rw [Host.recreated, createusers, json_saveusers hall, hcount,
    foldl_createUser hreached hnames huids _ (le_refl _), List.take_length]

end Found

section Service

variable {home : Home} {h : Host home} {a : Account} {glob : Text → List Text}

theorem mem_useradd {users : List User} {names : List Text} {user : Text → User} {u : User}
    (hu : u ∈ useradd users names user) : u ∈ users ∨ ∃ name, u = user name := by
  unfold useradd at hu
  split at hu
  · split at hu
    · exact Or.inl hu
    · rcases List.mem_append.mp hu with hu | hu
      · exact Or.inl hu
      · exact Or.inr ⟨_, List.mem_singleton.mp hu⟩
  · exact Or.inl hu

/-- Whatever the file is, no account is created with a service. -/
theorem comment_createusers {root file : Text} {u : User} (hu : u ∈ createusers glob root file) :
    ∃ uri info, u.comment = commentOf uri info (text "false") := by
  have hrun (json : Text) (is : List Nat) (users : List User)
      (husers : ∀ u ∈ users, ∃ uri info, u.comment = commentOf uri info (text "false")) :
      ∀ u ∈ is.foldl (createUser glob root json) users,
        ∃ uri info, u.comment = commentOf uri info (text "false") := by
    induction is generalizing users with
    | nil => exact husers
    | cons i is ih =>
      apply ih
      intro u hu
      simp only [createUser, bool_serviceField] at hu
      rcases mem_useradd hu with hu | ⟨name, rfl⟩
      · exact husers u hu
      · exact ⟨_, _, rfl⟩
  exact hrun _ _ [] (by simp) u hu

theorem echo_comment (uri info service : Text) : echo [text "\x7b \"uri\": " ++ uri ++
    text ", \"info\": \"" ++ info ++ text "\", \"service\": " ++ service ++ text " \x7d"] =
      text "\x7b \"uri\": " ++ uri ++ text ", \"info\": \"" ++ info ++
        text "\", \"service\": " ++ (service ++ text " \x7d\n") := by
  have hopt : isOption (text "\x7b \"uri\": " ++ uri ++ text ", \"info\": \"" ++ info ++
      text "\", \"service\": " ++ service ++ text " \x7d") = false := by
    apply isOption_of_head
    simp
    decide
  rw [echo_quoted hopt]
  simp
  rfl

theorem commentOf_service (uri uri' info info' : Text) :
    commentOf uri info (text "true") ≠ commentOf uri' info' (text "false") := by
  intro heq
  have htexts := base64_injective heq
  rw [echo_comment, echo_comment] at htexts
  have hlast := congrArg (fun t => t.reverse[4]?) htexts
  simp only [List.reverse_append] at hlast
  cases hlast

theorem Account.not_service (hu : a.user home ∈ h.recreated glob) : a.service = false := by
  by_contra hservice
  rw [Bool.not_eq_false] at hservice
  obtain ⟨uri, info, hcomment⟩ := comment_createusers hu
  have ha : (a.user home).comment = a.comment := rfl
  rw [ha, Account.comment, hservice, if_pos rfl] at hcomment
  exact commentOf_service _ _ _ _ hcomment

end Service

section Recreated

variable {home : Home} {h : Host home} {a : Account} {glob : Text → List Text}

theorem commentOf_uri {uri uri' info service : Text}
    (heq : commentOf uri info service = commentOf uri' info service) : uri = uri' := by
  have htexts := base64_injective heq
  rw [echo_comment, echo_comment] at htexts
  simpa using htexts

theorem nullstring_eq {v : Text} (hline : Line v) (hslash : '\\' ∉ v) :
    nullstring v = if v = text "null" then text "null" else quoted v := by
  have hmem : text "null" ∈ lines (echo [text "-e", v]) ↔ v = text "null" := by
    cases hopt : isOption v with
    | false =>
      rw [echo_e_quoted hopt hslash, lines_ended hline]
      simp [lines, eq_comm]
    | true =>
      have hecho : ∃ o, echo [text "-e", v] = echoRest o [] :=
        ⟨v.tail.foldl EchoOptions.set ⟨true, true⟩, by
          have he : echo [text "-e", v] = echoWith ⟨true, true⟩ [v] := rfl
          rw [he, echoWith, hopt, if_pos rfl]
          rfl⟩
      obtain ⟨⟨newline, escapes⟩, ho⟩ := hecho
      rw [ho]
      constructor
      · intro hnull
        cases newline <;> cases escapes <;> exact absurd hnull (by decide)
      · rintro rfl
        cases hopt
  rw [nullstring]
  simp only [hmem]
  rfl

theorem uriTokens_some {u : Text} (hu : a.uri = some u) :
    a.uriTokens = tokens (capture (echo [u])) := by
  rw [Account.uriTokens, Account.uriText, hu, Option.elim_some]

/-- The first token of a text is the whole text only where it is the only one. -/
theorem tokens_whole {t : Text} {ts : List Text} (ht : ∀ c ∈ t, c ≠ '"' ∧ isSpace c = false)
    (h : tokens t = t :: ts) : ts = [] := by
  cases t with
  | nil => cases h
  | cons c u =>
    obtain ⟨ts', hfirst⟩ := tokens_first ht (List.cons_ne_nil c u)
    have htake : (c :: u).take (matchLength (c :: u)) = c :: u := by
      rw [hfirst] at h
      exact (List.cons.inj h).1
    have hlength := congrArg List.length htake
    rw [List.length_take, List.length_cons] at hlength
    have hrest : splitTokens (matchLength (c :: u) - 1) u = [] := by
      rw [splitTokens_skip, List.drop_eq_nil_of_le (by omega)]
      rfl
    have hone : (tokens (c :: u)).length ≤ 1 := by
      rw [tokens, splitTokens, hrest]
      exact List.length_filter_le _ _
    rw [h] at hone
    simpa using hone

/-- The condition on a URI that comes back, unless it is empty. -/
def IsValue (a : Account) (u : Text) : Prop :=
  a.uriTokens = [u] ∧ isNoValue u = false ∧ u ≠ text "null"

theorem nullstring_uri (ha : a.Ordinary h) {u : Text} (hu : a.uri = some u) :
    nullstring a.uriValue = quoted u ↔ IsValue a u ∨ u = [] := by
  have hempty : u = [] → a.uriTokens = [] := by
    rintro rfl
    rw [uriTokens_some hu]
    rfl
  have hquoted {v w : Text} : quoted v = quoted w ↔ v = w := by simp [quoted]
  rcases a.uriFound_cases ha with hnone | ⟨token, ts, hsome, htokens, hne, hvalue, hchars⟩
  · have hv : a.uriValue = [] := by
      rw [Account.uriValue, hnone]
      rfl
    have hnull : nullstring [] = quoted [] := by decide
    rw [hv, hnull, hquoted]
    constructor
    · exact fun hnil => Or.inr hnil.symm
    · rintro (⟨htokens, hvalue, -⟩ | hnil)
      · rw [Account.uriFound, htokens] at hnone
        simp [hvalue] at hnone
      · exact hnil.symm
  · have hv : a.uriValue = token := by
      rw [Account.uriValue, hsome]
      rfl
    have hslash : '\\' ∉ token := fun hmem => absurd (hchars _ hmem) (by decide)
    have hnot : u ≠ [] := by
      intro hnil
      rw [hempty hnil] at htokens
      cases htokens
    have hwhole : a.uriText = token → ts = [] := by
      intro heq
      apply tokens_whole (t := token)
      · intro c hc
        exact (a.uriText_chars ha c (heq ▸ hc)).1
      · rw [← htokens, Account.uriTokens, heq]
    rw [hv, nullstring_eq (Account.token_value hchars).line hslash]
    constructor
    · intro heq
      split at heq
      · have hhead := congrArg List.head? heq
        cases hhead
      · rename_i hnull
        have htoken := hquoted.mp heq
        subst htoken
        have htext : a.uriText = token := by
          have hline : Line token := (Account.token_value hchars).line
          rw [Account.uriText, hu, Option.elim_some, capture_echo hline]
          split
          · rename_i hopt
            have hnil : a.uriTokens = [] := by
              rw [uriTokens_some hu, capture_echo hline, if_pos hopt]
              rfl
            rw [hnil] at htokens
            cases htokens
          · rfl
        exact Or.inl ⟨by rw [htokens, hwhole htext], hvalue, hnull⟩
    · rintro (⟨hone, -, hnull⟩ | hnil)
      · rw [htokens] at hone
        rw [(List.cons.inj hone).1, if_neg hnull]
      · exact absurd hnil hnot

/-- An account comes back as it was where it has no service and the URI is found as it was. -/
theorem found_eq_iff (ha : a.Ordinary h) : a.found home = a.user home ↔
    a.service = false ∧ ∀ u ∈ a.uri, IsValue a u ∨ u = [] := by
  have hcomment : a.comment = commentOf a.uriPart a.info a.serviceText := rfl
  have huri : nullstring a.uriValue = a.uriPart ↔ ∀ u ∈ a.uri, IsValue a u ∨ u = [] := by
    cases hu : a.uri with
    | none =>
      have hvalue : a.uriValue = text "null" := by
        simp only [Account.uriValue, Account.uriFound, Account.uriTokens, Account.uriText, hu]
        rfl
      have hpart : a.uriPart = text "null" := by
        rw [Account.uriPart, hu]
        rfl
      rw [hvalue, hpart]
      constructor
      · intro _ u hu
        cases hu
      · intro _
        decide
    | some u =>
      have hpart : a.uriPart = quoted u := by
        rw [Account.uriPart, hu]
        rfl
      rw [hpart, nullstring_uri ha hu]
      simp
  rw [← huri]
  constructor
  · intro heq
    have hservice : a.service = false := (congrArg User.system heq).symm
    have hcomments : commentOf (nullstring a.uriValue) a.info (text "false") = a.comment :=
      congrArg User.comment heq
    have htext : a.serviceText = text "false" := by
      rw [Account.serviceText, hservice]
      rfl
    rw [hcomment, htext] at hcomments
    exact ⟨hservice, commentOf_uri hcomments⟩
  · rintro ⟨hservice, hnull⟩
    have htext : a.serviceText = text "false" := by
      rw [Account.serviceText, hservice]
      rfl
    rw [Account.found, hnull, ← htext, ← hcomment, ← hservice]
    rfl

/-- Every member has the account it had. -/
def Recreated (h : Host home) (users : List User) : Prop :=
  ∀ a ∈ h.members, a.user home ∈ users

/-- What comes back: an account without a service, with no URI, with one that is a number or a
keyword, or, as the last account, with an empty one. -/
structure Account.Returns (h : Host home) (a : Account) : Prop where
  service : a.service = false
  uri : ∀ u ∈ a.uri, IsValue a u ∨ u = [] ∧ h.members.getLast? = some a

theorem goesOn_value {u : Text} (hu : IsValue a u) : a.goesOn = true := by
  rw [Account.goesOn, hu.1]
  simp [isOne, hu.2.1]

theorem not_goesOn_empty (hu : a.uri = some []) : a.goesOn = false := by
  rw [Account.goesOn, uriTokens_some hu]
  rfl

theorem goesOn_none (hu : a.uri = none) : a.goesOn = true := by
  rw [Account.goesOn, Account.uriTokens, Account.uriText, hu]
  rfl

theorem members_nodup (h : Host home) : h.members.Nodup := List.Nodup.of_map _ h.names

/-- An account that comes back is reached and found as it was. -/
theorem found_of_recreated (hrec : Recreated h ((reached h.members).map (Account.found home)))
    (ha : a ∈ h.members) : a ∈ reached h.members ∧ a.found home = a.user home := by
  obtain ⟨b, hb, heq⟩ := List.mem_map.mp (hrec a ha)
  have hname : b.name = a.name := Name.eq_of_body (congrArg User.name heq)
  have hmem : b ∈ h.members := (reached_front h.members).subset hb
  have hsame : b = a := List.inj_on_of_nodup_map h.names hmem ha hname
  rw [← hsame]
  exact ⟨hb, hsame ▸ heq⟩

/-- Ordinary accounts come back exactly when none has a service or a URI in quotes. -/
theorem recreated_iff (hall : ∀ a ∈ h.members, a.Ordinary h) :
    Recreated h (h.recreated glob) ↔ ∀ a ∈ h.members, a.Returns h := by
  have hnodup := members_nodup h
  rw [recreated_eq hall]
  constructor
  · intro hrec a ha
    obtain ⟨hreached, hfound⟩ := found_of_recreated hrec ha
    obtain ⟨hservice, huri⟩ := (found_eq_iff (hall a ha)).mp hfound
    refine ⟨hservice, fun u hu => ?_⟩
    rcases huri u hu with hvalue | hnil
    · exact Or.inl hvalue
    · right
      refine ⟨hnil, ?_⟩
      have hstop : a.goesOn = false := not_goesOn_empty (by rw [← hnil]; exact hu)
      rcases reached_cases h.members with ⟨-, hgoes⟩ | ⟨before, b, after, heq, hr, hgoes, -⟩
      · rw [hgoes a ha] at hstop
        cases hstop
      · have hafter : after = [] := by
          rw [List.eq_nil_iff_forall_not_mem]
          intro c hc
          have hmem := (found_of_recreated hrec (a := c) (by rw [heq]; simp [hc])).1
          rw [hr] at hmem
          rw [heq, List.append_cons, List.nodup_append] at hnodup
          exact hnodup.2.2 c hmem c hc rfl
        rw [hr] at hreached
        rcases List.mem_append.mp hreached with hmem | hmem
        · rw [hgoes a hmem] at hstop
          cases hstop
        · rw [heq, hafter, List.mem_singleton.mp hmem]
          simp
  · intro hreturns
    have hreached : reached h.members = h.members := by
      rcases reached_cases h.members with ⟨heq, -⟩ | ⟨before, b, after, heq, hr, -, hstop⟩
      · exact heq
      · have hb : b ∈ h.members := by simp [heq]
        have hempty : b.uri = some [] ∧ h.members.getLast? = some b := by
          cases hu : b.uri with
          | none =>
            rw [goesOn_none hu] at hstop
            cases hstop
          | some u =>
            rcases (hreturns b hb).uri u hu with hvalue | ⟨rfl, hlast⟩
            · rw [goesOn_value hvalue] at hstop
              cases hstop
            · exact ⟨rfl, hlast⟩
        have hafter : after = [] := by
          by_contra hne
          have hlast := hempty.2
          rw [heq, List.append_cons, List.getLast?_append_of_ne_nil _ hne] at hlast
          rw [heq, List.append_cons, List.nodup_append] at hnodup
          exact hnodup.2.2 b (by simp) b (List.mem_of_getLast? hlast) rfl
        rw [hr, heq, hafter]
    intro a ha
    rw [hreached]
    have hfound : a.found home = a.user home := by
      rw [found_eq_iff (hall a ha)]
      refine ⟨(hreturns a ha).service, fun u hu => ?_⟩
      rcases (hreturns a ha).uri u hu with hvalue | ⟨hnil, -⟩
      · exact Or.inl hvalue
      · exact Or.inr hnil
    exact List.mem_map.mpr ⟨a, ha, hfound⟩

end Recreated

/-- Accounts that are saved and created again come back, where they are ordinary, exactly when none
has a service or a URI that is put in without the quotes it needs. With a service nothing comes
back. -/
theorem accounts_returned {home : Home} (glob : Text → List Text) (h : Host home) :
    ((∀ a ∈ h.members, a.Ordinary h) →
      (Recreated h (h.recreated glob) ↔ ∀ a ∈ h.members, a.Returns h)) ∧
    (Recreated h (h.recreated glob) → ∀ a ∈ h.members, a.service = false) :=
  ⟨recreated_iff, fun hrec a ha => a.not_service (hrec a ha)⟩

section Ann

def srv : Home where
  path := text "/srv/root/home"
  chars := by decide

/-- An account, with or without a service and a URI. -/
def ann (service : Bool) (uri : Option Text) (h : ∀ u ∈ uri, u.all isInfoChar = true) :
    Account where
  name := annName
  password := text "$6$salt$hash"
  uid := 1001
  gid := 100
  info := text "Ann, of New York"
  uri := uri
  shell := text "/bin/bash"
  service := service
  aging := text "19000:0:99999:7:::"
  password_chars := by decide
  shell_chars := by decide
  shell_end := by decide
  info_chars := by decide
  uri_chars := h

/-- A host with one member. -/
def hostOf (a : Account) (h : Line a.shadowLine) : Host srv where
  entries := [Sum.inr a]
  shadow := [a.shadowLine]
  shadow_lines := by
    intro l hl
    rw [List.mem_singleton.mp hl]
    exact h
  shadowed := by
    intro b hb
    rw [List.mem_singleton.mp hb]
    exact List.mem_singleton_self _
  names := List.nodup_singleton _
  uids := List.nodup_singleton _

theorem ordinary_ann {service : Bool} {uri : Option Text} {h : ∀ u ∈ uri, u.all isInfoChar = true}
    (hline : Line (ann service uri h).shadowLine)
    (huri : ∀ u ∈ uri, ∀ c ∈ u, c ∉ ['\\', ' ', '[', '\x7b', '\x7d']) :
    ∀ a ∈ (hostOf (ann service uri h) hline).members,
      a.Ordinary (hostOf (ann service uri h) hline) := by
  intro a ha
  rw [List.mem_singleton.mp ha]
  have hinfo : '\\' ∉ text "Ann, of New York" := by decide
  have hshadow : [(ann false none (by simp)).shadowLine].filter (beginsLike (text "ann")) =
      [(ann false none (by simp)).shadowLine] := by decide
  exact ⟨hinfo, huri, hshadow⟩

def bobName : Name := ⟨text "bob", by decide, by decide, by decide⟩

/-- An account with an empty URI. -/
def bob : Account where
  name := bobName
  password := text "$6$salt$other"
  uid := 1002
  gid := 100
  info := text "Bob"
  uri := some []
  shell := text "/bin/sh"
  service := false
  aging := text "19001:0:99999:7:::"
  password_chars := by decide
  shell_chars := by decide
  shell_end := by decide
  info_chars := by decide
  uri_chars := by decide

/-- A host with two members. -/
def annAndBob : Host srv where
  entries := [Sum.inr (ann false none (by simp)), Sum.inr bob]
  shadow := [text "root:*:19000:0:99999:7:::", (ann false none (by simp)).shadowLine,
    bob.shadowLine]
  shadow_lines := by decide
  shadowed := by decide
  names := by decide
  uids := by decide

theorem ordinary_annAndBob : ∀ a ∈ annAndBob.members, a.Ordinary annAndBob := by
  intro a ha
  rcases List.mem_cons.mp ha with rfl | ha
  · exact ⟨by decide, (fun u hu => by cases hu), by decide +kernel⟩
  · rw [List.mem_singleton.mp ha]
    exact ⟨by decide, by decide, by decide +kernel⟩

/-- The empty URI is the last, and comes back. -/
theorem accounts_returned_annAndBob :
    Recreated annAndBob (annAndBob.recreated fun _ => []) := by
  apply ((accounts_returned (fun _ => []) annAndBob).1 ordinary_annAndBob).mpr
  intro a ha
  rcases List.mem_cons.mp ha with rfl | ha
  · exact ⟨rfl, fun u hu => by cases hu⟩
  · rw [List.mem_singleton.mp ha]
    exact ⟨rfl, fun u hu => .inr ⟨(Option.some.inj hu).symm, rfl⟩⟩

/-- An account with a service does not come back, nor does one with a URI. -/
theorem not_recreated_ann :
    ¬ Recreated (hostOf (ann true none (by simp)) (by decide))
      ((hostOf (ann true none (by simp)) (by decide)).recreated fun _ => []) ∧
    ¬ Recreated (hostOf (ann false (some (text "http://ann.org")) (by decide)) (by decide))
      ((hostOf (ann false (some (text "http://ann.org")) (by decide)) (by decide)).recreated
        fun _ => []) := by
  constructor
  · intro hrec
    have hservice := Account.not_service (hrec _ (List.mem_singleton_self _))
    cases hservice
  · intro hrec
    have hreturns := (recreated_iff (ordinary_ann (by decide) (by decide))).mp hrec _
      (List.mem_singleton_self _)
    rcases hreturns.uri _ rfl with hvalue | ⟨hnil, -⟩
    · have htokens : tokens (text "http://ann.org") = [text "http://ann.org"] := hvalue.1
      exact absurd htokens (by decide)
    · cases hnil

end Ann

end HackerUnion.Sbin
