import HackerUnion.Bash.Expression
import HackerUnion.Sbin.Comment
import HackerUnion.Sbin.Groups
import HackerUnion.Sbin.Unquoted

namespace HackerUnion.Sbin

open Bash

/-- `echo "$LINE" | cut -d: -f6 | grep -q "^$HOME"` -/
def underHome (home line : Text) : Bool :=
  (lines (echo [line])).any (fun l => home.isPrefixOf (cut ':' 6 l))

/-- `grep "^$USERNAME"`. No colon is in the name, and so no class in a bracket expression. -/
def beginsLike (username line : Text) : Bool := basicGrep ('^' :: username) line

/-- `` `cat /etc/shadow | grep "^$USERNAME" | cut -d: -f2` `` -/
def passwordOf (shadow username : Text) : Text :=
  capture (unlines (((lines shadow).filter (beginsLike username)).map (cut ':' 2)))

/-- What is printed for a line of `/etc/passwd`. -/
def userEntry (shadow line : Text) : Text :=
  let username := column 1 line
  let kept := keptOf (column 5 line)
  let uri := if kept.uri = text "null" then text "null" else capture (echo [kept.uri])
  echo [text "\x7b",
    text "\"username\": \"" ++ username ++ text "\",",
    text "\"password\": \"" ++ passwordOf shadow username ++ text "\",",
    text "\"uid\": \"" ++ column 3 line ++ text "\",",
    text "\"gid\": \"" ++ column 4 line ++ text "\",",
    text "\"info\": \"" ++ kept.info ++ text "\",",
    text "\"shell\": \"" ++ column 7 line ++ text "\",",
    text "\"service\": " ++ kept.service ++ text ",",
    text "\"uri\": " ++ uri,
    text "\x7d,"]

/-- `passwd.json` -/
def saveusers (home passwd shadow : Text) : Text :=
  arrayText (((readLines passwd).filter (underHome home)).flatMap (userEntry shadow))

/-- What `useradd` is given. -/
structure User where
  name : Text
  home : Text
  uid : Text
  gid : Text
  shell : Text
  password : Text
  comment : Text
  system : Bool
  deriving DecidableEq

/-- `useradd` takes one name, and it refuses a name or a number that is taken. -/
def useradd (users : List User) (names : List Text) (user : Text → User) : List User :=
  match names with
  | [name] =>
    if users.any (fun u => u.name = name || u.uid = (user name).uid) then users
    else users ++ [user name]
  | _ => users

/-- `field $i service`: the number is the text that is searched, the field the entry, and the name
of the field is empty. -/
def serviceField (i : Nat) : List Text :=
  ((lines (echo [decimal i])).filter (inOrderCI [text "[service,\"\"", text "]"])).map
    (fun line => unquote (cut '\t' 2 line))

def createUser (glob : Text → List Text) (home json : Text) (users : List User) (i : Nat) :
    List User :=
  let value (name : Text) := capture (unlines (field json (.at i) name))
  let svc := bool ((expand glob (capture (unlines (serviceField i)))).headD [])
  let uri := nullstring ((expand glob (value (text "uri"))).headD [])
  let name := value (text "username")
  useradd users (expand glob name) fun word =>
    { name := word
      home := home ++ '/' :: name
      uid := value (text "uid")
      gid := value (text "gid")
      shell := value (text "shell")
      password := value (text "password")
      comment := commentOf uri (value (text "info")) (if svc = [] then text "false" else svc)
      system := svc ≠ [] }

/-- The accounts of a system that had none. `file` is `passwd.json`. -/
def createusers (glob : Text → List Text) (home file : Text) : List User :=
  let json := capture (json file)
  (List.range (last json + 1).toNat).foldl (createUser glob home json) []

/-- What stands in the information about a user. -/
def isInfoChar (c : Char) : Bool := c ≠ '"' && !isStringBody.isControl c

/-- What stands in the columns of `/etc/passwd` and `/etc/shadow`. -/
def isFieldChar (c : Char) : Bool := isInfoChar c && c ≠ ':' && c ≠ '\\'

/-- The account of a member. -/
structure Account where
  name : Name
  password : Text
  uid : Nat
  gid : Nat
  info : Text
  uri : Option Text
  shell : Text
  service : Bool
  /-- The columns of `/etc/shadow` after the password. -/
  aging : Text
  password_chars : password.all isFieldChar = true
  shell_chars : shell.all isFieldChar = true
  shell_end : shell.getLast? ≠ some ' '
  info_chars : info.all isInfoChar = true
  uri_chars : ∀ u ∈ uri, u.all isInfoChar = true
  deriving DecidableEq

/-- `$SERVER_ROOT/home` -/
structure Home where
  path : Text
  chars : path.all (fun c => c.isAlphanum || c ∈ ['/', '_', '-']) = true

namespace Account

/-- The comment, as `createusers` makes it. -/
def comment (a : Account) : Text :=
  commentOf (a.uri.elim (text "null") fun u => '"' :: u ++ ['"']) a.info
    (if a.service then text "true" else text "false")

def columns (home : Home) (a : Account) : List Text :=
  [a.name.body, text "x", decimal a.uid, decimal a.gid, a.comment,
    home.path ++ '/' :: a.name.body, a.shell]

/-- The line of `/etc/passwd`. -/
def line (home : Home) (a : Account) : Text := List.intercalate [':'] (a.columns home)

/-- The line of `/etc/shadow`. -/
def shadowLine (a : Account) : Text := List.intercalate [':'] [a.name.body, a.password, a.aging]

/-- What `useradd` was given for the account. -/
def user (home : Home) (a : Account) : User where
  name := a.name.body
  home := home.path ++ '/' :: a.name.body
  uid := decimal a.uid
  gid := decimal a.gid
  shell := a.shell
  password := a.password
  comment := a.comment
  system := a.service

end Account

/-- A line of `/etc/passwd` of an account that is no member's. -/
structure OtherLine (home : Home) where
  line : Text
  one : Line line
  plain : Plain line
  outside : underHome home.path line = false

/-- The accounts of a system. -/
structure Host (home : Home) where
  entries : List (OtherLine home ⊕ Account)
  /-- The lines of `/etc/shadow`. -/
  shadow : List Text
  shadow_lines : ∀ l ∈ shadow, Line l
  shadowed : ∀ a ∈ entries.filterMap Sum.getRight?, a.shadowLine ∈ shadow
  names : ((entries.filterMap Sum.getRight?).map Account.name).Nodup
  uids : ((entries.filterMap Sum.getRight?).map Account.uid).Nodup

namespace Host

variable {home : Home}

def members (h : Host home) : List Account := h.entries.filterMap Sum.getRight?

/-- `/etc/passwd` -/
def passwdFile (h : Host home) : Text :=
  unlines (h.entries.map (Sum.elim OtherLine.line (Account.line home)))

/-- `/etc/shadow` -/
def shadowFile (h : Host home) : Text := unlines h.shadow

/-- The accounts after the ones of a host were saved and created elsewhere. -/
def recreated (h : Host home) (glob : Text → List Text) : List User :=
  createusers glob home.path (saveusers home.path h.passwdFile h.shadowFile)

end Host

section Line

variable {home : Home}

namespace Account

variable (a : Account)

theorem isFieldChar_of_mem_password {c : Char} (h : c ∈ a.password) : isFieldChar c = true :=
  List.all_eq_true.mp a.password_chars c h

theorem isFieldChar_of_mem_shell {c : Char} (h : c ∈ a.shell) : isFieldChar c = true :=
  List.all_eq_true.mp a.shell_chars c h

/-- No column has a separator, a newline or a backslash. -/
theorem not_mem_column {c : Char} (hc : c ∈ [':', '\n', '\\']) :
    ∀ col ∈ a.columns home, c ∉ col := by
  have hall : ∀ c ∈ [':', '\n', '\\'], isNameChar c = false ∧ c.isDigit = false ∧ c ≠ 'x' ∧
      c ≠ '/' ∧ c ∉ '=' :: alphabet ∧ isFieldChar c = false ∧
      (c.isAlphanum || c ∈ ['/', '_', '-']) = false := by decide
  obtain ⟨hname, hdigit, hx, hslash, hcode, hfield, hhome⟩ := hall c hc
  have hpath : c ∉ home.path := by
    intro hmem
    rw [List.all_eq_true.mp home.chars c hmem] at hhome
    cases hhome
  have hshell : c ∉ a.shell := by
    intro hmem
    rw [a.isFieldChar_of_mem_shell hmem] at hfield
    cases hfield
  intro col hcol
  simp only [columns, List.mem_cons, List.not_mem_nil, or_false] at hcol
  rcases hcol with rfl | rfl | rfl | rfl | rfl | rfl | rfl
  · exact a.name.not_mem hname
  · exact fun hmem => hx (List.mem_singleton.mp hmem)
  · exact not_mem_decimal hdigit _
  · exact not_mem_decimal hdigit _
  · exact not_mem_base64 hcode _
  · simp [hpath, hslash, a.name.not_mem hname]
  · exact hshell

theorem line_line : Line (a.line home) := by
  apply Lists.not_mem_intercalate (by decide)
  exact a.not_mem_column (by decide)

theorem head_line (home : Home) : ∃ c t, a.line home = c :: t ∧ isNameChar c = true ∧ c ≠ '-' := by
  obtain ⟨c, t, hbody⟩ := List.exists_cons_of_ne_nil a.name.ne_nil
  have hhead := a.name.head
  rw [hbody] at hhead
  refine ⟨c, _, by rw [line, columns, hbody]; rfl, ?_, by simpa using hhead⟩
  exact a.name.isNameChar_of_mem (by rw [hbody]; exact List.mem_cons_self)

theorem isBlank_infoChar {c : Char} (h : isInfoChar c = true) (hspace : c ≠ ' ') :
    isBlank c = false := by
  by_contra hblank
  simp only [Bool.not_eq_false, isBlank, Bool.or_eq_true, decide_eq_true_eq] at hblank
  rcases hblank with (rfl | rfl) | rfl
  · exact hspace rfl
  all_goals exact absurd h (by decide)

theorem plain_line : Plain (a.line home) := by
  refine ⟨?_, ?_, ?_⟩
  · apply Lists.not_mem_intercalate (by decide)
    exact a.not_mem_column (by decide)
  · obtain ⟨c, t, hline, hc, -⟩ := a.head_line home
    rw [hline]
    intro d hd
    cases hd
    exact isBlank_nameChar hc
  · have htail : ∃ t, a.line home = t ++ ':' :: a.shell :=
      ⟨List.intercalate [':'] [a.name.body, text "x", decimal a.uid, decimal a.gid, a.comment,
        home.path ++ '/' :: a.name.body], by simp [line, columns, List.intercalate]⟩
    obtain ⟨t, hline⟩ := htail
    intro c hc
    rw [hline, List.getLast?_append_of_ne_nil _ (List.cons_ne_nil _ _)] at hc
    cases hshell : a.shell with
    | nil =>
      rw [hshell] at hc
      cases hc
      decide
    | cons d s =>
      rw [hshell, List.getLast?_cons_cons] at hc
      have hmem : c ∈ a.shell := hshell ▸ List.mem_of_getLast? hc
      have hchar := a.isFieldChar_of_mem_shell hmem
      simp only [isFieldChar, Bool.and_eq_true] at hchar
      apply isBlank_infoChar hchar.1.1
      rintro rfl
      exact a.shell_end (by rw [hshell]; exact hc)

theorem lines_echo : lines (echo [a.line home]) = [a.line home] := by
  obtain ⟨c, t, hline, -, hdash⟩ := a.head_line home
  have hopt : isOption (a.line home) = false := isOption_of_head (by simpa [hline] using hdash)
  rw [echo_quoted hopt]
  exact lines_ended a.line_line []

theorem cut_line (n : Nat) : cut ':' (n + 1) (a.line home) = ((a.columns home)[n]?).getD [] :=
  cut_intercalate (a.not_mem_column (by decide)) (by simp [columns]) n

theorem column_line (n : Nat) : column (n + 1) (a.line home) = ((a.columns home)[n]?).getD [] := by
  rw [column, a.lines_echo, List.map_singleton, a.cut_line]
  apply capture_unlines_singleton
  cases hcol : (a.columns home)[n]? with
  | none => exact List.not_mem_nil
  | some col => exact a.not_mem_column (by decide) col (List.mem_of_getElem? hcol)

theorem underHome_line : underHome home.path (a.line home) = true := by
  have hcol : cut ':' 6 (a.line home) = home.path ++ '/' :: a.name.body := a.cut_line 5
  rw [underHome, a.lines_echo]
  simp [hcol]

end Account

/-- The lines of members are taken, and no others. -/
theorem filter_underHome (h : Host home) :
    (readLines h.passwdFile).filter (underHome home.path) = h.members.map (Account.line home) := by
  have hread : readLines h.passwdFile =
      h.entries.map (Sum.elim OtherLine.line (Account.line home)) := by
    apply readLines_plain
    · intro l hl
      obtain ⟨e, -, rfl⟩ := List.mem_map.mp hl
      cases e with
      | inl other => exact other.one
      | inr a => exact a.line_line
    · intro l hl
      obtain ⟨e, -, rfl⟩ := List.mem_map.mp hl
      cases e with
      | inl other => exact other.plain
      | inr a => exact a.plain_line
  rw [hread, Host.members]
  induction h.entries with
  | nil => rfl
  | cons e entries ih =>
    cases e with
    | inl other =>
      have hskip : (Sum.inl other :: entries).filterMap Sum.getRight? =
          entries.filterMap Sum.getRight? := rfl
      simp [hskip, other.outside, ih]
    | inr a => simp [a.underHome_line, ih]

end Line

section Saved

variable {home : Home} {h : Host home} {a : Account} {t : Text}

def quoted (t : Text) : Text := '"' :: t ++ ['"']

/-- An account of which nothing is read as something else: no backslash stands in the information
or the URI, no blank or bracket in the URI, and the name begins no other line of `/etc/shadow`. -/
structure Account.Ordinary (h : Host home) (a : Account) : Prop where
  info : '\\' ∉ a.info
  uri : ∀ u ∈ a.uri, ∀ c ∈ u, c ∉ ['\\', ' ', '[', '\x7b', '\x7d']
  shadow : h.shadow.filter (beginsLike a.name.body) = [a.shadowLine]

def Account.serviceText (a : Account) : Text := if a.service then text "true" else text "false"

/-- What is printed of the URI, without quotes. -/
def Account.uriText (a : Account) : Text :=
  a.uri.elim (text "null") fun u => capture (echo [u])

/-- What is saved of an account before the URI. -/
def Account.regular (a : Account) : List (Text × Text) :=
  [(text "username", quoted a.name.body), (text "password", quoted a.password),
    (text "uid", quoted (decimal a.uid)), (text "gid", quoted (decimal a.gid)),
    (text "info", quoted a.info), (text "shell", quoted a.shell),
    (text "service", a.serviceText)]

/-- The object that is saved for an account. -/
def Account.entry (a : Account) : Text :=
  objectText (objectOf (a.regular ++ [(text "uri", a.uriText)]))

theorem isStringBody_info (h : t.all isInfoChar = true) (hslash : '\\' ∉ t) :
    isStringBody false t = true := by
  apply isStringBody_of
  intro c hc
  have hinfo := List.all_eq_true.mp h c hc
  simp only [isInfoChar, Bool.and_eq_true, decide_eq_true_eq, Bool.not_eq_true'] at hinfo
  refine ⟨?_, hinfo.1, hinfo.2⟩
  rintro rfl
  exact hslash hc

theorem quote_not_mem_info (h : t.all isInfoChar = true) : '"' ∉ t := by
  intro hmem
  exact absurd (List.all_eq_true.mp h _ hmem) (by decide)

theorem info_of_field (h : t.all isFieldChar = true) : t.all isInfoChar = true ∧ '\\' ∉ t := by
  constructor
  · rw [List.all_eq_true] at h ⊢
    intro c hc
    have hfield := h c hc
    simp only [isFieldChar, Bool.and_eq_true] at hfield
    exact hfield.1.1
  · intro hmem
    exact absurd (List.all_eq_true.mp h _ hmem) (by decide)

/-- A text that is put between quotes. -/
theorem isPart_quoted (h : t.all isInfoChar = true) (hslash : '\\' ∉ t) : IsPart (quoted t) :=
  Or.inr ⟨⟨t, isStringBody_info h hslash⟩, rfl, hslash, quote_not_mem_info h⟩

theorem Name.info_chars (n : Name) : n.body.all isInfoChar = true := by
  rw [List.all_eq_true]
  intro c hc
  have hname := n.isNameChar_of_mem hc
  have hquote : c ≠ '"' := by
    rintro rfl
    cases hname
  simp [isInfoChar, hquote, isControl_nameChar hname]

theorem decimal_chars (k : Nat) : (decimal k).all isInfoChar = true := by
  rw [List.all_eq_true]
  intro c hc
  have hdigit := isDigit_of_mem_decimal hc
  have hquote : c ≠ '"' := by
    rintro rfl
    cases hdigit
  simp [isInfoChar, hquote, isControl_of_alphanum (c := c) (by simp [Char.isAlphanum, hdigit])]

namespace Account

theorem isPart_service (a : Account) : IsPart a.serviceText := by
  left
  unfold serviceText
  split
  · decide
  · decide

/-- Before the URI there are strings and a keyword. -/
theorem isPart_regular (hinfo : '\\' ∉ a.info) {p : Text × Text} (hp : p ∈ a.regular) :
    IsPart p.2 := by
  have hpassword := info_of_field a.password_chars
  have hshell := info_of_field a.shell_chars
  have hnumber (k : Nat) : IsPart (quoted (decimal k)) :=
    isPart_quoted (decimal_chars k) (not_mem_decimal (by decide) k)
  simp only [regular, List.mem_cons, List.not_mem_nil, or_false] at hp
  rcases hp with rfl | rfl | rfl | rfl | rfl | rfl | rfl
  · exact isPart_quoted a.name.info_chars (a.name.not_mem (by decide))
  · exact isPart_quoted hpassword.1 hpassword.2
  · exact hnumber a.uid
  · exact hnumber a.gid
  · exact isPart_quoted a.info_chars hinfo
  · exact isPart_quoted hshell.1 hshell.2
  · exact a.isPart_service

def keys : List Text :=
  [text "username", text "password", text "uid", text "gid", text "info", text "shell",
    text "service"]

theorem isKey_regular {p : Text × Text} (hp : p ∈ a.regular) : IsKey p.1 := by
  have hall : ∀ name ∈ keys, IsKey name := by decide
  have hkeys : a.regular.map Prod.fst = keys := rfl
  apply hall
  rw [← hkeys]
  exact List.mem_map_of_mem hp

theorem sound_regular (hinfo : '\\' ∉ a.info) : ∀ m ∈ objectOf a.regular, SoundMember m := by
  intro m hm
  obtain ⟨p, hp, rfl⟩ := List.mem_map.mp hm
  exact ⟨isStringBody_key (isKey_regular hp), (isPart_regular hinfo hp).scalar.sound⟩

end Account

theorem passwordOf_eq (ha : a.Ordinary h) : passwordOf h.shadowFile a.name.body = a.password := by
  have hno {c : Char} (hc : c = ':' ∨ c = '\n') : c ∉ a.password := by
    intro hmem
    have hfield := a.isFieldChar_of_mem_password hmem
    rcases hc with rfl | rfl
    · cases hfield
    · cases hfield
  have hcut : cut ':' 2 a.shadowLine = a.password := by
    have hline : a.shadowLine =
        a.name.body ++ ':' :: (a.password ++ ':' :: a.aging) := by
      simp [Account.shadowLine, List.intercalate]
    rw [hline, cut_succ (a.name.not_mem (by decide)) 0 (by simp), cut_one (hno (Or.inl rfl))]
  rw [passwordOf, Host.shadowFile, lines_unlines h.shadow_lines, ha.shadow, List.map_singleton,
    hcut]
  exact capture_unlines_singleton (hno (Or.inr rfl))

/-- What a URI is in a comment. -/
def Account.uriPart (a : Account) : Text := a.uri.elim (text "null") quoted

theorem keptOf_comment (ha : a.Ordinary h) :
    keptOf a.comment = ⟨a.info, a.serviceText, a.uri.getD (text "null")⟩ := by
  have huri : IsPart a.uriPart ∧ unquote a.uriPart = a.uri.getD (text "null") := by
    unfold Account.uriPart
    cases hu : a.uri with
    | none => exact ⟨Or.inl (by decide), rfl⟩
    | some u =>
      have hslash : '\\' ∉ u := fun hmem => ha.uri u (by simp [hu]) _ hmem (by simp)
      refine ⟨isPart_quoted (a.uri_chars u (by simp [hu])) hslash, ?_⟩
      simp [unquote, quoted, List.getLast?_cons]
  have hservice : unquote a.serviceText = a.serviceText := by
    unfold Account.serviceText
    split
    · rfl
    · rfl
  have hsound : SoundComment a.uriPart ⟨a.info, isStringBody_info a.info_chars ha.info⟩
      a.serviceText := ⟨huri.1, a.isPart_service, ha.info, quote_not_mem_info a.info_chars⟩
  have hkept := keptOf_commentOf hsound
  rw [huri.2, hservice] at hkept
  exact hkept

/-- What is printed for a member: the object of the account and a comma. -/
theorem userEntry_line (ha : a.Ordinary h) :
    userEntry h.shadowFile (a.line home) = unlines [a.entry ++ [',']] := by
  have hcol (n : Nat) : column (n + 1) (a.line home) = ((a.columns home)[n]?).getD [] :=
    a.column_line n
  have hargs : List.intercalate [' ']
      [text "\x7b", text "\"username\": \"" ++ a.name.body ++ text "\",",
        text "\"password\": \"" ++ a.password ++ text "\",",
        text "\"uid\": \"" ++ decimal a.uid ++ text "\",",
        text "\"gid\": \"" ++ decimal a.gid ++ text "\",",
        text "\"info\": \"" ++ a.info ++ text "\",",
        text "\"shell\": \"" ++ a.shell ++ text "\",",
        text "\"service\": " ++ a.serviceText ++ text ",",
        text "\"uri\": " ++ a.uriText, text "\x7d,"] = a.entry ++ [','] := by
    simp [List.intercalate, Account.entry, objectText, objectOf, Account.regular, Val.text, quoted]
    rfl
  have hname : column 1 (a.line home) = a.name.body := hcol 0
  have huid : column 3 (a.line home) = decimal a.uid := hcol 2
  have hgid : column 4 (a.line home) = decimal a.gid := hcol 3
  have hcomment : column 5 (a.line home) = a.comment := hcol 4
  have hshell : column 7 (a.line home) = a.shell := hcol 6
  have huri : (if a.uri.getD (text "null") = text "null" then text "null"
      else capture (echo [a.uri.getD (text "null")])) = a.uriText := by
    unfold Account.uriText
    cases a.uri with
    | none => rfl
    | some u =>
      simp only [Option.getD_some, Option.elim_some]
      split
      · rename_i hnull
        rw [hnull]
        rfl
      · rfl
  rw [userEntry]
  simp only [hname, huid, hgid, hcomment, hshell, passwordOf_eq ha, keptOf_comment ha, huri]
  rw [echo, echoWith, if_neg (by decide), echoRest, hargs]
  simp

/-- What stands in a URI that is printed. -/
theorem Account.uriText_chars (ha : a.Ordinary h) :
    ∀ c ∈ a.uriText, (c ≠ '"' ∧ isSpace c = false) ∧ c ∉ ['\\', ' ', '[', '\x7b', '\x7d'] := by
  have hinfo : ∀ c, isInfoChar c = true → c ≠ ' ' → c ≠ '"' ∧ isSpace c = false := by
    intro c hc hspace
    constructor
    · rintro rfl
      cases hc
    · by_contra hmem
      simp only [Bool.not_eq_false, isSpace, isBlank, Bool.or_eq_true, decide_eq_true_eq] at hmem
      rcases hmem with ((((rfl | rfl) | rfl) | rfl) | rfl) | rfl
      · exact hspace rfl
      all_goals exact absurd hc (by decide)
  cases hu : a.uri with
  | none =>
    have htext : a.uriText = text "null" := by rw [uriText, hu, Option.elim_none]
    rw [htext]
    decide
  | some u =>
    have hchars := List.all_eq_true.mp (a.uri_chars u (by simp [hu]))
    have hline : Line u := fun hmem => absurd (hchars _ hmem) (by decide)
    have htext : a.uriText = if isOption u then [] else u := by
      rw [uriText, hu, Option.elim_some, capture_echo hline]
    intro c hc
    have hmem : c ∈ u := by
      rw [htext] at hc
      split at hc
      · cases hc
      · exact hc
    have hnot := ha.uri u (by simp [hu]) c hmem
    refine ⟨hinfo c (hchars c hmem) ?_, hnot⟩
    rintro rfl
    simp at hnot

def Account.uriTokens (a : Account) : List Text := tokens a.uriText

theorem Account.bare_uriTokens (ha : a.Ordinary h) : BareTokens a.uriTokens := by
  intro token htoken
  have hmem := mem_tokens htoken
  have hchars := a.uriText_chars ha
  constructor
  · rw [Bool.eq_false_iff]
    intro hquoted
    simp only [isQuoted, Bool.and_eq_true, decide_eq_true_eq] at hquoted
    have hquote : '"' ∈ token := List.mem_of_mem_head? hquoted.1.2
    exact (hchars _ (hmem _ hquote)).1.1 rfl
  · intro hbracket
    have hall : ∀ t ∈ [text "\x7b", text "[", text "\x7d"], ∃ c ∈ t,
        c ∈ ['\\', ' ', '[', '\x7b', '\x7d'] := by decide
    obtain ⟨c, hc, hspecial⟩ := hall token hbracket
    exact (hchars c (hmem c hc)).2 hspecial

/-- The tokens of an entry, and what is printed of it. -/
def Account.entryTokens (a : Account) : List Text :=
  unquotedTokens (objectOf a.regular) (text "uri") a.uriText

def Account.entryOut (a : Account) : Text → List Text :=
  unquotedOut (objectOf a.regular) (text "uri") a.uriText

theorem Account.entry_eq (a : Account) :
    a.entry = objectText (objectOf a.regular ++ [(text "uri", .one a.uriText)]) := by
  rw [entry, objectOf, List.map_append]
  rfl

theorem Account.isEntry (ha : a.Ordinary h) : IsEntry a.entry a.entryTokens := by
  have hchars := a.uriText_chars ha
  rw [a.entry_eq]
  apply isEntry_unquoted (Account.sound_regular ha.info) _ (by decide) (by decide)
    fun c hc => (hchars c hc).1
  · exact fun hmem => (hchars _ hmem).2 (by simp)
  · intro m hm
    obtain ⟨p, hp, rfl⟩ := List.mem_map.mp hm
    exact fun hmem => absurd (isKey_regular hp _ hmem) (by decide)

/-- Whether what is saved of the URI is one value, so that the entries after it are read. -/
def Account.goesOn (a : Account) : Bool := isOne a.uriTokens

/-- What is found of the URI. -/
def Account.uriFound (a : Account) : List (Text × Text) :=
  match a.uriTokens with
  | [] => []
  | token :: _ => if isNoValue token then [] else [(text "uri", token)]

/-- The values that are found in an entry. -/
def Account.pairs (a : Account) : List (Text × Text) := a.regular ++ a.uriFound

def Account.leaves (a : Account) : List Leaf := leavesOf (objectOf a.pairs)

theorem Account.entryOut_eq (a : Account) : a.entryOut = objectOut (objectOf a.pairs) := by
  funext path
  have huri : frontOut a.uriTokens (extend path ('"' :: text "uri" ++ ['"'])) =
      objectOut (objectOf a.uriFound) path := by
    unfold uriFound
    cases a.uriTokens with
    | nil => rfl
    | cons token ts =>
      cases hvalue : isNoValue token with
      | true => simp [frontOut, hvalue, objectOf, objectOut, membersOut]
      | false =>
        simp [frontOut, hvalue, objectOf, objectOut, membersOut, memberOf, Val.out]
  have happend : objectOut (objectOf a.pairs) path =
      objectOut (objectOf a.regular) path ++ objectOut (objectOf a.uriFound) path := by
    simp [objectOut, membersOut, objectOf, pairs]
  rw [entryOut, unquotedOut, happend, ← huri]
  rfl

/-- The accounts up to the first one after which nothing is read. -/
def reached : List Account → List Account
  | [] => []
  | a :: accounts => if a.goesOn then a :: reached accounts else [a]

theorem reached_cases (accounts : List Account) :
    (reached accounts = accounts ∧ ∀ a ∈ accounts, a.goesOn = true) ∨
      ∃ before a after, accounts = before ++ a :: after ∧ reached accounts = before ++ [a] ∧
        (∀ b ∈ before, b.goesOn = true) ∧ a.goesOn = false := by
  induction accounts with
  | nil => exact Or.inl ⟨rfl, by simp⟩
  | cons a accounts ih =>
    cases ha : a.goesOn with
    | false => exact Or.inr ⟨[], a, accounts, rfl, by simp [reached, ha], by simp, ha⟩
    | true =>
      have hcons : reached (a :: accounts) = a :: reached accounts := by simp [reached, ha]
      rw [hcons]
      rcases ih with ⟨heq, hall⟩ | ⟨before, b, after, rfl, heq, hbefore, hb⟩
      · refine Or.inl ⟨by rw [heq], ?_⟩
        intro b hb
        rcases List.mem_cons.mp hb with rfl | hb
        · exact ha
        · exact hall b hb
      · refine Or.inr ⟨a :: before, b, after, rfl, by rw [heq]; rfl, ?_, hb⟩
        intro c hc
        rcases List.mem_cons.mp hc with rfl | hc
        · exact ha
        · exact hbefore c hc

theorem reads_entry (ha : a.Ordinary h) (hgoes : a.goesOn = true) :
    Reads a.entryTokens a.entryOut :=
  reads_unquoted (Account.sound_regular ha.info) (a.bare_uriTokens ha) hgoes

theorem stops_entry (ha : a.Ordinary h) (hgoes : a.goesOn = false) :
    Stops a.entryTokens a.entryOut :=
  stops_unquoted (Account.sound_regular ha.info) (List.cons_ne_nil _ _) (a.bare_uriTokens ha) hgoes

/-- What `json -b` prints of entries: those that are reached. -/
theorem json_entries {accounts : List Account} (hall : ∀ a ∈ accounts, a.Ordinary h) :
    json (arrayText (unlines (accounts.map fun a => a.entry ++ [',']))) =
      unlines (flatLines 0 ((reached accounts).map Account.leaves)) := by
  have htokens : tokenize (arrayText (unlines (accounts.map fun a => a.entry ++ [',']))) =
      text "[" :: commas (accounts.map Account.entryTokens) ++ [text "]"] := by
    have hentry : ∀ p ∈ accounts.map (fun a => (a.entry, a.entryTokens)), IsEntry p.1 p.2 := by
      intro p hp
      obtain ⟨a, ha, rfl⟩ := List.mem_map.mp hp
      exact a.isEntry (hall a ha)
    have hentries := tokenize_arrayText hentry
    simp only [List.map_map, Function.comp_def] at hentries
    exact hentries
  have hflat (as : List Account) : elementsOut [] 0 (as.map Account.entryOut) =
      flatLines 0 (as.map Account.leaves) := by
    have hobjects := elementsOut_objects (as.map fun a => objectOf a.pairs) 0
    simp only [List.map_map, Function.comp_def] at hobjects
    rw [show Account.entryOut = fun a => objectOut (objectOf a.pairs) from
      funext Account.entryOut_eq]
    exact hobjects
  rcases reached_cases accounts with ⟨heq, hgoes⟩ | ⟨before, a, after, rfl, heq, hgoes, hstop⟩
  · have harray := Reads.array (accounts.map fun a => (a.entryTokens, a.entryOut)) (by
      intro p hp
      obtain ⟨a, ha, rfl⟩ := List.mem_map.mp hp
      exact reads_entry (hall a ha) (hgoes a ha))
    simp only [List.map_map, Function.comp_def] at harray
    rw [← htokens] at harray
    rw [json_eq harray, heq]
    exact congrArg unlines (hflat accounts)
  · have hvalues : ∀ v ∈ before.map fun a => (a.entryTokens, a.entryOut), Reads v.1 v.2 := by
      intro v hv
      obtain ⟨b, hb, rfl⟩ := List.mem_map.mp hv
      exact reads_entry (hall b (by simp [hb])) (hgoes b hb)
    have hcommas : ∃ rest, commas ((before ++ a :: after).map Account.entryTokens) ++ [text "]"] =
        frontValues (before.map fun a => (a.entryTokens, a.entryOut)) ++
          (a.entryTokens ++ rest) := by
      obtain ⟨rest, hrest⟩ := commas_front (before.map Account.entryTokens) a.entryTokens
        (after.map Account.entryTokens)
      refine ⟨rest ++ [text "]"], ?_⟩
      rw [List.map_append, List.map_cons, hrest, frontValues, List.flatMap_map, List.flatMap_map]
      simp
    obtain ⟨rest, hrest⟩ := hcommas
    rw [List.cons_append, hrest] at htokens
    rw [json_stops hvalues (stops_entry (hall a (by simp)) hstop) htokens, heq, ← hflat]
    simp [Function.comp_def]

theorem savedUsers (hall : ∀ a ∈ h.members, a.Ordinary h) :
    saveusers home.path h.passwdFile h.shadowFile =
      arrayText (unlines (h.members.map fun a => a.entry ++ [','])) := by
  have hentries : (h.members.map (Account.line home)).flatMap (userEntry h.shadowFile) =
      unlines (h.members.map fun a => a.entry ++ [',']) := by
    generalize h.members = accounts at hall ⊢
    induction accounts with
    | nil => rfl
    | cons a accounts ih =>
      have ha := hall a List.mem_cons_self
      have hrest := ih fun a' ha' => hall a' (List.mem_cons_of_mem _ ha')
      simp only [List.map_cons, List.flatMap_cons, hrest, userEntry_line ha, unlines_cons,
        unlines_nil]
      simp
  rw [saveusers, filter_underHome, hentries]

/-- What `json -b` prints of the accounts that were saved. -/
theorem json_saveusers (hall : ∀ a ∈ h.members, a.Ordinary h) :
    capture (json (saveusers home.path h.passwdFile h.shadowFile)) =
      flat ((reached h.members).map Account.leaves) := by
  rw [savedUsers hall, json_entries hall]
  rfl

end Saved

end HackerUnion.Sbin
