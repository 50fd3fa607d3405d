import HackerUnion.Bash.Expansion
import HackerUnion.Bash.Words
import HackerUnion.Lists.Replace
import HackerUnion.Lists.SplitOn

namespace HackerUnion.Cgi

open HackerUnion.Lists Bash

section Decodevar

variable (glob : Text → List Text)

/-- `` `echo -e \\x${h}` `` -/
def decoded (h : Text) : Text := substitution (echo (text "-e" :: expand glob (text "\\x" ++ h)))

/-- The loop of `cgi_decodevar`. `none` when it has not ended after so many rounds. -/
def decodeLoop : Nat → Text → Text → Option Text
  | 0, _, _ => none
  | rounds + 1, t, v =>
    if t = [] ∨ t = ['%'] then some v
    else
      let v := v ++ removeSuffix [.char '%', .star] t
      let t := removePrefix [.star, .char '%'] t
      if t = [] ∨ t = ['%'] then decodeLoop rounds t v
      else decodeLoop rounds (t.drop 2) (v ++ decoded glob (t.take 2))

def plusToSpace (c : Char) : Char := if c = '+' then ' ' else c

/-- What the function prints. -/
def cgiDecodevar (arg : Text) : Option Text :=
  let t := arg.map plusToSpace ++ text "%%"
  (decodeLoop glob (t.length + 1) t []).map fun v => echo [v]

end Decodevar

/-- Why a request is not read: a loop has not ended, a pattern has a bracket expression or a
backslash in it, or `eval` is given something else than an assignment to a variable of the
script. -/
inductive Trouble where
  | endless
  | pattern
  | command
  deriving DecidableEq

abbrev Assignment := Text × Text

def isNameChar (c : Char) : Bool := c.isAlphanum || c = '_'

def isName (k : Text) : Bool := k.all isNameChar && k.head?.any fun c => !c.isDigit

/-- The variables that `cgi_getvars` has for itself. -/
def ownVariables : List Text := [text "q", text "p", text "k", text "v", text "s"]

/-- The replacements that are to prevent shell execution. -/
def preventExecution (query : Text) : Text :=
  let t := replaceAll (text "%60") (text "/") query
  let t := replaceAll (text "\x60") (text "/") t
  let t := replaceAll (text "$(") (text "/") t
  replaceAll (text "%24%28") (text "/") t

section Getvars

variable (glob : Text → List Text) (names : List Text)

/-- `" $* "` -/
def requested : Text := ' ' :: (List.intercalate [' '] names ++ [' '])

/-- `[ "$1" = "ALL" -o "${s/ $k /}" != "$s" ]` -/
def isRequested (k : Pattern) : Bool :=
  names.head? = some (text "ALL") ||
    eraseMatch (.char ' ' :: (k ++ [.char ' '])) (requested names) != requested names

/-- ``eval "$k=\"`cgi_decodevar \"$v\"`\""`` -/
def evaluate (k v : Text) : Except Trouble Assignment :=
  match cgiDecodevar glob v with
  | none => .error .endless
  | some out =>
    if isName k && k ∉ ownVariables then
      match quoted (substitution out) with
      | some value => .ok (k, value)
      | none => .error .command
    else .error .command

/-- The body of the loop, on one part of the query. -/
def readPart (p : Text) : Except Trouble (List Assignment) :=
  let k := removeSuffix [.char '=', .star] p
  let v := removePrefix [.star, .char '='] p
  match pattern? k with
  | none => .error .pattern
  | some key => if isRequested names key then (evaluate glob k v).map ([·]) else .ok []

def getvarsLoop : Nat → Text → Except Trouble (List Assignment)
  | 0, _ => .error .endless
  | rounds + 1, q =>
    if q = [] then .ok []
    else
      let p := removeSuffix [.char '&', .star] q
      match pattern? p with
      | none => .error .pattern
      | some part => do
        let assigned ← readPart glob names p
        let rest ← getvarsLoop rounds (removePrefix (part ++ [.char '&', .star]) q)
        return assigned ++ rest

inductive Method where
  | get
  | post
  | both
  deriving DecidableEq

/-- What a script is given: the variables of its environment and its input. -/
structure Request where
  queryString : Text
  requestMethod : Text
  contentLength : Text
  input : Text

/-- The first line of the input, or what there is of it. -/
def readLine (input : Text) : Text := ((readLines (input ++ text "\n\n")).head?).getD []

/-- `cgi_get_POST_vars`, of which the first call stores the data. -/
def queryStringPost (r : Request) : Text :=
  let read := r.requestMethod = text "POST" ∧ r.contentLength ≠ []
  preventExecution (if read then readLine r.input else [])

def ended (t : Text) : Text := if t = [] then [] else t ++ ['&']

def query (method : Method) (r : Request) : Text :=
  let queryString := preventExecution r.queryString
  match method with
  | .get => ended queryString
  | .post => ended (queryStringPost r)
  | .both => ended queryString ++ ended (queryStringPost r)

/-- The assignments that are made, in their order. -/
def cgiGetvars (method : Method) (r : Request) : Except Trouble (List Assignment) :=
  if names = [] then .ok []
  else getvarsLoop glob names ((query method r).length + 1) (query method r)

end Getvars

section Decode

variable {glob : Text → List Text} {c : Char} {a t v : Text} {rounds : Nat}

/-- What a round does when a percent sign is left: the text before it is digested, and the two
characters behind it are decoded, if it is not the last. -/
theorem decodeLoop_percent (ha : '%' ∉ a) (hne : a ++ '%' :: t ≠ ['%']) (v : Text) :
    decodeLoop glob (rounds + 1) (a ++ '%' :: t) v =
      if t = [] ∨ t = ['%'] then decodeLoop glob rounds t (v ++ a)
      else decodeLoop glob rounds (t.drop 2) (v ++ a ++ decoded glob (t.take 2)) := by
  have hcond : ¬(a ++ '%' :: t = [] ∨ a ++ '%' :: t = ['%']) := by simp [hne]
  rw [decodeLoop, if_neg hcond, removeSuffix_char ha, removePrefix_char ha]

theorem decodeLoop_char (hc : c ≠ '%') (ht : '%' ∈ t) (hlast : t ≠ ['%']) (v : Text) :
    decodeLoop glob (rounds + 1) (c :: t) v = decodeLoop glob (rounds + 1) t (v ++ [c]) := by
  obtain ⟨a, b, rfl, ha⟩ := List.eq_append_cons_of_mem ht
  have hca : '%' ∉ c :: a := by simp [ha, Ne.symm hc]
  have hne : c :: a ++ '%' :: b ≠ ['%'] := by simp
  rw [← List.cons_append, decodeLoop_percent hca hne, decodeLoop_percent ha hlast]
  simp

variable (glob rounds) in
/-- Nothing is decoded of the two percent signs at the end. -/
theorem decodeLoop_end (v : Text) : decodeLoop glob (rounds + 2) (text "%%") v = some v := by
  have hempty : '%' ∉ ([] : Text) := List.not_mem_nil
  have hne : [] ++ '%' :: ['%'] ≠ ['%'] := by decide
  have hlast : decodeLoop glob (rounds + 1) ['%'] v = some v := by simp [decodeLoop]
  have hfirst : decodeLoop glob (rounds + 2) ([] ++ '%' :: ['%']) v = _ :=
    decodeLoop_percent hempty hne v
  rw [if_pos (Or.inr rfl), List.append_nil, hlast] at hfirst
  exact hfirst

/-- The text that is left never runs out of percent signs. -/
def Terminated (t : Text) : Prop := t = [] ∨ t = ['%'] ∨ ∃ s, t = s ++ text "%%"

theorem Terminated.drop (h : Terminated t) (n : Nat) : Terminated (t.drop n) := by
  rcases h with rfl | rfl | ⟨s, rfl⟩
  · exact Or.inl (by simp)
  · cases n <;> simp [Terminated]
  · rcases Nat.lt_or_ge s.length n with hn | hn
    · obtain ⟨m, rfl⟩ := Nat.exists_eq_add_of_lt hn
      rw [Nat.add_assoc, List.drop_length_add_append]
      cases m with
      | zero => exact Or.inr (Or.inl rfl)
      | succ m => exact Or.inl (List.drop_eq_nil_of_le (Nat.le_add_left 2 m))
    · rw [List.drop_append_of_le_length hn]
      exact Or.inr (Or.inr ⟨_, rfl⟩)

/-- Each round leaves less of the text, and the loop ends. -/
theorem decodeLoop_isSome (h : Terminated t) (hrounds : t.length < rounds) (v : Text) :
    (decodeLoop glob rounds t v).isSome = true := by
  induction rounds generalizing t v with
  | zero => omega
  | succ rounds ih =>
    by_cases hend : t = [] ∨ t = ['%']
    · rw [decodeLoop, if_pos hend]
      rfl
    · rw [not_or] at hend
      obtain ⟨s, rfl⟩ : ∃ s, t = s ++ text "%%" := by
        rcases h with h | h | h
        · exact absurd h hend.1
        · exact absurd h hend.2
        · exact h
      obtain ⟨a, b, hab, ha⟩ := List.eq_append_cons_of_mem
        (show '%' ∈ s ++ text "%%" from List.mem_append_right s List.mem_cons_self)
      have hb : Terminated b := by
        have hdrop := Terminated.drop (Or.inr (Or.inr ⟨s, hab.symm⟩)) (a.length + 1)
        rwa [List.drop_length_add_append] at hdrop
      have hlength := congrArg List.length hab
      rw [@List.length_append _ a, List.length_cons] at hlength
      rw [hab, decodeLoop_percent ha (hab ▸ hend.2)]
      split
      · exact ih hb (by omega) _
      · refine ih (hb.drop 2) ?_ _
        rw [List.length_drop]
        omega

variable (glob) in
theorem cgiDecodevar_isSome (arg : Text) : (cgiDecodevar glob arg).isSome = true := by
  rw [cgiDecodevar, Option.isSome_map]
  exact decodeLoop_isSome (Or.inr (Or.inr ⟨_, rfl⟩)) (Nat.lt_succ_self _) []

end Decode

section Parts

variable {glob : Text → List Text} {names parts : List Text} {p q t : Text}

/-- No bracket expression begins in a text and no backslash is in it. -/
def Unbracketed (t : Text) : Prop := ∀ c ∈ t, c ≠ '[' ∧ c ≠ '\\'

instance (t : Text) : Decidable (Unbracketed t) := inferInstanceAs (Decidable (∀ _ ∈ t, _))

/-- The parts with a separator behind each. -/
def joinParts (parts : List Text) : Text := parts.flatMap (· ++ ['&'])

theorem mem_removeSuffix {c d : Char} (h : d ∈ removeSuffix [.char c, .star] t) : d ∈ t := by
  unfold removeSuffix at h
  split at h
  · exact List.mem_of_mem_take h
  · exact h

theorem getvarsLoop_part {rounds : Nat} (hp : '&' ∉ p) (hopen : Unbracketed p) (q : Text) :
    getvarsLoop glob names (rounds + 1) (p ++ '&' :: q) = do
      let assigned ← readPart glob names p
      let rest ← getvarsLoop glob names rounds q
      return assigned ++ rest := by
  obtain ⟨part, hpart⟩ := pattern?_isSome hopen
  have hne : p ++ '&' :: q ≠ [] := by simp
  simp only [getvarsLoop, if_neg hne, removeSuffix_char hp, hpart, removePrefix_self hpart hp]

/-- The loop goes over the parts in their order and ends after the last. -/
theorem getvarsLoop_parts {rounds : Nat} (hsep : ∀ p ∈ parts, '&' ∉ p)
    (hopen : ∀ p ∈ parts, Unbracketed p) (hrounds : parts.length < rounds) :
    getvarsLoop glob names rounds (joinParts parts) =
      (parts.mapM (readPart glob names)).map List.flatten := by
  induction parts generalizing rounds with
  | nil =>
    obtain ⟨rounds, rfl⟩ : ∃ n, rounds = n + 1 := ⟨rounds - 1, by omega⟩
    rfl
  | cons p parts ih =>
    obtain ⟨hp, hparts⟩ := List.forall_mem_cons.mp hsep
    obtain ⟨hpo, hpartso⟩ := List.forall_mem_cons.mp hopen
    obtain ⟨rounds, rfl⟩ : ∃ n, rounds = n + 1 := ⟨rounds - 1, by omega⟩
    have hrounds' : parts.length < rounds := by simpa using hrounds
    have hrest := ih hparts hpartso hrounds'
    have hjoin : joinParts (p :: parts) = p ++ '&' :: joinParts parts := by simp [joinParts]
    rw [hjoin, getvarsLoop_part hp hpo, hrest, List.mapM_cons]
    cases readPart glob names p with
    | error e => rfl
    | ok assigned => cases parts.mapM (readPart glob names) <;> rfl

theorem readPart_ends (h : Unbracketed p) {e : Trouble} (he : readPart glob names p = .error e) :
    e = .command := by
  have hk : Unbracketed (removeSuffix [.char '=', .star] p) := fun c hc => h c (mem_removeSuffix hc)
  obtain ⟨key, hkey⟩ := pattern?_isSome hk
  obtain ⟨out, hout⟩ := Option.isSome_iff_exists.mp
    (cgiDecodevar_isSome glob (removePrefix [.star, .char '='] p))
  simp only [readPart, hkey, evaluate, hout] at he
  split at he
  · split at he
    · split at he
      · cases he
      · cases he
        rfl
    · cases he
      rfl
  · cases he

/-- The parts of a text that `&` separates. -/
def partsOf (t : Text) : List Text := if t = [] then [] else t.splitOn '&'

theorem joinParts_append (parts parts' : List Text) :
    joinParts (parts ++ parts') = joinParts parts ++ joinParts parts' := by
  simp [joinParts]

theorem joinParts_eq (h : parts ≠ []) :
    joinParts parts = List.intercalate ['&'] parts ++ ['&'] := by
  induction parts with
  | nil => exact absurd rfl h
  | cons p parts ih =>
    cases parts with
    | nil => simp [joinParts]
    | cons p' parts =>
      have hrest := ih (List.cons_ne_nil p' parts)
      have hjoin : joinParts (p :: p' :: parts) = p ++ '&' :: joinParts (p' :: parts) := by
        simp [joinParts]
      rw [hjoin, hrest, List.intercalate_cons_cons]
      simp

theorem joinParts_partsOf (t : Text) : joinParts (partsOf t) = ended t := by
  by_cases ht : t = []
  · simp [partsOf, ended, ht, joinParts]
  · rw [partsOf, ended, if_neg ht, if_neg ht, joinParts_eq (List.splitOn_ne_nil '&' t),
      List.intercalate_splitOn]

theorem not_mem_partsOf (h : p ∈ partsOf t) : '&' ∉ p := by
  unfold partsOf at h
  split at h
  · cases h
  · exact not_mem_of_mem_splitOn '&' h

def queryParts (method : Method) (r : Request) : List Text :=
  let queryString := preventExecution r.queryString
  match method with
  | .get => partsOf queryString
  | .post => partsOf (queryStringPost r)
  | .both => partsOf queryString ++ partsOf (queryStringPost r)

theorem joinParts_queryParts (method : Method) (r : Request) :
    joinParts (queryParts method r) = query method r := by
  cases method with
  | get => exact joinParts_partsOf _
  | post => exact joinParts_partsOf _
  | both =>
    have happend := joinParts_append (partsOf (preventExecution r.queryString))
      (partsOf (queryStringPost r))
    rwa [joinParts_partsOf, joinParts_partsOf] at happend

theorem not_mem_queryParts {method : Method} {r : Request} (h : p ∈ queryParts method r) :
    '&' ∉ p := by
  cases method with
  | get => exact not_mem_partsOf h
  | post => exact not_mem_partsOf h
  | both => exact (List.mem_append.mp h).elim not_mem_partsOf not_mem_partsOf

theorem length_le_joinParts (parts : List Text) : parts.length ≤ (joinParts parts).length := by
  induction parts with
  | nil => exact le_refl _
  | cons p parts ih =>
    have hlength : (joinParts (p :: parts)).length = p.length + 1 + (joinParts parts).length := by
      simp [joinParts]
      omega
    rw [List.length_cons, hlength]
    omega

theorem subset_joinParts (h : p ∈ parts) : p ⊆ joinParts parts := fun _ hc =>
  List.mem_flatMap.mpr ⟨p, h, List.mem_append_left _ hc⟩

theorem cgiGetvars_eq {method : Method} {r : Request} (hnames : names ≠ [])
    (h : Unbracketed (query method r)) : cgiGetvars glob names method r =
      ((queryParts method r).mapM (readPart glob names)).map List.flatten := by
  have hjoin := joinParts_queryParts method r
  have hlength := length_le_joinParts (queryParts method r)
  have hopen : ∀ p ∈ queryParts method r, Unbracketed p := fun p hp c hc =>
    h c (hjoin ▸ subset_joinParts hp hc)
  rw [hjoin] at hlength
  rw [cgiGetvars, if_neg hnames]
  conv => enter [1, 4]; rw [← hjoin]
  exact getvarsLoop_parts (fun p hp => not_mem_queryParts hp) hopen (by omega)

theorem mapM_error {f : Text → Except Trouble (List Assignment)} {e : Trouble}
    (h : parts.mapM f = .error e) : ∃ p ∈ parts, f p = .error e := by
  induction parts with
  | nil => cases h
  | cons p parts ih =>
    rw [List.mapM_cons] at h
    cases hp : f p with
    | error e' =>
      rw [hp] at h
      cases h
      exact ⟨p, List.mem_cons_self, hp⟩
    | ok a =>
      cases hparts : parts.mapM f with
      | error e' =>
        rw [hp, hparts] at h
        cases h
        obtain ⟨p', hmem, hp'⟩ := ih hparts
        exact ⟨p', List.mem_cons_of_mem p hmem, hp'⟩
      | ok as =>
        rw [hp, hparts] at h
        cases h

theorem cgiGetvars_error {method : Method} {r : Request} {e : Trouble} (hnames : names ≠ [])
    (h : Unbracketed (query method r)) (he : cgiGetvars glob names method r = .error e) :
    e = .command := by
  rw [cgiGetvars_eq hnames h] at he
  cases hmap : (queryParts method r).mapM (readPart glob names) with
  | ok as =>
    rw [hmap] at he
    cases he
  | error e' =>
    rw [hmap] at he
    cases he
    obtain ⟨p, hp, hread⟩ := mapM_error hmap
    have hopen : Unbracketed p := fun c hc =>
      h c (joinParts_queryParts method r ▸ subset_joinParts hp hc)
    exact readPart_ends hopen hread

end Parts

end HackerUnion.Cgi
