import HackerUnion.Listing.Ls

namespace HackerUnion.Listing

open Bash Js.Json

/-- What a member of the array denotes. -/
def recordValue (item : Text) : Value :=
  .object
    [(utf16 (text "path"), .string (utf16 (echoed (itemName item)))),
      (utf16 (text "type"), .string (utf16 (printedType (itemType item))))]

/-- No type is a backslash. -/
def Sound (items : List Text) : Prop :=
  ∀ item ∈ items, printedType (itemType item) ≠ text "\\"

section Items

variable {c : Char} {item : Text}

/-- The last character of an option is a letter. -/
theorem isType_option (h : isOption item = true) : item.getLast?.any isType = false := by
  have hletter : ∀ c, (c = 'n' ∨ c = 'e' ∨ c = 'E') → isType c = false := by
    intro c hc
    rcases hc with rfl | rfl | rfl <;> rfl
  simp only [isOption, Bool.and_eq_true, decide_eq_true_eq, List.all_eq_true, Bool.or_eq_true] at h
  cases item using List.reverseRecOn with
  | nil => rfl
  | append_singleton init c =>
    cases init with
    | nil => simp at h
    | cons d init =>
      have hmem : c ∈ (d :: init ++ [c]).tail := by simp
      rw [List.getLast?_concat]
      exact hletter c (or_assoc.mp (h.2 c hmem))

theorem hasType_eq (h : Line item) : hasType item = item.getLast?.any isType := by
  unfold hasType
  cases hopt : isOption item with
  | false =>
    rw [echo_quoted hopt, lines_ended h]
    simp [lines]
  | true =>
    have hecho : ∃ o, echo [item] = echoRest o [] :=
      ⟨item.tail.foldl EchoOptions.set ⟨true, false⟩,
        by rw [echo, echoWith, hopt, if_pos rfl]; rfl⟩
    obtain ⟨⟨newline, escapes⟩, ho⟩ := hecho
    rw [ho, isType_option hopt]
    cases newline <;> cases escapes <;> rfl

theorem itemType_cases (h : Line item) :
    (∃ init c, item = init ++ [c] ∧ isType c = true ∧ itemName item = init ∧ itemType item = [c]) ∨
      (∀ c ∈ item.getLast?, isType c = false) ∧ itemName item = item ∧
        itemType item = text "-" := by
  have heq := hasType_eq h
  unfold itemName itemType
  rw [heq]
  cases item using List.reverseRecOn with
  | nil => simp
  | append_singleton init c =>
    cases hc : isType c <;> simp [hc]

/-- The types that are printed. -/
theorem printedType_mem (h : Line item) :
    printedType (itemType item) ∈
      [text "\\", text "/", text "*", text "@", text "=", text "%", text "|", text "-"] := by
  rcases itemType_cases h with ⟨init, c, -, hc, -, htype⟩ | ⟨-, -, htype⟩
  · rw [htype]
    simp only [isType, Bool.or_eq_true, decide_eq_true_eq] at hc
    rcases hc with ((((((rfl | rfl) | rfl) | rfl) | rfl) | rfl) | rfl) | rfl <;> decide
  · rw [htype]
    decide

end Items

section Run

variable {vs : List Value} {stack : List Frame} {item : Text} {items : List Text}

/-- A member up to its type. -/
theorem run_entry_type {m : Mode} (hm : m = .first ∨ m = .value) (item : Text) :
    run ⟨m, .array vs :: stack⟩ (' ' :: (text "\x7b \"path\": " ++ quote (echoed (itemName item)) ++
        text ", \"type\": \"")) =
      some ⟨.string none [] .plain,
        .object [(utf16 (text "path"), .string (utf16 (echoed (itemName item))))]
          (utf16 (text "type")) :: .array vs :: stack⟩ := by
  have hopen : run ⟨m, .array vs :: stack⟩ (' ' :: text "\x7b \"path\": ") =
      some ⟨.value, .object [] (utf16 (text "path")) :: .array vs :: stack⟩ := by
    rcases hm with rfl | rfl <;> rfl
  rw [← List.cons_append, ← List.cons_append, List.append_assoc, run_text hopen,
    run_text (run_value_quote _)]
  rfl

/-- A type that is no backslash ends the member. -/
theorem run_type {ms : List (List Nat × Value)} {k : List Nat} {t : Text}
    (ht : t ∈ [text "\\", text "/", text "*", text "@", text "=", text "%", text "|", text "-"])
    (hslash : t ≠ text "\\") :
    run ⟨.string none [] .plain, .object ms k :: stack⟩ (t ++ text "\" \x7d") =
      some ⟨.after (.object (ms ++ [(k, .string (utf16 t))])), stack⟩ := by
  simp only [List.mem_cons, List.not_mem_nil, or_false] at ht
  rcases ht with rfl | rfl | rfl | rfl | rfl | rfl | rfl | rfl
  · exact absurd rfl hslash
  all_goals rfl

/-- A backslash takes the quote that should end the type into it, and the brace. -/
theorem run_slash {ms : List (List Nat × Value)} {k : List Nat} :
    run ⟨.string none [] .plain, .object ms k :: stack⟩ (text "\\" ++ text "\" \x7d") =
      some ⟨.string none (utf16 (text "\" \x7d")) .plain, .object ms k :: stack⟩ :=
  rfl

theorem entry_eq (item : Text) :
    entry item = text "\x7b \"path\": " ++ quote (echoed (itemName item)) ++
      text ", \"type\": \"" ++ (printedType (itemType item) ++ text "\" \x7d") := by
  rw [← jsonEscape_eq]
  exact List.append_assoc _ _ _

theorem run_entry {m : Mode} (hm : m = .first ∨ m = .value) (h : Line item)
    (hslash : printedType (itemType item) ≠ text "\\") :
    run ⟨m, .array vs :: stack⟩ (' ' :: entry item) =
      some ⟨.after (recordValue item), .array vs :: stack⟩ := by
  rw [entry_eq, ← List.cons_append, run_text (run_entry_type hm item),
    run_type (printedType_mem h) hslash]
  rfl

variable (vs stack) in
/-- What `run` is after a bad member, and what it would have to be. -/
theorem run_entry_slash {m : Mode} (hm : m = .first ∨ m = .value)
    (hslash : printedType (itemType item) = text "\\") :
    ∃ u k ms, run ⟨m, .array vs :: stack⟩ (' ' :: entry item) =
      some ⟨.string none u .plain, .object ms k :: .array vs :: stack⟩ := by
  rw [entry_eq, ← List.cons_append, run_text (run_entry_type hm item), hslash, run_slash]
  exact ⟨_, _, _, rfl⟩

variable (vs stack) in
theorem run_records {m : Mode} (hm : m = .first ∨ m = .value) (hline : ∀ item ∈ items, Line item)
    (hsound : Sound items) :
    ∃ m', (m' = .first ∨ m' = .value) ∧
      run ⟨m, .array vs :: stack⟩ (items.flatMap record) =
        some ⟨m', .array (vs ++ items.map recordValue) :: stack⟩ := by
  induction items generalizing m vs with
  | nil => exact ⟨m, hm, by simp⟩
  | cons item items ih =>
    obtain ⟨hitem, hitems⟩ := List.forall_mem_cons.mp hline
    obtain ⟨hslash, hsound⟩ := List.forall_mem_cons.mp hsound
    obtain ⟨m', hm', hrun⟩ := ih (vs ++ [recordValue item]) (.inr rfl) hitems hsound
    refine ⟨m', hm', ?_⟩
    have hfirst : run ⟨m, .array vs :: stack⟩ (record item) =
        some ⟨.value, .array (vs ++ [recordValue item]) :: stack⟩ := by
      rw [record, ← List.cons_append, run_text (run_entry hm hitem hslash)]
      rfl
    rw [List.flatMap_cons, run_text hfirst, hrun]
    simp

variable (stack) in
/-- The array is read back. -/
theorem run_close (hline : ∀ item ∈ items, Line item) (hsound : Sound items) :
    run ⟨.value, stack⟩ (close (text "[" ++ items.flatMap record)) =
      some ⟨.after (.array (items.map recordValue)), stack⟩ := by
  have hopen : run ⟨.value, stack⟩ (text "[") = some ⟨.first, .array [] :: stack⟩ := rfl
  cases items using List.reverseRecOn with
  | nil => rfl
  | append_singleton init last =>
    obtain ⟨hinit, hlast⟩ := List.forall_mem_append.mp hline
    obtain ⟨hsinit, hslast⟩ := List.forall_mem_append.mp hsound
    obtain ⟨m, hm, hrun⟩ := run_records [] stack (.inl rfl) hinit hsinit
    rw [close_concat, List.append_assoc, run_text hopen, run_text hrun, ← List.cons_append,
      run_text (run_entry hm (hlast last List.mem_cons_self) (hslast last List.mem_cons_self))]
    rw [List.map_append]
    rfl

/-- Where a member begins the text goes on so. -/
theorem exists_member (item rest : Text) :
    ∃ t, ' ' :: (entry item ++ rest) = ' ' :: '\x7b' :: ' ' :: '"' :: 'p' :: t :=
  ⟨_, rfl⟩

/-- In a string that is not closed the next member cannot be read, nor can the end. -/
theorem run_string_member {u k : List Nat} {ms : List (List Nat × Value)} (t : Text) :
    run ⟨.string none u .plain, .object ms k :: stack⟩
      (',' :: ' ' :: '\x7b' :: ' ' :: '"' :: 'p' :: t) = none :=
  rfl

theorem run_string_end {u k : List Nat} {ms : List (List Nat × Value)} :
    run ⟨.string none u .plain, .object ms k :: stack⟩
      (' ' :: ']' :: ' ' :: (text " \x7d" ++ ['\n'])) = none :=
  rfl

theorem records_member (items : List Text) (t : Text) :
    ∃ t', items.flatMap record ++ ' ' :: '\x7b' :: ' ' :: '"' :: 'p' :: t =
      ' ' :: '\x7b' :: ' ' :: '"' :: 'p' :: t' := by
  cases items with
  | nil => exact ⟨t, rfl⟩
  | cons item items => exact ⟨_, rfl⟩

theorem run_records_slash {m : Mode} (hm : m = .first ∨ m = .value)
    (hline : ∀ item ∈ items, Line item) (hbad : ¬Sound items) (t : Text) :
    run ⟨m, .array vs :: stack⟩
      (items.flatMap record ++ ' ' :: '\x7b' :: ' ' :: '"' :: 'p' :: t) = none := by
  induction items generalizing m vs with
  | nil => exact absurd (by simp [Sound]) hbad
  | cons item items ih =>
    obtain ⟨hitem, hitems⟩ := List.forall_mem_cons.mp hline
    rw [List.flatMap_cons, List.append_assoc, record, ← List.cons_append, List.append_assoc]
    by_cases hslash : printedType (itemType item) = text "\\"
    · obtain ⟨u, k, ms, hrun⟩ := run_entry_slash vs stack hm hslash
      obtain ⟨t', ht'⟩ := records_member items t
      rw [run_text hrun, ht']
      exact run_string_member t'
    · have hrest : ¬Sound items := fun h => hbad (List.forall_mem_cons.mpr ⟨hslash, h⟩)
      rw [run_text (run_entry hm hitem hslash)]
      exact ih (.inr rfl) hitems hrest

/-- A type that is a backslash leaves the text without an end. -/
theorem run_close_slash (hline : ∀ item ∈ items, Line item) (hbad : ¬Sound items) :
    run ⟨.value, stack⟩
      (close (text "[" ++ items.flatMap record) ++ ' ' :: (text " \x7d" ++ ['\n'])) = none := by
  have hopen : run ⟨.value, stack⟩ (text "[") = some ⟨.first, .array [] :: stack⟩ := rfl
  cases items using List.reverseRecOn with
  | nil => exact absurd (by simp [Sound]) hbad
  | append_singleton init last =>
    obtain ⟨hinit, hlast⟩ := List.forall_mem_append.mp hline
    have hshape (o a e z : Text) : o ++ a ++ ' ' :: (e ++ ' ' :: [']']) ++ z =
        o ++ (a ++ ' ' :: (e ++ ' ' :: ']' :: z)) := by simp
    rw [close_concat, hshape, run_text hopen]
    by_cases hsinit : Sound init
    · have hslash : printedType (itemType last) = text "\\" := by
        by_contra hne
        exact hbad (List.forall_mem_append.mpr ⟨hsinit, by simpa using hne⟩)
      obtain ⟨m, hm, hrun⟩ := run_records [] stack (.inl rfl) hinit hsinit
      obtain ⟨u, k, ms, hentry⟩ := run_entry_slash ([] ++ init.map recordValue) stack hm
        hslash
      rw [run_text hrun, ← List.cons_append, run_text hentry]
      exact run_string_end
    · obtain ⟨t, ht⟩ := exists_member last (' ' :: ']' :: ' ' :: (text " \x7d" ++ ['\n']))
      rw [ht]
      exact run_records_slash (.inl rfl) hinit hsinit t

end Run

/-- The path and the type of a member of a listing, in the code units of strings. -/
def entryOf (v : Value) : Option (List Nat × List Nat) :=
  ((v.get (text "path")).bind Value.units).bind fun path =>
    ((v.get (text "type")).bind Value.units).map fun type => (path, type)

/-- The listing in an answer: the array that is its value. -/
def listingOf (v : Value) : Option (List (List Nat × List Nat)) :=
  match v.get (text "value") with
  | some (.array vs) => vs.mapM entryOf
  | _ => none

/-- The path can stand between quotes: the text that has nothing but it is one of JSON. -/
def Quotable (path : Text) : Prop :=
  (parse (text "\x7b \"path\": \"" ++ path ++ text "\" \x7d")).isSome = true

/-- The answer for a path, with the text of its value. -/
def answer (path value : Text) : Text :=
  text "\x7b \"path\": \"" ++ path ++ text "\", \"value\": " ++
    ' ' :: (value ++ ' ' :: (text " \x7d" ++ ['\n']))

/-- What is read up to the quote after the path. -/
def upToPath (path : Text) : Option State :=
  run ⟨.value, []⟩ (text "\x7b \"path\": \"" ++ path ++ ['"'])

section Parse

variable {items : List Text} {path value : Text}

theorem entryOf_recordValue (item : Text) :
    entryOf (recordValue item) =
      some (utf16 (echoed (itemName item)), utf16 (printedType (itemType item))) := by
  have hne : ¬utf16 (text "type") = utf16 (text "path") := by decide
  simp [entryOf, recordValue, Value.get, Value.units, hne]

theorem mapM_entryOf (items : List Text) :
    (items.map recordValue).mapM entryOf = some (items.map fun item =>
      (utf16 (echoed (itemName item)), utf16 (printedType (itemType item)))) := by
  induction items with
  | nil => rfl
  | cons item items ih => simp [entryOf_recordValue, ih]

theorem listingOf_append (ms : List (List Nat × Value)) (vs : List Value) :
    listingOf (.object (ms ++ [(utf16 (text "value"), .array vs)])) = vs.mapM entryOf := by
  simp [listingOf, Value.get]

/-- Where the member of an object is not over no further one is read. -/
theorem run_value_none {s : State}
    (h : (∃ ms u, s.mode = .string ms u .plain) ∨ (∃ ms k, s.mode = .colon ms k) ∨
      ∃ v, s.mode = .after v ∧ ∀ ms k rest, s.stack ≠ .object ms k :: rest) (t : Text) :
    run s (text ", \"value\": " ++ t) = none := by
  obtain ⟨mode, stack⟩ := s
  rcases h with ⟨ms, u, rfl⟩ | ⟨ms, k, rfl⟩ | ⟨v, rfl, hstack⟩
  · cases ms with
    | none =>
      cases stack with
      | nil => rfl
      | cons frame rest => cases frame <;> rfl
    | some ms => rfl
  · rfl
  · cases stack with
    | nil => rfl
    | cons frame rest =>
      cases frame with
      | array vs => rfl
      | object ms k => exact absurd rfl (hstack ms k rest)

theorem run_close_none {s : State}
    (h : (∃ ms u, s.mode = .string ms u .plain) ∨ (∃ ms k, s.mode = .colon ms k) ∨
      ∃ v, s.mode = .after v ∧ ∀ ms k rest, s.stack ≠ .object ms k :: rest) :
    (run s (text " \x7d")).bind finish = none := by
  obtain ⟨mode, stack⟩ := s
  rcases h with ⟨ms, u, rfl⟩ | ⟨ms, k, rfl⟩ | ⟨v, rfl, hstack⟩
  · cases stack <;> rfl
  · rfl
  · cases stack with
    | nil => rfl
    | cons frame rest =>
      cases frame with
      | array vs => rfl
      | object ms k => exact absurd rfl (hstack ms k rest)

theorem quotable_eq (path : Text) :
    parse (text "\x7b \"path\": \"" ++ path ++ text "\" \x7d") =
      (upToPath path).bind fun s => (run s (text " \x7d")).bind finish := by
  have hclose : text "\" \x7d" = ['"'] ++ text " \x7d" := rfl
  rw [parse, hclose, ← List.append_assoc, run_append, Option.bind_assoc]
  rfl

theorem parse_answer_eq (path value : Text) :
    parse (answer path value) = (upToPath path).bind fun s =>
      (run s (text ", \"value\": " ++
        ' ' :: (value ++ ' ' :: (text " \x7d" ++ ['\n'])))).bind finish := by
  have hshape (o p b r : Text) : o ++ p ++ '"' :: b ++ r = (o ++ p ++ ['"']) ++ (b ++ r) := by
    simp
  have hanswer : answer path value = (text "\x7b \"path\": \"" ++ path ++ ['"']) ++
      (text ", \"value\": " ++ ' ' :: (value ++ ' ' :: (text " \x7d" ++ ['\n']))) :=
    hshape (text "\x7b \"path\": \"") path (text ", \"value\": ") _
  rw [parse, hanswer, run_append, Option.bind_assoc]
  rfl

/-- After the quote an object is open whose member is over, or the text goes wrong. -/
theorem upToPath_cases {s : State} (h : upToPath path = some s) :
    ((∃ ms u, s.mode = .string ms u .plain) ∨ (∃ ms k, s.mode = .colon ms k) ∨
      ∃ v, s.mode = .after v ∧ ∀ ms k rest, s.stack ≠ .object ms k :: rest) ∨
    ∃ v ms k rest, s = ⟨.after v, .object ms k :: rest⟩ := by
  rw [upToPath, run_append] at h
  obtain ⟨s₀, -, hquote⟩ := Option.bind_eq_some_iff.mp h
  have hstep : step s₀ '"' = some s := by simpa using hquote
  obtain ⟨mode, stack⟩ := s
  rcases step_quote hstep with hstring | ⟨v, hv⟩ | hcolon
  · exact .inl (.inl hstring)
  · obtain rfl : mode = .after v := hv
    by_cases hstack : ∃ ms k rest, stack = .object ms k :: rest
    · obtain ⟨ms, k, rest, rfl⟩ := hstack
      exact .inr ⟨v, ms, k, rest, rfl⟩
    · exact .inl (.inr (.inr ⟨v, rfl, fun ms k rest h => hstack ⟨ms, k, rest, h⟩⟩))
  · exact .inl (.inr (.inl hcolon))

variable (path) in
/-- An answer is of JSON if its path can be quoted and its value can be read. -/
theorem parse_answer {v : Value}
    (hvalue : ∀ stack, run ⟨.value, stack⟩ value = some ⟨.after v, stack⟩) :
    (Quotable path ∧ ∃ ms, parse (answer path value) =
        some (.object (ms ++ [(utf16 (text "value"), v)]))) ∨
      ¬Quotable path ∧ parse (answer path value) = none := by
  unfold Quotable
  rw [quotable_eq, parse_answer_eq]
  cases hs : upToPath path with
  | none => exact .inr ⟨by simp, rfl⟩
  | some s =>
    rcases upToPath_cases hs with hbad | ⟨v₀, ms, k, rest, rfl⟩
    · refine .inr ⟨?_, ?_⟩
      · simp [run_close_none hbad]
      · simp [run_value_none hbad]
    · have hmember : run ⟨.after v₀, .object ms k :: rest⟩ (text ", \"value\": ") =
          some ⟨.value, .object (ms ++ [(k, v₀)]) (utf16 (text "value")) :: rest⟩ := rfl
      have hvalue' : run ⟨.value, .object (ms ++ [(k, v₀)]) (utf16 (text "value")) :: rest⟩
          (' ' :: (value ++ ' ' :: (text " \x7d" ++ ['\n']))) =
          some ⟨.after (.object (ms ++ [(k, v₀)] ++ [(utf16 (text "value"), v)])), rest⟩ := by
        rw [run_value_space, run_text (hvalue _)]
        rfl
      have hclose : run ⟨.after v₀, .object ms k :: rest⟩ (text " \x7d") =
          some ⟨.after (.object (ms ++ [(k, v₀)])), rest⟩ := rfl
      simp only [Option.bind_some, hclose, run_text hmember, hvalue']
      cases rest with
      | nil => exact .inl ⟨rfl, ms ++ [(k, v₀)], rfl⟩
      | cons frame rest => exact .inr ⟨Bool.false_ne_true, rfl⟩

theorem parse_answer_none (hnone : ∀ stack, run ⟨.value, stack⟩
      (value ++ ' ' :: (text " \x7d" ++ ['\n'])) = none) :
    parse (answer path value) = none := by
  rw [parse_answer_eq]
  cases hs : upToPath path with
  | none => rfl
  | some s =>
    rcases upToPath_cases hs with hbad | ⟨v₀, ms, k, rest, rfl⟩
    · simp [run_value_none hbad]
    · have hmember : run ⟨.after v₀, .object ms k :: rest⟩ (text ", \"value\": ") =
          some ⟨.value, .object (ms ++ [(k, v₀)]) (utf16 (text "value")) :: rest⟩ := rfl
      have hvalue : run ⟨.value, .object (ms ++ [(k, v₀)]) (utf16 (text "value")) :: rest⟩
          (' ' :: (value ++ ' ' :: (text " \x7d" ++ ['\n']))) = none := by
        rw [run_value_space, hnone]
      simp only [Option.bind_some, run_text hmember, hvalue, Option.bind_none]

variable (path) in
/-- The listing that the script answers with: its items, if the path can be quoted and no type is a
backslash. -/
theorem live_eq {glob : Text → List Text} {rows : List Row}
    (hwords : Words (expand glob (listed rows)))
    (hglob : NoMatch glob (dataOf (expand glob (listed rows)))) :
    (Quotable path ∧ Sound (expand glob (listed rows)) ∧
      (parse (ls glob path true rows).body).bind listingOf =
        some ((expand glob (listed rows)).map fun item =>
          (utf16 (echoed (itemName item)), utf16 (printedType (itemType item))))) ∨
    ¬(Quotable path ∧ Sound (expand glob (listed rows))) ∧
      parse (ls glob path true rows).body = none := by
  have hline : ∀ item ∈ expand glob (listed rows), Line item := by
    intro item hitem hmem
    exact absurd (hwords item hitem _ hmem) (by decide)
  have hbody : (ls glob path true rows).body = answer path (dataOf (expand glob (listed rows))) :=
    ls_body path hwords hglob
  rw [hbody, dataOf_eq hwords]
  by_cases hsound : Sound (expand glob (listed rows))
  · rcases parse_answer path fun stack => run_close stack hline hsound with
      ⟨hquotable, ms, hparse⟩ | ⟨hquotable, hparse⟩
    · refine .inl ⟨hquotable, hsound, ?_⟩
      rw [hparse, Option.bind_some, listingOf_append, mapM_entryOf]
    · exact .inr ⟨fun h => hquotable h.1, hparse⟩
  · exact .inr ⟨fun h => hsound h.2, parse_answer_none fun stack => run_close_slash hline hsound⟩

end Parse

end HackerUnion.Listing
