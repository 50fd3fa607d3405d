import HackerUnion.Minify.Lexemes

namespace HackerUnion.Minify

section Copy

variable {q : Char} {ins outs : Script}

theorem copyString_outs (q : Char) (ins outs : Script) :
    copyString q ins outs = (copyString q ins []).map fun r => (r.1, outs ++ r.2) := by
  have hall (outs' : Script) : copyString q ins (outs ++ outs') =
      (copyString q ins outs').map fun r => (r.1, outs ++ r.2) := by
    induction ins, outs' using copyString.induct q with
    | case1 outs' => rfl
    | case2 c ins outs' hquote =>
      rw [copyString_cons, copyString_cons, if_pos hquote, if_pos hquote]
      rfl
    | case3 c ins outs' hquote hend =>
      rw [copyString_cons, copyString_cons, if_neg hquote, if_neg hquote, if_pos hend, if_pos hend]
      rfl
    | case4 c outs' hquote hend hslash =>
      rw [copyString_cons, copyString_cons, if_neg hquote, if_neg hquote, if_neg hend, if_neg hend,
        if_pos hslash, if_pos hslash]
      rfl
    | case5 c outs' hquote hend hslash d ins ih =>
      rw [copyString_escape hquote hslash, copyString_escape hquote hslash, List.append_assoc]
      exact ih
    | case6 c ins outs' hquote hend hslash ih =>
      rw [copyString_cons, copyString_cons, if_neg hquote, if_neg hquote, if_neg hend, if_neg hend,
        if_neg hslash, if_neg hslash, List.append_assoc]
      exact ih
  have hnil := hall []
  rwa [List.append_nil] at hnil

theorem copyRegexp_outs (ins outs : Script) :
    copyRegexp ins outs = (copyRegexp ins []).map fun r => (r.1, outs ++ r.2) := by
  have hall (outs' : Script) : copyRegexp ins (outs ++ outs') =
      (copyRegexp ins outs').map fun r => (r.1, outs ++ r.2) := by
    induction ins, outs' using copyRegexp.induct with
    | case1 outs' => rfl
    | case2 c ins outs' hend =>
      rw [copyRegexp_cons, copyRegexp_cons, if_pos hend, if_pos hend]
      rfl
    | case3 c outs' hend hslash =>
      rw [copyRegexp_cons, copyRegexp_cons, if_neg hend, if_neg hend, if_pos hslash, if_pos hslash]
      rfl
    | case4 c outs' hend hslash d ins ih =>
      rw [copyRegexp_escape hslash, copyRegexp_escape hslash, List.append_assoc]
      exact ih
    | case5 c ins outs' hend hslash hline =>
      rw [copyRegexp_cons, copyRegexp_cons, if_neg hend, if_neg hend, if_neg hslash, if_neg hslash,
        if_pos hline, if_pos hline]
      rfl
    | case6 c ins outs' hend hslash hline ih =>
      rw [copyRegexp_cons, copyRegexp_cons, if_neg hend, if_neg hend, if_neg hslash, if_neg hslash,
        if_neg hline, if_neg hline, List.append_assoc]
      exact ih
  have hnil := hall []
  rwa [List.append_nil] at hnil

end Copy

section Choose

variable {a b : Char}

theorem choose_blank (a : Char) : choose a ' ' =
    if a = ' ' then .deleteA else if a = '\n' then .deleteB
    else if isAlphanum a then .outputA else .deleteB := by
  have hspace : isAlphanum ' ' = false := rfl
  unfold choose
  split
  · rw [hspace, if_neg Bool.false_ne_true]
  · split
    · rw [if_neg (by decide), if_pos rfl]
    · rw [if_pos rfl]

theorem choose_newline (a : Char) : choose a '\n' =
    if a = ' ' ∨ a = '\n' then .deleteA else if endsLine a then .outputA else .deleteB := by
  have hnewline : isAlphanum '\n' = false := rfl
  unfold choose
  by_cases hblank : a = ' '
  · rw [if_pos hblank, if_pos (Or.inl hblank), hnewline, if_neg Bool.false_ne_true]
  · by_cases hline : a = '\n'
    · rw [if_neg hblank, if_pos hline, if_pos (Or.inr hline), if_neg (by decide),
        if_neg (by decide), hnewline, if_neg Bool.false_ne_true]
    · rw [if_neg hblank, if_neg hline, if_neg (not_or.mpr ⟨hblank, hline⟩), if_neg (by decide),
        if_pos rfl]
      by_cases hmem : a ∈ ['\x7d', ']', ')', '+', '-', '"', '\'']
      · rw [if_pos hmem, if_pos]
        simp [endsLine, hmem]
      · rw [if_neg hmem]
        simp [endsLine, hmem, hline]

/-- Before a character that is no white space something that was read is written, or nothing of it:
a space before a word, a line end before what begins a line. -/
theorem choose_visible (hb : b ≠ ' ') (hb' : b ≠ '\n') : choose a b =
    if a = ' ' then if isAlphanum b then .outputA else .deleteA
    else if a = '\n' then if (Lexeme.char b).startsLine then .outputA else .deleteA
    else .outputA := by
  unfold choose
  split
  · rfl
  · split
    · by_cases hmem : b ∈ ['\x7b', '[', '(', '+', '-']
      · rw [if_pos hmem, if_pos]
        simp [Lexeme.startsLine, hmem]
      · rw [if_neg hmem]
        simp [Lexeme.startsLine, hmem]
    · rfl

end Choose

section Steps

variable {a b p q : Char} {sep : Sep} {ins rest outs body : Script} {rounds : Nat}

/-- What is left to be written of a character that was read. -/
def pending (a : Char) : Script := if a = ' ' ∨ a = '\n' then [] else [a]

/-- What is written of a character before a lexeme. -/
def spent (a : Char) (x : Lexeme) : Script :=
  if a = ' ' then if x.isWord then [' '] else []
  else if a = '\n' then if x.startsLine then ['\n'] else []
  else [a]

theorem spent_context (p : Char) (sep : Sep) (x : Lexeme) :
    spent (context p sep) x = pending (context p sep) ++ glue p sep x := by
  unfold spent pending glue
  by_cases hblank : context p sep = ' '
  · rw [if_pos hblank, if_pos (Or.inl hblank), if_pos hblank, List.nil_append]
  · by_cases hline : context p sep = '\n'
    · rw [if_neg hblank, if_pos hline, if_pos (Or.inr hline), if_neg hblank, if_pos hline,
        List.nil_append]
    · rw [if_neg hblank, if_neg hline, if_neg (not_or.mpr ⟨hblank, hline⟩), if_neg hblank,
        if_neg hline]
      rfl

theorem nextB_eq (a b : Char) (ins outs : Script) : nextB ⟨a, b, ins, outs⟩ =
    next ins >>= fun r =>
      if r.1 = '/' ∧ precedesRegexp a then
        copyRegexp r.2 (outs ++ [a, r.1]) >>= fun r' =>
          next r'.1 >>= fun r'' => .ok ⟨'/', r''.1, r''.2, r'.2⟩
      else .ok ⟨a, r.1, r.2, outs⟩ := rfl

/-- The next character is read, if it does not begin a regular expression. -/
theorem nextB_plain {c : Char} (hplain : c = '/' → ¬precedesRegexp a)
    (h : next ins = .ok (c, rest)) (b : Char) (outs : Script) (rounds : Nat) :
    nextB ⟨a, b, ins, outs⟩ >>= loop rounds = loop rounds ⟨a, c, rest, outs⟩ := by
  rw [nextB_eq, h]
  simp only [bind, Except.bind, if_neg (not_and.mpr hplain)]

/-- Behind a line end a regular expression is on a line of its own. -/
theorem pending_glue_regexp (h : precedesRegexp (context p sep)) (body : Script) :
    pending (context p sep) ++ glue p sep (.regexp body) = [context p sep] := by
  have hblank : context p sep ≠ ' ' := by
    intro hblank
    rw [hblank] at h
    exact absurd h (by decide)
  rw [pending, glue, if_neg hblank]
  by_cases hline : context p sep = '\n'
  · rw [if_pos (Or.inr hline), if_pos hline, hline]
    rfl
  · rw [if_neg (not_or.mpr ⟨hblank, hline⟩), if_neg hline]
    rfl

/-- A regular expression is read with the next character behind it. -/
theorem nextB_regexp (hregexp : precedesRegexp a) (h : next ins = .ok ('/', rest)) (b : Char)
    (outs : Script) (rounds : Nat) : nextB ⟨a, b, ins, outs⟩ >>= loop rounds =
      copyRegexp rest [] >>= fun r =>
        nextB ⟨'/', '/', r.1, outs ++ a :: '/' :: r.2⟩ >>= loop rounds := by
  have hslash (ins outs : Script) : nextB ⟨'/', '/', ins, outs⟩ =
      next ins >>= fun r => .ok ⟨'/', r.1, r.2, outs⟩ := by
    rw [nextB_eq]
    congr 1
    funext r
    exact if_neg fun h => absurd h.2 (by decide)
  have hread : nextB ⟨a, b, ins, outs⟩ = copyRegexp rest (outs ++ [a, '/']) >>= fun r =>
      next r.1 >>= fun r' => .ok ⟨'/', r'.1, r'.2, r.2⟩ := by
    rw [nextB_eq, h]
    exact if_pos ⟨rfl, hregexp⟩
  rw [hread, copyRegexp_outs]
  cases copyRegexp rest [] with
  | error e => rfl
  | ok r => simp [Except.map, bind, Except.bind, hslash]

theorem loop_succ (ha : a ≠ eof) (b : Char) (ins outs : Script) (rounds : Nat) :
    loop (rounds + 1) ⟨a, b, ins, outs⟩ =
      action ⟨a, b, ins, outs⟩ (choose a b) >>= loop rounds := by
  rw [loop, if_neg ha]

theorem loop_stop {s : State} (h : s.theA = eof) (rounds : Nat) : loop rounds s = .ok s.outs := by
  cases rounds with
  | zero => rw [loop, if_pos h]
  | succ rounds => rw [loop, if_pos h]

theorem copyB_plain (hb : b ≠ '\'' ∧ b ≠ '"') (a : Char) (ins outs : Script) :
    copyB ⟨a, b, ins, outs⟩ = .ok ⟨b, b, ins, outs⟩ := by
  rw [copyB, if_neg (not_or.mpr hb)]

theorem action_outputA (hb : b ≠ '\'' ∧ b ≠ '"') (a : Char) (ins outs : Script) :
    action ⟨a, b, ins, outs⟩ .outputA = nextB ⟨b, b, ins, outs ++ [a]⟩ := by
  rw [action, State.outA, copyB_plain hb]
  rfl

theorem action_deleteA (hb : b ≠ '\'' ∧ b ≠ '"') (a : Char) (ins outs : Script) :
    action ⟨a, b, ins, outs⟩ .deleteA = nextB ⟨b, b, ins, outs⟩ := by
  rw [action, copyB_plain hb]
  rfl

/-- A character that is no white space and no quote: what was read before it is spent. -/
theorem loop_char (ha : a ≠ eof) (hb : b ≠ ' ' ∧ b ≠ '\n') (hquote : b ≠ '\'' ∧ b ≠ '"')
    (ins outs : Script) (rounds : Nat) : loop (rounds + 1) ⟨a, b, ins, outs⟩ =
      nextB ⟨b, b, ins, outs ++ spent a (.char b)⟩ >>= loop rounds := by
  have hout := action_outputA hquote a ins outs
  have hdelete : action ⟨a, b, ins, outs⟩ .deleteA = nextB ⟨b, b, ins, outs ++ []⟩ := by
    rw [action_deleteA hquote, List.append_nil]
  rw [loop_succ ha, choose_visible hb.1 hb.2]
  unfold spent
  by_cases hblank : a = ' '
  · rw [if_pos hblank, if_pos hblank, Lexeme.isWord]
    split
    · rw [hout, hblank]
    · rw [hdelete]
  · rw [if_neg hblank, if_neg hblank]
    by_cases hline : a = '\n'
    · rw [if_pos hline, if_pos hline]
      split
      · rw [hout, hline]
      · rw [hdelete]
    · rw [if_neg hline, if_neg hline, hout]

/-- The same of a quote, which brings the whole string with it. -/
theorem loop_quote (ha : a ≠ eof) (hq : q = '\'' ∨ q = '"') (ins outs : Script) (rounds : Nat) :
    loop (rounds + 1) ⟨a, q, ins, outs⟩ = copyString q ins [] >>= fun r =>
      nextB ⟨q, q, r.1, outs ++ spent a (.literal q r.2) ++ q :: r.2⟩ >>= loop rounds := by
  have hcopy (outs : Script) : copyB ⟨a, q, ins, outs⟩ = copyString q ins [] >>= fun r =>
      .ok ⟨q, q, r.1, outs ++ q :: r.2⟩ := by
    rw [copyB, if_pos hq, copyString_outs]
    cases copyString q ins [] with
    | error e => rfl
    | ok r => simp [Except.map, bind, Except.bind, pure, Except.pure]
  have hstart : (Lexeme.char q).startsLine = false := by rcases hq with rfl | rfl <;> rfl
  have hword : isAlphanum q = false := by rcases hq with rfl | rfl <;> rfl
  have hb : q ≠ ' ' ∧ q ≠ '\n' := by rcases hq with rfl | rfl <;> decide
  have hout : action ⟨a, q, ins, outs⟩ .outputA = copyString q ins [] >>= fun r =>
      nextB ⟨q, q, r.1, outs ++ [a] ++ q :: r.2⟩ := by
    rw [action, State.outA, hcopy]
    cases copyString q ins [] <;> rfl
  have hdelete : action ⟨a, q, ins, outs⟩ .deleteA = copyString q ins [] >>= fun r =>
      nextB ⟨q, q, r.1, outs ++ [] ++ q :: r.2⟩ := by
    rw [action, hcopy, List.append_nil]
    cases copyString q ins [] <;> rfl
  have hassoc (f : Script × Script → Except Failure State) :
      (copyString q ins [] >>= f) >>= loop rounds =
        copyString q ins [] >>= fun r => f r >>= loop rounds := by
    cases copyString q ins [] <;> rfl
  rw [loop_succ ha, choose_visible hb.1 hb.2, hword, hstart, if_neg Bool.false_ne_true]
  unfold spent
  by_cases hblank : a = ' '
  · simp only [if_pos hblank, hdelete, hassoc, Lexeme.isWord, Bool.false_eq_true, if_false]
  · by_cases hline : a = '\n'
    · simp only [if_neg hblank, if_pos hline, hdelete, hassoc, Lexeme.startsLine,
        Bool.false_eq_true, if_false]
    · simp only [if_neg hblank, if_neg hline, hout, hassoc]

/-- At the end what is pending is written. -/
theorem loop_eof (ha : a ≠ eof) (outs : Script) (rounds : Nat) :
    loop (rounds + 1) ⟨a, eof, [], outs⟩ = .ok (outs ++ pending a) := by
  have hvisible : eof ≠ ' ' ∧ eof ≠ '\n' := by decide
  have hquote : eof ≠ '\'' ∧ eof ≠ '"' := by decide
  have hspent : spent a (.char eof) = pending a := by
    have hword : isAlphanum eof = false := rfl
    have hstart : (Lexeme.char eof).startsLine = false := rfl
    unfold spent pending
    by_cases hblank : a = ' '
    · simp [hblank, Lexeme.isWord, hword]
    · by_cases hline : a = '\n'
      · simp [hline, hstart]
      · simp [hblank, hline]
  have hnext (outs : Script) : nextB ⟨eof, eof, [], outs⟩ = .ok ⟨eof, eof, [], outs⟩ := rfl
  rw [loop_char ha hvisible hquote, hspent, hnext]
  exact loop_stop rfl rounds

theorem context_newline (sep : Sep) : context '\n' sep = '\n' := by
  cases sep <;> rfl

theorem context_ne_eof (hp : p ≠ eof) (sep : Sep) : context p sep ≠ eof := by
  cases sep with
  | none => exact hp
  | blank =>
    rw [context]
    split
    · decide
    · exact hp
  | newline =>
    rw [context]
    split
    · decide
    · exact hp

/-- A space changes what white space counts for, and nothing is lost. -/
theorem loop_blank (hp : p ≠ ' ') (hp' : p ≠ eof) (sep : Sep) (ins outs : Script) (rounds : Nat) :
    ∃ outs', loop (rounds + 1) ⟨context p sep, ' ', ins, outs⟩ =
        nextB ⟨context p sep.blanked, ' ', ins, outs'⟩ >>= loop rounds ∧
      outs' ++ pending (context p sep.blanked) = outs ++ pending (context p sep) := by
  have hquote : ' ' ≠ '\'' ∧ ' ' ≠ '"' := by decide
  rw [loop_succ (context_ne_eof hp' sep), choose_blank]
  -- a space that is deleted leaves the character before it as it is
  have hstay (h : context p sep.blanked = context p sep)
      (hdelete : context p sep = '\n' ∨ isAlphanum (context p sep) = false) :
      ∃ outs', (action ⟨context p sep, ' ', ins, outs⟩ (if context p sep = ' ' then .deleteA
          else if context p sep = '\n' then .deleteB
          else if isAlphanum (context p sep) then .outputA else .deleteB) >>= loop rounds) =
          nextB ⟨context p sep.blanked, ' ', ins, outs'⟩ >>= loop rounds ∧
        outs' ++ pending (context p sep.blanked) = outs ++ pending (context p sep) := by
    refine ⟨outs, ?_, by rw [h]⟩
    rw [h]
    split
    · next hblank =>
      rw [action_deleteA hquote, hblank]
    · split
      · rfl
      · next hline =>
        rw [if_neg (by simpa [hline] using hdelete)]
        rfl
  cases sep with
  | none =>
    by_cases hword : isAlphanum p = true
    · have hline : p ≠ '\n' := by
        intro hline
        subst hline
        cases hword
      have hcontext : context p Sep.none.blanked = ' ' := if_pos hword
      refine ⟨outs ++ [p], ?_, ?_⟩
      · rw [hcontext, context, if_neg hp, if_neg hline, if_pos hword, action_outputA hquote]
      · rw [hcontext, context, pending, if_pos (Or.inl rfl), pending,
          if_neg (not_or.mpr ⟨hp, hline⟩), List.append_nil]
    · refine hstay (if_neg hword) (Or.inr ?_)
      rw [context]
      simpa using hword
  | blank =>
    refine hstay rfl (Or.inr ?_)
    rw [context]
    split
    · rfl
    · next hword => simpa using hword
  | newline =>
    refine hstay rfl ?_
    rw [context]
    split
    · exact Or.inl rfl
    · next hends =>
      refine Or.inr ?_
      simp only [endsLine, Bool.or_eq_true, not_or] at hends
      simpa using hends.2

/-- The same of a line end. -/
theorem loop_newline (hp : p ≠ ' ') (hp' : p ≠ eof) (sep : Sep) (ins outs : Script)
    (rounds : Nat) : ∃ outs', loop (rounds + 1) ⟨context p sep, '\n', ins, outs⟩ =
        nextB ⟨context p .newline, '\n', ins, outs'⟩ >>= loop rounds ∧
      outs' ++ pending (context p .newline) = outs ++ pending (context p sep) := by
  have hquote : '\n' ≠ '\'' ∧ '\n' ≠ '"' := by decide
  rw [loop_succ (context_ne_eof hp' sep), choose_newline]
  by_cases hwhite : context p sep = ' ' ∨ context p sep = '\n'
  · -- behind white space the line end takes its place
    have hcontext : context p .newline = '\n' := by
      rw [context]
      split
      · rfl
      · next hends =>
        simp only [endsLine, Bool.or_eq_true, decide_eq_true_eq, not_or] at hends
        cases sep with
        | none => exact absurd hwhite (not_or.mpr ⟨hp, hends.1.1⟩)
        | blank =>
          rw [context, if_neg hends.2] at hwhite
          exact absurd hwhite (not_or.mpr ⟨hp, hends.1.1⟩)
        | newline =>
          rw [context, if_neg (by simp [endsLine, hends])] at hwhite
          exact absurd hwhite (not_or.mpr ⟨hp, hends.1.1⟩)
    refine ⟨outs, ?_, ?_⟩
    · rw [if_pos hwhite, action_deleteA hquote, hcontext]
    · rw [hcontext, pending, if_pos (Or.inr rfl), pending, if_pos hwhite]
  · have hcontext : context p sep = p := by
      rw [not_or] at hwhite
      cases sep with
      | none => rfl
      | blank =>
        rw [context] at hwhite ⊢
        split
        · next hword => simp [hword] at hwhite
        · rfl
      | newline =>
        rw [context] at hwhite ⊢
        split
        · next hends => simp [hends] at hwhite
        · rfl
    rw [if_neg hwhite, hcontext]
    rw [hcontext] at hwhite
    by_cases hends : endsLine p = true
    · refine ⟨outs ++ [p], ?_, ?_⟩
      · rw [if_pos hends, action_outputA hquote, context, if_pos hends]
      · rw [context, if_pos hends, pending, if_pos (Or.inr rfl), pending, if_neg hwhite,
          List.append_nil]
    · refine ⟨outs, ?_, ?_⟩
      · rw [if_neg hends, context, if_neg hends]
        rfl
      · rw [context, if_neg hends]

/-- The characters from a character on: what is pending of it, and the lexemes behind it. -/
theorem nextB_loop (hp : p ≠ ' ') (hp' : p ≠ eof) (sep : Sep) (ins : Script) (b : Char)
    (outs : Script) (rounds : Nat) (hrounds : weight ins < rounds) :
    nextB ⟨context p sep, b, ins, outs⟩ >>= loop rounds =
      (lexemes p sep ins).map fun xs => outs ++ pending (context p sep) ++ render p xs := by
  obtain ⟨rounds, rfl⟩ : ∃ n, rounds = n + 1 := ⟨rounds - 1, by omega⟩
  induction p, sep, ins using lexemes.induct generalizing outs b rounds with
  | case1 p sep ins e hnext =>
    rw [nextB_eq, lexemes_eq, hnext]
    rfl
  | case2 p sep ins rest hnext =>
    obtain rfl := next_eof hnext
    rw [nextB_eq, lexemes_eq, hnext]
    have hloop := loop_eof (context_ne_eof hp' sep) outs rounds
    simpa [bind, Except.bind, Except.map, render, eof] using hloop
  | case3 p sep ins rest hnext hc ih =>
    have hweight := weight_next hnext hc
    obtain ⟨outs', hloop, hkept⟩ := loop_blank hp hp' sep rest outs rounds
    obtain ⟨rounds, rfl⟩ : ∃ n, rounds = n + 1 := ⟨rounds - 1, by omega⟩
    have hih := ih hp hp' ' ' outs' rounds (by omega)
    rw [hkept] at hih
    rw [nextB_plain (fun h => absurd h (by decide)) hnext, hloop, hih, lexemes_blank hnext]
  | case4 p sep ins rest hnext hc hc' ih =>
    have hweight := weight_next hnext hc
    obtain ⟨outs', hloop, hkept⟩ := loop_newline hp hp' sep rest outs rounds
    obtain ⟨rounds, rfl⟩ : ∃ n, rounds = n + 1 := ⟨rounds - 1, by omega⟩
    have hih := ih hp hp' '\n' outs' rounds (by omega)
    rw [hkept] at hih
    rw [nextB_plain (fun h => absurd h (by decide)) hnext, hloop, hih, lexemes_newline hnext]
  | case5 p sep ins c rest hnext hc hblank hline hquote e hcopy =>
    have hne : c ≠ '/' := by rcases hquote with rfl | rfl <;> decide
    rw [nextB_plain (fun h => absurd h hne) hnext, loop_quote (context_ne_eof hp' sep) hquote,
      lexemes_literal hquote hnext, hcopy]
    rfl
  | case6 p sep ins c rest hnext hc hblank hline hquote rest' body hcopy ih =>
    have hne : c ≠ '/' := by rcases hquote with rfl | rfl <;> decide
    have hweight := weight_next hnext hc
    have hweight' := weight_copyString hcopy
    obtain ⟨rounds, rfl⟩ : ∃ n, rounds = n + 1 := ⟨rounds - 1, by omega⟩
    have hvisible : ¬(c = ' ' ∨ c = '\n') := not_or.mpr ⟨hblank, hline⟩
    have hih := ih hblank hc c (outs ++ spent (context p sep) (.literal c body) ++ c :: body)
      rounds (by omega)
    rw [context, pending, if_neg hvisible, spent_context] at hih
    rw [nextB_plain (fun h => absurd h hne) hnext, loop_quote (context_ne_eof hp' sep) hquote,
      lexemes_literal hquote hnext, hcopy]
    simp only [bind, Except.bind, spent_context] at hih ⊢
    rw [hih]
    cases lexemes c .none rest' with
    | error e => rfl
    | ok xs => simp [Except.map, render, Lexeme.text, Lexeme.last]
  | case7 p sep ins c rest hnext hc hblank hline hquote hregexp e hcopy =>
    obtain ⟨rfl, hregexp⟩ := hregexp
    rw [nextB_regexp hregexp hnext, lexemes_regexp hregexp hnext, hcopy]
    rfl
  | case8 p sep ins c rest hnext hc hblank hline hquote hregexp rest' body hcopy ih =>
    obtain ⟨rfl, hregexp⟩ := hregexp
    have hweight := weight_next hnext hc
    have hweight' := weight_copyRegexp hcopy
    have hih := ih (by decide) (by decide) '/' (outs ++ context p sep :: '/' :: body) rounds
      (by omega)
    have hwritten := pending_glue_regexp hregexp body
    rw [context] at hih
    rw [nextB_regexp hregexp hnext, lexemes_regexp hregexp hnext, hcopy]
    simp only [bind, Except.bind] at hih ⊢
    rw [hih]
    cases lexemes '/' .none rest' with
    | error e => rfl
    | ok xs =>
      simp only [Except.map, render, Lexeme.text, Lexeme.last, List.append_assoc]
      rw [← List.append_assoc (pending (context p sep)), hwritten]
      simp [pending]
  | case9 p sep ins c rest hnext hc hblank hline hquote hregexp ih =>
    have hweight := weight_next hnext hc
    obtain ⟨rounds, rfl⟩ : ∃ n, rounds = n + 1 := ⟨rounds - 1, by omega⟩
    have hvisible : ¬(c = ' ' ∨ c = '\n') := not_or.mpr ⟨hblank, hline⟩
    have hih := ih hblank hc c (outs ++ spent (context p sep) (.char c)) rounds (by omega)
    rw [context, pending, if_neg hvisible] at hih
    rw [nextB_plain (not_and.mp hregexp) hnext,
      loop_char (context_ne_eof hp' sep) ⟨hblank, hline⟩ (not_or.mp hquote), hih, spent_context,
      lexemes_char ⟨hc, hblank, hline⟩ (not_or.mp hquote) (not_and.mp hregexp) hnext]
    cases lexemes c .none rest with
    | error e => rfl
    | ok xs => simp [Except.map, render, Lexeme.text, Lexeme.last]

end Steps

theorem weight_le (js : Script) : weight js ≤ 2 * js.length := by
  induction js with
  | nil => exact Nat.le_refl _
  | cons c js ih =>
    rw [weight_cons, List.length_cons]
    split <;> omega

theorem jsmin_eq (js : Script) :
    jsmin js = (lexemes '\n' .none js).map fun xs => stripped (render '\n' xs) := by
  have hweight := weight_le js
  have hloop : nextB ⟨'\n', eof, js, []⟩ >>= loop (2 * js.length + 2) =
      (lexemes '\n' .none js).map (render '\n') :=
    nextB_loop (by decide) (by decide) .none js eof [] _ (by omega)
  have hjsmin : jsmin js = (nextB ⟨'\n', eof, js, []⟩ >>= loop (2 * js.length + 2)) >>= fun str =>
      .ok (stripped str) := by
    rw [jsmin]
    cases nextB ⟨'\n', eof, js, []⟩ <;> rfl
  rw [hjsmin, hloop]
  cases lexemes '\n' .none js <;> rfl

section Ends

variable {q : Char}

theorem blockComment_ends (ins : Script) : blockComment ins ≠ .error .endless := by
  induction ins with
  | nil => simp [blockComment]
  | cons c ins ih =>
    cases ins with
    | nil => simp [blockComment]
    | cons d ins =>
      rw [blockComment]
      split
      · simp
      · exact ih

theorem next_ends (ins : Script) : next ins ≠ .error .endless := by
  cases ins with
  | nil => simp [next, get, eof]
  | cons c ins =>
    rw [next_cons]
    split
    · split
      · simp
      · split
        · exact blockComment_ends _
        · simp
    · simp

theorem copyString_ends (ins outs : Script) : copyString q ins outs ≠ .error .endless := by
  induction ins, outs using copyString.induct q with
  | case1 outs => simp [copyString]
  | case2 c ins outs hquote =>
    rw [copyString_cons, if_pos hquote]
    simp
  | case3 c ins outs hquote hend =>
    rw [copyString_cons, if_neg hquote, if_pos hend]
    simp
  | case4 c outs hquote hend hslash =>
    rw [copyString_cons, if_neg hquote, if_neg hend, if_pos hslash]
    simp
  | case5 c outs hquote hend hslash d ins ih =>
    rw [copyString_escape hquote hslash]
    exact ih
  | case6 c ins outs hquote hend hslash ih =>
    rw [copyString_cons, if_neg hquote, if_neg hend, if_neg hslash]
    exact ih

theorem copyRegexp_ends (ins outs : Script) : copyRegexp ins outs ≠ .error .endless := by
  induction ins, outs using copyRegexp.induct with
  | case1 outs => simp [copyRegexp]
  | case2 c ins outs hend =>
    rw [copyRegexp_cons, if_pos hend]
    simp
  | case3 c outs hend hslash =>
    rw [copyRegexp_cons, if_neg hend, if_pos hslash]
    simp
  | case4 c outs hend hslash d ins ih =>
    rw [copyRegexp_escape hslash]
    exact ih
  | case5 c ins outs hend hslash hline =>
    rw [copyRegexp_cons, if_neg hend, if_neg hslash, if_pos hline]
    simp
  | case6 c ins outs hend hslash hline ih =>
    rw [copyRegexp_cons, if_neg hend, if_neg hslash, if_neg hline]
    exact ih

theorem map_ends {α β : Type} {r : Except Failure α} (h : r ≠ .error .endless) (f : α → β) :
    r.map f ≠ .error .endless := by
  cases r with
  | error e =>
    intro he
    cases he
    exact h rfl
  | ok a => simp [Except.map]

theorem lexemes_ends (p : Char) (sep : Sep) (ins : Script) :
    lexemes p sep ins ≠ .error .endless := by
  induction p, sep, ins using lexemes.induct with
  | case1 p sep ins e hnext =>
    rw [lexemes_eq, hnext]
    intro h
    cases h
    exact next_ends ins hnext
  | case2 p sep ins rest hnext =>
    rw [lexemes_end hnext]
    simp
  | case3 p sep ins rest hnext hc ih => exact lexemes_blank hnext ▸ ih
  | case4 p sep ins rest hnext hc hc' ih => exact lexemes_newline hnext ▸ ih
  | case5 p sep ins c rest hnext hc hblank hline hquote e hcopy =>
    rw [lexemes_literal hquote hnext, hcopy]
    intro h
    cases h
    exact copyString_ends rest [] hcopy
  | case6 p sep ins c rest hnext hc hblank hline hquote rest' body hcopy ih =>
    rw [lexemes_literal hquote hnext, hcopy]
    exact map_ends ih _
  | case7 p sep ins c rest hnext hc hblank hline hquote hregexp e hcopy =>
    obtain ⟨rfl, hregexp⟩ := hregexp
    rw [lexemes_regexp hregexp hnext, hcopy]
    intro h
    cases h
    exact copyRegexp_ends rest [] hcopy
  | case8 p sep ins c rest hnext hc hblank hline hquote hregexp rest' body hcopy ih =>
    obtain ⟨rfl, hregexp⟩ := hregexp
    rw [lexemes_regexp hregexp hnext, hcopy]
    exact map_ends ih _
  | case9 p sep ins c rest hnext hc hblank hline hquote hregexp ih =>
    rw [lexemes_char ⟨hc, hblank, hline⟩ (not_or.mp hquote) (not_and.mp hregexp) hnext]
    exact map_ends ih _

end Ends

/-- The loop always ends. A script is taken apart into lexemes, and they are written out again:
nothing of them is changed, and what is left of the white space between two of them is a space
between words and a line end where one may end a statement. -/
theorem jsmin_ends (js : Script) : jsmin js ≠ .error .endless ∧
    jsmin js = (lexemes '\n' .none js).map fun xs => stripped (render '\n' xs) := by
  refine ⟨?_, jsmin_eq js⟩
  rw [jsmin_eq]
  exact map_ends (lexemes_ends '\n' .none js) _

end HackerUnion.Minify
