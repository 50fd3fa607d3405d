import HackerUnion.Bash.Grep
import HackerUnion.Membership.Decide

namespace HackerUnion.Membership

open Bash

/-- A character of an address of either kind. -/
def isAddressChar (c : Char) : Bool := (hexDigit c).isSome || c = '.' || c = ':'

def IsAddress (ip : Text) : Prop := ip ≠ [] ∧ ∀ c ∈ ip, isAddressChar c = true

instance (ip : Text) : Decidable (IsAddress ip) := inferInstanceAs (Decidable (_ ∧ _))

/-- The system with `grep -q "$IP"` and `sed -e "s/$IP//"`, for addresses. -/
def grepEnv (glob : Text → List Text) : Env where
  glob := glob
  seenIn seen ip := (lines (echo [seen])).any (grep ip)
  forget seen ip := capture (unlines ((lines (echo [seen])).map (erase ip)))

section Run

variable (env : Env)

/-- The states in which the addresses seen are searched for that of a record: one each time round
the inner loop, and none after quitting. -/
def tests (s : State) (r : Record) (userlogin : Text) : List Round → List State
  | [] => if s.quit then [] else [s]
  | round :: rounds =>
    if s.quit then []
    else
      s :: match turn env s r userlogin round with
        | .again s userlogin => tests s r userlogin rounds
        | .done _ => []

/-- The record is reported as a duplicate entry some time round the loop. -/
def reported (s : State) (r : Record) (userlogin : Text) (rounds : List Round) : Bool :=
  (tests env s r userlogin rounds).any fun s => env.seenIn s.seen r.ip

/-- The state and the answers left when the lines have been gone through. -/
def reach (s : State) : List Text → List Round → Option (State × List Round)
  | [], rounds => some (s, rounds)
  | line :: lines, rounds =>
    match visit env s line rounds with
    | none => none
    | some (s, rounds) => reach s lines rounds

/-- Every search of a run, with the record it is made for. -/
def allTests (s : State) : List Text → List Round → List (State × Record)
  | [], _ => []
  | line :: lines, rounds =>
    (if supported env line then
      (tests env s (parse env line) (parse env line).userlogin rounds).map fun s =>
        (s, parse env line)
    else []) ++
      match visit env s line rounds with
      | none => []
      | some (s, rounds) => allTests s lines rounds

/-- The records that are taken up after quitting, each with the lines before it. -/
def unasked (s : State) (before : List Text) : List Text → List Round → List (List Text × Text)
  | [], _ => []
  | line :: lines, rounds =>
    (if s.quit && supported env line then [(before, line)] else []) ++
      match visit env s line rounds with
      | none => []
      | some (s, rounds) => unasked s (before ++ [line]) lines rounds

/-- The addresses of the records among some lines. -/
def addressesOf (ls : List Text) : List Text :=
  (ls.filter (supported env)).map fun line => (parse env line).ip

end Run

/-- The leftmost match of an address, if there is one, is an entry that is the address. -/
def Whole (seen ip : Text) : Prop :=
  ∀ m ∈ firstMatch ip seen,
    seen = m.1 ++ ip ++ m.2 ∧ (m.1 = [] ∨ m.1.getLast? = some '|') ∧ m.2.head? = some '|'

instance (seen ip : Text) : Decidable (Whole seen ip) :=
  inferInstanceAs (Decidable (∀ _ ∈ _, _))

/-- The text that is searched. Where an address was taken out an empty entry stays. -/
def entries (es : List Text) : Text := es.flatMap (· ++ ['|'])

section Entries

variable {e ip a b seen : Text} {es ips : List Text} {glob : Text → List Text}

theorem entries_cons (e : Text) (es : List Text) : entries (e :: es) = e ++ '|' :: entries es := by
  simp [entries]

theorem entries_append (es es' : List Text) : entries (es ++ es') = entries es ++ entries es' := by
  simp [entries]

/-- What stands between two bars is an entry. -/
theorem entries_split (hes : ∀ e ∈ es, '|' ∉ e) (hip : '|' ∉ ip)
    (ha : a = [] ∨ a.getLast? = some '|') (h : entries es = a ++ ip ++ '|' :: b) :
    ∃ es₁ es₂, es = es₁ ++ ip :: es₂ ∧ a = entries es₁ ∧ b = entries es₂ := by
  induction es generalizing a with
  | nil => simp [entries] at h
  | cons e es ih =>
    have he := hes e List.mem_cons_self
    rw [entries_cons] at h
    rcases ha with rfl | ha
    · rw [List.nil_append] at h
      obtain ⟨rfl, rfl⟩ := append_cons_inj he hip h
      exact ⟨[], es, rfl, rfl, rfl⟩
    · -- the first bar of `a` ends the first entry
      obtain ⟨a₁, a₂, rfl, ha₁⟩ := List.eq_append_cons_of_mem (List.mem_of_getLast? ha)
      have ha₂ : a₂ = [] ∨ a₂.getLast? = some '|' := by
        cases a₂ with
        | nil => exact .inl rfl
        | cons c a₂ => exact .inr (by simpa using ha)
      rw [List.append_assoc, List.append_assoc, List.cons_append, ← List.append_assoc] at h
      obtain ⟨rfl, hrest⟩ := append_cons_inj he ha₁ h
      obtain ⟨es₁, es₂, rfl, rfl, rfl⟩ :=
        ih (fun e he => hes e (List.mem_cons_of_mem _ he)) ha₂ hrest
      exact ⟨e :: es₁, es₂, rfl, (entries_cons _ _).symm, rfl⟩

/-- The text is made of the entries, and these of characters of addresses. -/
structure Entries (seen : Text) (es : List Text) : Prop where
  text : seen = entries es
  addr : ∀ e ∈ es, ∀ c ∈ e, isAddressChar c = true

theorem not_mem_address {c : Char} (hc : isAddressChar c = false)
    (h : ∀ c ∈ e, isAddressChar c = true) : c ∉ e :=
  fun hmem => Bool.false_ne_true (hc.symm.trans (h c hmem))

theorem Entries.echo (h : Entries seen es) : lines (echo [seen]) = [seen] := by
  have hchar : ∀ c ∈ seen, isAddressChar c = true ∨ c = '|' := by
    intro c hc
    rw [h.text, entries, List.mem_flatMap] at hc
    obtain ⟨e, he, hc⟩ := hc
    rcases List.mem_append.mp hc with hc | hc
    · exact .inl (h.addr e he c hc)
    · exact .inr (List.mem_singleton.mp hc)
  have hline : Line seen := fun hmem => absurd (hchar '\n' hmem) (by decide)
  have hopt : isOption seen = false := by
    refine isOption_of_head fun hhead => ?_
    exact absurd (hchar '-' (List.mem_of_mem_head? hhead)) (by decide)
  rw [echo_quoted hopt, lines_ended hline]
  rfl

theorem Entries.seenIn (h : Entries seen es) (glob : Text → List Text) (ip : Text) :
    (grepEnv glob).seenIn seen ip = grep ip seen := by
  simp [grepEnv, h.echo]

/-- What is found is an entry, and it is that entry that is taken out. -/
theorem Entries.forget (h : Entries seen es) (hip : IsAddress ip) (hwhole : Whole seen ip)
    (hgrep : grep ip seen = true) (glob : Text → List Text) :
    ∃ es₁ es₂, es = es₁ ++ ip :: es₂ ∧
      Entries ((grepEnv glob).forget seen ip) (es₁ ++ [] :: es₂) := by
  obtain ⟨m, hm⟩ := Option.isSome_iff_exists.mp hgrep
  obtain ⟨htext, hbefore, hbehind⟩ := hwhole m hm
  obtain ⟨b, hb⟩ := List.head?_eq_some_iff.mp hbehind
  have hbar {e : Text} (he : ∀ c ∈ e, isAddressChar c = true) : '|' ∉ e :=
    not_mem_address (by decide) he
  rw [h.text, hb] at htext
  obtain ⟨es₁, es₂, rfl, ha, rfl⟩ :=
    entries_split (fun e he => hbar (h.addr e he)) (hbar hip.2) hbefore htext
  have herase : erase ip seen = entries (es₁ ++ [] :: es₂) := by
    rw [erase_eq (a := m.1) (b := m.2) hm, ha, hb, entries_append, entries_cons]
    rfl
  have hentries : Entries (erase ip seen) (es₁ ++ [] :: es₂) := by
    refine ⟨herase, fun e he => ?_⟩
    rcases List.mem_append.mp he with he | he
    · exact h.addr e (List.mem_append_left _ he)
    · rcases List.mem_cons.mp he with rfl | he
      · intro c hc
        cases hc
      · exact h.addr e (by simp [he])
  refine ⟨es₁, es₂, rfl, ?_⟩
  have hline : Line (erase ip seen) := by
    have hecho := hentries.echo
    exact line_of_mem_lines (t := Bash.echo [erase ip seen]) (by simp [hecho])
  have hforget : (grepEnv glob).forget seen ip = erase ip seen := by
    have hecho := h.echo
    simp only [grepEnv, hecho, List.map_cons, List.map_nil]
    exact capture_unlines_singleton hline
  rwa [hforget]

end Entries

/-- The addresses that are found are those of the records so far. -/
def Remembered (seen : Text) (ips : List Text) : Prop :=
  ∃ es, Entries seen es ∧ ∀ ip, ip ≠ [] → (ip ∈ es ↔ ip ∈ ips)

/-- The same while a record is dealt with, of which the address may have been taken out. -/
def Pending (seen ip : Text) (ips : List Text) : Prop :=
  ∃ es, Entries seen es ∧ (ip ∈ es → ip ∈ ips) ∧
    ∀ other, other ≠ [] → other ≠ ip → (other ∈ es ↔ other ∈ ips)

section Step

variable {glob : Text → List Text} {seen ip : Text} {ips ips' : List Text}

theorem Remembered.pending (h : Remembered seen ips) (hip : ip ≠ []) : Pending seen ip ips := by
  obtain ⟨es, hes, hmem⟩ := h
  exact ⟨es, hes, (hmem ip hip).mp, fun other hother _ => hmem other hother⟩

theorem Remembered.congr (h : Remembered seen ips) (hips : ∀ ip, ip ∈ ips ↔ ip ∈ ips') :
    Remembered seen ips' := by
  obtain ⟨es, hes, hmem⟩ := h
  exact ⟨es, hes, fun ip hip => (hmem ip hip).trans (hips ip)⟩

theorem remembered_start : Remembered start.seen [] := by
  refine ⟨[], ⟨rfl, ?_⟩, by simp⟩
  intro e he
  cases he

/-- An address that is remembered is found. -/
theorem Remembered.seenIn (h : Remembered seen ips) (hip : ip ∈ ips) (hne : ip ≠ []) :
    (grepEnv glob).seenIn seen ip = true := by
  obtain ⟨es, hes, hmem⟩ := h
  obtain ⟨es₁, es₂, rfl⟩ := List.append_of_mem ((hmem ip hne).mpr hip)
  rw [hes.seenIn, hes.text, entries_append, entries_cons, ← List.append_assoc]
  exact grep_of_mem _ _ _

/-- What is found is an address of an earlier record. -/
theorem Pending.mem (h : Pending seen ip ips) (hip : IsAddress ip) (hwhole : Whole seen ip)
    (hseen : (grepEnv glob).seenIn seen ip = true) : ip ∈ ips := by
  obtain ⟨es, hes, hmem, -⟩ := h
  rw [hes.seenIn] at hseen
  obtain ⟨es₁, es₂, rfl, -⟩ := hes.forget hip hwhole hseen glob
  exact hmem (by simp)

/-- Taking the address out leaves the others. -/
theorem Pending.forget (h : Pending seen ip ips) (hip : IsAddress ip) (hwhole : Whole seen ip)
    (hseen : (grepEnv glob).seenIn seen ip = true) :
    Pending ((grepEnv glob).forget seen ip) ip ips := by
  obtain ⟨es, hes, hmem, hothers⟩ := h
  rw [hes.seenIn] at hseen
  obtain ⟨es₁, es₂, rfl, hforget⟩ := hes.forget hip hwhole hseen glob
  refine ⟨es₁ ++ [] :: es₂, hforget, fun _ => hmem (by simp), ?_⟩
  intro other hne hother
  rw [← hothers other hne hother]
  simp [hne, hother]

/-- The record dealt with is remembered with those before it. -/
theorem Pending.see (h : Pending seen ip ips) (hip : IsAddress ip) :
    Remembered (ip ++ '|' :: seen) (ip :: ips) := by
  obtain ⟨es, hes, hmem, hothers⟩ := h
  refine ⟨ip :: es, ⟨?_, ?_⟩, ?_⟩
  · rw [entries_cons, hes.text]
  · intro e he
    rcases List.mem_cons.mp he with rfl | he
    · exact hip.2
    · exact hes.addr e he
  · intro other hne
    by_cases hother : other = ip
    · simp [hother]
    · simp [hother, hothers other hne hother]

end Step

section Turn

variable {s s' : State} {r : Record} {login login' : Text} {round : Round} {rounds : List Round}

/-- The addresses seen after one time round the loop, and that only quitting quits. -/
def SeenSpec (seen : Text) (quit : Bool) : Turn → Prop
  | .again s' _ => s'.seen = seen ∧ s'.quit = quit
  | .done s' => s'.seen = seen

theorem act_seen (env : Env) (s : State) (r : Record) (login : Text) (round : Round)
    (action : Option Char) : SeenSpec s.seen s.quit (act env s r login round action) := by
  have again (s : State) (login : Text) : SeenSpec s.seen s.quit (.again s login) := ⟨rfl, rfl⟩
  have mailed (template : Text) (force : List Text) (sent : Bool) :
      SeenSpec s.seen s.quit (.again (mail env s r.email template force sent) login) := ⟨rfl, rfl⟩
  unfold act
  split
  iterate 2
    · split
      · exact again s login
      · split
        · exact mailed _ _ _
        · split
          · exact ⟨rfl, rfl⟩
          · exact rfl
  iterate 2
    · split
      · exact again s login
      · split
        · exact mailed _ _ _
        · exact rfl
  iterate 2
    · split
      · exact again s login
      · exact rfl
  iterate 2
    · split
      · exact mailed _ _ _
      · exact rfl
  iterate 2
    · exact ⟨rfl, rfl⟩
  iterate 2
    · split
      · exact again s login
      · exact rfl
  iterate 2
    · split
      · exact again s login
      · exact rfl
  · exact ⟨rfl, rfl⟩

theorem turn_seen (env : Env) (s : State) (r : Record) (login : Text) (round : Round) :
    SeenSpec (if env.seenIn s.seen r.ip then env.forget s.seen r.ip else s.seen) s.quit
      (turn env s r login round) := by
  rw [turn]
  split
  · exact act_seen env { s.report (.duplicate r.ip) with seen := env.forget s.seen r.ip } r login
      round (some 'd')
  · exact act_seen env s r login round round.action

variable {glob : Text → List Text} {ips : List Text}

/-- One time round the loop leaves the other addresses. -/
theorem Pending.turn (h : Pending s.seen r.ip ips) (hip : IsAddress r.ip)
    (hwhole : Whole s.seen r.ip) (glob : Text → List Text) (login : Text) (round : Round) :
    match turn (grepEnv glob) s r login round with
    | .again s' _ => Pending s'.seen r.ip ips ∧ s'.quit = s.quit
    | .done s' => Pending s'.seen r.ip ips := by
  have hnext : Pending (if (grepEnv glob).seenIn s.seen r.ip then (grepEnv glob).forget s.seen r.ip
      else s.seen) r.ip ips := by
    split
    · rename_i hseen
      exact h.forget hip hwhole hseen
    · exact h
  have hspec := turn_seen (grepEnv glob) s r login round
  cases hturn : Membership.turn (grepEnv glob) s r login round with
  | again s' login' =>
    rw [hturn] at hspec
    exact ⟨hspec.1 ▸ hnext, hspec.2⟩
  | done s' =>
    rw [hturn] at hspec
    have hseen : s'.seen = _ := hspec
    rw [← hseen] at hnext
    exact hnext

theorem tests_self (hquit : s.quit = false) (env : Env) (r : Record) (login : Text)
    (rounds : List Round) : s ∈ tests env s r login rounds := by
  cases rounds with
  | nil => simp [tests, hquit]
  | cons round rounds => simp [tests, hquit]

/-- Wherever the addresses are searched for one record, those of the others are there. -/
theorem Pending.tests (h : Pending s.seen r.ip ips) (hip : IsAddress r.ip) (hquit : s.quit = false)
    (hwhole : ∀ t ∈ tests (grepEnv glob) s r login rounds, Whole t.seen r.ip) :
    ∀ t ∈ tests (grepEnv glob) s r login rounds, Pending t.seen r.ip ips := by
  induction rounds generalizing s login with
  | nil =>
    intro t ht
    simp only [Membership.tests, hquit, Bool.false_eq_true, if_false, List.mem_singleton] at ht
    exact ht ▸ h
  | cons round rounds ih =>
    have hturn := h.turn hip (hwhole s (tests_self hquit _ _ _ _)) glob login round
    simp only [Membership.tests, hquit, Bool.false_eq_true, if_false] at hwhole ⊢
    intro t ht
    rcases List.mem_cons.mp ht with rfl | ht
    · exact h
    · split at ht
      · rename_i s' login' heq
        rw [heq] at hturn hwhole
        exact ih hturn.1 (hturn.2.trans hquit)
          (fun t ht => hwhole t (List.mem_cons_of_mem _ ht)) t ht
      · cases ht

/-- A record that has been dealt with is remembered. -/
theorem Pending.deliberate (h : Pending s.seen r.ip ips) (hip : IsAddress r.ip)
    (hquit : s.quit = false)
    (hwhole : ∀ t ∈ Membership.tests (grepEnv glob) s r login rounds, Whole t.seen r.ip)
    {rest : List Round} (hrun : deliberate (grepEnv glob) s r login rounds = some (s', rest)) :
    Remembered s'.seen (r.ip :: ips) := by
  induction rounds generalizing s login with
  | nil => simp [Membership.deliberate, hquit] at hrun
  | cons round rounds ih =>
    have hturn := h.turn hip (hwhole s (tests_self hquit _ _ _ _)) glob login round
    simp only [Membership.deliberate, hquit, Bool.false_eq_true, if_false] at hrun
    simp only [Membership.tests, hquit, Bool.false_eq_true, if_false] at hwhole
    split at hrun
    · rename_i s₁ login₁ heq
      rw [heq] at hturn hwhole
      exact ih hturn.1 (hturn.2.trans hquit)
        (fun t ht => hwhole t (List.mem_cons_of_mem _ ht)) hrun
    · rename_i s₁ heq
      rw [heq] at hturn
      injection hrun with hrun
      injection hrun with hs
      rw [← hs]
      exact hturn.see hip

/-- A record is reported just where its address is remembered. -/
theorem Remembered.reported_iff (h : Remembered s.seen ips) (hip : IsAddress r.ip)
    (hquit : s.quit = false)
    (hwhole : ∀ t ∈ tests (grepEnv glob) s r login rounds, Whole t.seen r.ip) :
    reported (grepEnv glob) s r login rounds = true ↔ r.ip ∈ ips := by
  have hpending := (h.pending hip.1).tests hip hquit hwhole
  rw [reported, List.any_eq_true]
  constructor
  · intro hreported
    obtain ⟨t, ht, hseen⟩ := hreported
    exact (hpending t ht).mem hip (hwhole t ht) hseen
  · intro hmem
    exact ⟨s, tests_self hquit _ _ _ _, h.seenIn hmem hip.1⟩

/-- After quitting nothing is asked any more: the record is kept. -/
theorem deliberate_of_quit (env : Env) (hquit : s.quit = true) (r : Record) (login : Text)
    (rounds : List Round) :
    deliberate env s r login rounds = some ((s.keep r.line).see r.ip, rounds) := by
  cases rounds with
  | nil => rw [deliberate, if_pos hquit]
  | cons round rounds => rw [deliberate, if_pos hquit]

theorem reported_quit (hquit : s.quit = true) (env : Env) (r : Record) (login : Text)
    (rounds : List Round) : reported env s r login rounds = false := by
  cases rounds with
  | nil => simp [reported, tests, hquit]
  | cons round rounds => simp [reported, tests, hquit]

end Turn

section Reach

variable {s s' : State} {line : Text} {before behind : List Text} {rounds rest : List Round}
  {glob : Text → List Text} {ips : List Text}

theorem visit_quit (env : Env) (hquit : s.quit = true)
    (hrun : visit env s line rounds = some (s', rest)) : s'.quit = true := by
  cases hline : supported env line with
  | true =>
    rw [visit_supported env s hline, deliberate_of_quit env hquit] at hrun
    injection hrun with hrun
    injection hrun with hs
    exact hs ▸ hquit
  | false =>
    obtain ⟨reports, hreports⟩ := visit_unsupported env s hline
    rw [hreports] at hrun
    injection hrun with hrun
    injection hrun with hs
    rw [← hs]
    exact hquit

theorem reach_quit (env : Env) (hquit : s.quit = true)
    (hrun : reach env s before rounds = some (s', rest)) : s'.quit = true := by
  induction before generalizing s rounds with
  | nil =>
    injection hrun with hrun
    injection hrun with hs
    exact hs ▸ hquit
  | cons line before ih =>
    rw [reach] at hrun
    split at hrun
    · cases hrun
    · rename_i s₁ rounds₁ hvisit
      exact ih (visit_quit env hquit hvisit) hrun

/-- A run goes on from where the first lines end. -/
theorem allTests_append (env : Env) (s : State) (before behind : List Text)
    (rounds : List Round) (hrun : reach env s before rounds = some (s', rest)) :
    allTests env s (before ++ behind) rounds =
      allTests env s before rounds ++ allTests env s' behind rest := by
  induction before generalizing s rounds with
  | nil =>
    injection hrun with hrun
    injection hrun with hs hrest
    rw [← hs, ← hrest]
    rfl
  | cons line before ih =>
    rw [reach] at hrun
    split at hrun
    · cases hrun
    · rename_i s₁ rounds₁ hvisit
      simp only [List.cons_append, allTests, hvisit, List.append_assoc]
      exact congrArg _ (ih s₁ rounds₁ hrun)

/-- The tests of the first line. -/
theorem mem_allTests (env : Env) (hline : supported env line = true) {t : State}
    (ht : t ∈ tests env s (parse env line) (parse env line).userlogin rounds)
    (behind : List Text) : (t, parse env line) ∈ allTests env s (line :: behind) rounds := by
  rw [allTests, if_pos hline]
  exact List.mem_append_left _ (List.mem_map.mpr ⟨t, ht, rfl⟩)

/-- Whoever quits before a record is not asked about it. -/
theorem mem_unasked (env : Env) (s : State) (pre before behind : List Text) (rounds : List Round)
    (hrun : reach env s before rounds = some (s', rest)) (hquit : s'.quit = true)
    (hline : supported env line = true) :
    (pre ++ before, line) ∈ unasked env s pre (before ++ line :: behind) rounds := by
  induction before generalizing s pre rounds with
  | nil =>
    injection hrun with hrun
    injection hrun with hs
    simp [unasked, hs, hquit, hline]
  | cons first before ih =>
    rw [reach] at hrun
    split at hrun
    · cases hrun
    · rename_i s₁ rounds₁ hvisit
      have hmem := ih s₁ (pre ++ [first]) rounds₁ hrun
      rw [List.append_assoc, List.singleton_append] at hmem
      rw [List.cons_append, unasked, hvisit]
      exact List.mem_append_right _ hmem

/-- One line: a record is remembered with those before it, anything else leaves them. -/
theorem Remembered.visit (h : Remembered s.seen ips)
    (hip : supported (grepEnv glob) line = true → IsAddress (parse (grepEnv glob) line).ip)
    (hquit : s.quit = false)
    (hwhole : ∀ p ∈ allTests (grepEnv glob) s (line :: behind) rounds, Whole p.1.seen p.2.ip)
    (hrun : visit (grepEnv glob) s line rounds = some (s', rest)) :
    Remembered s'.seen (addressesOf (grepEnv glob) [line] ++ ips) := by
  cases hline : supported (grepEnv glob) line with
  | true =>
    rw [visit_supported _ s hline] at hrun
    have hip := hip hline
    have hsee := (h.pending hip.1).deliberate hip hquit
      (fun t ht => hwhole _ (mem_allTests _ hline ht behind)) hrun
    simpa [addressesOf, hline] using hsee
  | false =>
    obtain ⟨reports, hreports⟩ := visit_unsupported (grepEnv glob) s hline
    rw [hreports] at hrun
    injection hrun with hrun
    injection hrun with hs
    rw [← hs]
    simpa [addressesOf, hline] using h

theorem addresses_cons (env : Env) (line : Text) (ls : List Text) :
    addressesOf env (line :: ls) = addressesOf env [line] ++ addressesOf env ls := by
  cases hline : supported env line with
  | true => simp [addressesOf, hline]
  | false => simp [addressesOf, hline]

/-- As long as nobody has quit, the addresses of the records gone through are those
remembered. -/
theorem Remembered.reach (h : Remembered s.seen ips)
    (hip : ∀ ip ∈ addressesOf (grepEnv glob) before, IsAddress ip)
    (hwhole : ∀ p ∈ allTests (grepEnv glob) s before rounds, Whole p.1.seen p.2.ip)
    (hrun : reach (grepEnv glob) s before rounds = some (s', rest)) (hquit : s'.quit = false) :
    Remembered s'.seen (addressesOf (grepEnv glob) before ++ ips) := by
  induction before generalizing s rounds ips with
  | nil =>
    injection hrun with hrun
    injection hrun with hs
    exact hs ▸ h
  | cons line before ih =>
    have hopen : s.quit = false := by
      cases hs : s.quit with
      | false => rfl
      | true => exact absurd (reach_quit _ hs hrun) (Bool.eq_false_iff.mp hquit)
    rw [addresses_cons] at hip ⊢
    rw [Membership.reach] at hrun
    split at hrun
    · cases hrun
    · rename_i s₁ rounds₁ hvisit
      have hline : supported (grepEnv glob) line = true →
          IsAddress (parse (grepEnv glob) line).ip := by
        intro hline
        exact hip _ (List.mem_append_left _ (by simp [addressesOf, hline]))
      have hvisited := h.visit hline hopen hwhole hvisit
      have hrest : ∀ p ∈ allTests (grepEnv glob) s₁ before rounds₁, Whole p.1.seen p.2.ip := by
        intro p hp
        refine hwhole p ?_
        rw [allTests, hvisit]
        exact List.mem_append_right _ hp
      have hreached := ih hvisited (fun ip hmem => hip ip (List.mem_append_right _ hmem)) hrest hrun
      refine hreached.congr fun ip => ?_
      simp only [List.mem_append]
      tauto

end Reach

/-- A record of the data file that is taken up, with the state and the answers left by those before
it. -/
structure Taken (env : Env) (data : Text) (rounds : List Round) (before : List Text) (line : Text)
    (s : State) (rest : List Round) : Prop where
  split : ∃ behind, readLines data = before ++ line :: behind
  record : supported env line = true
  reached : reach env start before rounds = some (s, rest)

/-- Every record has an address. -/
def WellFormed (env : Env) (data : Text) : Prop :=
  ∀ ip ∈ addressesOf env (readLines data), IsAddress ip

instance (env : Env) (data : Text) : Decidable (WellFormed env data) :=
  List.decidableBAll _ _

/-- A record is reported just where one before it has its address. -/
def DuplicatesReported (env : Env) (data : Text) (rounds : List Round) : Prop :=
  ∀ before line s rest, Taken env data rounds before line s rest →
    (reported env s (parse env line) (parse env line).userlogin rest = true ↔
      (parse env line).ip ∈ addressesOf env before)

variable {glob : Text → List Text} {data : Text} {rounds : List Round}

/-- Over a run in which the leftmost match of an address is never anything but an entry of that
address, and no record left after quitting has an address that was there before, duplicates are
what is reported. -/
theorem duplicate_iff_earlier (hwell : WellFormed (grepEnv glob) data)
    (hwhole : ∀ p ∈ allTests (grepEnv glob) start (readLines data) rounds, Whole p.1.seen p.2.ip)
    (hquit : ∀ p ∈ unasked (grepEnv glob) start [] (readLines data) rounds,
      (parse (grepEnv glob) p.2).ip ∉ addressesOf (grepEnv glob) p.1) :
    DuplicatesReported (grepEnv glob) data rounds := by
  intro before line s rest h
  obtain ⟨behind, hsplit⟩ := h.split
  rw [hsplit] at hwhole hquit
  rw [allTests_append _ _ _ _ _ h.reached] at hwhole
  rw [WellFormed, hsplit] at hwell
  cases hworking : s.quit with
  | true =>
    have hnew := hquit _ (mem_unasked _ start [] before behind rounds h.reached hworking h.record)
    rw [List.nil_append] at hnew
    simp [reported_quit hworking, hnew]
  | false =>
    have haddress (ip : Text) (hip : ip ∈ addressesOf (grepEnv glob) before) : IsAddress ip := by
      refine hwell ip ?_
      rw [addressesOf, List.filter_append, List.map_append]
      exact List.mem_append_left _ hip
    have hip : IsAddress (parse (grepEnv glob) line).ip := by
      refine hwell _ ?_
      simp [addressesOf, h.record]
    have hreached := remembered_start.reach haddress
      (fun p hp => hwhole p (List.mem_append_left _ hp)) h.reached hworking
    rw [List.append_nil] at hreached
    refine hreached.reported_iff hip hworking fun t ht => ?_
    exact hwhole _ (List.mem_append_right _ (mem_allTests _ h.record ht behind))

/-- The answer to skip a record, and to be sure. -/
def passed : Round := ⟨some 's', some 'y', [], false, false, text "Thu"⟩

def noFiles : Text → List Text := fun _ => []

/-- The shorter address is found in the longer one. -/
theorem duplicate_reported_first :
    ¬∀ (glob : Text → List Text) (data : Text) (rounds : List Round),
      WellFormed (grepEnv glob) data → DuplicatesReported (grepEnv glob) data rounds := by
  intro h
  let ann := text "1|10.0.0.12|Ann|a@b|ann|Thu|x"
  let bob := text "1|10.0.0.1|Bob|b@c|bob|Thu|y"
  have hiff := h noFiles (unlines [ann, bob]) [passed] (by decide +kernel) [ann] bob
    { start with next := text "\\n" ++ ann, seen := text "10.0.0.12|" } []
    ⟨⟨[], by decide +kernel⟩, by decide +kernel, by decide +kernel⟩
  exact absurd (hiff.mp (by decide +kernel)) (by decide +kernel)

theorem duplicate_iff_earlier_twice :
    DuplicatesReported (grepEnv noFiles)
      (unlines [text "1|10.0.0.1|Ann|a@b|ann|Thu|x", text "1|10.0.0.2|Bob|b@c|bob|Thu|y",
        text "1|10.0.0.1|Ann|a@b|ann|Thu|z"]) [passed, passed, passed] :=
  duplicate_iff_earlier (by decide +kernel) (by decide +kernel) (by decide +kernel)

end HackerUnion.Membership
