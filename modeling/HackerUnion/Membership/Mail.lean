import HackerUnion.Membership.Decide
import HackerUnion.Membership.Apply
import Mathlib.Logic.Function.Iterate

namespace HackerUnion.Membership

open Bash

def templates : List Text := [emailTemplate, acceptTemplate, rejectTemplate]

/-- The string that `eval_template` hands to `eval`. -/
def evalTemplate (t : Text) : Text := text "echo -e \"" ++ capture (echo [text "-e", t]) ++ ['"']

/-- `eval_template "$2"` -/
def Call.evaluated (c : Call) : Text := evalTemplate ((c.args[1]?).getD [])

/-- The first argument is the whole address, the second is a template, and a third is `force`. -/
def Call.Safe (c : Call) : Prop :=
  ∃ t ∈ templates, ∃ force ∈ [[], [text "force"]], c.args = c.email :: t :: force

variable (env : Env)

/-- The address is one argument of its own when it is not quoted. -/
def OneWord (t : Text) : Prop := expand env.glob t = [t]

instance (t : Text) : Decidable (OneWord env t) := inferInstanceAs (Decidable (_ = _))

variable {env} {s s' : State} {r : Record}

/-- Nothing but a template is evaluated in a safe call. -/
theorem Call.Safe.evaluated {c : Call} (h : c.Safe) :
    c.evaluated ∈ templates.map evalTemplate := by
  obtain ⟨t, ht, force, -, hargs⟩ := h
  rw [Call.evaluated, hargs]
  exact List.mem_map_of_mem ht

section Calls

/-- A call for an address, with the words of it before a template. -/
def Sent (env : Env) (email : Text) (c : Call) : Prop :=
  c.email = email ∧ ∃ t ∈ templates, ∃ force ∈ [[], [text "force"]],
    c.args = expand env.glob email ++ t :: force

theorem Sent.safe {email : Text} {c : Call} (h : Sent env email c) (hword : OneWord env email) :
    c.Safe := by
  obtain ⟨rfl, t, ht, force, hforce, hargs⟩ := h
  exact ⟨t, ht, force, hforce, by rw [hargs, hword]; rfl⟩

/-- The calls made on the way from a state to another, all of them for one of the addresses. -/
def Calls (env : Env) (emails : List Text) (s s' : State) : Prop :=
  ∃ calls, s'.composed = s.composed ++ calls ∧ ∀ c ∈ calls, ∃ email ∈ emails, Sent env email c

variable {emails : List Text}

theorem Calls.same (h : s'.composed = s.composed) : Calls env emails s s' :=
  ⟨[], by simp [h], by simp⟩

theorem Calls.trans {t : State} (h : Calls env emails s t) (h' : Calls env emails t s') :
    Calls env emails s s' := by
  obtain ⟨calls, hcomposed, hcalls⟩ := h
  obtain ⟨calls', hcomposed', hcalls'⟩ := h'
  refine ⟨calls ++ calls', by rw [hcomposed', hcomposed, List.append_assoc], ?_⟩
  intro c hc
  rcases List.mem_append.mp hc with hc | hc
  · exact hcalls c hc
  · exact hcalls' c hc

theorem Calls.mono {emails' : List Text} (h : Calls env emails s s') (hsub : emails ⊆ emails') :
    Calls env emails' s s' := by
  obtain ⟨calls, hcomposed, hcalls⟩ := h
  refine ⟨calls, hcomposed, fun c hc => ?_⟩
  obtain ⟨email, hemail, hsent⟩ := hcalls c hc
  exact ⟨email, hsub hemail, hsent⟩

theorem Calls.mem {c : Call} (h : Calls env emails s s') (hc : c ∈ s.composed) :
    c ∈ s'.composed := by
  obtain ⟨calls, hcomposed, -⟩ := h
  rw [hcomposed]
  exact List.mem_append_left _ hc

theorem calls_mail (env : Env) (s : State) (email : Text) {t : Text} (ht : t ∈ templates)
    {force : List Text} (hforce : force ∈ [[], [text "force"]]) (sent : Bool) :
    Calls env [email] s (mail env s email t force sent) := by
  refine ⟨[⟨email, expand env.glob email ++ t :: force⟩], rfl, ?_⟩
  intro c hc
  cases List.mem_singleton.mp hc
  exact ⟨email, List.mem_singleton_self _, rfl, t, ht, force, hforce, rfl⟩

def Turn.state : Turn → State
  | .again s _ => s
  | .done s => s

theorem calls_act (env : Env) (s : State) (r : Record) (login : Text) (round : Round)
    (action : Option Char) : Calls env [r.email] s (act env s r login round action).state := by
  have same {s' : State} (h : s'.composed = s.composed) : Calls env [r.email] s s' := .same h
  have mailed {t : Text} (ht : t ∈ templates) {force : List Text}
      (hforce : force ∈ [[], [text "force"]]) {s' : State}
      (h : s'.composed = (mail env s r.email t force round.mailed).composed) :
      Calls env [r.email] s s' :=
    (calls_mail env s r.email ht hforce round.mailed).trans (.same h)
  have haccept : acceptTemplate ∈ templates := by simp [templates]
  have hreject : rejectTemplate ∈ templates := by simp [templates]
  have hemail : emailTemplate ∈ templates := by simp [templates]
  have hforce : [text "force"] ∈ [[], [text "force"]] := by simp
  have hnone : [] ∈ [[], [text "force"]] := by simp
  unfold act
  split
  iterate 2
    · split
      · exact same rfl
      · split
        · exact mailed haccept hforce rfl
        · split
          · exact mailed haccept hforce rfl
          · exact mailed haccept hforce rfl
  iterate 2
    · split
      · exact same rfl
      · split
        · exact mailed hreject hforce rfl
        · exact mailed hreject hforce rfl
  iterate 2
    · split
      · exact same rfl
      · exact same rfl
  iterate 2
    · split
      · exact mailed hemail hnone rfl
      · exact mailed hemail hnone rfl
  iterate 2
    · exact same rfl
  iterate 2
    · split
      · exact same rfl
      · exact same rfl
  iterate 2
    · split
      · exact same rfl
      · exact same rfl
  · exact same rfl

theorem calls_turn (env : Env) (s : State) (r : Record) (login : Text) (round : Round) :
    Calls env [r.email] s (turn env s r login round).state := by
  unfold turn
  split
  · have hsame : Calls env [r.email] s
        { s.report (.duplicate r.ip) with seen := env.forget s.seen r.ip } := .same rfl
    exact hsame.trans (calls_act env _ r login round (some 'd'))
  · exact calls_act env s r login round round.action

theorem calls_deliberate (env : Env) (r : Record) (rounds : List Round) {rest : List Round}
    {login : Text} (h : deliberate env s r login rounds = some (s', rest)) :
    Calls env [r.email] s s' := by
  induction rounds generalizing s login with
  | nil =>
    simp only [deliberate] at h
    split at h
    · cases h
      exact .same rfl
    · cases h
  | cons round rounds ih =>
    simp only [deliberate] at h
    split at h
    · cases h
      exact .same rfl
    · have hturn := calls_turn env s r login round
      split at h
      · rename_i t login' heq
        rw [heq] at hturn
        exact hturn.trans (ih h)
      · rename_i t heq
        rw [heq] at hturn
        cases h
        exact hturn.trans (.same rfl)

/-- The addresses that decide reads. -/
def addresses (env : Env) (ls : List Text) : List Text :=
  (ls.filter (supported env)).map (field env 4)

theorem calls_visit (env : Env) {line : Text} {rounds rest : List Round}
    (h : visit env s line rounds = some (s', rest)) : Calls env (addresses env [line]) s s' := by
  cases hline : supported env line with
  | false =>
    obtain ⟨reports, hvisit⟩ := visit_unsupported env s hline
    rw [hvisit] at h
    cases h
    exact .same rfl
  | true =>
    rw [visit_supported env s hline] at h
    apply (calls_deliberate env _ _ h).mono
    simp [addresses, hline, parse]

theorem calls_visitAll (env : Env) (ls : List Text) {rounds : List Round}
    (h : visitAll env s ls rounds = some s') : Calls env (addresses env ls) s s' := by
  induction ls generalizing s rounds with
  | nil =>
    cases h
    exact .same rfl
  | cons line ls ih =>
    simp only [visitAll] at h
    split at h
    · cases h
    · rename_i t rest hvisit
      have hsub : addresses env (line :: ls) = addresses env [line] ++ addresses env ls := by
        rw [addresses, addresses, addresses, ← List.map_append, ← List.filter_append]
        rfl
      rw [hsub]
      apply ((calls_visit env hvisit).mono (List.subset_append_left _ _)).trans
      exact (ih h).mono (List.subset_append_right _ _)

end Calls

section Reach

variable {line : Text}

/-- The answers that skip a record, and those that decline to delete one. -/
def skip : Round := ⟨some 's', some 'y', [], false, false, []⟩

def decline : Round := ⟨some 'd', none, [], false, false, []⟩

def sendMail : Round := ⟨some 'e', none, [], true, false, []⟩

theorem deliberate_skip (env : Env) (s : State) (r : Record) (login : Text)
    (hquit : s.quit = false) :
    ∃ t, t.quit = false ∧
      ∀ rounds, deliberate env s r login (skip :: rounds) = some (t, rounds) := by
  cases hseen : env.seenIn s.seen r.ip with
  | false =>
    refine ⟨(s.keep r.line).see r.ip, hquit, fun rounds => ?_⟩
    simp [deliberate, hquit, turn, hseen, act, skip, confirmed]
  | true =>
    refine ⟨(State.record { s.report (.duplicate r.ip) with seen := env.forget s.seen r.ip } 'd' []
      r.line).see r.ip, hquit, fun rounds => ?_⟩
    simp [deliberate, hquit, turn, hseen, act, skip, confirmed]

/-- Whatever comes, a line can be passed without quitting. -/
theorem exists_visit (env : Env) (s : State) (line : Text) (hquit : s.quit = false) :
    ∃ answers t, t.quit = false ∧
      ∀ rounds, visit env s line (answers ++ rounds) = some (t, rounds) := by
  cases hline : supported env line with
  | false =>
    obtain ⟨reports, hvisit⟩ := visit_unsupported env s hline
    exact ⟨[], { s with reports := reports }, hquit, hvisit⟩
  | true =>
    obtain ⟨t, ht, hskip⟩ := deliberate_skip env s (parse env line) (parse env line).userlogin hquit
    exact ⟨[skip], t, ht, fun rounds => by rw [visit_supported env s hline]; exact hskip rounds⟩

/-- A run over any lines can be brought to its end. -/
theorem exists_visitAll (env : Env) (s : State) (ls : List Text) (hquit : s.quit = false) :
    ∃ rounds t, visitAll env s ls rounds = some t := by
  induction ls generalizing s with
  | nil => exact ⟨[], s, rfl⟩
  | cons line ls ih =>
    obtain ⟨answers, t, ht, hvisit⟩ := exists_visit env s line hquit
    obtain ⟨rounds, t', hrun⟩ := ih t ht
    exact ⟨answers ++ rounds, t', by rw [visitAll, hvisit rounds]; exact hrun⟩

/-- The call that a record's mail is written with. -/
def mailCall (env : Env) (email : Text) : Call :=
  ⟨email, expand env.glob email ++ [emailTemplate]⟩

theorem deliberate_mail (env : Env) (s : State) (r : Record) (login : Text)
    (hquit : s.quit = false) (hseen : env.seenIn s.seen r.ip = false) :
    ∃ t, t.quit = false ∧ mailCall env r.email ∈ t.composed ∧
      ∀ rounds, deliberate env s r login (sendMail :: rounds) = some (t, rounds) := by
  refine ⟨((mail env s r.email emailTemplate [] true).keep r.line).see r.ip, hquit, ?_,
    fun rounds => ?_⟩
  · simp [State.see, State.keep, mail, State.report, State.compose, mailCall]
  · simp [deliberate, hquit, turn, hseen, act, sendMail]

/-- A record whose address can be taken out of those seen can be written to. -/
theorem exists_deliberate (env : Env) (r : Record) (n : Nat) (s : State) (login : Text)
    (hquit : s.quit = false)
    (hforget : env.seenIn ((env.forget · r.ip)^[n] s.seen) r.ip = false) :
    ∃ answers t, t.quit = false ∧ mailCall env r.email ∈ t.composed ∧
      ∀ rounds, deliberate env s r login (answers ++ rounds) = some (t, rounds) := by
  induction n generalizing s with
  | zero =>
    obtain ⟨t, ht, hmem, hmail⟩ := deliberate_mail env s r login hquit hforget
    exact ⟨[sendMail], t, ht, hmem, hmail⟩
  | succ n ih =>
    cases hseen : env.seenIn s.seen r.ip with
    | false =>
      obtain ⟨t, ht, hmem, hmail⟩ := deliberate_mail env s r login hquit hseen
      exact ⟨[sendMail], t, ht, hmem, hmail⟩
    | true =>
      -- the deletion that is assumed is declined, and the address is not seen so often any more
      have hrest := ih { s.report (.duplicate r.ip) with seen := env.forget s.seen r.ip } hquit
        hforget
      obtain ⟨answers, t, ht, hmem, hrun⟩ := hrest
      refine ⟨decline :: answers, t, ht, hmem, fun rounds => ?_⟩
      rw [← hrun rounds]
      simp [deliberate, hquit, turn, hseen, act, decline, confirmed]

/-- Every address that is read can be written to in some run. -/
theorem exists_call (env : Env) (ls : List Text) {line : Text} (hline : line ∈ ls)
    (hsupported : supported env line = true)
    (hforget : ∀ seen, ∃ n, env.seenIn ((env.forget · (field env 2 line))^[n] seen)
      (field env 2 line) = false) (s : State) (hquit : s.quit = false) :
    ∃ rounds t, visitAll env s ls rounds = some t ∧
      mailCall env (field env 4 line) ∈ t.composed := by
  induction ls generalizing s with
  | nil => cases hline
  | cons l ls ih =>
    by_cases hl : line = l
    · subst hl
      obtain ⟨n, hn⟩ := hforget s.seen
      obtain ⟨answers, t, ht, hmem, hrun⟩ := exists_deliberate env (parse env line) n s
        (parse env line).userlogin hquit hn
      obtain ⟨rounds, t', hrest⟩ := exists_visitAll env t ls ht
      refine ⟨answers ++ rounds, t', ?_, (calls_visitAll env ls hrest).mem hmem⟩
      rw [visitAll, visit_supported env s hsupported, hrun rounds]
      exact hrest
    · obtain ⟨answers, t, ht, hvisit⟩ := exists_visit env s l hquit
      have hmem : line ∈ ls := (List.mem_cons.mp hline).resolve_left hl
      obtain ⟨rounds, t', hrun, hcall⟩ := ih hmem t ht
      exact ⟨answers ++ rounds, t', by rw [visitAll, hvisit rounds]; exact hrun, hcall⟩

theorem oneWord_of_safe {email : Text} (h : (mailCall env email).Safe) : OneWord env email := by
  obtain ⟨t, -, force, hforce, hargs⟩ := h
  simp only [mailCall] at hargs
  have hforce : force = [] ∨ force = [text "force"] := by simpa using hforce
  rcases hforce with rfl | rfl
  · exact (List.append_inj_left' hargs rfl)
  · have hlast := congrArg List.getLast? hargs
    simp only [List.getLast?_append, List.getLast?_singleton, List.getLast?_cons_cons] at hlast
    exact absurd (Option.some.inj hlast) (by decide)

end Reach

/-- In every run only templates are evaluated, exactly when every address that is read is one
word. -/
theorem safe_iff (env : Env) (data : Text)
    (hforget : ∀ line ∈ records env data, ∀ seen, ∃ n,
      env.seenIn ((env.forget · (field env 2 line))^[n] seen) (field env 2 line) = false) :
    (∀ rounds s, runDecide env data rounds = some s →
        ∀ c ∈ s.composed, c.Safe ∧ c.evaluated ∈ templates.map evalTemplate) ↔
      ∀ line ∈ records env data, OneWord env (field env 4 line) := by
  constructor
  · intro h line hline
    obtain ⟨hmem, hsupported⟩ := List.mem_filter.mp hline
    obtain ⟨rounds, s, hrun, hcall⟩ := exists_call env (readLines data) hmem hsupported
      (hforget line hline) start rfl
    exact oneWord_of_safe (h rounds s hrun _ hcall).1
  · intro h rounds s hrun c hc
    obtain ⟨calls, hcomposed, hcalls⟩ := calls_visitAll env (readLines data) hrun
    have hcall : c ∈ calls := by
      rw [hcomposed] at hc
      exact hc
    obtain ⟨email, hemail, hsent⟩ := hcalls c hcall
    obtain ⟨line, hline, rfl⟩ := List.mem_map.mp hemail
    have hsafe : c.Safe := hsent.safe (h line hline)
    exact ⟨hsafe, hsafe.evaluated⟩

section Literal

variable {p t : Text}

theorem eraseFirst_length (hp : p ≠ []) (h : contains p t = true) :
    (eraseFirst p t).length < t.length := by
  rw [contains_iff] at h
  induction t with
  | nil => exact absurd (List.infix_nil.mp h) hp
  | cons c t ih =>
    have hpos := List.length_pos_iff.mpr hp
    rw [eraseFirst]
    split
    · rw [List.length_drop]
      simp only [List.length_cons]
      omega
    · rename_i hprefix
      have hin : p <:+: t := by
        rcases List.infix_cons_iff.mp h with hpre | hin
        · exact absurd (List.isPrefixOf_iff_prefix.mpr hpre) hprefix
        · exact hin
      have hlt := ih hin
      simp only [List.length_cons]
      omega

/-- Taken out often enough, an address is not there. -/
theorem exists_eraseFirst (hp : p ≠ []) (t : Text) :
    ∃ n, contains p ((eraseFirst p)^[n] t) = false := by
  induction hlen : t.length using Nat.strongRecOn generalizing t with
  | _ k ih =>
    cases hmem : contains p t with
    | false => exact ⟨0, hmem⟩
    | true =>
      obtain ⟨n, hn⟩ := ih _ (hlen ▸ eraseFirst_length hp hmem) (eraseFirst p t) rfl
      exact ⟨n + 1, hn⟩

end Literal

/-- An application that is one line, with one word for an address. -/
def plainApplication : Submission :=
  ⟨text "10.0.0.1", text "Ann Lee", text "ann@x.org", text "ann", text "hi", text "Save",
    text "Tue", by decide, by decide⟩

/-- A second one, from another address. -/
def secondApplication : Submission :=
  ⟨text "10.0.0.2", text "Bob Ray", text "bob@y.org", text "bob7", text "I write code", text "Save",
    text "Wed", by decide, by decide⟩

/-- An application whose address is two words. -/
def twoWords : Submission := { plainApplication with email := text "x $(id)@y" }

theorem safe_iff_plain :
    (∀ rounds s, runDecide bareEnv
          (applyAll bareEnv.glob [plainApplication, secondApplication]) rounds = some s →
        ∀ c ∈ s.composed, c.Safe ∧ c.evaluated ∈ templates.map evalTemplate) ↔
      ∀ line ∈ records bareEnv (applyAll bareEnv.glob [plainApplication, secondApplication]),
        OneWord bareEnv (field bareEnv 4 line) := by
  apply safe_iff
  intro line hline seen
  have hrecords : records bareEnv (applyAll bareEnv.glob [plainApplication, secondApplication]) =
      [text "1|10.0.0.1|Ann Lee|ann@x.org|ann|Tue|hi",
        text "1|10.0.0.2|Bob Ray|bob@y.org|bob7|Wed|I write code"] := by decide
  have hip : field bareEnv 2 line ≠ [] := by
    rw [hrecords] at hline
    rcases List.mem_cons.mp hline with rfl | hline
    · decide
    · cases List.mem_singleton.mp hline
      decide
  exact exists_eraseFirst hip seen

theorem head_of_mem_templates {t : Text} (ht : t ∈ templates) : t.head? = some 'S' := by
  have hemail : emailTemplate.head? = some 'S' := by
    rw [emailTemplate, Lists.head?_intercalate (by decide)]
    decide
  have haccept : acceptTemplate.head? = some 'S' := by
    rw [acceptTemplate, Lists.head?_intercalate (by decide)]
    decide
  have hreject : rejectTemplate.head? = some 'S' := by
    rw [rejectTemplate, Lists.head?_intercalate (by decide)]
    decide
  simp only [templates, List.mem_cons, List.not_mem_nil, or_false] at ht
  rcases ht with rfl | rfl | rfl
  · exact hemail
  · exact haccept
  · exact hreject

/-- The first character of a template is the first one after the quote. -/
theorem evalTemplate_head {t : Text} {c : Char} (hdash : c ≠ '-') (hslash : c ≠ '\\')
    (hnewline : c ≠ '\n') (h : t.head? = some c) : (evalTemplate t)[9]? = some c := by
  cases t with
  | nil => cases h
  | cons d t =>
    cases h
    have he (t : Text) : echo [text "-e", t] = echoWith ⟨true, true⟩ [t] := rfl
    have hopt : isOption (c :: t) = false := isOption_of_head (by simpa using hdash)
    have hunescape : unescape 0 (c :: t) = (c :: (unescape 0 t).1, (unescape 0 t).2) := by
      rw [unescape, if_neg hslash]
    have hout : ∃ u, echo [text "-e", c :: t] = c :: u := by
      rw [he, echoWith, hopt, if_neg Bool.false_ne_true]
      simp only [echoRest, List.intercalate, List.intersperse, List.flatten_cons,
        List.flatten_nil, List.append_nil, if_true, hunescape]
      split
      · exact ⟨(unescape 0 t).1 ++ ['\n'], rfl⟩
      · exact ⟨(unescape 0 t).1, rfl⟩
    obtain ⟨u, hu⟩ := hout
    have hprefix : capture (c :: u) <+: c :: u := List.rdropWhile_prefix _ _
    have hne : capture (c :: u) ≠ [] := by
      rw [capture, Ne, List.rdropWhile_eq_nil_iff]
      intro hall
      exact hnewline (by simpa using hall c List.mem_cons_self)
    obtain ⟨d, v, hv⟩ := List.exists_cons_of_ne_nil hne
    rw [hv, List.cons_prefix_cons] at hprefix
    have hcapture : capture (echo [text "-e", c :: t]) = c :: v := by rw [hu, hv, hprefix.1]
    have hget (a b : Text) (h : a.length = 9) : (a ++ c :: v ++ b)[9]? = some c := by
      simp [← h]
    unfold evalTemplate
    rw [hcapture]
    exact hget _ _ (by decide)

/-- A command that stands in the address is evaluated. -/
theorem not_safe_twoWords :
    ¬∀ (env : Env) (submissions : List Submission) rounds s,
      (∀ a ∈ submissions, accepted a = true) →
      runDecide env (applyAll env.glob submissions) rounds = some s →
      ∀ c ∈ s.composed, c.evaluated ∈ templates.map evalTemplate := by
  intro h
  have haccepted : accepted twoWords = true := by decide
  have hrun : ∃ s, runDecide bareEnv (applyAll bareEnv.glob [twoWords]) [sendMail] = some s ∧
      s.composed = [⟨text "x $(id)@y", [text "x", text "$(id)@y", emailTemplate]⟩] :=
    ⟨_, rfl, rfl⟩
  obtain ⟨s, hrun, hcomposed⟩ := hrun
  have hmem := h bareEnv [twoWords] [sendMail] s (by simpa using haccepted) hrun _
    (hcomposed ▸ List.mem_singleton_self _)
  have hevaluated : Call.evaluated
      ⟨text "x $(id)@y", [text "x", text "$(id)@y", emailTemplate]⟩ =
        text "echo -e \"$(id)@y\"" := by decide
  rw [hevaluated] at hmem
  have hhead {t : Text} (ht : t ∈ templates) : (evalTemplate t)[9]? = some 'S' :=
    evalTemplate_head (by decide) (by decide) (by decide) (head_of_mem_templates ht)
  obtain ⟨t, ht, heq⟩ := List.mem_map.mp hmem
  have hcontra := hhead ht
  rw [heq] at hcontra
  exact absurd hcontra (by decide)

end HackerUnion.Membership
