import HackerUnion.Shell.Breadcrumb

namespace HackerUnion.Shell

/-! The two buttons that open the terminal and the wiki over the content of the page. -/

inductive Panel where
  | shell
  | wiki
  deriving DecidableEq

/-- The buttons in the order of the page. -/
def panels : List Panel := [.shell, .wiki]

/-- What stands on a button behind its sign. -/
def Panel.label : Panel → List Char
  | shell => "term".toList
  | wiki => "wiki".toList

/-- `terminal`: whether there is a frame with a terminal. `pending` is what the timer will do with
the content, and `cds` the calls of `cd` that have not ended. -/
structure Page where
  terminal : Bool
  text : Panel → List Char
  active : Panel → Bool
  shown : Panel → Bool
  content : Bool
  seamless : Bool
  markup : Text
  hack : Bool
  reloads : Nat
  pending : Option Bool
  cds : Nat

namespace Page

/-- `visible` -/
def visible (p : Page) (b : Panel) : Bool := (p.text b).head? = some '-'

def hide (b : Panel) (p : Page) : Page :=
  { p with
    active := Function.update p.active b false
    content := true
    shown := Function.update p.shown b false }

def display (b : Panel) (p : Page) : Page :=
  { p with
    active := Function.update p.active b true
    shown := Function.update p.shown b true
    content := false }

def relabel (b : Panel) (p : Page) : Page :=
  let sign := if (p.text b).head? = some '+' then '-' else '+'
  { p with text := Function.update p.text b (sign :: (p.text b).tail) }

/-- The callback of a panel that is opened, and whether it raises: without a frame there is nothing
to load again. -/
def callback : Panel → Page → Page × Bool
  | .wiki, p => (p, false)
  | .shell, p =>
    if p.hack then (p, false)
    else if p.terminal then ({ p with hack := true, reloads := p.reloads + 1 }, false)
    else ({ p with hack := true }, true)

/-- What comes behind a call, which is nothing when it has raised. -/
def andThen (r : Page × Bool) (f : Page → Page × Bool) : Page × Bool :=
  if r.2 then r else f r.1

/-- A button is clicked, which clicks the active ones first. It raises when the clicks are nested
too deep. -/
def click : Nat → Panel → Page → Page × Bool
  | 0, _, p => (p, true)
  | rounds + 1, b, p =>
    if p.visible b then (relabel b (hide b p), false)
    else
      let r := (panels.filter p.active).foldl (fun r a => andThen r (click rounds a)) (p, false)
      andThen r fun p => andThen (callback b (display b p)) fun p => (relabel b p, false)

/-- The handler of a button when it is told to hide its panel. -/
def dismiss (rounds : Nat) (b : Panel) (p : Page) : Page × Bool :=
  if p.visible b then click rounds b p else (p, false)

def exec (rounds : Nat) (seamless : Bool) (markup : Text) (p : Page) : Page × Bool :=
  andThen (dismiss rounds .shell p) fun p =>
    andThen (dismiss rounds .wiki p) fun p =>
      ({ p with seamless := seamless, markup := markup }, false)

/-- `cd` hides the content in a while when it begins, and shows it in a while when it ends. In
between it may open a file, or a directory that is in the cache. -/
inductive Event where
  | click (b : Panel)
  | exec (seamless : Bool) (markup : Text)
  | enter
  | leave
  | timer

/-- What an event makes of the page. Nothing is clicked and no timer runs out while a script
runs. -/
def step (rounds : Nat) (p : Page) : Event → Page
  | .click b => if p.cds = 0 then (click rounds b p).1 else p
  | .exec seamless markup => (exec rounds seamless markup p).1
  | .enter => { p with pending := some false, cds := p.cds + 1 }
  | .leave => if p.cds = 0 then p else { p with pending := some true, cds := p.cds - 1 }
  | .timer =>
    if p.cds = 0 then { p with content := p.pending.getD p.content, pending := none } else p

def run (rounds : Nat) (p : Page) (es : List Event) : Page := es.foldl (step rounds) p

/-- The page as it is loaded. -/
def loaded (terminal : Bool) : Page where
  terminal := terminal
  text b := '+' :: b.label
  active _ := false
  shown _ := false
  content := true
  seamless := false
  markup := []
  hack := false
  reloads := 0
  pending := none
  cds := 0

/-- Signs, classes and panels agree, one panel is open at most, and without one the content is
there. -/
structure Tidy (p : Page) : Prop where
  text : ∀ b, p.text b = (if p.shown b then '-' else '+') :: b.label
  active : ∀ b, p.active b = p.shown b
  single : ∀ a b, p.shown a = true → p.shown b = true → a = b
  pending : p.cds = 0 → p.pending ≠ some false
  content : p.content = false → ∃ b, p.shown b = true

/-- A page on which no panel is open. -/
def Clear (p : Page) : Prop := ∀ b, p.shown b = false

section Steps

variable {p : Page} {b : Panel} (rounds : Nat)

theorem visible_eq (h : p.Tidy) (b : Panel) : p.visible b = p.shown b := by
  rw [visible, h.text b, List.head?_cons]
  cases p.shown b
  · simp
  · simp

theorem eq_hidden (h : p.Tidy) (hb : p.shown b = true) {a : Panel} (hab : a ≠ b) :
    p.shown a = false := by
  by_contra hshown
  exact hab (h.single a b (by simpa using hshown) hb)

theorem clear_hide (h : p.Tidy) (hb : p.shown b = true) : (relabel b (hide b p)).Clear := by
  intro a
  by_cases hab : a = b
  · simp [relabel, hide, hab]
  · simp [relabel, hide, hab, eq_hidden h hb hab]

theorem tidy_hide (h : p.Tidy) (hb : p.shown b = true) : (relabel b (hide b p)).Tidy := by
  have hclear := clear_hide h hb
  constructor
  · intro a
    rw [hclear a]
    by_cases hab : a = b
    · subst hab
      simp [relabel, hide, h.text a, hb]
    · simp [relabel, hide, hab, h.text a, eq_hidden h hb hab]
  · intro a
    by_cases hab : a = b
    · simp [relabel, hide, hab]
    · simp [relabel, hide, hab, h.active a]
  · intro a c ha
    rw [hclear a] at ha
    cases ha
  · exact h.pending
  · simp [relabel, hide]

/-- A panel is opened on a page on which none is open. -/
theorem tidy_display (h : p.Tidy) (hclear : p.Clear) {hack : Bool} {reloads : Nat} :
    (relabel b { display b p with hack := hack, reloads := reloads }).Tidy := by
  have hshown : ∀ a, Function.update p.shown b true a = decide (a = b) := by
    intro a
    by_cases hab : a = b
    · simp [hab]
    · simp [hab, hclear a]
  constructor
  · intro a
    by_cases hab : a = b
    · subst hab
      simp [relabel, display, h.text a, hclear a]
    · simp [relabel, display, hab, h.text a, hclear a]
  · intro a
    by_cases hab : a = b
    · simp [relabel, display, hab]
    · simp [relabel, display, hab, h.active a]
  · intro a c ha hc
    simp only [relabel, display, hshown, decide_eq_true_eq] at ha hc
    rw [ha, hc]
  · exact h.pending
  · exact fun _ => ⟨b, by simp [relabel, display]⟩

/-- What is kept of a page when its panels are opened and closed. -/
structure Kept (p p' : Page) : Prop where
  tidy : p'.Tidy
  terminal : p'.terminal = p.terminal
  cds : p'.cds = p.cds

/-- A click on a panel that is open closes it. -/
theorem click_open (h : p.Tidy) (hb : p.shown b = true) :
    ∃ p', click (rounds + 1) b p = (p', false) ∧ Kept p p' ∧ p'.Clear ∧ p'.hack = p.hack := by
  refine ⟨relabel b (hide b p), ?_, ⟨tidy_hide h hb, rfl, rfl⟩, clear_hide h hb, rfl⟩
  rw [click, visible_eq h, if_pos hb]

/-- The active buttons are clicked: at most one, whose panel is closed. -/
theorem click_active (h : p.Tidy) : ∃ p', (panels.filter p.active).foldl
    (fun r a => andThen r (click (rounds + 1) a)) (p, false) = (p', false) ∧
      Kept p p' ∧ p'.Clear ∧ p'.hack = p.hack := by
  by_cases hclear : p.Clear
  · refine ⟨p, ?_, ⟨h, rfl, rfl⟩, hclear, rfl⟩
    rw [List.filter_eq_nil_iff.mpr fun a _ => by simp [h.active a, hclear a]]
    rfl
  · simp only [Clear, not_forall, Bool.not_eq_false] at hclear
    obtain ⟨a, ha⟩ := hclear
    have hone : panels.filter p.active = [a] := by
      cases a with
      | shell =>
        have hwiki := eq_hidden h ha (a := .wiki) (by decide)
        simp [panels, h.active, ha, hwiki]
      | wiki =>
        have hshell := eq_hidden h ha (a := .shell) (by decide)
        simp [panels, h.active, ha, hshell]
    obtain ⟨p', hclick, hkept, hclear, hhack⟩ := click_open rounds h ha
    refine ⟨p', ?_, hkept, hclear, hhack⟩
    rw [hone, List.foldl_cons, List.foldl_nil]
    exact hclick

/-- A click on a panel that is closed opens it, unless it is the terminal and there is none. -/
theorem click_closed (h : p.Tidy) (hb : p.shown b = false)
    (hterminal : p.terminal = true ∨ b ≠ .shell) :
    ∃ p', click (rounds + 2) b p = (p', false) ∧ Kept p p' := by
  obtain ⟨p', hactive, hkept, hclear, _⟩ := click_active rounds h
  have hvisible : ¬p.visible b = true := by simp [visible_eq h, hb]
  rw [click, if_neg hvisible, hactive]
  cases b with
  | shell =>
    have hterminal : p'.terminal = true := by simpa [hkept.terminal] using hterminal
    by_cases hhack : p'.hack = true
    · refine ⟨relabel .shell (display .shell p'), ?_, tidy_display hkept.tidy hclear,
        hkept.terminal, hkept.cds⟩
      simp [andThen, callback, display, hhack]
    · refine ⟨relabel .shell { display .shell p' with hack := true, reloads := p'.reloads + 1 }, ?_,
        tidy_display hkept.tidy hclear, hkept.terminal, hkept.cds⟩
      simp [andThen, callback, display, hhack, hterminal]
  | wiki =>
    exact ⟨relabel .wiki (display .wiki p'), rfl, tidy_display hkept.tidy hclear, hkept.terminal,
      hkept.cds⟩

theorem click_kept (h : p.Tidy) (hterminal : p.terminal = true ∨ b ≠ .shell) :
    ∃ p', click (rounds + 2) b p = (p', false) ∧ Kept p p' := by
  by_cases hb : p.shown b = true
  · obtain ⟨p', hclick, hkept, _⟩ := click_open (rounds + 1) h hb
    exact ⟨p', hclick, hkept⟩
  · exact click_closed rounds h (by simpa using hb) hterminal

theorem dismiss_kept (h : p.Tidy) (b : Panel) : ∃ p', dismiss (rounds + 1) b p = (p', false) ∧
    Kept p p' ∧ (∀ a, p.shown a = false → p'.shown a = false) ∧ p'.shown b = false := by
  by_cases hb : p.shown b = true
  · obtain ⟨p', hclick, hkept, hclear, _⟩ := click_open rounds h hb
    refine ⟨p', ?_, hkept, fun a _ => hclear a, hclear b⟩
    rw [dismiss, visible_eq h, if_pos hb, hclick]
  · refine ⟨p, ?_, ⟨h, rfl, rfl⟩, fun _ ha => ha, by simpa using hb⟩
    rw [dismiss, visible_eq h, if_neg hb]

theorem content_of_clear (h : p.Tidy) (hclear : p.Clear) : p.content = true := by
  by_contra hcontent
  obtain ⟨b, hb⟩ := h.content (by simpa using hcontent)
  rw [hclear b] at hb
  cases hb

/-- Before a file is put in, all panels are closed. -/
theorem exec_kept (h : p.Tidy) (seamless : Bool) (markup : Text) :
    ∃ p', exec (rounds + 1) seamless markup p = (p', false) ∧ Kept p p' ∧ p'.Clear ∧
      p'.markup = markup := by
  obtain ⟨q, hshell, hq, _, hqshell⟩ := dismiss_kept rounds h .shell
  obtain ⟨r, hwiki, hr, hstay, hrwiki⟩ := dismiss_kept rounds hq.tidy .wiki
  refine ⟨{ r with seamless := seamless, markup := markup }, ?_, ?_, ?_, rfl⟩
  · simp [exec, andThen, hshell, hwiki]
  · exact ⟨⟨hr.tidy.text, hr.tidy.active, hr.tidy.single, hr.tidy.pending, hr.tidy.content⟩,
      hr.terminal.trans hq.terminal, hr.cds.trans hq.cds⟩
  · intro b
    cases b with
    | shell => exact hstay .shell hqshell
    | wiki => exact hrwiki

theorem tidy_enter (h : p.Tidy) :
    ({ p with pending := some false, cds := p.cds + 1 } : Page).Tidy :=
  ⟨h.text, h.active, h.single, fun hcds => absurd hcds (Nat.succ_ne_zero p.cds), h.content⟩

theorem tidy_leave (h : p.Tidy) :
    ({ p with pending := some true, cds := p.cds - 1 } : Page).Tidy :=
  ⟨h.text, h.active, h.single, fun _ => by simp, h.content⟩

/-- The timer never hides the content: what hides it in a while is taken back before `cd` ends. -/
theorem tidy_timer (h : p.Tidy) (hcds : p.cds = 0) :
    ({ p with content := p.pending.getD p.content, pending := none } : Page).Tidy := by
  refine ⟨h.text, h.active, h.single, fun _ => by simp, fun hcontent => ?_⟩
  cases hpending : p.pending with
  | none => exact h.content (by simpa [hpending] using hcontent)
  | some shows =>
    cases shows with
    | true => simp [hpending] at hcontent
    | false => exact absurd hpending (h.pending hcds)

theorem step_kept (h : p.Tidy) (e : Event) (he : p.terminal = true ∨ e ≠ .click .shell) :
    (step (rounds + 2) p e).Tidy ∧ (step (rounds + 2) p e).terminal = p.terminal := by
  cases e with
  | click b =>
    rw [step]
    split
    · have hb : p.terminal = true ∨ b ≠ .shell :=
        he.imp_right fun hne heq => hne (congrArg Event.click heq)
      obtain ⟨p', hclick, hkept⟩ := click_kept rounds h hb
      rw [hclick]
      exact ⟨hkept.tidy, hkept.terminal⟩
    · exact ⟨h, rfl⟩
  | exec seamless markup =>
    obtain ⟨p', hexec, hkept, _, _⟩ := exec_kept (rounds + 1) h seamless markup
    rw [step, hexec]
    exact ⟨hkept.tidy, hkept.terminal⟩
  | enter => exact ⟨tidy_enter h, rfl⟩
  | leave =>
    rw [step]
    split
    · exact ⟨h, rfl⟩
    · exact ⟨tidy_leave h, rfl⟩
  | timer =>
    rw [step]
    split
    · next hcds => exact ⟨tidy_timer h hcds, rfl⟩
    · exact ⟨h, rfl⟩

theorem run_kept (es : List Event) (h : p.Tidy)
    (hes : p.terminal = true ∨ Event.click .shell ∉ es) : (run (rounds + 2) p es).Tidy := by
  induction es generalizing p with
  | nil => exact h
  | cons e es ih =>
    have he : p.terminal = true ∨ e ≠ .click .shell :=
      hes.imp_right fun hnot heq => hnot (heq ▸ List.mem_cons_self)
    obtain ⟨htidy, hterminal⟩ := step_kept rounds h e he
    refine ih htidy ?_
    rw [hterminal]
    exact hes.imp_right fun hnot hmem => hnot (List.mem_cons_of_mem e hmem)

theorem tidy_loaded (terminal : Bool) : (loaded terminal).Tidy := by
  constructor <;> simp [loaded]

/-- Whatever is clicked and opened, in any order, one panel is open at most, its button says so,
and without an open panel the content is there; and when a file is opened all panels are closed.
On a page without a terminal this is so until the terminal's button is clicked. -/
theorem run_tidy (terminal : Bool) (es : List Event)
    (hes : terminal = true ∨ Event.click .shell ∉ es) :
    (run (rounds + 2) (loaded terminal) es).Tidy ∧
      ∀ seamless markup,
        let opened := step (rounds + 2) (run (rounds + 2) (loaded terminal) es)
          (.exec seamless markup)
        opened.Clear ∧ opened.content = true ∧ opened.markup = markup := by
  have htidy := run_kept rounds es (tidy_loaded terminal) hes
  refine ⟨htidy, fun seamless markup => ?_⟩
  obtain ⟨p', hexec, hkept, hclear, hmarkup⟩ := exec_kept (rounds + 1) htidy seamless markup
  rw [step, hexec]
  exact ⟨hclear, content_of_clear hkept.tidy hclear, hmarkup⟩

end Steps

theorem run_tidy_wiki : (run 2 (loaded false) [.click .wiki, .enter, .leave, .timer]).Tidy ∧
    ∀ seamless markup,
      let opened := step 2 (run 2 (loaded false) [.click .wiki, .enter, .leave, .timer])
        (.exec seamless markup)
      opened.Clear ∧ opened.content = true ∧ opened.markup = markup :=
  run_tidy 0 false _ (Or.inr (by simp))

/-- An active button that says its panel is closed cannot be clicked: it clicks itself. -/
theorem click_stuck {p : Page} (hvisible : p.visible .shell = false)
    (hactive : p.active .shell = true) (rounds : Nat) : click rounds .shell p = (p, true) := by
  induction rounds with
  | zero => rfl
  | succ rounds ih =>
    have hbuttons : panels.filter p.active =
        .shell :: [Panel.wiki].filter p.active := List.filter_cons_of_pos hactive
    have hraised : ∀ bs : List Panel,
        bs.foldl (fun r a => andThen r (click rounds a)) (p, true) = (p, true) := by
      intro bs
      induction bs with
      | nil => rfl
      | cons b bs ihbs => exact ihbs
    have hfirst : andThen (p, false) (click rounds .shell) = (p, true) := ih
    rw [click, if_neg (by simp [hvisible]), hbuttons, List.foldl_cons, hfirst, hraised]
    rfl

/-- Without a terminal its panel is opened and never closed: the callback raises before the sign is
changed. -/
theorem click_without_terminal {p : Page} (h : p.Tidy) (hterminal : p.terminal = false)
    (hhack : p.hack = false) (hshell : p.shown .shell = false) (rounds : Nat) :
    ∃ p', click (rounds + 2) .shell p = (p', true) ∧ p'.shown .shell = true ∧
      p'.text .shell = "+term".toList ∧ ∀ depth, click depth .shell p' = (p', true) := by
  obtain ⟨q, hactive, hkept, hclear, hqhack⟩ := click_active rounds h
  have hqterminal : q.terminal = false := hkept.terminal.trans hterminal
  have htext : q.text .shell = "+term".toList := by
    rw [hkept.tidy.text, hclear .shell]
    rfl
  refine ⟨{ display .shell q with hack := true }, ?_, ?_, htext, ?_⟩
  · rw [click, if_neg (by simp [visible_eq h, hshell]), hactive]
    simp [andThen, callback, display, hqhack, hhack, hqterminal]
  · simp [display]
  · intro depth
    refine click_stuck ?_ (by simp [display]) depth
    rw [visible, display, htext]
    decide

end Page

end HackerUnion.Shell
