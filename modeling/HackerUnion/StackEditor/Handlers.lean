import HackerUnion.Run.Steps
import HackerUnion.StackEditor.Document

namespace HackerUnion.StackEditor

open Run (forall_states_iff)

inductive Mode where
  | view | edit
  deriving DecidableEq

/-- `mode` is what the selector shows, `edit` whether the stack element has the class of that
name, `handlers` the events bound on it, each as often as it is bound. `armed` tells whether the
tools have their handlers, `loading` counts the documents on their way. -/
structure Page (D : Type) where
  editor : Editor D
  mode : Mode
  edit : Bool
  handlers : List String
  armed : Bool
  loading : Nat
  deriving DecidableEq

variable {D : Type}

/-- What `enableEdit` binds. -/
def inputKinds : List String := ["mousedown", "mousemove", "mouseup", "keydown", "keypress"]

/-- What `enableView` unbinds. -/
def unboundKinds : List String :=
  ["mousedown", "mouseup", "mousemove", "click", "keydown", "keypress"]

namespace Page

def enableEdit (p : Page D) : Page D :=
  { p with edit := true, handlers := p.handlers ++ inputKinds }

def enableView (p : Page D) : Page D :=
  { p with edit := false, handlers := p.handlers.filter (· ∉ unboundKinds) }

def toggleMode (p : Page D) : Page D := if p.edit then enableView p else enableEdit p

/-- `draws` tells whether the drawing comes to its end. When it throws, the mode is left toggled. -/
def repaint (draws : Bool) (p : Page D) : Page D :=
  if draws then toggleMode (toggleMode p) else toggleMode p

def refreshTools (p : Page D) : Page D := { p with editor := StackEditor.refreshTools p.editor }

/-- The handler of the selector. -/
def modeChanged (p : Page D) : Page D :=
  match p.mode with
  | .edit => enableEdit (refreshTools p)
  | .view => enableView (refreshTools p)

def resetTools (p : Page D) : Page D := { p with armed := false }

def initTools (p : Page D) : Page D := modeChanged { p with armed := true }

variable (renders paints : Stack D → Bool)

def navigateCard (p : Page D) (card : String) : Page D :=
  { repaint (renders { p.editor.stack with card := card }) p with
    editor := StackEditor.navigateCard renders p.editor card }

/-- A document that is `null` throws before it is drawn. `paints` tells whether a document is drawn
and its own code run to the end. -/
def navigateStack (p : Page D) : Option (Stack D) → Page D
  | none => resetTools p
  | some stack =>
    let stack := { stack with card := stack.home }
    let p := repaint (paints stack) { resetTools p with editor := { p.editor with stack := stack } }
    if paints stack then initTools p else p

def newCard (p : Page D) (rest : D) : Option (Page D) :=
  let stack := p.editor.stack
  (freshName stack.cards (rounds stack.cards) 0).map (fun name =>
    navigateCard renders
      { p with editor := { p.editor with stack := addCard stack ⟨name, rest⟩ } } name)

def deleteCard (p : Page D) (confirmed : Bool) : Page D :=
  if !confirmed then p
  else if p.editor.stack.cards.ownKeys.length = 1 then p
  else
    match removeCard p.editor.stack p.editor.stack.card with
    | some stack =>
      navigateCard renders { p with editor := { p.editor with stack := stack } } stack.home
    | none => p

/-- What can happen on the page. A document that is received is `none` when it is `null`. -/
inductive Action (D : Type) where
  | switch (mode : Mode)
  | choose (name : String)
  | newCard (rest : D)
  | deleteCard (confirmed : Bool)
  | refresh
  | load (confirmed : Bool)
  /-- The answer to a load: nothing when it failed. -/
  | loaded (answer : Option (Option (Stack D)))
  /-- The text to import: nothing when it is no JSON. -/
  | importStack (confirmed : Bool) (json : Option (Option (Stack D)))

/-- The tools do nothing without their handlers, but the selector shows what is chosen in it. -/
def step (p : Page D) : Action D → Option (Page D)
  | .switch mode =>
    let p' := { p with mode := mode }
    some (if mode ≠ p.mode ∧ p.armed then modeChanged p' else p')
  | .choose name =>
    some (if p.armed ∧ name ∈ p.editor.options then navigateCard renders p name else p)
  | .newCard rest => if p.armed then newCard renders p rest else some p
  | .deleteCard confirmed => some (if p.armed then deleteCard renders p confirmed else p)
  | .refresh => some (if p.armed then navigateStack paints p (some p.editor.stack) else p)
  | .load confirmed =>
    some (if p.armed ∧ confirmed then { p with loading := p.loading + 1 } else p)
  | .loaded answer =>
    if p.loading = 0 then some p
    else
      let p := { p with loading := p.loading - 1 }
      some ((answer.map (navigateStack paints p)).getD p)
  | .importStack confirmed json =>
    some (if p.armed ∧ confirmed then (json.map (navigateStack paints p)).getD p else p)

/-- The page as it is served. -/
def served : Page D := ⟨⟨⟨"", "", "", Js.Obj.empty⟩, []⟩, .view, false, ["dblclick"], false, 0⟩

def opened (stack : Stack D) : Page D := navigateStack paints served (some stack)

/-- How often the handlers of a page should be bound. -/
def due : Mode → Nat
  | .edit => 1
  | .view => 0

/-- Toggling goes from bound to unbound and back, however often the handlers are bound. -/
def toggled (n : Nat) : Nat := if n = 0 then 1 else 0

/-- Each kind of input is handled once in the mode `edit` and not at all in the mode `view`. -/
def Tidy (p : Page D) : Prop := ∀ kind ∈ inputKinds, p.handlers.count kind = due p.mode

/-- Every kind of input is bound `n` times, and the class says whether it is bound. -/
structure Level (p : Page D) (n : Nat) : Prop where
  count : ∀ kind ∈ inputKinds, p.handlers.count kind = n
  edit : p.edit = decide (n ≠ 0)

variable {renders paints : Stack D → Bool} {p : Page D} {n : Nat}

namespace Level

theorem tidy (h : Level p n) : Tidy p ↔ n = due p.mode := by
  constructor
  · intro ht
    rw [← ht "keydown" (by decide), h.count "keydown" (by decide)]
  · rintro rfl
    exact h.count

theorem enableEdit (h : Level p n) : Level (enableEdit p) (n + 1) := by
  refine ⟨?_, by simp [Page.enableEdit]⟩
  intro kind hkind
  have hone : inputKinds.count kind = 1 := List.count_eq_one_of_mem (by decide) hkind
  rw [Page.enableEdit, List.count_append, h.count kind hkind, hone]

theorem enableView (p : Page D) : Level (enableView p) 0 := by
  refine ⟨?_, rfl⟩
  intro kind hkind
  have hsub : inputKinds ⊆ unboundKinds := by decide
  apply List.count_eq_zero.mpr
  simp [Page.enableView, hsub hkind]

theorem toggleMode (h : Level p n) : Level (toggleMode p) (toggled n) := by
  unfold Page.toggleMode toggled
  rw [h.edit]
  by_cases hn : n = 0
  · subst hn
    simpa using h.enableEdit
  · simpa [hn] using Level.enableView p

theorem repaint (h : Level p n) (draws : Bool) :
    Level (repaint draws p) (if draws then toggled (toggled n) else toggled n) := by
  unfold Page.repaint
  cases draws with
  | false => exact h.toggleMode
  | true => exact h.toggleMode.toggleMode

theorem modeChanged (h : Level p n) :
    Level (modeChanged p) (match p.mode with | .edit => n + 1 | .view => 0) := by
  have hr : Level (Page.refreshTools p) n := ⟨h.count, h.edit⟩
  unfold Page.modeChanged
  cases p.mode with
  | edit => exact hr.enableEdit
  | view => exact Level.enableView _

end Level

/-- Fields that the drawing and the change of mode leave alone. -/
theorem repaint_mode (draws : Bool) (p : Page D) : (repaint draws p).mode = p.mode := by
  have htoggle (p : Page D) : (toggleMode p).mode = p.mode := by
    unfold toggleMode
    split <;> rfl
  unfold repaint
  split
  · rw [htoggle, htoggle]
  · rw [htoggle]

theorem modeChanged_mode (p : Page D) : (modeChanged p).mode = p.mode := by
  unfold modeChanged
  split <;> rfl

/-- Drawing a card leaves the handlers as they were due exactly when it comes to its end. -/
theorem Level.navigateCard (h : Level p (due p.mode)) (renders : Stack D → Bool) (card : String) :
    ∃ n, Level (navigateCard renders p card) n ∧
      (n = due (Page.navigateCard renders p card).mode ↔
        renders { p.editor.stack with card := card } = true) := by
  have hr := h.repaint (renders { p.editor.stack with card := card })
  refine ⟨_, ⟨hr.count, hr.edit⟩, ?_⟩
  simp only [Page.navigateCard, repaint_mode]
  cases renders { p.editor.stack with card := card } <;> cases p.mode <;> decide

/-- A document is put up with the handlers bound as they are due exactly when it is drawn to the end
and the selector shows the mode `view`. One that is `null` changes nothing. -/
theorem Level.navigateStack (h : Level p (due p.mode)) (paints : Stack D → Bool)
    (stack : Option (Stack D)) :
    ∃ n, Level (navigateStack paints p stack) n ∧
      (n = due (Page.navigateStack paints p stack).mode ↔
        ∀ s ∈ stack, p.mode = .view ∧ paints { s with card := s.home } = true) := by
  cases stack with
  | none => exact ⟨_, ⟨h.count, h.edit⟩, by simp [Page.navigateStack, resetTools]⟩
  | some s =>
    let s' : Stack D := { s with card := s.home }
    let q : Page D := { resetTools p with editor := { p.editor with stack := s' } }
    have hq : Level q (due p.mode) := ⟨h.count, h.edit⟩
    have hnav : Page.navigateStack paints p (some s) =
      if paints s' then initTools (Page.repaint (paints s') q)
      else Page.repaint (paints s') q := rfl
    have hmode (draws : Bool) : (Page.repaint draws q).mode = p.mode := repaint_mode draws q
    rw [hnav]
    cases hpaints : paints s' with
    | false =>
      refine ⟨_, hq.repaint false, ?_⟩
      simp only [Bool.false_eq_true, if_false, hmode, Option.mem_some_iff, forall_eq']
      rw [hpaints]
      cases p.mode <;> decide
    | true =>
      have hr := hq.repaint true
      have hi : Level { Page.repaint true q with armed := true } (toggled (toggled (due p.mode))) :=
        ⟨hr.count, hr.edit⟩
      refine ⟨_, hi.modeChanged, ?_⟩
      simp only [if_true, initTools, modeChanged_mode, hmode, Option.mem_some_iff, forall_eq']
      rw [hpaints]
      cases p.mode <;> decide

/-- What an action does to the document, for those that edit it. -/
def Action.op : Action D → Option (Op D)
  | .choose name => some (.choose name)
  | .newCard rest => some (.newCard rest)
  | .deleteCard confirmed => some (.deleteCard confirmed)
  | _ => none

/-- Through tools that are listened to, a document is edited as it is without the handlers. -/
theorem step_editor (harmed : p.armed = true) {action : Action D} {op : Op D}
    (hop : action.op = some op) :
    (step renders paints p action).map Page.editor = StackEditor.step renders p.editor op := by
  cases action with
  | choose name =>
    cases hop
    simp only [step, harmed, true_and, StackEditor.step]
    split <;> rfl
  | newCard rest =>
    cases hop
    simp only [step, harmed, if_true, newCard, StackEditor.step, StackEditor.newCard,
      Option.map_map]
    rfl
  | deleteCard confirmed =>
    cases hop
    simp only [step, harmed, if_true, deleteCard, StackEditor.step, StackEditor.deleteCard,
      Option.map_some, Option.some.injEq]
    split
    · rfl
    · split
      · rfl
      · cases removeCard p.editor.stack p.editor.stack.card <;> rfl
  | switch | refresh | load | loaded | importStack => cases hop

/-- What an action needs so that the handlers stay as they are due: the selector is only used while
it is listened to, cards are drawn to the end, and a document is put up in the mode `view`. -/
def Sound (renders paints : Stack D → Bool) (p : Page D) : Action D → Prop
  | .switch mode => mode = p.mode ∨ p.armed = true
  | .choose name => p.armed = true → name ∈ p.editor.options →
      renders { p.editor.stack with card := name } = true
  | .newCard rest => p.armed = true →
      ∀ name ∈ freshName p.editor.stack.cards (rounds p.editor.stack.cards) 0,
        renders { addCard p.editor.stack ⟨name, rest⟩ with card := name } = true
  | .deleteCard confirmed => p.armed = true → confirmed = true →
      p.editor.stack.cards.ownKeys.length ≠ 1 →
      ∀ stack ∈ removeCard p.editor.stack p.editor.stack.card,
        renders { stack with card := stack.home } = true
  | .refresh => p.armed = true →
      p.mode = .view ∧ paints { p.editor.stack with card := p.editor.stack.home } = true
  | .load _ => True
  | .loaded answer => p.loading ≠ 0 → ∀ stack ∈ answer.join,
      p.mode = .view ∧ paints { stack with card := stack.home } = true
  | .importStack confirmed json => p.armed = true → confirmed = true → ∀ stack ∈ json.join,
      p.mode = .view ∧ paints { stack with card := stack.home } = true

/-- What is received leaves the handlers as they are due exactly when it may be put up. -/
theorem Level.receive (h : Level p (due p.mode)) (paints : Stack D → Bool)
    (answer : Option (Option (Stack D))) :
    let p' := (answer.map (Page.navigateStack paints p)).getD p
    ∃ n, Level p' n ∧ (n = due p'.mode ↔
      ∀ s ∈ answer.join, p.mode = .view ∧ paints { s with card := s.home } = true) := by
  cases answer with
  | none => exact ⟨_, h, by simp⟩
  | some stack => exact h.navigateStack paints stack

/-- The selector leaves the handlers as they are due unless it is changed and not listened to. -/
theorem Level.switch (h : Level p (due p.mode)) (mode : Mode) :
    let p' : Page D := { p with mode := mode }
    let q := if mode ≠ p.mode ∧ p.armed then Page.modeChanged p' else p'
    ∃ n, Level q n ∧ (n = due q.mode ↔ mode = p.mode ∨ p.armed = true) := by
  intro p' q
  have hl : Level p' (due p.mode) := ⟨h.count, h.edit⟩
  by_cases hs : mode ≠ p.mode ∧ p.armed
  · have hq : q = Page.modeChanged p' := if_pos hs
    rw [hq]
    refine ⟨_, hl.modeChanged, iff_of_true ?_ (Or.inr hs.2)⟩
    rw [modeChanged_mode]
    have hne := hs.1
    revert hne
    cases mode <;> cases p.mode <;> simp [p', due]
  · have hq : q = p' := if_neg hs
    rw [hq]
    refine ⟨_, hl, ?_⟩
    have hdue : due p.mode = due mode ↔ mode = p.mode := by
      cases mode <;> cases p.mode <;> decide
    rw [hdue]
    tauto

theorem Level.newCard (h : Level p (due p.mode)) (renders : Stack D → Bool) (rest : D) :
    ∃ p', Page.newCard renders p rest = some p' ∧ ∃ n, Level p' n ∧ (n = due p'.mode ↔
      ∀ name ∈ freshName p.editor.stack.cards (rounds p.editor.stack.cards) 0,
        renders { addCard p.editor.stack ⟨name, rest⟩ with card := name } = true) := by
  obtain ⟨name, hname⟩ := Option.isSome_iff_exists.mp (freshName_isSome p.editor.stack.cards)
  let q : Page D :=
    { p with editor := { p.editor with stack := addCard p.editor.stack ⟨name, rest⟩ } }
  have hq : Level q (due q.mode) := ⟨h.count, h.edit⟩
  obtain ⟨n, hl, hiff⟩ := hq.navigateCard renders name
  refine ⟨_, by rw [Page.newCard, hname]; rfl, n, hl, hiff.trans ?_⟩
  simp [hname, q]

theorem Level.deleteCard (h : Level p (due p.mode)) (renders : Stack D → Bool) (confirmed : Bool) :
    ∃ n, Level (Page.deleteCard renders p confirmed) n ∧
      (n = due (Page.deleteCard renders p confirmed).mode ↔
        (confirmed = true → p.editor.stack.cards.ownKeys.length ≠ 1 →
          ∀ stack ∈ removeCard p.editor.stack p.editor.stack.card,
            renders { stack with card := stack.home } = true)) := by
  unfold Page.deleteCard
  split
  · rename_i hno
    exact ⟨_, h, iff_of_true rfl fun hc => by simp [hc] at hno⟩
  · rename_i hc
    have hc : confirmed = true := by simpa using hc
    split
    · rename_i hlen
      exact ⟨_, h, iff_of_true rfl fun _ hne => absurd hlen hne⟩
    · rename_i hlen
      split
      · rename_i stack hstack
        let q : Page D := { p with editor := { p.editor with stack := stack } }
        have hq : Level q (due q.mode) := ⟨h.count, h.edit⟩
        obtain ⟨n, hl, hiff⟩ := hq.navigateCard renders stack.home
        refine ⟨n, hl, hiff.trans ?_⟩
        simp [hc, hlen, hstack, q]
      · rename_i hnone
        exact ⟨_, h, iff_of_true rfl fun _ _ => by simp [hnone]⟩

/-- One action leaves the handlers as they are due exactly when it is sound. -/
theorem step_level (h : Level p (due p.mode)) (action : Action D) :
    ∃ p', step renders paints p action = some p' ∧
      ∃ n, Level p' n ∧ (n = due p'.mode ↔ Sound renders paints p action) := by
  have still {p' : Page D} (hl : Level p' (due p'.mode)) (hs : Sound renders paints p action) :
      ∃ n, Level p' n ∧ (n = due p'.mode ↔ Sound renders paints p action) :=
    ⟨_, hl, iff_of_true rfl hs⟩
  cases action with
  | switch mode => exact ⟨_, rfl, h.switch mode⟩
  | choose name =>
    refine ⟨_, rfl, ?_⟩
    split
    · rename_i hin
      obtain ⟨n, hl, hiff⟩ := h.navigateCard renders name
      exact ⟨n, hl, hiff.trans ⟨fun hr _ _ => hr, fun hs => hs hin.1 hin.2⟩⟩
    · rename_i hout
      exact still h (fun ha hn => absurd ⟨ha, hn⟩ hout)
  | newCard rest =>
    simp only [step]
    split
    · rename_i harmed
      obtain ⟨p', hp', n, hl, hiff⟩ := h.newCard renders rest
      exact ⟨p', hp', n, hl, hiff.trans ⟨fun hr _ => hr, fun hs => hs harmed⟩⟩
    · rename_i hno
      exact ⟨p, rfl, still h (fun ha => absurd ha hno)⟩
  | deleteCard confirmed =>
    refine ⟨_, rfl, ?_⟩
    split
    · rename_i harmed
      obtain ⟨n, hl, hiff⟩ := h.deleteCard renders confirmed
      exact ⟨n, hl, hiff.trans ⟨fun hr _ => hr, fun hs => hs harmed⟩⟩
    · rename_i hno
      exact still h (fun ha => absurd ha hno)
  | refresh =>
    refine ⟨_, rfl, ?_⟩
    split
    · rename_i harmed
      obtain ⟨n, hl, hiff⟩ := h.navigateStack paints (some p.editor.stack)
      refine ⟨n, hl, hiff.trans ?_⟩
      simp [Sound, harmed]
    · rename_i hno
      exact still h (fun ha => absurd ha hno)
  | load confirmed =>
    refine ⟨_, rfl, ?_⟩
    split
    · exact still ⟨h.count, h.edit⟩ trivial
    · exact still h trivial
  | loaded answer =>
    simp only [step]
    split
    · rename_i hzero
      exact ⟨p, rfl, still h (fun hne => absurd hzero hne)⟩
    · rename_i hne
      let q : Page D := { p with loading := p.loading - 1 }
      have hq : Level q (due q.mode) := ⟨h.count, h.edit⟩
      obtain ⟨n, hl, hiff⟩ := hq.receive paints answer
      exact ⟨_, rfl, n, hl, hiff.trans ⟨fun hs _ => hs, fun hs => hs hne⟩⟩
  | importStack confirmed json =>
    refine ⟨_, rfl, ?_⟩
    split
    · rename_i hc
      obtain ⟨n, hl, hiff⟩ := h.receive paints json
      exact ⟨n, hl, hiff.trans ⟨fun hs _ _ => hs, fun hs => hs hc.1 hc.2⟩⟩
    · rename_i hno
      exact still h (fun ha hc => absurd ⟨ha, hc⟩ hno)

theorem served_level : Level (served : Page D) 0 := by
  refine ⟨?_, rfl⟩
  intro kind hkind
  have hno : ∀ kind ∈ inputKinds, kind ∉ ["dblclick"] := by decide
  exact List.count_eq_zero.mpr (hno kind hkind)

/-- After the page is opened and after every action each kind of input is handled as often as it is
due, if and only if the document is drawn on opening and every action is sound where it is taken. -/
theorem handlers_run (renders paints : Stack D → Bool) (stack : Stack D)
    (actions : List (Action D)) :
    let pages := Run.states (step renders paints) (opened paints stack) actions
    (pages.length = actions.length + 1 ∧ ∀ p ∈ pages, Tidy p) ↔
      paints { stack with card := stack.home } = true ∧
        Run.Throughout (step renders paints) (Sound renders paints) (opened paints stack)
          actions := by
  intro pages
  obtain ⟨n, hl, hiff⟩ := served_level.navigateStack paints (some stack)
  have hopened : Tidy (opened paints stack) ↔ paints { stack with card := stack.home } = true := by
    refine hl.tidy.trans (hiff.trans ?_)
    simp [served]
  have hstep (p : Page D) (action : Action D) (hi : ∃ n, Level p n) (hg : Tidy p) :
      ∃ p', step renders paints p action = some p' ∧ (∃ n, Level p' n) ∧
        (Tidy p' ↔ Sound renders paints p action) := by
    obtain ⟨n, hl⟩ := hi
    rw [hl.tidy.mp hg] at hl
    obtain ⟨p', hp', n', hl', hiff'⟩ := step_level hl action
    exact ⟨p', hp', ⟨n', hl'⟩, hl'.tidy.trans hiff'⟩
  constructor
  · intro hrun
    have hfirst : opened paints stack ∈ pages := by
      cases actions <;> simp [pages, Run.states]
    have hg := hrun.2 _ hfirst
    exact ⟨hopened.mp hg, (forall_states_iff hstep ⟨n, hl⟩ hg actions).mp hrun⟩
  · intro hsound
    exact (forall_states_iff hstep ⟨n, hl⟩ (hopened.mpr hsound.1) actions).mpr hsound.2

/-- The page with the blank document after a refresh in the mode `edit`. -/
def refreshed : Page Unit :=
  { opened (fun _ => true) blank.stack with
    mode := .edit, edit := true, handlers := "dblclick" :: inputKinds ++ inputKinds }

/-- Refreshing in the mode `edit` leaves every handler bound twice. -/
theorem not_handlers_run :
    ¬ ∀ (stack : Stack Unit) (actions : List (Action Unit)),
      ∀ p ∈ Run.states (step (fun _ => true) (fun _ => true)) (opened (fun _ => true) stack)
        actions, Tidy p := by
  intro h
  have htidy := h blank.stack [.switch .edit, .refresh] refreshed (by decide)
  have hkey := htidy "keydown" (by decide)
  revert hkey
  decide

end Page

end HackerUnion.StackEditor
