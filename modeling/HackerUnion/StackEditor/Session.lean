import HackerUnion.StackEditor.Alike
import HackerUnion.StackEditor.Export

namespace HackerUnion.StackEditor

open Js Run

variable {F : Type}

/-- What Set Code makes of an object. -/
def Coded.assign (f : F) (source : Text) (obj : Coded F) : Coded F :=
  { obj with f := .function f }.add .source source

namespace Session

variable (js : Text → Option F) (returns : List F → Bool) (s : Session F)

/-- Code that does not compile is not set. -/
def setCode (mode : CodeMode) (active : List Loc) (source : Text) : Option (Session F) :=
  match js source with
  | none => some s
  | some f =>
    match mode with
    | .cell => some (s.setCells active fun cell => { cell with code := cell.code.assign f source })
    | .card => s.changeCard fun card => { card with code := card.code.assign f source }
    | .stack => some { s with code := s.code.assign f source }

def setMarkdown (markdown : Text) : Option (Session F) :=
  (s.changeCard fun card => { card with code := card.code.add .markdown markdown }).map fun s =>
    (repaint js returns s).obj

/-- Not followed where an offset is not exact, nor where the loops look up a place that is not
there. -/
def shiftCells (active : List Loc) (x y : Int) : Option (Session F) :=
  if Exact x y then
    match s.card with
    | none => some s
    | some card => (shift card.rest.data active x y).map fun data =>
        (repaint js returns (s.setCard { card with rest := { card.rest with data := data } })).obj
  else none

def importStack (json : List Char) : Option (Session F) :=
  match loadStack json with
  | none => some s
  | some none => none
  | some (some (stack, code)) => navigateStack js returns s stack code

/-- What an action leaves, where it is followed. -/
def edit : Action → Option (Session F)
  | .newCard rows cols => newCard js returns s rows cols
  | .deleteCard confirmed => some (deleteCard js returns s confirmed)
  | .setName metadata name =>
    (StackEditor.setName s.editor metadata name).map fun e => { s with editor := e }
  | .follow go => some (navigate js returns s go)
  | .choose name => some (if name ∈ s.editor.options then navigateCard js returns s name else s)
  | .setCode mode active source => setCode js s mode active (trimText source)
  | .setFg active fg =>
    some (if is_color (trimText fg) then
      s.setCells active fun cell => { cell with fg := trimText fg } else s)
  | .setBg active bg =>
    some (if is_color (trimText bg) then
      s.setCells active fun cell => { cell with bg := trimText bg } else s)
  | .setGo active go => some (s.setCells active fun cell => { cell with go := some (trimText go) })
  | .keypress active letter => some (s.setCells active fun cell => { cell with val := [letter] })
  | .setMarkdown markdown => setMarkdown js returns s (trimText markdown)
  | .setStyle style =>
    some (repaint js returns { s with code := s.code.add .style (trimText style) }).obj
  | .shift active x y => shiftCells js returns s active x y
  | .refresh => navigateStack js returns s s.editor.stack s.code
  | .importStack confirmed json => if confirmed then importStack js returns s json else some s

def run (actions : List Action) : Option (Session F) := actions.foldlM (edit js returns) s

def saveStack : List Char := StackEditor.saveStack s.editor.stack s.code

end Session

/-- A function that is kept is what its source compiles to. -/
def Coded.Compiled (js : Text → Option F) (obj : Coded F) : Prop :=
  ∀ f, obj.f = .function f → obj.source ≠ [] ∧ js obj.source = some f

variable {js : Text → Option F}

/-- It does not matter whether the function is kept. -/
theorem getCallback_eq {obj : Coded F} (h : obj.Compiled js) :
    getCallback js obj = if obj.source = [] then some (none, obj)
      else (js obj.source).map fun f => (some f, { obj with f := .function f }) := by
  rw [getCallback]
  split
  · next f hf =>
    obtain ⟨hne, hjs⟩ := h f hf
    rw [if_neg hne, hjs, Option.map_some, ← hf]
  · rfl
  · rfl

/-- The same but for functions, each of which is what its source compiles to. -/
structure Coded.Alike (js : Text → Option F) (obj obj' : Coded F) : Prop where
  f : obj.f.saved = obj'.f.saved
  added : obj.added = obj'.added
  compiled : obj.Compiled js
  compiled' : obj'.Compiled js

structure Cell.Alike (js : Text → Option F) (cell cell' : Cell F) : Prop where
  fg : cell.fg = cell'.fg
  bg : cell.bg = cell'.bg
  val : cell.val = cell'.val
  go : cell.go = cell'.go
  code : cell.code.Alike js cell'.code

structure Body.Alike (js : Text → Option F) (card card' : Body F) : Prop where
  data : GridAlike (Cell.Alike js) card.data card'.data
  code : card.code.Alike js card'.code

structure Session.Alike (js : Text → Option F) (s s' : Session F) : Prop where
  editor : s.editor.Alike (Body.Alike js) s'.editor
  code : s.code.Alike js s'.code
  called : s.called = s'.called

structure Drawn.Alike {α : Type} (R : α → α → Prop) (drawn drawn' : Drawn F α) : Prop where
  obj : R drawn.obj drawn'.obj
  called : drawn.called = drawn'.called
  through : drawn.through = drawn'.through

namespace Coded.Alike

variable {obj obj' : Coded F}

theorem source (h : obj.Alike js obj') : obj.source = obj'.source := by
  rw [Coded.source, Coded.source, h.added]

theorem getCallback (h : obj.Alike js obj') :
    Option.Rel (fun r r' => r.1 = r'.1 ∧ Coded.Alike js r.2 r'.2) (getCallback js obj)
      (getCallback js obj') := by
  rw [getCallback_eq h.compiled, getCallback_eq h.compiled', h.source]
  split
  · exact .some ⟨rfl, h⟩
  · next hne =>
    have hkept (obj : Coded F) (hobj : obj.source ≠ []) {f : F} (hf : js obj.source = some f) :
        Coded.Compiled js { obj with f := .function f } := by
      intro f' hf'
      cases hf'
      exact ⟨hobj, hf⟩
    cases hjs : js obj'.source with
    | none => exact .none
    | some f =>
      refine .some ⟨rfl, rfl, h.added, ?_, hkept obj' hne hjs⟩
      exact hkept obj (h.source ▸ hne) (h.source ▸ hjs)

theorem assign (hempty : js [] = none) (h : obj.Alike js obj') {source : Text} {f : F}
    (hf : js source = some f) : (obj.assign f source).Alike js (obj'.assign f source) := by
  have hne : source ≠ [] := by
    intro heq
    rw [heq, hempty] at hf
    cases hf
  have hcompiled (obj : Coded F) : (obj.assign f source).Compiled js := by
    intro f' hf'
    cases hf'
    simp [Coded.assign, Coded.add, Coded.source, hne, hf]
  refine ⟨rfl, ?_, hcompiled obj, hcompiled obj'⟩
  simp [Coded.assign, Coded.add, h.added]

theorem add (h : obj.Alike js obj') {property : Property} (hp : property ≠ .source) (text : Text) :
    (obj.add property text).Alike js (obj'.add property text) := by
  have hcompiled (obj : Coded F) (hobj : obj.Compiled js) :
      (obj.add property text).Compiled js := by
    intro f hf
    have hsource : (obj.add property text).source = obj.source := by
      simp [Coded.add, Coded.source, Obj.get_set, Ne.symm hp]
    rw [hsource]
    exact hobj f hf
  refine ⟨h.f, ?_, hcompiled obj h.compiled, hcompiled obj' h.compiled'⟩
  simp [Coded.add, h.added]

end Coded.Alike

section Plain

theorem Coded.Plain.alike {obj : Coded F} (h : obj.Plain) : obj.Alike js obj := by
  have hcompiled : obj.Compiled js := fun f hf => absurd hf (h f)
  exact ⟨rfl, rfl, hcompiled, hcompiled⟩

theorem Body.Plain.alike {card : Body F} (h : card.Plain) : card.Alike js card := by
  refine ⟨List.forall₂_same.mpr ?_, h.1.alike⟩
  intro row hrow
  refine List.forall₂_same.mpr ?_
  intro cell hcell
  exact ⟨rfl, rfl, rfl, rfl, (h.2 row hrow cell hcell).alike⟩

theorem Stack.Plain.alike {stack : Stack (Body F)} (h : stack.Plain) :
    stack.Alike (Body.Alike js) stack := by
  refine ⟨rfl, rfl, rfl, rfl, ?_⟩
  intro k
  cases hk : stack.cards.get k with
  | none => exact .none
  | some card => exact .some ⟨rfl, (h k card hk).alike⟩

theorem plain_createBlankCard (rows cols : Option Int) :
    (createBlankCard rows cols : Body F).Plain := by
  have hmade : Coded.Plain (made : Coded F) := by
    intro f hf
    cases hf
  refine ⟨hmade, ?_⟩
  intro row hrow cell hcell
  rw [(List.mem_replicate.mp hrow).2] at hcell
  rw [(List.mem_replicate.mp hcell).2]
  exact hmade

end Plain

section Draw

variable (returns : List F → Bool) {α : Type} {R : α → α → Prop}

theorem runCallback_alike {obj obj' : Coded F} (h : obj.Alike js obj') (called : List F) :
    Drawn.Alike (Coded.Alike js) (runCallback js returns called obj)
      (runCallback js returns called obj') := by
  have hcallback := h.getCallback
  rw [runCallback, runCallback]
  revert hcallback
  cases getCallback js obj <;> cases getCallback js obj' <;> intro hcallback <;> cases hcallback
  · exact ⟨h, rfl, rfl⟩
  · next r r' hr =>
    obtain ⟨f, obj⟩ := r
    obtain ⟨f', obj'⟩ := r'
    obtain ⟨rfl, hobj⟩ := hr
    cases f with
    | none => exact ⟨hobj, rfl, rfl⟩
    | some f => exact ⟨hobj, rfl, rfl⟩

/-- What holds of drawing one holds of drawing one after the other. -/
theorem drawAll_alike {draw : List F → α → Drawn F α}
    (hdraw : ∀ called x x', R x x' → Drawn.Alike R (draw called x) (draw called x'))
    {xs xs' : List α} (h : List.Forall₂ R xs xs') (called : List F) :
    Drawn.Alike (List.Forall₂ R) (drawAll draw called xs) (drawAll draw called xs') := by
  induction h generalizing called with
  | nil => exact ⟨.nil, rfl, rfl⟩
  | @cons x x' xs xs' hx hxs ih =>
    have hfirst := hdraw called x x' hx
    simp only [drawAll, hfirst.through, hfirst.called]
    split
    · have hrest := ih (draw called x').called
      exact ⟨.cons hfirst.obj hrest.obj, hrest.called, hrest.through⟩
    · exact ⟨.cons hfirst.obj hxs, rfl, rfl⟩

theorem drawCell_alike {cell cell' : Cell F} (h : cell.Alike js cell') (called : List F) :
    Drawn.Alike (Cell.Alike js) (drawCell js returns called cell)
      (drawCell js returns called cell') := by
  have hdrawn := runCallback_alike returns h.code called
  exact ⟨⟨h.fg, h.bg, h.val, h.go, hdrawn.obj⟩, hdrawn.called, hdrawn.through⟩

theorem renderCard_alike {card card' : Body F} (h : card.Alike js card') (called : List F) :
    Drawn.Alike (Body.Alike js) (renderCard js returns called card)
      (renderCard js returns called card') := by
  have hrow (called : List F) (row row' : List (Cell F))
      (hrow : List.Forall₂ (Cell.Alike js) row row') :=
    drawAll_alike (fun called _ _ hcell => drawCell_alike returns hcell called) hrow
      called
  have hcells := drawAll_alike hrow h.data called
  rw [renderCard, renderCard]
  simp only [hcells.through, hcells.called]
  split
  · have hdrawn := runCallback_alike returns h.code
      (drawAll (drawAll (drawCell js returns)) called card'.data).called
    exact ⟨⟨hcells.obj, hdrawn.obj⟩, hdrawn.called, hdrawn.through⟩
  · exact ⟨⟨hcells.obj, h.code⟩, rfl, rfl⟩

end Draw

namespace Session.Alike

variable (returns : List F → Bool) {s s' : Session F}

theorem card (h : s.Alike js s') : Option.Rel (Card.Alike (Body.Alike js)) s.card s'.card := by
  rw [Session.card, Session.card, h.editor.stack.card]
  exact h.editor.stack.cards.get _

theorem setCard (h : s.Alike js s') {card card' : Card (Body F)}
    (hcard : card.Alike (Body.Alike js) card') : (s.setCard card).Alike js (s'.setCard card') := by
  refine ⟨⟨⟨h.editor.stack.name, h.editor.stack.card, h.editor.stack.home, ?_⟩, h.editor.options⟩,
    h.code, h.called⟩
  simp only [Session.setCard, h.editor.stack.card]
  exact h.editor.stack.cards.set hcard _

theorem repaint (h : s.Alike js s') :
    Drawn.Alike (Session.Alike js) (Session.repaint js returns s)
      (Session.repaint js returns s') := by
  have hcard := h.card
  rw [Session.repaint, Session.repaint]
  revert hcard
  cases s.card <;> cases s'.card <;> intro hcard <;> cases hcard
  · exact ⟨h, h.called, rfl⟩
  · next card card' hcard =>
    have hdrawn := renderCard_alike returns hcard.rest s.called
    have hnew : Card.Alike (Body.Alike js)
        { card with rest := (renderCard js returns s.called card.rest).obj }
        { card' with rest := (renderCard js returns s.called card'.rest).obj } :=
      ⟨hcard.name, hdrawn.obj⟩
    have hset := h.setCard hnew
    dsimp only
    rw [← h.called]
    exact ⟨⟨hset.editor, hset.code, hdrawn.called⟩, hdrawn.called, hdrawn.through⟩

theorem paint (h : s.Alike js s') :
    Drawn.Alike (Session.Alike js) (Session.paint js returns s) (Session.paint js returns s') := by
  have hcards := h.repaint returns
  rw [Session.paint, Session.paint]
  simp only [hcards.through, hcards.called]
  split
  · have hdrawn := runCallback_alike returns hcards.obj.code
      (Session.repaint js returns s').called
    exact ⟨⟨hcards.obj.editor, hdrawn.obj, hdrawn.called⟩, hdrawn.called, hdrawn.through⟩
  · exact hcards

theorem refreshTools (h : s.Alike js s') : s.refreshTools.Alike js s'.refreshTools :=
  ⟨h.editor.refreshTools, h.code, h.called⟩

/-- The name on display is not compared. -/
theorem withCard (h : s.Alike js s') (name : String) :
    Session.Alike js { s with editor.stack.card := name } { s' with editor.stack.card := name } :=
  ⟨⟨⟨h.editor.stack.name, rfl, h.editor.stack.home, h.editor.stack.cards⟩, h.editor.options⟩,
    h.code, h.called⟩

theorem withStack (h : s.Alike js s') {stack stack' : Stack (Body F)}
    (hstack : stack.Alike (Body.Alike js) stack') :
    Session.Alike js { s with editor.stack := stack } { s' with editor.stack := stack' } :=
  ⟨⟨hstack, h.editor.options⟩, h.code, h.called⟩

theorem navigateCard (h : s.Alike js s') (card : String) :
    (Session.navigateCard js returns s card).Alike js
      (Session.navigateCard js returns s' card) := by
  have hdrawn := (h.withCard card).repaint returns
  simp only [Session.navigateCard, hdrawn.through]
  split
  · exact hdrawn.obj.refreshTools
  · exact hdrawn.obj

theorem navigateStack (h : s.Alike js s') {stack stack' : Stack (Body F)} {code code' : Coded F}
    (hstack : stack.Alike (Body.Alike js) stack') (hcode : code.Alike js code') :
    Option.Rel (Session.Alike js) (Session.navigateStack js returns s stack code)
      (Session.navigateStack js returns s' stack' code') := by
  have hopened : Session.Alike js
      { s with editor.stack := { stack with card := stack.home }, code := code }
      { s' with editor.stack := { stack' with card := stack'.home }, code := code' } :=
    ⟨⟨⟨hstack.name, hstack.home, hstack.home, hstack.cards⟩, h.editor.options⟩, hcode, h.called⟩
  have hdrawn := hopened.paint returns
  simp only [Session.navigateStack, hdrawn.through]
  split
  · exact .some hdrawn.obj.refreshTools
  · exact .none

theorem deleteCard (h : s.Alike js s') (confirmed : Bool) :
    (Session.deleteCard js returns s confirmed).Alike js
      (Session.deleteCard js returns s' confirmed) := by
  have hremoved := h.editor.stack.removeCard s'.editor.stack.card
  rw [Session.deleteCard, Session.deleteCard, h.editor.stack.cards.keys, h.editor.stack.card]
  split
  · exact h
  split
  · exact h
  revert hremoved
  cases removeCard s.editor.stack s'.editor.stack.card <;>
    cases removeCard s'.editor.stack s'.editor.stack.card <;> intro hremoved <;> cases hremoved
  · exact h
  · next stack stack' hstack =>
    dsimp only
    rw [hstack.home]
    exact (h.withStack hstack).navigateCard returns stack'.home

theorem navigate (h : s.Alike js s') (go : String) :
    (Session.navigate js returns s go).Alike js (Session.navigate js returns s' go) := by
  rw [Session.navigate, Session.navigate, Obj.hasIn_eq h.editor.stack.cards.keys]
  split
  · exact h.navigateCard returns go
  · exact h

theorem newCard (h : s.Alike js s') (rows cols : Option Int) :
    Option.Rel (Session.Alike js) (Session.newCard js returns s rows cols)
      (Session.newCard js returns s' rows cols) := by
  have hblank : Body.Alike js (createBlankCard rows cols) (createBlankCard rows cols) :=
    (plain_createBlankCard rows cols).alike
  have hcards := h.editor.stack.cards
  simp only [Session.newCard, hcards.rounds, hcards.freshName]
  cases freshName s'.editor.stack.cards (rounds s'.editor.stack.cards) 0 with
  | none => exact .none
  | some name =>
    have hcard : Card.Alike (Body.Alike js) ⟨name, createBlankCard rows cols⟩
        ⟨name, createBlankCard rows cols⟩ := ⟨rfl, hblank⟩
    exact .some ((h.withStack (h.editor.stack.addCard hcard)).navigateCard returns name)

theorem setCells (h : s.Alike js s') (active : List Loc) {change : Cell F → Cell F}
    (hchange : ∀ cell cell', cell.Alike js cell' → (change cell).Alike js (change cell')) :
    (s.setCells active change).Alike js (s'.setCells active change) := by
  have hcard := h.card
  rw [Session.setCells, Session.setCells]
  revert hcard
  cases s.card <;> cases s'.card <;> intro hcard <;> cases hcard
  · exact h
  · next card card' hcard =>
    have hthere (loc : Loc) :
        (getloc card.rest.data loc).isSome = (getloc card'.rest.data loc).isSome :=
      rel_isSome (getloc_alike hcard.rest.data loc)
    have hall (data data' : List (List (Cell F))) (hdata : GridAlike (Cell.Alike js) data data') :
        GridAlike (Cell.Alike js)
          (active.foldl (fun data loc =>
            data.modify loc.row fun row => row.modify loc.col change) data)
          (active.foldl (fun data loc =>
            data.modify loc.row fun row => row.modify loc.col change) data') := by
      induction active generalizing data data' with
      | nil => exact hdata
      | cons loc active ih =>
        apply ih
        apply forall₂_modify hdata
        intro row row' hrow
        exact forall₂_modify hrow hchange loc.col
    simp only [hthere]
    split
    · exact h.setCard ⟨hcard.name, hall _ _ hcard.rest.data, hcard.rest.code⟩
    · exact h

theorem changeCard (h : s.Alike js s') {change : Body F → Body F}
    (hchange : ∀ card card', card.Alike js card' → (change card).Alike js (change card')) :
    Option.Rel (Session.Alike js) (s.changeCard change) (s'.changeCard change) := by
  have hcard := h.card
  rw [Session.changeCard, Session.changeCard, h.editor.stack.card]
  revert hcard
  cases s.card <;> cases s'.card <;> intro hcard <;> cases hcard
  · dsimp only
    split
    · exact .none
    · exact .some h
  · next card card' hcard => exact .some (h.setCard ⟨hcard.name, hchange _ _ hcard.rest⟩)

theorem setCode (hempty : js [] = none) (h : s.Alike js s') (mode : CodeMode) (active : List Loc)
    (source : Text) :
    Option.Rel (Session.Alike js) (s.setCode js mode active source)
      (s'.setCode js mode active source) := by
  rw [Session.setCode, Session.setCode]
  split
  · exact .some h
  · next f hf =>
    cases mode with
    | cell =>
      exact .some (h.setCells active fun cell cell' hcell =>
        ⟨hcell.fg, hcell.bg, hcell.val, hcell.go, hcell.code.assign hempty hf⟩)
    | card =>
      exact h.changeCard fun card card' hcard => ⟨hcard.data, hcard.code.assign hempty hf⟩
    | stack => exact .some ⟨h.editor, h.code.assign hempty hf, h.called⟩

theorem setMarkdown (h : s.Alike js s') (markdown : Text) :
    Option.Rel (Session.Alike js) (s.setMarkdown js returns markdown)
      (s'.setMarkdown js returns markdown) := by
  refine rel_map (h.changeCard fun card card' hcard => ?_) fun s s' hs => (hs.repaint returns).obj
  exact ⟨hcard.data, hcard.code.add (by decide) markdown⟩

theorem shiftCells (h : s.Alike js s') (active : List Loc) (x y : Int) :
    Option.Rel (Session.Alike js) (s.shiftCells js returns active x y)
      (s'.shiftCells js returns active x y) := by
  have hcard := h.card
  rw [Session.shiftCells, Session.shiftCells]
  split
  · revert hcard
    cases s.card <;> cases s'.card <;> intro hcard <;> cases hcard
    · exact .some h
    · next card card' hcard =>
      refine rel_map (shift_alike hcard.rest.data active x y) fun data data' hdata => ?_
      have hnew : Card.Alike (Body.Alike js) { card with rest := { card.rest with data := data } }
          { card' with rest := { card'.rest with data := data' } } :=
        ⟨hcard.name, hdata, hcard.rest.code⟩
      exact ((h.setCard hnew).repaint returns).obj
  · exact .none

/-- Each action keeps two sessions alike. -/
theorem edit (hempty : js [] = none) (h : s.Alike js s') (action : Action) :
    Option.Rel (Session.Alike js) (s.edit js returns action) (s'.edit js returns action) := by
  cases action with
  | newCard rows cols => exact h.newCard returns rows cols
  | deleteCard confirmed => exact .some (h.deleteCard returns confirmed)
  | setName metadata name =>
    exact rel_map (h.editor.setName metadata name) fun e e' he => ⟨he, h.code, h.called⟩
  | follow go => exact .some (h.navigate returns go)
  | choose name =>
    apply Option.Rel.some
    rw [h.editor.options]
    split
    · exact h.navigateCard returns name
    · exact h
  | setCode mode active source => exact h.setCode hempty mode active (trimText source)
  | setFg active fg =>
    apply Option.Rel.some
    split
    · exact h.setCells active fun cell cell' hcell =>
        ⟨rfl, hcell.bg, hcell.val, hcell.go, hcell.code⟩
    · exact h
  | setBg active bg =>
    apply Option.Rel.some
    split
    · exact h.setCells active fun cell cell' hcell =>
        ⟨hcell.fg, rfl, hcell.val, hcell.go, hcell.code⟩
    · exact h
  | setGo active go =>
    exact .some (h.setCells active fun cell cell' hcell =>
      ⟨hcell.fg, hcell.bg, hcell.val, rfl, hcell.code⟩)
  | keypress active letter =>
    exact .some (h.setCells active fun cell cell' hcell =>
      ⟨hcell.fg, hcell.bg, rfl, hcell.go, hcell.code⟩)
  | setMarkdown markdown => exact h.setMarkdown returns (trimText markdown)
  | setStyle style =>
    have hstyle : Session.Alike js { s with code := s.code.add .style (trimText style) }
        { s' with code := s'.code.add .style (trimText style) } :=
      ⟨h.editor, h.code.add (by decide) _, h.called⟩
    exact .some (hstyle.repaint returns).obj
  | shift active x y => exact h.shiftCells returns active x y
  | refresh => exact h.navigateStack returns h.editor.stack h.code
  | importStack confirmed json =>
    simp only [Session.edit, Session.importStack]
    split
    · split
      · exact .some h
      · exact .none
      · next stack code hload =>
        obtain ⟨v, -, hv⟩ := Option.map_eq_some_iff.mp hload
        obtain ⟨hstack, hcode⟩ := plain_of_stackOf hv
        exact h.navigateStack returns hstack.alike hcode.alike
    · exact .some h

/-- And so does a whole run: they come to an end together. -/
theorem run (hempty : js [] = none) (h : s.Alike js s') (actions : List Action) :
    Option.Rel (Session.Alike js) (s.run js returns actions) (s'.run js returns actions) :=
  foldlM_rel (fun _ _ action hs => hs.edit returns hempty action) h actions

end Session.Alike

section Saved

theorem Coded.Alike.saved {obj obj' : Coded F} (h : obj.Alike js obj') :
    obj.Alike js obj'.saved ∧ obj.saved = obj'.saved := by
  have hplain : obj'.saved.Plain := by
    intro f hf
    cases hobj : obj'.f <;> simp [Coded.saved, Code.saved, hobj] at hf
  refine ⟨⟨?_, h.added, h.compiled, hplain.alike.compiled⟩, ?_⟩
  · rw [h.f]
    cases hobj : obj'.f <;> simp [Coded.saved, Code.saved, hobj]
  · rw [Coded.saved, Coded.saved, h.f, h.added]

theorem Cell.Alike.saved {cell cell' : Cell F} (h : cell.Alike js cell') :
    cell.Alike js cell'.saved ∧ cell.saved = cell'.saved := by
  refine ⟨⟨h.fg, h.bg, h.val, h.go, h.code.saved.1⟩, ?_⟩
  rw [Cell.saved, Cell.saved, h.fg, h.bg, h.val, h.go, h.code.saved.2]

theorem Body.Alike.saved {card card' : Body F} (h : card.Alike js card') :
    card.Alike js card'.saved ∧ card.saved = card'.saved := by
  have hrow {row row' : List (Cell F)} (hrow : List.Forall₂ (Cell.Alike js) row row') :
      row.map Cell.saved = row'.map Cell.saved := by
    induction hrow with
    | nil => rfl
    | cons hcell _ ih => rw [List.map_cons, List.map_cons, hcell.saved.2, ih]
  have hdata {data data' : List (List (Cell F))} (hdata : GridAlike (Cell.Alike js) data data') :
      data.map (List.map Cell.saved) = data'.map (List.map Cell.saved) := by
    induction hdata with
    | nil => rfl
    | cons h _ ih => rw [List.map_cons, List.map_cons, hrow h, ih]
  refine ⟨⟨?_, h.code.saved.1⟩, ?_⟩
  · refine List.forall₂_map_right_iff.mpr (h.data.imp ?_)
    intro row row' hrow
    exact List.forall₂_map_right_iff.mpr (hrow.imp fun cell cell' hcell => hcell.saved.1)
  · rw [Body.saved, Body.saved, hdata h.data, h.code.saved.2]

theorem CardsAlike.saved {cards cards' : Obj String (Card (Body F))}
    (h : CardsAlike (Body.Alike js) cards cards') :
    CardsAlike (Body.Alike js) cards (mapValues Card.saved cards').listed ∧
      (mapValues Card.saved cards).listed = (mapValues Card.saved cards').listed := by
  refine ⟨⟨by simpa using h.keys, ?_⟩, Obj.listed_eq_iff.mpr ⟨by simpa using h.keys, ?_⟩⟩
  · intro k
    rw [Obj.get_listed, get_mapValues]
    have hk := h.get k
    revert hk
    cases cards.get k <;> cases cards'.get k <;> intro hk <;> cases hk
    · exact .none
    · next hk => exact .some ⟨hk.name, hk.rest.saved.1⟩
  · intro k
    rw [get_mapValues, get_mapValues]
    refine map_eq_map (h.get k) fun card card' hcard => ?_
    rw [Card.saved, Card.saved, hcard.name, hcard.rest.saved.2]

theorem Stack.Alike.saved {stack stack' : Stack (Body F)}
    (h : stack.Alike (Body.Alike js) stack') :
    stack.Alike (Body.Alike js) stack'.saved ∧ stack.saved = stack'.saved := by
  refine ⟨⟨h.name, h.card, h.home, h.cards.saved.1⟩, ?_⟩
  rw [Stack.saved, Stack.saved, h.name, h.card, h.home, h.cards.saved.2]

theorem Session.Alike.saveStack {s s' : Session F} (h : s.Alike js s') :
    s.saveStack = s'.saveStack := by
  rw [Session.saveStack, Session.saveStack, ← saveStack_saved, h.editor.stack.saved.2,
    h.code.saved.2, saveStack_saved]

end Saved

/-- What is exported, which cards are offered, and the functions called so far. -/
def Session.shows (s : Session F) : List Char × List String × List F :=
  (s.saveStack, s.editor.options, s.called)

/-- A document that was just made or read. -/
def Session.Plain (s : Session F) : Prop := s.editor.stack.Plain ∧ s.code.Plain

/-- To export and to import is to refresh, where functions leave the document alone and keep no
state: whatever is done later, the same is exported, the same cards are offered, and the same
functions have been called. -/
theorem import_export (hempty : js [] = none) (returns : List F → Bool) {start s : Session F}
    (hstart : start.Plain) {actions : List Action} (hrun : start.run js returns actions = some s)
    (later : List Action) :
    ((s.edit js returns (.importStack true s.saveStack)).bind fun s =>
        s.run js returns later).map Session.shows =
      ((s.edit js returns .refresh).bind fun s => s.run js returns later).map Session.shows := by
  have hplain : start.Alike js start := ⟨⟨hstart.1.alike, rfl⟩, hstart.2.alike, rfl⟩
  have hself : s.Alike js s := by
    have hall := hplain.run returns hempty actions
    rw [hrun] at hall
    cases hall
    next h => exact h
  have hload : s.edit js returns (.importStack true s.saveStack) =
      Session.navigateStack js returns s s.editor.stack.saved s.code.saved := by
    show Session.importStack js returns s s.saveStack = _
    rw [Session.importStack, Session.saveStack, loadStack_saveStack]
  have hopened := hself.navigateStack returns hself.editor.stack.saved.1 hself.code.saved.1
  rw [hload]
  refine (map_eq_map (rel_bind hopened fun s s' hs => hs.run returns hempty later) ?_).symm
  intro s s' hs
  rw [Session.shows, Session.shows, hs.saveStack, hs.editor.options, hs.called]

section Visit

/-- Every text but the empty one compiles, to itself. -/
def compile (source : Text) : Option Text := if source = [] then none else some source

def visited : Session Text :=
  let doc := createStack "stack" "card0" [⟨"card0", createBlankCard (some 1) (some 2)⟩]
  ⟨⟨doc.1, ["card0"]⟩, doc.2, []⟩

/-- Code is set, a letter typed and a card added. -/
def visit : List Action :=
  [.setCode .card [] [102, 32], .setCode .cell [⟨1, 0⟩] [103], .keypress [⟨0, 0⟩] 65,
    .setName "card" "toc", .newCard (some 1) (some 1), .choose "toc"]

theorem visited_plain : visited.Plain := by
  refine ⟨?_, ?_⟩
  · intro k card hk
    have hcards : visited.editor.stack.cards =
        Obj.empty.set "card0" ⟨"card0", createBlankCard (some 1) (some 2)⟩ := rfl
    rw [hcards, Obj.get_set] at hk
    split at hk
    · cases hk
      exact plain_createBlankCard _ _
    · cases hk
  · intro f hf
    cases hf

theorem import_export_visit :
    (visited.run compile (fun _ => true) visit).map Session.called = some [[103], [102]] ∧
      ∃ s, visited.run compile (fun _ => true) visit = some s ∧
        ((s.edit compile (fun _ => true) (.importStack true s.saveStack)).bind fun s =>
            s.run compile (fun _ => true) [.choose "card0"]).map Session.shows =
          ((s.edit compile (fun _ => true) .refresh).bind fun s =>
            s.run compile (fun _ => true) [.choose "card0"]).map Session.shows := by
  have hcalled : (visited.run compile (fun _ => true) visit).map Session.called =
      some [[103], [102]] := by decide +kernel
  obtain ⟨s, hrun, -⟩ := Option.map_eq_some_iff.mp hcalled
  exact ⟨hcalled, s, hrun, import_export rfl _ visited_plain hrun _⟩

end Visit

end HackerUnion.StackEditor
