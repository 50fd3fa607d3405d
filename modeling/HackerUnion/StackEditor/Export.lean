import HackerUnion.Js.Stringify
import HackerUnion.StackEditor.Callback

namespace HackerUnion.StackEditor

open Js Json

variable {F : Type}

def key (name : String) : List Nat := utf16 name.toList

def textValue (text : Text) : Value := .string (text.map UInt16.toNat)

def Property.name : Property → String
  | .source => "source"
  | .markdown => "markdown"
  | .style => "style"

def addedMember (e : Property × Text) : List Nat × Value := (key e.1.name, textValue e.2)

/-- The members behind those an object is made with; a function is left out. -/
def Coded.members (obj : Coded F) : List (List Nat × Value) :=
  (match obj.f with
    | .null => [(key "f", .null)]
    | .absent | .function _ => []) ++
    obj.added.entries.map addedMember

def Cell.value (cell : Cell F) : Value :=
  .object ((key "fg", textValue cell.fg) :: (key "bg", textValue cell.bg) ::
    (key "val", textValue cell.val) :: (key "go", (cell.go.map textValue).getD .null) ::
    cell.code.members)

def Card.value (card : Card (Body F)) : Value :=
  .object ((key "name", .string (key card.name)) ::
    (key "data", .array (card.rest.data.map fun row => .array (row.map Cell.value))) ::
    card.rest.code.members)

def cardMember (e : String × Card (Body F)) : List Nat × Value := (key e.1, e.2.value)

def stackValue (stack : Stack (Body F)) (code : Coded F) : Value :=
  .object ((key "name", .string (key stack.name)) :: (key "home", .string (key stack.home)) ::
    (key "card", .string (key stack.card)) ::
    (key "cards", .object (stack.cards.members.map cardMember)) ::
    code.members)

/-- `JSON.stringify`, not pretty. -/
def saveStack (stack : Stack (Body F)) (code : Coded F) : List Char :=
  stringify (stackValue stack code)

def textOf : Value → Option Text
  | .string us => some (us.map UInt16.ofNat)
  | _ => none

def nameOf : Value → Option String
  | .string us => (ofUtf16 us).map String.ofList
  | _ => none

def propertyOf (us : List Nat) : Option Property :=
  [.source, .markdown, .style].find? fun property => key property.name = us

def addedOf (m : List Nat × Value) : Option (Property × Text) := do
  some (← propertyOf m.1, ← textOf m.2)

def nullOf : Value → Option (Code F)
  | .null => some .null
  | _ => none

def codedOf : List (List Nat × Value) → Option (Coded F)
  | [] => some ⟨.absent, Obj.empty⟩
  | (k, v) :: ms =>
    if k = key "f" then do some ⟨← nullOf v, Obj.ofEntries (← ms.mapM addedOf)⟩
    else do some ⟨.absent, Obj.ofEntries (← ((k, v) :: ms).mapM addedOf)⟩

def goOf : Value → Option (Option Text)
  | .null => some none
  | v => (textOf v).map some

def cellOf : Value → Option (Cell F)
  | .object ((k₁, fg) :: (k₂, bg) :: (k₃, val) :: (k₄, go) :: ms) =>
    if [k₁, k₂, k₃, k₄] = ["fg", "bg", "val", "go"].map key then do
      some ⟨← textOf fg, ← textOf bg, ← textOf val, ← goOf go, ← codedOf ms⟩
    else none
  | _ => none

def rowOf : Value → Option (List (Cell F))
  | .array cells => cells.mapM cellOf
  | _ => none

def cardOf : Value → Option (Card (Body F))
  | .object ((k₁, name) :: (k₂, .array rows) :: ms) =>
    if [k₁, k₂] = ["name", "data"].map key then do
      some ⟨← nameOf name, ← rows.mapM rowOf, ← codedOf ms⟩
    else none
  | _ => none

def memberOf (m : List Nat × Value) : Option (String × Card (Body F)) := do
  some (← nameOf (.string m.1), ← cardOf m.2)

/-- The document that a value is: none for an object of another shape. -/
def stackOf : Value → Option (Stack (Body F) × Coded F)
  | .object ((k₁, name) :: (k₂, home) :: (k₃, card) :: (k₄, .object cards) :: ms) =>
    if [k₁, k₂, k₃, k₄] = ["name", "home", "card", "cards"].map key then do
      let stack : Stack (Body F) :=
        ⟨← nameOf name, ← nameOf card, ← nameOf home, Obj.ofEntries (← cards.mapM memberOf)⟩
      some (stack, ← codedOf ms)
    else none
  | _ => none

/-- `JSON.parse`: nothing when it throws, and then nothing for a value that is no document. -/
def loadStack (s : List Char) : Option (Option (Stack (Body F) × Coded F)) :=
  (parse s).map stackOf

/-- As it is once it was written and read: without a function. -/
def Code.saved : Code F → Code F
  | .null => .null
  | .absent | .function _ => .absent

def Coded.saved (obj : Coded F) : Coded F := { obj with f := obj.f.saved }

def Cell.saved (cell : Cell F) : Cell F := { cell with code := cell.code.saved }

def Body.saved (card : Body F) : Body F := ⟨card.data.map (List.map Cell.saved), card.code.saved⟩

def Card.saved (card : Card (Body F)) : Card (Body F) := { card with rest := card.rest.saved }

/-- The cards are then in the order in which they are listed. -/
def Stack.saved (stack : Stack (Body F)) : Stack (Body F) :=
  { stack with cards := (mapValues Card.saved stack.cards).listed }

section Plain

/-- Without a function, as everything is that was just read or made. -/
def Coded.Plain (obj : Coded F) : Prop := ∀ f, obj.f ≠ .function f

def Body.Plain (card : Body F) : Prop :=
  card.code.Plain ∧ ∀ row ∈ card.data, ∀ cell ∈ row, cell.code.Plain

def Stack.Plain (stack : Stack (Body F)) : Prop := stack.cards.All fun card => card.rest.Plain

theorem exists_of_mapM {α β : Type} {f : α → Option β} {xs : List α} {ys : List β}
    (h : xs.mapM f = some ys) {y : β} (hy : y ∈ ys) : ∃ x ∈ xs, f x = some y := by
  induction xs generalizing ys with
  | nil =>
    cases h
    cases hy
  | cons x xs ih =>
    simp only [List.mapM_cons, Option.bind_eq_bind, Option.bind_eq_some_iff, Option.pure_def,
      Option.some.injEq] at h
    obtain ⟨z, hz, zs, hzs, rfl⟩ := h
    rcases List.mem_cons.mp hy with rfl | hy
    · exact ⟨x, List.mem_cons_self, hz⟩
    · obtain ⟨x', hx', hf⟩ := ih hzs hy
      exact ⟨x', List.mem_cons_of_mem x hx', hf⟩

theorem all_ofEntries {V : Type} {P : V → Prop} {es : List (String × V)} (h : ∀ e ∈ es, P e.2) :
    (Obj.ofEntries es).All P := by
  have hfold (o : Obj String V) (ho : o.All P) : (es.foldl (fun o e => o.set e.1 e.2) o).All P := by
    induction es generalizing o with
    | nil => exact ho
    | cons e es ih =>
      obtain ⟨he, hes⟩ := List.forall_mem_cons.mp h
      exact ih hes _ (Obj.all_set ho he e.1)
  refine hfold _ ?_
  intro k v hk
  cases hk

variable {ms : List (List Nat × Value)} {v : Value}

theorem plain_of_codedOf {obj : Coded F} (h : codedOf ms = some obj) : obj.Plain := by
  cases ms with
  | nil =>
    cases h
    intro f hf
    cases hf
  | cons m ms =>
    rw [codedOf] at h
    split at h
    · simp only [Option.bind_eq_bind, Option.bind_eq_some_iff, Option.some.injEq] at h
      obtain ⟨code, hcode, added, -, rfl⟩ := h
      intro f hf
      rw [nullOf.eq_def] at hcode
      split at hcode
      · cases hcode
        cases hf
      · cases hcode
    · simp only [Option.bind_eq_bind, Option.bind_eq_some_iff, Option.some.injEq] at h
      obtain ⟨added, -, rfl⟩ := h
      intro f hf
      cases hf

theorem plain_of_cellOf {cell : Cell F} (h : cellOf v = some cell) : cell.code.Plain := by
  rw [cellOf.eq_def] at h
  split at h
  · split at h
    · simp only [Option.bind_eq_bind, Option.bind_eq_some_iff, Option.some.injEq] at h
      obtain ⟨_, -, _, -, _, -, _, -, code, hcode, rfl⟩ := h
      exact plain_of_codedOf hcode
    · cases h
  · cases h

theorem plain_of_cardOf {card : Card (Body F)} (h : cardOf v = some card) :
    card.rest.Plain := by
  rw [cardOf.eq_def] at h
  split at h
  · split at h
    · simp only [Option.bind_eq_bind, Option.bind_eq_some_iff, Option.some.injEq] at h
      obtain ⟨_, -, data, hdata, code, hcode, rfl⟩ := h
      refine ⟨plain_of_codedOf hcode, ?_⟩
      intro row hrow cell hcell
      obtain ⟨w, -, hw⟩ := exists_of_mapM hdata hrow
      rw [rowOf.eq_def] at hw
      split at hw
      · obtain ⟨c, -, hc⟩ := exists_of_mapM hw hcell
        exact plain_of_cellOf hc
      · cases hw
    · cases h
  · cases h

theorem plain_of_stackOf {stack : Stack (Body F)} {code : Coded F}
    (h : stackOf v = some (stack, code)) : stack.Plain ∧ code.Plain := by
  rw [stackOf.eq_def] at h
  split at h
  · split at h
    · simp only [Option.bind_eq_bind, Option.bind_eq_some_iff, Option.some.injEq,
        Prod.mk.injEq] at h
      obtain ⟨_, -, _, -, _, -, cards, hcards, code, hcode, rfl, rfl⟩ := h
      refine ⟨all_ofEntries ?_, plain_of_codedOf hcode⟩
      intro e he
      obtain ⟨m, -, hm⟩ := exists_of_mapM hcards he
      simp only [memberOf, Option.bind_eq_bind, Option.bind_eq_some_iff, Option.some.injEq] at hm
      obtain ⟨_, -, card, hcard, rfl⟩ := hm
      exact plain_of_cardOf hcard
    · cases h
  · cases h

end Plain

section RoundTrip

theorem mapM_map {α β γ : Type} {f : β → Option γ} {g : α → β} {h : α → γ} (xs : List α)
    (hf : ∀ x ∈ xs, f (g x) = some (h x)) : (xs.map g).mapM f = some (xs.map h) := by
  induction xs with
  | nil => rfl
  | cons x xs ih =>
    obtain ⟨hx, hxs⟩ := List.forall_mem_cons.mp hf
    simp [hx, ih hxs]

@[simp] theorem textOf_textValue (text : Text) : textOf (textValue text) = some text := by
  simp [textOf, textValue, Function.comp_def]

@[simp] theorem nameOf_key (name : String) : nameOf (.string (key name)) = some name := by
  simp [nameOf, key, ofUtf16_utf16]

theorem propertyOf_name (property : Property) :
    propertyOf (key property.name) = some property := by cases property <;> decide

theorem key_name_ne (property : Property) : key property.name ≠ key "f" := by
  cases property <;> decide

theorem addedOf_entries (es : List (Property × Text)) :
    (es.map addedMember).mapM addedOf = some es := by
  have hread := mapM_map (f := addedOf) (g := addedMember) (h := id) es
    (by simp [addedOf, addedMember, propertyOf_name])
  simpa using hread

@[simp] theorem codedOf_members (obj : Coded F) : codedOf obj.members = some obj.saved := by
  have habsent : codedOf (obj.added.entries.map addedMember) =
      some (⟨.absent, obj.added⟩ : Coded F) := by
    have hadded := addedOf_entries obj.added.entries
    have hobj := obj.added.ofEntries_entries
    revert hadded hobj
    cases obj.added.entries with
    | nil =>
      intro _ hobj
      rw [← hobj]
      rfl
    | cons e es =>
      intro hadded hobj
      rw [List.map_cons] at hadded ⊢
      rw [addedMember, codedOf, if_neg (key_name_ne e.1), ← addedMember, hadded, ← hobj]
      rfl
  cases h : obj.f with
  | null =>
    have hadded := addedOf_entries obj.added.entries
    have hobj := obj.added.ofEntries_entries
    rw [Coded.members, Coded.saved, h]
    show codedOf ((key "f", .null) :: obj.added.entries.map addedMember) = _
    rw [codedOf, if_pos rfl, hadded]
    simp [nullOf, Code.saved]
  | absent => simp [Coded.members, Coded.saved, Code.saved, h, habsent]
  | function f => simp [Coded.members, Coded.saved, Code.saved, h, habsent]

@[simp] theorem cellOf_value (cell : Cell F) : cellOf cell.value = some cell.saved := by
  have hgo : goOf ((cell.go.map textValue).getD .null) = some cell.go := by
    cases cell.go with
    | none => rfl
    | some go => simp [goOf, textValue, textOf, Function.comp_def]
  simp [cellOf, Cell.value, Cell.saved, hgo]

@[simp] theorem cardOf_value (card : Card (Body F)) : cardOf card.value = some card.saved := by
  have hrow (row : List (Cell F)) :
      rowOf (.array (row.map Cell.value)) = some (row.map Cell.saved) :=
    mapM_map row fun cell _ => cellOf_value cell
  have hrows := mapM_map (f := rowOf) (h := List.map Cell.saved) card.rest.data
    fun row _ => hrow row
  simp [cardOf, Card.value, Card.saved, Body.saved, hrows]

theorem members_mapValues_saved (cards : Obj String (Card (Body F))) :
    (mapValues Card.saved cards).members = cards.members.map fun e => (e.1, e.2.saved) := by
  simp [Obj.members, get_mapValues, List.map_filterMap, Option.map_map, Function.comp_def]

section Sound

theorem lt_of_mem_key {name : String} {u : Nat} (h : u ∈ key name) : u < 0x10000 := by
  obtain ⟨c, -, hc⟩ := List.mem_flatMap.mp h
  exact lt_of_mem_utf16Char hc

theorem sound_textValue (text : Text) : (textValue text).Sound := by
  rw [textValue, Value.Sound]
  intro u hu
  obtain ⟨c, -, rfl⟩ := List.mem_map.mp hu
  exact c.toNat_lt

theorem sound_key (name : String) : (Value.string (key name)).Sound := by
  rw [Value.Sound]
  exact fun u hu => lt_of_mem_key hu

theorem soundMembers_cons {name : String} {v : Value} {ms : List (List Nat × Value)} (hv : v.Sound)
    (hms : SoundMembers ms) : SoundMembers ((key name, v) :: ms) := by
  rw [SoundMembers]
  exact ⟨fun u hu => lt_of_mem_key hu, hv, hms⟩

theorem soundMembers_map {α : Type} {xs : List α} {name : α → String} {value : α → Value}
    (h : ∀ x ∈ xs, (value x).Sound) : SoundMembers (xs.map fun x => (key (name x), value x)) := by
  rw [soundMembers_iff]
  intro m hm
  obtain ⟨x, hx, rfl⟩ := List.mem_map.mp hm
  exact ⟨fun u hu => lt_of_mem_key hu, h x hx⟩

theorem sound_array {α : Type} {xs : List α} {value : α → Value} (h : ∀ x ∈ xs, (value x).Sound) :
    (Value.array (xs.map value)).Sound := by
  rw [Value.Sound, soundElements_iff]
  intro v hv
  obtain ⟨x, hx, rfl⟩ := List.mem_map.mp hv
  exact h x hx

theorem soundMembers_members (obj : Coded F) : SoundMembers obj.members := by
  have hadded : SoundMembers (obj.added.entries.map addedMember) :=
    soundMembers_map fun e _ => sound_textValue e.2
  cases h : obj.f with
  | null =>
    simp only [Coded.members, h]
    exact soundMembers_cons trivial hadded
  | absent => simpa [Coded.members, h] using hadded
  | function f => simpa [Coded.members, h] using hadded

theorem sound_cell (cell : Cell F) : cell.value.Sound := by
  have hgo : ((cell.go.map textValue).getD .null).Sound := by
    cases cell.go with
    | none => trivial
    | some go => exact sound_textValue go
  rw [Cell.value, Value.Sound]
  exact soundMembers_cons (sound_textValue _) (soundMembers_cons (sound_textValue _)
    (soundMembers_cons (sound_textValue _) (soundMembers_cons hgo (soundMembers_members _))))

theorem sound_card (card : Card (Body F)) : card.value.Sound := by
  have hdata : (Value.array (card.rest.data.map fun row => .array (row.map Cell.value))).Sound :=
    sound_array fun row _ => sound_array fun cell _ => sound_cell cell
  rw [Card.value, Value.Sound]
  exact soundMembers_cons (sound_key _) (soundMembers_cons hdata (soundMembers_members _))

theorem sound_stack (stack : Stack (Body F)) (code : Coded F) : (stackValue stack code).Sound := by
  have hcards : (Value.object (stack.cards.members.map cardMember)).Sound := by
    rw [Value.Sound]
    exact soundMembers_map fun e _ => sound_card e.2
  rw [stackValue, Value.Sound]
  exact soundMembers_cons (sound_key _) (soundMembers_cons (sound_key _)
    (soundMembers_cons (sound_key _) (soundMembers_cons hcards (soundMembers_members _))))

end Sound

/-- A document that is exported is imported as it was, but for the functions. -/
theorem loadStack_saveStack (stack : Stack (Body F)) (code : Coded F) :
    loadStack (saveStack stack code) = some (some (stack.saved, code.saved)) := by
  have hcards := mapM_map (f := memberOf) (g := cardMember) (h := fun e => (e.1, e.2.saved))
    stack.cards.members (by simp [memberOf, cardMember])
  rw [loadStack, saveStack, parse_stringify (sound_stack stack code)]
  simp [stackOf, stackValue, hcards, Stack.saved, Obj.listed, members_mapValues_saved]

/-- What is left out when a document is written is not missed when it is written again. -/
theorem Coded.members_saved (obj : Coded F) : obj.saved.members = obj.members := by
  cases h : obj.f <;> simp [Coded.members, Coded.saved, Code.saved, h]

theorem Cell.value_saved (cell : Cell F) : cell.saved.value = cell.value := by
  simp [Cell.value, Cell.saved, Coded.members_saved]

theorem Card.value_saved (card : Card (Body F)) : card.saved.value = card.value := by
  simp [Card.value, Card.saved, Body.saved, Coded.members_saved, Cell.value_saved,
    Function.comp_def]

theorem cardMembers_saved (cards : Obj String (Card (Body F))) :
    (mapValues Card.saved cards).listed.members.map cardMember = cards.members.map cardMember := by
  have hlisted : (mapValues Card.saved cards).listed.members =
      (mapValues Card.saved cards).members :=
    Obj.members_congr (Obj.ownKeys_listed _) (Obj.get_listed _)
  rw [hlisted, members_mapValues_saved, List.map_map]
  exact List.map_congr_left fun e _ => by simp [cardMember, Card.value_saved]

theorem saveStack_saved (stack : Stack (Body F)) (code : Coded F) :
    saveStack stack.saved code.saved = saveStack stack code := by
  rw [saveStack, stackValue, Coded.members_saved]
  simp only [Stack.saved, cardMembers_saved]
  rfl

/-- A document that is exported and imported has the same cards in the same order, with all that is
on them but the functions, and is exported again as it was. -/
theorem exported_again (stack : Stack (Body F)) (code : Coded F) :
    ∃ stack' code', loadStack (saveStack stack code) = some (some (stack', code')) ∧
      stack'.name = stack.name ∧ stack'.home = stack.home ∧ stack'.card = stack.card ∧
      stack'.cards.ownKeys = stack.cards.ownKeys ∧
      (∀ k, stack'.cards.get k = (stack.cards.get k).map Card.saved) ∧ code' = code.saved ∧
      saveStack stack' code' = saveStack stack code := by
  refine ⟨stack.saved, code.saved, loadStack_saveStack stack code, rfl, rfl, rfl, ?_, ?_, rfl,
    saveStack_saved stack code⟩
  · simp [Stack.saved]
  · simp [Stack.saved, get_mapValues]

end RoundTrip

end HackerUnion.StackEditor
