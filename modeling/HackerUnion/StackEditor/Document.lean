import HackerUnion.Js.Value
import HackerUnion.Run.Steps
import Mathlib.Logic.Function.Basic

namespace HackerUnion.StackEditor

open Js

/-- `rest` stands for the cells, the markdown and the code of a card. -/
structure Card (D : Type) where
  name : String
  rest : D
  deriving DecidableEq

/-- A document: `card` is the name of the card on display. -/
structure Stack (D : Type) where
  name : String
  card : String
  home : String
  cards : Obj String (Card D)
  deriving DecidableEq

/-- The document and the names the drop-down list offers. -/
structure Editor (D : Type) where
  stack : Stack D
  options : List String
  deriving DecidableEq

variable {D : Type}

def addCard (stack : Stack D) (card : Card D) : Stack D :=
  { stack with cards := stack.cards.set card.name card }

/-- It throws when no card is left. Called with more than one or with none, it has then deleted
nothing. -/
def removeCard (stack : Stack D) (name : String) : Option (Stack D) :=
  let cards := stack.cards.erase name
  cards.values.head?.map (fun next =>
    { stack with
      cards := cards
      card := if stack.card = name then next.name else stack.card
      home := if stack.home = name then next.name else stack.home })

def refreshTools (e : Editor D) : Editor D := { e with options := e.stack.cards.ownKeys }

/-- `renders` tells whether a document is displayed to the end; when it throws, the list keeps
the names it has. -/
def navigateCard (renders : Stack D → Bool) (e : Editor D) (card : String) : Editor D :=
  let stack := { e.stack with card := card }
  if renders stack then refreshTools { e with stack := stack } else { e with stack := stack }

def navigate (renders : Stack D → Bool) (e : Editor D) (go : String) : Editor D :=
  if e.stack.cards.hasIn go then navigateCard renders e go else e

def cardName (i : Nat) : String := "card" ++ toString i

/-- The first of `cardName i`, `cardName (i + 1)`, … that is not in use, within `fuel` of them. -/
def freshName (cards : Obj String (Card D)) : Nat → Nat → Option String
  | 0, _ => none
  | fuel + 1, i =>
    if cards.hasIn (cardName i) then freshName cards fuel (i + 1) else some (cardName i)

/-- Enough rounds for every name to be tried against every key and every inherited name. -/
def rounds (cards : Obj String (Card D)) : Nat := (cards.keys ++ inherited).length + 1

def newCard (renders : Stack D → Bool) (e : Editor D) (rest : D) : Option (Editor D) :=
  (freshName e.stack.cards (rounds e.stack.cards) 0).map (fun name =>
    navigateCard renders { e with stack := addCard e.stack ⟨name, rest⟩ } name)

def deleteCard (renders : Stack D → Bool) (e : Editor D) (confirmed : Bool) : Editor D :=
  if !confirmed then e
  else if e.stack.cards.ownKeys.length = 1 then e
  else
    match removeCard e.stack e.stack.card with
    | some stack => navigateCard renders { e with stack := stack } stack.home
    | none => e

/-- The mode `card`, for a card object stored under one key. Nothing is said of an inherited
function on display: its own name is what the code would go by. -/
def renameCard (e : Editor D) (name : String) : Option (Editor D) :=
  match e.stack.cards.get e.stack.card with
  | some card =>
    if e.stack.cards.hasIn name then some e
    else
      some (refreshTools { e with
        stack := { e.stack with
          card := name
          home := if e.stack.home = card.name then name else e.stack.home
          cards := (e.stack.cards.set name { card with name := name }).erase card.name } })
  | none => if inherited.contains e.stack.card then none else some e

def setHome (e : Editor D) (name : String) : Editor D :=
  if e.stack.cards.hasIn name then { e with stack := { e.stack with home := name } } else e

def setName (e : Editor D) (metadata name : String) : Option (Editor D) :=
  match trim metadata with
  | "card" => renameCard e (trim name)
  | "home" => some (setHome e (trim name))
  | "stack" => some { e with stack := { e.stack with name := trim name } }
  | _ => some e

inductive Op (D : Type) where
  /-- New Card; `rest` is what the blank card is made of. -/
  | newCard (rest : D)
  | deleteCard (confirmed : Bool)
  | setName (metadata name : String)
  /-- A click on a cell that leads to `go`. -/
  | follow (go : String)
  /-- The choice of a name from the drop-down list. -/
  | choose (name : String)

variable (renders : Stack D → Bool)

def step (e : Editor D) : Op D → Option (Editor D)
  | .newCard rest => newCard renders e rest
  | .deleteCard confirmed => some (deleteCard renders e confirmed)
  | .setName metadata name => setName e metadata name
  | .follow go => some (navigate renders e go)
  | .choose name => some (if name ∈ e.options then navigateCard renders e name else e)

variable {renders} {e : Editor D} {stack : Stack D} {name : String}

structure Stack.WellFormed (stack : Stack D) : Prop where
  nonempty : stack.cards.keys ≠ []
  names : ∀ k c, stack.cards.get k = some c → c.name = k
  card : stack.cards.has stack.card = true
  home : stack.cards.has stack.home = true

/-- `in` finds no such name but one that every object inherits. -/
def OnlyInherited (cards : Obj String (Card D)) (name : String) : Prop :=
  inherited.contains name = true ∧ cards.has name = false

/-- The name given is not taken for a card where it is none. -/
def Sound (e : Editor D) : Op D → Prop
  | .setName metadata name => trim metadata = "home" → ¬ OnlyInherited e.stack.cards (trim name)
  | .follow go => ¬ OnlyInherited e.stack.cards go
  | .choose name => name ∈ e.options → e.stack.cards.has name = true
  | _ => True

instance (cards : Obj String (Card D)) (name : String) : Decidable (OnlyInherited cards name) :=
  inferInstanceAs (Decidable (_ ∧ _))

instance decidableSound (e : Editor D) : ∀ op, Decidable (Sound e op)
  | .newCard _ | .deleteCard _ => isTrue trivial
  | .setName metadata name => inferInstanceAs
      (Decidable (trim metadata = "home" → ¬ OnlyInherited e.stack.cards (trim name)))
  | .follow go => inferInstanceAs (Decidable (¬ OnlyInherited e.stack.cards go))
  | .choose name => inferInstanceAs
      (Decidable (name ∈ e.options → e.stack.cards.has name = true))

theorem navigateCard_stack (renders : Stack D → Bool) (e : Editor D) (name : String) :
    (navigateCard renders e name).stack = { e.stack with card := name } := by
  simp only [navigateCard, refreshTools]
  split <;> rfl

theorem hasIn_iff (cards : Obj String (Card D)) (name : String) :
    cards.hasIn name = true ↔ cards.has name = true ∨ OnlyInherited cards name := by
  unfold Obj.hasIn OnlyInherited
  cases cards.has name <;> simp

/-- Of the names `in` finds, the own keys are those that are not only inherited. -/
theorem has_iff_of_hasIn {cards : Obj String (Card D)} (h : cards.hasIn name = true) :
    cards.has name = true ↔ ¬ OnlyInherited cards name := by
  constructor
  · intro hhas ho
    rw [ho.2] at hhas
    cases hhas
  · intro ho
    exact ((hasIn_iff cards name).mp h).resolve_right ho

theorem not_onlyInherited {cards : Obj String (Card D)} (h : ¬ cards.hasIn name = true) :
    ¬ OnlyInherited cards name :=
  fun ho => h ((hasIn_iff cards name).mpr (Or.inr ho))

namespace Stack.WellFormed

/-- The other card names do not enter into it. -/
theorem withCard (h : stack.WellFormed) (name : String) :
    WellFormed { stack with card := name } ↔ stack.cards.has name = true :=
  ⟨fun hw => hw.card, fun hn => ⟨h.nonempty, h.names, hn, h.home⟩⟩

theorem withHome (h : stack.WellFormed) (name : String) :
    WellFormed { stack with home := name } ↔ stack.cards.has name = true :=
  ⟨fun hw => hw.home, fun hn => ⟨h.nonempty, h.names, h.card, hn⟩⟩

theorem navigateCard (h : e.stack.WellFormed) (name : String) :
    (navigateCard renders e name).stack.WellFormed ↔ e.stack.cards.has name = true := by
  rw [navigateCard_stack]
  exact h.withCard name

theorem addCard (h : stack.WellFormed) (c : Card D) : (addCard stack c).WellFormed := by
  have hhas (k : String) (hk : stack.cards.has k = true) :
      (stack.cards.set c.name c).has k = true := by
    rw [Obj.has, Obj.get_set]
    split
    · rfl
    · exact hk
  refine ⟨?_, ?_, hhas _ h.card, hhas _ h.home⟩
  · apply List.ne_nil_of_mem
    exact (Obj.mem_keys _ _).mpr (hhas _ h.card)
  · intro k c' hg
    have hg : (stack.cards.set c.name c).get k = some c' := hg
    rw [Obj.get_set] at hg
    split at hg
    · rename_i hk
      cases hg
      exact hk.symm
    · exact h.names k c' hg

/-- With more than one card there is another one. -/
theorem exists_other (h : stack.WellFormed) (hlen : stack.cards.ownKeys.length ≠ 1) :
    ∃ k, k ≠ stack.card ∧ stack.cards.has k = true := by
  by_contra hno
  push Not at hno
  have hsub : stack.cards.keys ⊆ [stack.card] := by
    intro k hk
    by_contra hne
    exact hno k (by simpa using hne) ((Obj.mem_keys _ _).mp hk)
  have hle : stack.cards.keys.length ≤ [stack.card].length :=
    (List.subperm_of_subset stack.cards.nodup hsub).length_le
  have hpos := List.length_pos_of_ne_nil h.nonempty
  rw [Obj.ownKeys_length] at hlen
  simp only [List.length_singleton] at hle
  omega

theorem removeCard (h : stack.WellFormed) (hlen : stack.cards.ownKeys.length ≠ 1) :
    ∃ stack', removeCard stack stack.card = some stack' ∧ stack'.WellFormed := by
  obtain ⟨k, hne, hk⟩ := h.exists_other hlen
  obtain ⟨c, hc⟩ := Option.isSome_iff_exists.mp hk
  have hget : (stack.cards.erase stack.card).get k = some c := by
    rw [Obj.get_erase_ne _ hne, hc]
  have hne : (stack.cards.erase stack.card).values ≠ [] :=
    List.ne_nil_of_mem ((Obj.mem_values _ c).mpr ⟨k, hget⟩)
  obtain ⟨next, rest, hv⟩ := List.exists_cons_of_ne_nil hne
  obtain ⟨k', hk'⟩ := (Obj.mem_values _ next).mp (by rw [hv]; exact List.mem_cons_self ..)
  have hold {k : String} {c : Card D} (hg : (stack.cards.erase stack.card).get k = some c) :
      k ≠ stack.card ∧ stack.cards.get k = some c := by
    rw [Obj.get_erase] at hg
    split at hg
    · cases hg
    · exact ⟨‹_›, hg⟩
  have hname : next.name = k' := h.names k' next (hold hk').2
  have hnext : (stack.cards.erase stack.card).has next.name = true := by
    rw [hname, Obj.has, hk']
    rfl
  refine ⟨_, by rw [StackEditor.removeCard, hv]; rfl, ?_, ?_, ?_, ?_⟩
  · apply List.ne_nil_of_mem
    exact (Obj.mem_keys _ _).mpr hnext
  · intro k c hg
    exact h.names k c (hold hg).2
  · simpa using hnext
  · show (stack.cards.erase stack.card).has
      (if stack.home = stack.card then next.name else stack.home) = true
    split
    · exact hnext
    · rename_i hhome
      rw [Obj.has, Obj.get_erase_ne _ hhome]
      exact h.home

theorem renameCard (h : e.stack.WellFormed) (name : String) :
    ∃ e', renameCard e name = some e' ∧ e'.stack.WellFormed := by
  obtain ⟨c, hc⟩ := Option.isSome_iff_exists.mp h.card
  have hname : c.name = e.stack.card := h.names _ c hc
  by_cases hin : e.stack.cards.hasIn name = true
  · refine ⟨e, ?_, h⟩
    simp only [StackEditor.renameCard, hc]
    rw [if_pos hin]
  · have hnew : e.stack.cards.has name = false := by
      cases hh : e.stack.cards.has name with
      | false => rfl
      | true => exact absurd ((hasIn_iff _ _).mpr (Or.inl hh)) hin
    have hne : name ≠ c.name := by
      rintro rfl
      rw [hname, h.card] at hnew
      cases hnew
    let cards := (e.stack.cards.set name { c with name := name }).erase c.name
    have hget (k : String) (hk : k ≠ c.name) :
        cards.get k = if k = name then some { c with name := name } else e.stack.cards.get k := by
      rw [Obj.get_erase_ne _ hk, Obj.get_set]
    have hself : cards.has name = true := by
      rw [Obj.has, hget name hne, if_pos rfl]
      rfl
    refine ⟨_, by simp only [StackEditor.renameCard, hc]; rw [if_neg hin], ?_, ?_, hself, ?_⟩
    · apply List.ne_nil_of_mem
      exact (Obj.mem_keys _ _).mpr hself
    · intro k c' hg
      have hg : cards.get k = some c' := hg
      by_cases hk : k = c.name
      · rw [hk, Obj.get_erase_self] at hg
        cases hg
      · rw [hget k hk] at hg
        split at hg
        · rename_i hkn
          cases hg
          exact hkn.symm
        · exact h.names k c' hg
    · show cards.has (if e.stack.home = c.name then name else e.stack.home) = true
      split
      · exact hself
      · rename_i hhome
        rw [Obj.has, hget _ hhome]
        split
        · rfl
        · exact h.home

theorem setHome (h : e.stack.WellFormed) (name : String) :
    (setHome e name).stack.WellFormed ↔ ¬ OnlyInherited e.stack.cards name := by
  unfold StackEditor.setHome
  split
  · rename_i hin
    exact (h.withHome name).trans (has_iff_of_hasIn hin)
  · rename_i hin
    exact iff_of_true h (not_onlyInherited hin)

theorem navigate (h : e.stack.WellFormed) (go : String) :
    (navigate renders e go).stack.WellFormed ↔ ¬ OnlyInherited e.stack.cards go := by
  unfold StackEditor.navigate
  split
  · rename_i hin
    exact (h.navigateCard go).trans (has_iff_of_hasIn hin)
  · rename_i hin
    exact iff_of_true h (not_onlyInherited hin)

end Stack.WellFormed

section FreshName

variable (cards : Obj String (Card D))

theorem cardName_injective : Function.Injective cardName := by
  intro i j h
  have hl := congrArg String.toList h
  simp only [cardName, String.toList_append, List.append_cancel_left_eq, Nat.toString_eq_repr,
    Nat.toList_repr] at hl
  have hn := congrArg (fun digits => Nat.ofDigitChars 10 digits 0) hl
  simpa only [Nat.ofDigitChars_ten_toDigits] using hn

/-- The search ends without a name only when every name it tried is in use. -/
theorem freshName_eq_none {fuel i : Nat} (h : freshName cards fuel i = none) :
    ∀ j < fuel, cards.hasIn (cardName (i + j)) = true := by
  induction fuel generalizing i with
  | zero => simp
  | succ fuel ih =>
    simp only [freshName] at h
    split at h
    · rename_i hin
      intro j hj
      cases j with
      | zero => exact hin
      | succ j =>
        have hj' := ih h j (by omega)
        rwa [Nat.add_assoc, Nat.add_comm 1 j] at hj'
    · cases h

/-- Among that many names one is not in use. -/
theorem freshName_isSome : (freshName cards (rounds cards) 0).isSome := by
  by_contra hno
  have hall := freshName_eq_none cards (Option.not_isSome_iff_eq_none.mp hno)
  have hsub : (List.range (rounds cards)).map cardName ⊆ cards.keys ++ inherited := by
    intro name hname
    obtain ⟨j, hj, rfl⟩ := List.mem_map.mp hname
    have hin := hall j (List.mem_range.mp hj)
    rw [Nat.zero_add] at hin
    simpa [Obj.hasIn, Obj.mem_keys] using hin
  have hnodup : ((List.range (rounds cards)).map cardName).Nodup :=
    List.nodup_range.map cardName_injective
  have hle := (List.subperm_of_subset hnodup hsub).length_le
  rw [List.length_map, List.length_range, rounds] at hle
  omega

end FreshName

/-- One operation on a well-formed document keeps it so exactly when it is sound. -/
theorem step_wellFormed (renders : Stack D → Bool) (h : e.stack.WellFormed) (op : Op D) :
    ∃ e', step renders e op = some e' ∧ (e'.stack.WellFormed ↔ Sound e op) := by
  cases op with
  | newCard rest =>
    obtain ⟨name, hname⟩ := Option.isSome_iff_exists.mp (freshName_isSome e.stack.cards)
    refine ⟨navigateCard renders { e with stack := addCard e.stack ⟨name, rest⟩ } name, ?_, ?_⟩
    · simp only [step, newCard, hname, Option.map_some]
    · have hadd : ({ e with stack := addCard e.stack ⟨name, rest⟩ } : Editor D).stack.WellFormed :=
        h.addCard ⟨name, rest⟩
      rw [hadd.navigateCard]
      refine iff_of_true ?_ trivial
      simp [addCard, Obj.has]
  | deleteCard confirmed =>
    refine ⟨_, rfl, iff_of_true ?_ trivial⟩
    unfold deleteCard
    split
    · exact h
    · split
      · exact h
      · rename_i hlen
        obtain ⟨stack, hstack, hw⟩ := h.removeCard hlen
        have hnext : ({ e with stack := stack } : Editor D).stack.WellFormed := hw
        rw [hstack]
        exact (hnext.navigateCard _).mpr hw.home
  | setName metadata name =>
    simp only [step, setName, Sound]
    split
    · rename_i hm
      obtain ⟨e', he, hw⟩ := h.renameCard (trim name)
      exact ⟨e', he, iff_of_true hw (by simp [hm])⟩
    · rename_i hm
      refine ⟨_, rfl, ?_⟩
      rw [h.setHome, hm]
      simp
    · rename_i hm
      exact ⟨_, rfl, iff_of_true ⟨h.nonempty, h.names, h.card, h.home⟩ (by simp [hm])⟩
    · rename_i hm _
      exact ⟨e, rfl, iff_of_true h (fun hhome => absurd hhome ‹_›)⟩
  | follow go => exact ⟨_, rfl, h.navigate go⟩
  | choose name =>
    refine ⟨_, rfl, ?_⟩
    unfold Sound
    split
    · rename_i hin
      rw [h.navigateCard]
      exact ⟨fun hhas _ => hhas, fun hsound => hsound hin⟩
    · rename_i hout
      exact iff_of_true h (fun hin => absurd hin hout)

/-- A run performs all its operations and keeps the document well formed throughout, if and only
if every operation is sound in the state it comes to. -/
theorem document_run (renders : Stack D → Bool) (h : e.stack.WellFormed) (ops : List (Op D)) :
    ((Run.states (step renders) e ops).length = ops.length + 1 ∧
      ∀ e' ∈ Run.states (step renders) e ops, e'.stack.WellFormed) ↔
        Run.Throughout (step renders) Sound e ops := by
  have hstep (e : Editor D) (op : Op D) (_ : True) (hw : e.stack.WellFormed) :
      ∃ e', step renders e op = some e' ∧ True ∧ (e'.stack.WellFormed ↔ Sound e op) := by
    obtain ⟨e', he, hiff⟩ := step_wellFormed renders hw op
    exact ⟨e', he, trivial, hiff⟩
  exact Run.forall_states_iff hstep trivial h ops

/-- The list offers nothing but cards. -/
def UpToDate (e : Editor D) : Prop := ∀ name ∈ e.options, e.stack.cards.has name = true

theorem refreshTools_upToDate (e : Editor D) : UpToDate (refreshTools e) := by
  intro name hname
  exact (Obj.mem_ownKeys _ _).mp hname

theorem navigateCard_upToDate (hr : renders { e.stack with card := name } = true) :
    UpToDate (navigateCard renders e name) := by
  simp only [navigateCard]
  rw [if_pos hr]
  exact refreshTools_upToDate _

/-- Where a card on display never makes the display throw, the list stays up to date, and a choice
from it is sound. -/
theorem step_upToDate (hr : ∀ stack : Stack D, stack.WellFormed → renders stack = true)
    (h : e.stack.WellFormed) (hu : UpToDate e) {op : Op D} {e' : Editor D}
    (hstep : step renders e op = some e') (hw : e'.stack.WellFormed) : UpToDate e' := by
  have shown (e : Editor D) (name : String) (hw : (navigateCard renders e name).stack.WellFormed) :
      UpToDate (navigateCard renders e name) := by
    rw [navigateCard_stack] at hw
    exact navigateCard_upToDate (hr _ hw)
  cases op with
  | newCard rest =>
    obtain ⟨name, -, rfl⟩ := Option.map_eq_some_iff.mp hstep
    exact shown _ _ hw
  | deleteCard confirmed =>
    cases hstep
    revert hw
    unfold deleteCard
    split
    · exact fun _ => hu
    · split
      · exact fun _ => hu
      · split
        · exact shown _ _
        · exact fun _ => hu
  | setName metadata name =>
    simp only [step, setName] at hstep
    split at hstep
    · obtain ⟨c, hc⟩ := Option.isSome_iff_exists.mp h.card
      simp only [renameCard, hc] at hstep
      split at hstep
      · cases hstep
        exact hu
      · cases hstep
        exact refreshTools_upToDate _
    · cases hstep
      unfold setHome
      split
      · exact hu
      · exact hu
    · cases hstep
      exact hu
    · cases hstep
      exact hu
  | follow go =>
    cases hstep
    revert hw
    unfold navigate
    split
    · exact shown _ _
    · exact fun _ => hu
  | choose name =>
    cases hstep
    revert hw
    split
    · exact shown _ _
    · exact fun _ => hu

/-- What is left to ask when the list is up to date: nothing of a choice. -/
def SoundName (e : Editor D) : Op D → Prop
  | .choose _ => True
  | op => Sound e op

/-- Where a card on display never makes the display throw, inherited names are all that can break a
document. -/
theorem document_run_upToDate (hr : ∀ stack : Stack D, stack.WellFormed → renders stack = true)
    (h : e.stack.WellFormed) (hu : UpToDate e) (ops : List (Op D))
    (hs : Run.Throughout (step renders) SoundName e ops) :
    Run.Throughout (step renders) Sound e ops := by
  induction ops generalizing e with
  | nil => trivial
  | cons op ops ih =>
    obtain ⟨e₁, hstep, hiff⟩ := step_wellFormed renders h op
    have hsound : Sound e op := by
      cases op with
      | choose name => exact hu name
      | newCard | deleteCard | setName | follow => exact hs.1
    have hw := hiff.mpr hsound
    refine ⟨hsound, ?_⟩
    intro e' he
    have hrest := hs.2 e' he
    rw [hstep] at he
    cases he
    exact ih hw (step_upToDate hr h hu hstep hw) hrest

/-- The document the editor starts with when it is given none. -/
def blank : Editor Unit :=
  ⟨⟨"stack", "card0", "card0", Obj.empty.set "card0" ⟨"card0", ()⟩⟩, ["card0"]⟩

theorem blank_wellFormed : blank.stack.WellFormed := by
  refine ⟨by decide, ?_, by decide, by decide⟩
  intro k c hg
  have hg : (Obj.empty.set "card0" ⟨"card0", ()⟩).get k = some c := hg
  rw [Obj.get_set] at hg
  split at hg
  · rename_i hk
    cases hg
    exact hk.symm
  · cases hg

/-- Six operations that go well. -/
def tour : List (Op Unit) :=
  [.newCard (), .setName "home" "card1", .follow "card0", .setName "card" " toc ", .choose "card1",
    .deleteCard true]

theorem document_run_tour :
    (Run.states (step fun _ => true) blank tour).length = 7 ∧
      (Run.states (step fun _ => true) blank tour).Forall (fun e => e.stack.WellFormed) := by
  obtain ⟨hlen, hall⟩ :=
    (document_run (fun _ => true) blank_wellFormed tour).mpr (by decide +kernel)
  exact ⟨hlen, List.forall_iff_forall_mem.mpr hall⟩

/-- `toString` is set as the home card of a document that has no card of that name. -/
theorem not_document_run :
    ¬ ∀ (renders : Stack Unit → Bool) (e : Editor Unit), e.stack.WellFormed →
      ∀ (ops : List (Op Unit)), ∀ e' ∈ Run.states (step renders) e ops, e'.stack.WellFormed := by
  intro h
  have hw := h (fun _ => true) blank blank_wellFormed [.setName "home" "toString"]
    { blank with stack := { blank.stack with home := "toString" } } (by decide +kernel)
  have hhome : blank.stack.cards.has "toString" = true := hw.home
  revert hhome
  decide

end HackerUnion.StackEditor
