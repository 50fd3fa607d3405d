import Mathlib.Data.List.Forall2
import HackerUnion.Js.Members
import HackerUnion.Run.Relate
import HackerUnion.StackEditor.Document
import HackerUnion.StackEditor.Shift

namespace HackerUnion.StackEditor

open Js Run

section Documents

variable {D D' : Type}

structure Card.Alike (R : D → D' → Prop) (card : Card D) (card' : Card D') : Prop where
  name : card.name = card'.name
  rest : R card.rest card'.rest

/-- The same cards are listed in the same order, and what is on them is related. -/
structure CardsAlike (R : D → D' → Prop) (cards : Obj String (Card D))
    (cards' : Obj String (Card D')) : Prop where
  keys : cards.ownKeys = cards'.ownKeys
  get : ∀ k, Option.Rel (Card.Alike R) (cards.get k) (cards'.get k)

structure Stack.Alike (R : D → D' → Prop) (stack : Stack D) (stack' : Stack D') : Prop where
  name : stack.name = stack'.name
  card : stack.card = stack'.card
  home : stack.home = stack'.home
  cards : CardsAlike R stack.cards stack'.cards

structure Editor.Alike (R : D → D' → Prop) (e : Editor D) (e' : Editor D') : Prop where
  stack : e.stack.Alike R e'.stack
  options : e.options = e'.options

variable {R : D → D' → Prop}

namespace CardsAlike

variable {cards : Obj String (Card D)} {cards' : Obj String (Card D')}

theorem set (h : CardsAlike R cards cards') {card : Card D} {card' : Card D'}
    (hcard : card.Alike R card') (k : String) :
    CardsAlike R (cards.set k card) (cards'.set k card') where
  keys := Obj.ownKeys_set h.keys k card card'
  get j := by
    rw [Obj.get_set, Obj.get_set]
    split
    · exact .some hcard
    · exact h.get j

theorem erase (h : CardsAlike R cards cards') (k : String) :
    CardsAlike R (cards.erase k) (cards'.erase k) where
  keys := Obj.ownKeys_erase h.keys k
  get j := by
    rw [Obj.get_erase, Obj.get_erase]
    split
    · exact .none
    · exact h.get j

theorem values (h : CardsAlike R cards cards') :
    List.Forall₂ (Card.Alike R) cards.values cards'.values := by
  rw [Obj.values, Obj.values, h.keys]
  induction cards'.ownKeys with
  | nil => exact .nil
  | cons k ks ih =>
    have hk := h.get k
    rw [List.filterMap_cons, List.filterMap_cons]
    revert hk
    cases cards.get k <;> cases cards'.get k <;> intro hk <;> cases hk
    · exact ih
    · next hk => exact .cons hk ih

theorem freshName (h : CardsAlike R cards cards') (fuel i : Nat) :
    freshName cards fuel i = freshName cards' fuel i := by
  induction fuel generalizing i with
  | zero => rfl
  | succ fuel ih =>
    rw [StackEditor.freshName, StackEditor.freshName, Obj.hasIn_eq h.keys, ih]

theorem rounds (h : CardsAlike R cards cards') : rounds cards = rounds cards' := by
  have hlength := congrArg List.length h.keys
  rw [Obj.ownKeys_length, Obj.ownKeys_length] at hlength
  simp [StackEditor.rounds, hlength]

end CardsAlike

variable {stack : Stack D} {stack' : Stack D'} {e : Editor D} {e' : Editor D'}

theorem Stack.Alike.addCard (h : stack.Alike R stack') {card : Card D} {card' : Card D'}
    (hcard : card.Alike R card') : (addCard stack card).Alike R (addCard stack' card') where
  name := h.name
  card := h.card
  home := h.home
  cards := by
    rw [StackEditor.addCard, StackEditor.addCard, hcard.name]
    exact h.cards.set hcard card'.name

theorem Stack.Alike.removeCard (h : stack.Alike R stack') (name : String) :
    Option.Rel (Stack.Alike R) (removeCard stack name) (removeCard stack' name) := by
  have hcards := h.cards.erase name
  have hvalues := hcards.values
  rw [StackEditor.removeCard, StackEditor.removeCard]
  revert hvalues
  cases (stack.cards.erase name).values <;> cases (stack'.cards.erase name).values <;>
    intro hvalues <;> cases hvalues
  · exact .none
  · next hnext _ =>
    refine .some ⟨h.name, ?_, ?_, hcards⟩
    · simp only [h.card, hnext.name]
    · simp only [h.home, hnext.name]

theorem Editor.Alike.refreshTools (h : e.Alike R e') :
    (refreshTools e).Alike R (refreshTools e') := ⟨h.stack, h.stack.cards.keys⟩

theorem Editor.Alike.renameCard (h : e.Alike R e') (name : String) :
    Option.Rel (Editor.Alike R) (renameCard e name) (renameCard e' name) := by
  have hget := h.stack.cards.get e'.stack.card
  rw [StackEditor.renameCard, StackEditor.renameCard, h.stack.card]
  revert hget
  cases e.stack.cards.get e'.stack.card <;> cases e'.stack.cards.get e'.stack.card <;>
    intro hget <;> cases hget
  · dsimp only
    split
    · exact .none
    · exact .some h
  · next card card' hcard =>
    dsimp only
    rw [Obj.hasIn_eq h.stack.cards.keys]
    split
    · exact .some h
    · have hnew : Card.Alike R { card with name := name } { card' with name := name } :=
        ⟨rfl, hcard.rest⟩
      apply Option.Rel.some
      apply Editor.Alike.refreshTools
      refine ⟨⟨h.stack.name, rfl, ?_, ?_⟩, h.options⟩
      · simp only [h.stack.home, hcard.name]
      · rw [hcard.name]
        exact (h.stack.cards.set hnew name).erase card'.name

theorem Editor.Alike.setName (h : e.Alike R e') (metadata name : String) :
    Option.Rel (Editor.Alike R) (setName e metadata name) (setName e' metadata name) := by
  rw [StackEditor.setName, StackEditor.setName]
  split
  · exact h.renameCard (trim name)
  · apply Option.Rel.some
    rw [setHome, setHome, Obj.hasIn_eq h.stack.cards.keys]
    split
    · exact ⟨⟨h.stack.name, h.stack.card, rfl, h.stack.cards⟩, h.options⟩
    · exact h
  · exact .some ⟨⟨rfl, h.stack.card, h.stack.home, h.stack.cards⟩, h.options⟩
  · exact .some h

end Documents

section Grids

variable {α β : Type} {R : α → β → Prop} {data : List (List α)} {data' : List (List β)}

theorem rel_getElem? {l : List α} {l' : List β} (h : List.Forall₂ R l l') (i : Nat) :
    Option.Rel R l[i]? l'[i]? := by
  induction h generalizing i with
  | nil => exact .none
  | cons hab _ ih =>
    cases i with
    | zero => exact .some hab
    | succ i => exact ih i

theorem forall₂_modify {l : List α} {l' : List β} (h : List.Forall₂ R l l') {f : α → α} {f' : β → β}
    (hf : ∀ a b, R a b → R (f a) (f' b)) (i : Nat) :
    List.Forall₂ R (l.modify i f) (l'.modify i f') := by
  induction h generalizing i with
  | nil => simp
  | cons hab hrest ih =>
    cases i with
    | zero => exact .cons (hf _ _ hab) hrest
    | succ i => exact .cons hab (ih i)

/-- Two grids of one shape with related cells. -/
abbrev GridAlike (R : α → β → Prop) (data : List (List α)) (data' : List (List β)) : Prop :=
  List.Forall₂ (List.Forall₂ R) data data'

theorem getloc_alike (h : GridAlike R data data') (loc : Loc) :
    Option.Rel R (getloc data loc) (getloc data' loc) :=
  rel_bind (rel_getElem? h loc.row) fun _ _ hrow => rel_getElem? hrow loc.col

theorem setloc_alike (h : GridAlike R data data') {a : α} {b : β} (hab : R a b) (loc : Loc) :
    GridAlike R (setloc data loc a) (setloc data' loc b) := by
  apply forall₂_modify h
  intro row row' hrow
  rw [List.set_eq_modify, List.set_eq_modify]
  exact forall₂_modify hrow (fun _ _ _ => hab) loc.col

theorem shift_alike (h : GridAlike R data data') (active : List Loc) (x y : Int) :
    Option.Rel (GridAlike R) (shift data active x y) (shift data' active x y) :=
  copyAll_rel (fun _ _ loc hdata => getloc_alike hdata loc)
    (fun _ _ loc _ _ hdata hab => setloc_alike hdata hab loc) h _

end Grids

end HackerUnion.StackEditor
