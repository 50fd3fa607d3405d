import Mathlib.Logic.Relation
import HackerUnion.Durable.Roster
import HackerUnion.Petri.Models

namespace HackerUnion.Petri

open Bash (Text text)
open Durable

/-- The mailing lists of a chapter. -/
inductive MailList where
  | announce
  | official
  | discuss
  deriving DecidableEq

namespace MailList

/-- `ANNOUNCE_LIST_FORMAT`, `OFFICIAL_LIST_FORMAT` and `DISCUSS_LIST_FORMAT`. -/
def format : MailList → Text
  | announce => text "announce."
  | official => text "leadership."
  | discuss => text "talk."

def named (l : MailList) (slug : Text) : Text := emailFormat (l.format ++ slug)

/-- The lists of the kinds begin with different letters. -/
def initial : MailList → Char
  | announce => 'a'
  | official => 'l'
  | discuss => 't'

theorem head?_format (l : MailList) (slug : Text) : (l.format ++ slug).head? = some l.initial := by
  cases l <;> rfl

theorem named_inj {l l' : MailList} {slug slug' : Text} (h : l.named slug = l'.named slug') :
    l = l' ∧ slug = slug' := by
  have hname : l.format ++ slug = l'.format ++ slug' := by
    unfold named emailFormat at h
    exact List.append_cancel_right h
  have hhead := congrArg List.head? hname
  rw [head?_format, head?_format, Option.some.injEq] at hhead
  have hinitial : ∀ l l' : MailList, l.initial = l'.initial → l = l' := by
    intro l l'
    cases l <;> cases l' <;> decide
  obtain rfl := hinitial l l' hhead
  exact ⟨rfl, List.append_cancel_left hname⟩

end MailList

/-- Of a user and his profile what the lists depend on. -/
structure Member where
  email : Text
  chapter : Chapter
  status : Status
  isLeader : Bool
  allows : MailList → Bool

namespace Member

/-- The chapter of whose lists a member is, and the address he is on them with. -/
def place (m : Member) : Text × Text := (m.chapter.slug, m.email)

def entry (m : Member) (l : MailList) : Text × Text := (l.named m.chapter.slug, m.email)

end Member

namespace MailList

/-- The settings of a member ask for the list's mail, which on the leaders' list is for leaders. -/
def Wanted (l : MailList) (m : Member) : Prop :=
  m.allows l = true ∧ (l = official → m.isLeader = true)

/-- A member who is to have the list's mail. -/
def Due (l : MailList) (m : Member) : Prop :=
  l.Wanted m ∧ (l ≠ official → m.status = .approved)

theorem named_entry_iff {l l' : MailList} {m : Member} {x : Text × Text} :
    (l.named x.1, x.2) = m.entry l' ↔ l = l' ∧ x = m.place := by
  constructor
  · intro h
    obtain ⟨hname, hemail⟩ := Prod.mk.inj h
    obtain ⟨hl, hslug⟩ := named_inj hname
    exact ⟨hl, Prod.ext hslug hemail⟩
  · rintro ⟨rfl, rfl⟩
    simp only [Member.entry, Member.place]

end MailList

/-- The members by their keys, and the addresses subscribed to the lists. -/
structure Rolls where
  record : Nat → Option Member
  subscribed : Set (Text × Text)

namespace Rolls

/-- The lists of one kind beside the members. -/
def roster (R : Rolls) (l : MailList) : Roster Nat Member (Text × Text) :=
  ⟨R.record, {x | (l.named x.1, x.2) ∈ R.subscribed}⟩

/-- A member is written, and his address put on the lists, or taken off them. -/
def write (R : Rolls) (k : Nat) (m : Member) (listing : MailList → Option Bool) : Rolls where
  record := Function.update R.record k (some m)
  subscribed := {x | (x ∈ R.subscribed ∨ ∃ l, listing l = some true ∧ x = m.entry l) ∧
    ¬∃ l, listing l = some false ∧ x = m.entry l}

theorem roster_write (R : Rolls) (k : Nat) (m : Member) (listing : MailList → Option Bool)
    (l : MailList) :
    (R.write k m listing).roster l = (R.roster l).put k m
      {x | (x ∈ (R.roster l).entries ∨ listing l = some true ∧ x = m.place) ∧
        ¬(listing l = some false ∧ x = m.place)} := by
  have hentries : ((R.write k m listing).roster l).entries =
      {x | (x ∈ (R.roster l).entries ∨ listing l = some true ∧ x = m.place) ∧
        ¬(listing l = some false ∧ x = m.place)} := by
    ext x
    simp only [roster, write, Set.mem_ofPred_eq, MailList.named_entry_iff]
    grind
  unfold Roster.put
  rw [← hentries]
  simp only [roster, write]

end Rolls

/-- A write of the application to a member, on which his lists depend. -/
inductive Change where
  | setting (l : MailList) (allow : Bool)
  | lead
  | retire
  | approve
  | deny

namespace Change

def on (m : Member) : Change → Member
  | setting l allow => { m with allows := Function.update m.allows l allow }
  | lead => { m with isLeader := true }
  | retire => { m with isLeader := false }
  | approve => { m with status := .approved }
  | deny => { m with status := .denied }

/-- Whether the member's address is put on a list, or taken off. -/
def listing (m : Member) (c : Change) (l : MailList) : Option Bool :=
  match c with
  | setting l' allow => if l = l' then some allow else none
  | lead => if l = .official ∧ m.allows l = true then some true else none
  | retire => if l = .official then some false else none
  | approve => if l ≠ .official ∧ m.allows l = true then some true else none
  | deny => none

/-- When the application makes the write. -/
def Guard (m : Member) : Change → Prop
  | setting l _ => l = .official → m.isLeader = true
  | lead => m.isLeader = false
  | retire => m.isLeader = true
  | approve | deny => m.status ≠ .approved ∧ m.status ≠ .denied

/-- A members' list is switched on only by one who is approved. -/
def Entitled (m : Member) : Change → Prop
  | setting l allow => allow = true → l ≠ .official → m.status = .approved
  | _ => True

section Lemmas

variable {m : Member} {c : Change} {l : MailList}

@[simp] theorem place_on : (c.on m).place = m.place := by
  cases c <;> simp [on, Member.place]

/-- Who is put on a list asks for it. -/
theorem wanted_of_listing (hg : c.Guard m) (h : c.listing m l = some true) :
    l.Wanted (c.on m) := by
  cases c with
  | setting l' allow =>
    simp only [listing, Option.ite_none_right_eq_some, Option.some.injEq] at h
    obtain ⟨rfl, rfl⟩ := h
    exact ⟨by simp [on], hg⟩
  | lead =>
    simp only [listing, Option.ite_none_right_eq_some] at h
    exact ⟨h.1.2, fun _ => by simp [on]⟩
  | retire => simp [listing] at h
  | approve =>
    simp only [listing, Option.ite_none_right_eq_some] at h
    exact ⟨h.1.2, fun hl => absurd hl h.1.1⟩
  | deny => simp [listing] at h

/-- Who asks for a list no longer is taken off it. -/
theorem wanted_on (h : l.Wanted m) : l.Wanted (c.on m) ∨ c.listing m l = some false := by
  obtain ⟨hallow, hlead⟩ := h
  cases c with
  | setting l' allow =>
    rcases eq_or_ne l l' with rfl | hl
    · cases allow with
      | true => exact .inl ⟨by simp [on], hlead⟩
      | false => exact .inr (by simp [listing])
    · exact .inl ⟨by simpa [on, hl] using hallow, hlead⟩
  | lead => exact .inl ⟨hallow, fun _ => by simp [on]⟩
  | retire =>
    rcases eq_or_ne l .official with rfl | hl
    · exact .inr (by simp [listing])
    · exact .inl ⟨hallow, fun h => absurd h hl⟩
  | approve => exact .inl ⟨hallow, hlead⟩
  | deny => exact .inl ⟨hallow, hlead⟩

/-- Who comes to be due is put on the list. -/
theorem listing_of_due (h : l.Due (c.on m)) :
    c.listing m l = some true ∨ l.Due m ∧ c.listing m l = none := by
  obtain ⟨⟨hallow, hlead⟩, hmember⟩ := h
  cases c with
  | setting l' allow =>
    rcases eq_or_ne l l' with rfl | hl
    · obtain rfl : allow = true := by simpa [on] using hallow
      exact .inl (by simp [listing])
    · exact .inr ⟨⟨⟨by simpa [on, hl] using hallow, hlead⟩, hmember⟩, by simp [listing, hl]⟩
  | lead =>
    rcases eq_or_ne l .official with rfl | hl
    · exact .inl (by simpa [listing, on] using hallow)
    · exact .inr ⟨⟨⟨hallow, fun h => absurd h hl⟩, hmember⟩, by simp [listing, hl]⟩
  | retire =>
    rcases eq_or_ne l .official with rfl | hl
    · simp [on] at hlead
    · exact .inr ⟨⟨⟨hallow, fun h => absurd h hl⟩, hmember⟩, by simp [listing, hl]⟩
  | approve =>
    rcases eq_or_ne l .official with rfl | hl
    · exact .inr ⟨⟨⟨hallow, hlead⟩, fun h => absurd rfl h⟩, by simp [listing]⟩
    · exact .inl (by simpa [listing, on, hl] using hallow)
  | deny =>
    rcases eq_or_ne l .official with rfl | hl
    · exact .inr ⟨⟨⟨hallow, hlead⟩, fun h => absurd rfl h⟩, by simp [listing]⟩
    · exact absurd (hmember hl) (by simp [on])

/-- Where only who is approved switches a list on, who is put on it is due. -/
theorem due_of_listing (hg : c.Guard m) (he : c.Entitled m) (h : c.listing m l = some true) :
    l.Due (c.on m) := by
  refine ⟨wanted_of_listing hg h, fun hl => ?_⟩
  cases c with
  | setting l' allow =>
    simp only [listing, Option.ite_none_right_eq_some, Option.some.injEq] at h
    obtain ⟨rfl, rfl⟩ := h
    exact he rfl hl
  | lead =>
    simp only [listing, Option.ite_none_right_eq_some] at h
    exact absurd h.1.1 hl
  | retire => simp [listing] at h
  | approve => simp [on]
  | deny => simp [listing] at h

theorem due_on (hg : c.Guard m) (h : l.Due m) :
    l.Due (c.on m) ∨ c.listing m l = some false := by
  obtain ⟨hwanted, hmember⟩ := h
  rcases wanted_on (c := c) hwanted with hw | hout
  · left
    refine ⟨hw, fun hl => ?_⟩
    cases c with
    | setting l' allow => exact hmember hl
    | lead => exact hmember hl
    | retire => exact hmember hl
    | approve => simp [on]
    | deny => exact absurd (hmember hl) hg.1
  · exact .inr hout

end Lemmas

end Change

/-- A member is changed by a write that is made. -/
inductive Changed (E : Member → Change → Prop) (R : Rolls) : Rolls → Prop where
  | intro {k : Nat} {m : Member} {c : Change} : R.record k = some m → c.Guard m → E m c →
      Changed E R (R.write k (c.on m) (c.listing m))

/-- From one state of the members and lists to another by such writes. -/
abbrev Changes (E : Member → Change → Prop) : Rolls → Rolls → Prop :=
  Relation.ReflTransGen (Changed E)

namespace Rolls

/-- A new member, who is put on the members' lists if he is approved at once. -/
def signup (R : Rolls) (k : Nat) (m : Member) : Rolls :=
  R.write k m fun l =>
    if l ≠ .official ∧ m.status = .approved ∧ m.allows l = true then some true else none

/-- Who is on a list asks for it, and who is due is on it unless he shares his address. -/
structure Kept (R : Rolls) (l : MailList) : Prop where
  sound : (R.roster l).Sound Member.place l.Wanted
  complete : (R.roster l).Complete Member.place l.Due

/-- There are no lists but those of chapters. -/
def Named (R : Rolls) : Prop := ∀ x ∈ R.subscribed, ∃ l : MailList, ∃ slug, x.1 = l.named slug

/-- No two members have the same address in the same chapter. -/
def Apart (R : Rolls) : Prop :=
  ∀ j k m m', R.record j = some m → R.record k = some m' → m.place = m'.place → j = k

section Step

variable {R R' : Rolls} {k : Nat} {m : Member} {listing : MailList → Option Bool} {l : MailList}
  {E : Member → Change → Prop}

theorem Named.write (h : R.Named) : (R.write k m listing).Named := by
  intro x hx
  rcases hx.1 with hx | ⟨l, -, rfl⟩
  · exact h x hx
  · exact ⟨l, m.chapter.slug, by simp [Member.entry]⟩

/-- A member who is put on a list wants its mail, and one who wants it no longer is taken off. -/
theorem sound_write {wants : Member → Prop} (h : (R.roster l).Sound Member.place wants)
    (hlisting : listing l = some true → wants m)
    (hold : ∀ m₀, R.record k = some m₀ →
      m₀.place = m.place ∧ (wants m₀ → wants m ∨ listing l = some false)) :
    ((R.write k m listing).roster l).Sound Member.place wants := by
  rw [roster_write]
  apply h.put
  · intro x hx
    rcases hx.1 with hbefore | ⟨hnow, rfl⟩
    · exact .inl hbefore
    · exact .inr ⟨hlisting hnow, rfl⟩
  · intro m₀ hm₀
    obtain ⟨hplace, hstays⟩ := hold m₀ hm₀
    refine ⟨hplace, fun hwants => ?_⟩
    rcases hstays hwants with hw | hout
    · exact .inl hw
    · exact .inr fun hin => hin.2 ⟨hout, rfl⟩

/-- A member who comes to want the mail is put on the list, and nobody else is taken off. -/
theorem complete_write {wants : Member → Prop} (h : (R.roster l).Complete Member.place wants)
    (hplace : ∀ m₀, R.record k = some m₀ → m₀.place = m.place)
    (hwants : wants m → listing l = some true ∨
      (∃ m₀, R.record k = some m₀ ∧ wants m₀ ∧ listing l = none)) :
    ((R.write k m listing).roster l).Complete Member.place wants := by
  rw [roster_write]
  apply h.put
  · intro x hx
    by_cases hm : x = m.place
    · exact .inr hm
    · exact .inl ⟨.inl hx, fun hout => hm hout.2⟩
  · exact hplace
  · intro hw
    rcases hwants hw with hin | ⟨m₀, hm₀, hbefore, hnone⟩
    · exact .inl ⟨.inr ⟨hin, rfl⟩, by simp [hin]⟩
    · exact .inr ⟨m₀, hm₀, hbefore, fun x hx => ⟨.inl hx, by simp [hnone]⟩⟩

theorem Apart.write (h : R.Apart)
    (hnew : ∀ j m', j ≠ k → R.record j = some m' → m'.place ≠ m.place) :
    (R.write k m listing).Apart := by
  intro i j m₁ m₂ hi hj hplace
  simp only [Rolls.write, Function.update_apply] at hi hj
  split at hi
  · split at hj
    · omega
    · obtain rfl := Option.some.inj hi
      exact absurd hplace.symm (hnew j m₂ (by omega) hj)
  · split at hj
    · obtain rfl := Option.some.inj hj
      exact absurd hplace (hnew i m₁ (by omega) hi)
    · exact h i j m₁ m₂ hi hj hplace

theorem Named.changed (h : R.Named) (hc : Changed E R R') : R'.Named := by
  obtain ⟨-, -, -⟩ := hc
  exact h.write

theorem Kept.changed (h : R.Kept l) (hc : Changed E R R') : R'.Kept l := by
  obtain ⟨hm, hg, -⟩ := hc
  refine ⟨?_, ?_⟩
  · refine sound_write h.sound (Change.wanted_of_listing hg) fun m₀ h₀ => ?_
    obtain rfl := Option.some.inj (h₀.symm.trans hm)
    exact ⟨Change.place_on.symm, Change.wanted_on⟩
  · refine complete_write h.complete (fun m₀ h₀ => ?_) fun hdue => ?_
    · obtain rfl := Option.some.inj (h₀.symm.trans hm)
      exact Change.place_on.symm
    · rcases Change.listing_of_due hdue with hin | ⟨hbefore, hnone⟩
      · exact .inl hin
      · exact .inr ⟨_, hm, hbefore, hnone⟩

theorem Apart.changed (h : R.Apart) (hc : Changed E R R') : R'.Apart := by
  obtain ⟨hm, hg, -⟩ := hc
  refine h.write fun j m' hj hm' hplace => ?_
  rw [Change.place_on] at hplace
  exact hj (h j _ m' _ hm' hm hplace)

/-- Where only who is approved switches a members' list on, all who are on a list are due. -/
theorem due_changed (h : (R.roster l).Sound Member.place l.Due)
    (hc : Changed (fun m c => c.Entitled m) R R') : (R'.roster l).Sound Member.place l.Due := by
  obtain ⟨hm, hg, he⟩ := hc
  refine sound_write h (Change.due_of_listing hg he) fun m₀ h₀ => ?_
  obtain rfl := Option.some.inj (h₀.symm.trans hm)
  exact ⟨Change.place_on.symm, Change.due_on hg⟩

/-- A new member is no leader. -/
theorem Kept.signup (h : R.Kept l) (hfresh : R.record k = none) (hlead : m.isLeader = false) :
    (R.signup k m).Kept l := by
  have hnew (P : Member → Prop) : ∀ m₀, R.record k = some m₀ → P m₀ := by
    intro m₀ h₀
    rw [hfresh] at h₀
    cases h₀
  refine ⟨?_, ?_⟩
  · refine sound_write h.sound (fun hin => ?_) (hnew _)
    simp only [Option.ite_none_right_eq_some] at hin
    exact ⟨hin.1.2.2, fun hl => absurd hl hin.1.1⟩
  · refine complete_write h.complete (hnew _) fun hdue => .inl ?_
    obtain ⟨⟨hallow, hofficial⟩, hmember⟩ := hdue
    have hl : l ≠ .official := by
      intro hl
      simp [hofficial hl] at hlead
    simp [hl, hmember hl, hallow]

theorem due_signup (h : (R.roster l).Sound Member.place l.Due) (hfresh : R.record k = none) :
    ((R.signup k m).roster l).Sound Member.place l.Due := by
  refine sound_write h (fun hin => ?_) fun m₀ h₀ => ?_
  · simp only [Option.ite_none_right_eq_some] at hin
    exact ⟨⟨hin.1.2.2, fun hl => absurd hl hin.1.1⟩, fun _ => hin.1.2.1⟩
  · rw [hfresh] at h₀
    cases h₀

end Step

section Run

variable {R R' : Rolls} {k : Nat} {m : Member} {l : MailList} {E : Member → Change → Prop}

theorem Named.changes (h : R.Named) (hc : Changes E R R') : R'.Named := by
  induction hc with
  | refl => exact h
  | tail _ hstep ih => exact ih.changed hstep

theorem Kept.changes (h : R.Kept l) (hc : Changes E R R') : R'.Kept l := by
  induction hc with
  | refl => exact h
  | tail _ hstep ih => exact ih.changed hstep

theorem Apart.changes (h : R.Apart) (hc : Changes E R R') : R'.Apart := by
  induction hc with
  | refl => exact h
  | tail _ hstep ih => exact ih.changed hstep

theorem due_changes (h : (R.roster l).Sound Member.place l.Due)
    (hc : Changes (fun m c => c.Entitled m) R R') : (R'.roster l).Sound Member.place l.Due := by
  induction hc with
  | refl => exact h
  | tail _ hstep ih => exact due_changed ih hstep

theorem Apart.alone (h : R.Apart) (l : MailList) (k : Nat) :
    (R.roster l).Alone Member.place k := by
  intro j m m' hm hm' hplace
  exact h j k m' m hm' hm hplace

/-- Where nobody else has his address, a member is on the lists whose mail he is due. -/
theorem Kept.subscribed_iff (h : R.Kept l) (hsound : (R.roster l).Sound Member.place l.Due)
    (hapart : R.Apart) (hm : R.record k = some m) : m.entry l ∈ R.subscribed ↔ l.Due m :=
  Roster.entered_iff hsound h.complete (hapart.alone l k) hm

end Run

end Rolls

end HackerUnion.Petri
