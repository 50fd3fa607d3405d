import HackerUnion.Board.Accepted
import HackerUnion.Petri.Roles

namespace HackerUnion.Board

open Bash (Text text)
open Durable
open Durable.Handler
open Petri (Chapter)

/-- Mailgun, as far as it posts what is mailed to a list: the headers that a mail was given are
among those that it posts. -/
structure Provider where
  post : Message → MailData
  headers : ∀ m, ∀ h ∈ m.headers, ∃ hs, (post m).messageHeaders = .value hs ∧ h ∈ hs

/-- A mail on its way to a list. The chapter comes from the route it takes. -/
structure Letter where
  recipient : Text
  data : MailData

/-- The site, the mails on their way, the items that were posted on the web and those that came by
mail. -/
structure World where
  db : Db
  flight : List Letter
  posted : List Item
  received : List Item

/-- What someone does, or Mailgun: something is submitted on the web, a mail is written to a list,
or the mail in some place is delivered by the route of a list. -/
inductive Act where
  | submit (s : Submission) (faults : Nat → Service → Bool)
  | write (letter : Letter)
  | deliver (n : Nat) (chapter : Nat) (official : Bool) (faults : Nat → Service → Bool)

namespace Ledger

def items (l : Ledger) : List Item :=
  l.bulletins.map Item.bulletin ++ l.comments.map Item.comment

/-- What is new. -/
def made (l l' : Ledger) : List Item := l'.items.filter (· ∉ l.items)

end Ledger

/-- The mail, as it is posted to the view of the list whose address it has. -/
def Letter.routed (db : Db) (letter : Letter) (chapter : Nat) (official : Bool) :
    Option MailData :=
  match db.chapters.find? chapter with
  | none => none
  | some c =>
    if letter.recipient = (if official then c.getOfficialList else c.getDiscussList) then
      some { letter.data with chapter := some c.pk }
    else none

namespace World

def start (db : Db) (letters : List Letter) : World := ⟨{ db with sent := [] }, letters, [], []⟩

/-- The mails to lists that were taken meanwhile are on their way. -/
def underway (provider : Provider) (db db' : Db) : List Letter :=
  (db'.sent.drop db.sent.length).map fun x => ⟨x.2.recipient, provider.post x.2⟩

/-- The mail that is to be delivered, as it is posted. -/
def incoming (w : World) (n chapter : Nat) (official : Bool) : Option MailData :=
  w.flight[n]?.bind fun letter => letter.routed w.db chapter official

def step (provider : Provider) (w : World) : Act → World
  | .submit s faults =>
    let db := (exec s.handle ⟨w.db, faults⟩).2.db
    { db := db
      flight := w.flight ++ underway provider w.db db
      posted := w.posted ++ w.db.ledger.made db.ledger
      received := w.received }
  | .write letter => { w with flight := w.flight ++ [letter] }
  | .deliver n chapter official faults =>
    match w.incoming n chapter official with
    | none => w
    | some d =>
      let db := (exec (receiveMail official d) ⟨w.db, faults⟩).2.db
      { db := db
        flight := w.flight.eraseIdx n ++ underway provider w.db db
        posted := w.posted
        received := w.received ++ w.db.ledger.made db.ledger }

def histories (provider : Provider) (w : World) (acts : List Act) : List World :=
  Run.states (fun w act => some (step provider w act)) w acts

/-- No item was mailed twice, only what was posted on the web was mailed and nothing that came by
mail, and what was mailed is refused when it comes back. -/
structure LoopFree (provider : Provider) (w : World) : Prop where
  once : (w.db.sent.map Prod.fst).Nodup
  posted : ∀ x ∈ w.db.sent, x.1 ∈ w.posted
  received : ∀ x ∈ w.db.sent, x.1 ∉ w.received
  refused : ∀ x ∈ w.db.sent, ∀ (db : Db) (official : Bool) (chapter : Option Nat),
    MailData.makes db official { provider.post x.2 with chapter := chapter } = none

/-- A post that is accepted makes one item, about which there is a mail or none. A mail that is
accepted makes one item, and there is no mail about it. All else makes none. -/
def Once (w : World) (act : Act) (w' : World) : Prop :=
  match act with
  | .submit s _ =>
    w'.received = w.received ∧
    match s.makes w.db with
    | some item => w.db.ledger.made w'.db.ledger = [item] ∧ w'.posted = w.posted ++ [item] ∧
        (w'.db.sent = w.db.sent ∨ ∃ m, w'.db.sent = w.db.sent ++ [(item, m)])
    | none => w.db.ledger.made w'.db.ledger = [] ∧ w'.posted = w.posted ∧ w'.db.sent = w.db.sent
  | .write _ => w'.db = w.db ∧ w'.posted = w.posted ∧ w'.received = w.received
  | .deliver n chapter official _ =>
    w'.posted = w.posted ∧ w'.db.sent = w.db.sent ∧
    match (w.incoming n chapter official).bind fun d => d.makes w.db official with
    | some item => w.db.ledger.made w'.db.ledger = [item] ∧ w'.received = w.received ++ [item]
    | none => w.db.ledger.made w'.db.ledger = [] ∧ w'.received = w.received

end World

variable {db : Db} {l l' : Ledger} {item : Item}

section Made

theorem Lost.made (h : Lost l l') : l.made l' = [] := by
  unfold Ledger.made
  rw [List.filter_eq_nil_iff]
  intro item hitem
  rw [Bool.not_eq_true, decide_eq_false_iff_not, not_not]
  rcases List.mem_append.mp hitem with hmem | hmem
  · obtain ⟨k, hk, rfl⟩ := List.mem_map.mp hmem
    exact List.mem_append_left _ (List.mem_map_of_mem (h.bulletins hk))
  · obtain ⟨k, hk, rfl⟩ := List.mem_map.mp hmem
    exact List.mem_append_right _ (List.mem_map_of_mem (h.comments hk))

theorem Ledger.made_self : l.made l = [] := Lost.refl.made

/-- The keys that were given out are below the next ones. -/
def Ledger.Counted (l : Ledger) : Prop :=
  (∀ k ∈ l.bulletins, k < l.nextBulletin) ∧ ∀ k ∈ l.comments, k < l.nextComment

theorem ledger_counted : db.ledger.Counted := by
  constructor
  · intro k hk
    obtain ⟨b, hb, rfl⟩ := List.mem_map.mp hk
    exact db.bulletins.lt_next b hb
  · intro k hk
    obtain ⟨c, hc, rfl⟩ := List.mem_map.mp hk
    exact db.comments.lt_next c hc

/-- What is new in a list with one thing more. -/
theorem filter_new {α : Type} [DecidableEq α] {xs ys : List α} {x : α} (h : x ∉ xs ++ ys) :
    (xs ++ [x] ++ ys).filter (· ∉ xs ++ ys) = [x] := by
  have hold (zs : List α) (hzs : zs ⊆ xs ++ ys) : zs.filter (· ∉ xs ++ ys) = [] := by
    rw [List.filter_eq_nil_iff]
    intro z hz
    rw [Bool.not_eq_true, decide_eq_false_iff_not, not_not]
    exact hzs hz
  rw [List.filter_append, List.filter_append, hold xs (List.subset_append_left _ _),
    hold ys (List.subset_append_right _ _)]
  simp only [List.filter_cons, h, not_false_eq_true, decide_true, if_true, List.filter_nil,
    List.nil_append, List.append_nil]

theorem made_enterBulletin (h : l.Counted) {s : List (Item × Message)} :
    l.made { l.enterBulletin with sent := s } = [l.upcomingBulletin] := by
  have hnew : l.upcomingBulletin ∉ l.items := by
    intro hmem
    rcases List.mem_append.mp hmem with hmem | hmem
    · obtain ⟨k, hk, heq⟩ := List.mem_map.mp hmem
      have := h.1 k hk
      cases heq
      omega
    · obtain ⟨k, -, heq⟩ := List.mem_map.mp hmem
      cases heq
  have hitems : ({ l.enterBulletin with sent := s } : Ledger).items =
      l.bulletins.map Item.bulletin ++ [l.upcomingBulletin] ++ l.comments.map Item.comment := by
    simp [Ledger.items, Ledger.enterBulletin, Ledger.upcomingBulletin]
  unfold Ledger.made
  rw [hitems]
  exact filter_new hnew

theorem made_enterComment (h : l.Counted) {s : List (Item × Message)} :
    l.made { l.enterComment with sent := s } = [l.upcomingComment] := by
  have hnew : l.upcomingComment ∉ l.items ++ [] := by
    rw [List.append_nil]
    intro hmem
    rcases List.mem_append.mp hmem with hmem | hmem
    · obtain ⟨k, -, heq⟩ := List.mem_map.mp hmem
      cases heq
    · obtain ⟨k, hk, heq⟩ := List.mem_map.mp hmem
      have := h.2 k hk
      cases heq
      omega
  have hitems : ({ l.enterComment with sent := s } : Ledger).items =
      l.items ++ [l.upcomingComment] ++ [] := by
    simp [Ledger.items, Ledger.enterComment, Ledger.upcomingComment]
  have hmade := filter_new hnew
  unfold Ledger.made
  rw [hitems]
  simpa only [List.append_nil] using hmade

/-- What is made is what comes next of its kind. -/
def Ledger.Upcoming (l : Ledger) (item : Item) : Prop :=
  item = l.upcomingBulletin ∨ item = l.upcomingComment

theorem Submission.makes_upcoming {s : Submission} (h : s.makes db = some item) :
    db.ledger.Upcoming item := by
  cases s with
  | post posting user slug data =>
    simp only [Submission.makes] at h
    split at h
    · split at h
      · cases h
      · exact Or.inl (Option.some.inj h).symm
    · cases h
  | comment user slug bulletin data =>
    simp only [Submission.makes] at h
    split at h
    · exact Or.inr (Option.some.inj h).symm
    · cases h
  | edit posting user slug bulletin data => cases h
  | deleteComment user slug bulletin comment => cases h
  | follow user slug bulletin => cases h
  | read user data => cases h

theorem MailData.makes_upcoming {official : Bool} {d : MailData}
    (h : d.makes db official = some item) : db.ledger.Upcoming item := by
  unfold MailData.makes at h
  split at h
  · split at h
    · exact Or.inr (Option.some.inj h).symm
    · exact Or.inl (Option.some.inj h).symm
  · cases h

theorem made_enter (h : l.Counted) (hup : l.Upcoming item) {s : List (Item × Message)} :
    l.made { l.enter item with sent := s } = [item] := by
  rcases hup with rfl | rfl
  · exact made_enterBulletin h
  · exact made_enterComment h

theorem Ledger.Upcoming.fresh (h : l.Upcoming item) : l.Fresh item := by
  rcases h with rfl | rfl
  · exact Nat.le_refl _
  · exact Nat.le_refl _

/-- A key that was given out is not fresh any more, and neither is the new one. -/
theorem fresh_of_enter {other : Item} {s : List (Item × Message)} (hup : l.Upcoming item)
    (h : ({ l.enter item with sent := s } : Ledger).Fresh other) :
    l.Fresh other ∧ other ≠ item := by
  rcases hup with rfl | rfl
  · cases other with
    | bulletin k =>
      change l.nextBulletin + 1 ≤ k at h
      refine ⟨Nat.le_of_succ_le h, ?_⟩
      intro heq
      cases heq
      omega
    | comment k => exact ⟨h, fun heq => by cases heq⟩
  · cases other with
    | bulletin k => exact ⟨h, fun heq => by cases heq⟩
    | comment k =>
      change l.nextComment + 1 ≤ k at h
      refine ⟨Nat.le_of_succ_le h, ?_⟩
      intro heq
      cases heq
      omega

theorem Lost.fresh {other : Item} (h : Lost l l') (hfresh : l'.Fresh other) : l.Fresh other := by
  cases other with
  | bulletin k =>
    change l'.nextBulletin ≤ k at hfresh
    rw [h.nextBulletin] at hfresh
    exact hfresh
  | comment k =>
    change l'.nextComment ≤ k at hfresh
    rw [h.nextComment] at hfresh
    exact hfresh

end Made

section Refused

/-- A mail from here is not accepted, with whatever it comes back. -/
theorem Internal.refused {provider : Provider} {m : Message} (h : Internal m) (db : Db)
    (official : Bool) (chapter : Option Nat) :
    MailData.makes db official { provider.post m with chapter := chapter } = none := by
  obtain ⟨v, hv⟩ := h
  obtain ⟨hs, hheaders, hmem⟩ := provider.headers m _ hv
  have hignore : (listForm official).ignoreInternal = true := by
    cases official with
    | true => rfl
    | false => rfl
  unfold MailData.makes
  split
  · rename_i cleaned hclean
    have hnone := (clean_eq_ok_iff.mp hclean).2.1 hignore
    have hsome : v ∈ MailData.getHeader { provider.post m with chapter := chapter }
        internalEmailHeader := by
      simp only [MailData.getHeader, hheaders]
      exact List.mem_map.mpr ⟨_, List.mem_filter.mpr ⟨hmem, by simp⟩, rfl⟩
    rw [hnone] at hsome
    cases hsome
  · rfl

end Refused

namespace World

variable {provider : Provider} {w w' : World} {act : Act}

section Deliver

variable {n chapter : Nat} {official : Bool} {faults : Nat → Service → Bool}

theorem step_deliver_none (hincoming : w.incoming n chapter official = none) :
    step provider w (.deliver n chapter official faults) = w := by
  simp only [step, hincoming]

theorem db_step_deliver {d : MailData} (hincoming : w.incoming n chapter official = some d) :
    (step provider w (.deliver n chapter official faults)).db =
      (exec (receiveMail official d) ⟨w.db, faults⟩).2.db := by
  simp only [step, hincoming]

end Deliver

/-- Nothing that was posted or received has a key that is still to be given out. -/
structure Kept (provider : Provider) (w : World) : Prop extends LoopFree provider w where
  given : ∀ item ∈ w.posted ++ w.received, ¬w.db.ledger.Fresh item

theorem start_kept (db : Db) (letters : List Letter) : Kept provider (start db letters) where
  once := List.nodup_nil
  posted := fun _ hx => by cases hx
  received := fun _ hx => by cases hx
  refused := fun _ hx => by cases hx
  given := fun _ hitem => by cases hitem

/-- One item is new, and there may be a mail about it, or none is, and there is no mail. -/
def Adds (db db' : Db) (may : Prop) : Option Item → Prop
  | some item => db.ledger.made db'.ledger = [item] ∧
      (db'.sent = db.sent ∨ may ∧ ∃ m, Internal m ∧ db'.sent = db.sent ++ [(item, m)])
  | none => db.ledger.made db'.ledger = [] ∧ db'.sent = db.sent

/-- What is known of the store after a handler. -/
theorem outcome_cases {made : Option Item} {may : Prop} {db db' : Db}
    (h : Outcome db.ledger False made may db') (hup : ∀ item, made = some item →
      db.ledger.Upcoming item) :
    (∀ item, db'.ledger.Fresh item → db.ledger.Fresh item ∧ made ≠ some item) ∧
      Adds db db' may made := by
  cases made with
  | none =>
    obtain ⟨l', hlost, hledger, -⟩ := h
    simp only [Adds, hledger]
    refine ⟨fun item hfresh => ⟨hlost.fresh hfresh, fun heq => by cases heq⟩, hlost.made, ?_⟩
    have hsent : db'.sent = l'.sent := congrArg Ledger.sent hledger
    exact hsent.trans hlost.sent
  | some item =>
    obtain ⟨s, hs, hledger, -⟩ := h
    simp only [Adds, hledger]
    have hentered : (db.ledger.enter item).sent = db.sent := by
      cases item with
      | bulletin k => rfl
      | comment k => rfl
    refine ⟨?_, made_enter ledger_counted (hup item rfl), ?_⟩
    · intro other hfresh
      obtain ⟨hbefore, hne⟩ := fresh_of_enter (hup item rfl) hfresh
      exact ⟨hbefore, fun heq => hne (Option.some.inj heq).symm⟩
    · have hsent : db'.sent = s := congrArg Ledger.sent hledger
      rw [hsent, ← hentered]
      exact hs

theorem submit_outcome (s : Submission) (faults : Nat → Service → Bool) (db : Db) :
    Outcome db.ledger False (s.makes db) True (exec s.handle ⟨db, faults⟩).2.db := by
  have hat : At db.ledger False db := ⟨rfl, False.elim⟩
  exact db_of_ensures (s.handle_outcome hat False.elim) fun _ _ => trivial

theorem deliver_outcome (official : Bool) (d : MailData) (faults : Nat → Service → Bool)
    (db : Db) : Outcome db.ledger False (d.makes db official) False
      (exec (receiveMail official d) ⟨db, faults⟩).2.db := by
  have hat : At db.ledger False db := ⟨rfl, False.elim⟩
  exact db_of_ensures (receiveMail_outcome hat) fun _ _ => trivial

theorem step_once (provider : Provider) (w : World) (act : Act) :
    Once w act (step provider w act) := by
  cases act with
  | write letter => exact ⟨rfl, rfl, rfl⟩
  | submit s faults =>
    obtain ⟨-, h⟩ := outcome_cases (submit_outcome s faults w.db) fun _ => s.makes_upcoming
    refine ⟨rfl, ?_⟩
    cases hmakes : s.makes w.db with
    | none =>
      rw [hmakes] at h
      obtain ⟨hmade, hsent⟩ := h
      refine ⟨hmade, ?_, hsent⟩
      simp only [step, hmade, List.append_nil]
    | some item =>
      rw [hmakes] at h
      obtain ⟨hmade, hsent⟩ := h
      refine ⟨hmade, ?_, ?_⟩
      · simp only [step, hmade]
      · rcases hsent with hsent | ⟨-, m, -, hsent⟩
        · exact Or.inl hsent
        · exact Or.inr ⟨m, hsent⟩
  | deliver n chapter official faults =>
    cases hincoming : w.incoming n chapter official with
    | none =>
      have hstep : step provider w (.deliver n chapter official faults) = w := by
        simp only [step, hincoming]
      rw [hstep]
      simp only [Once, hincoming, Option.bind_none]
      exact ⟨trivial, trivial, Ledger.made_self, trivial⟩
    | some d =>
      obtain ⟨-, h⟩ := outcome_cases (deliver_outcome official d faults w.db)
        fun _ => d.makes_upcoming
      simp only [Once, step, hincoming, Option.bind_some]
      cases hmakes : d.makes w.db official with
      | none =>
        rw [hmakes] at h
        obtain ⟨hmade, hsent⟩ := h
        simp only [hmade, List.append_nil]
        exact ⟨trivial, hsent, trivial, trivial⟩
      | some item =>
        rw [hmakes] at h
        obtain ⟨hmade, hsent⟩ := h
        simp only [hmade]
        rcases hsent with hsent | ⟨hnever, -⟩
        · exact ⟨trivial, hsent, trivial, trivial⟩
        · exact hnever.elim

/-- An item that is new was neither posted nor received before. -/
theorem Kept.not_given {item : Item} (h : Kept provider w) (hup : w.db.ledger.Upcoming item) :
    item ∉ w.posted ∧ item ∉ w.received :=
  ⟨fun hmem => h.given item (List.mem_append_left _ hmem) hup.fresh,
    fun hmem => h.given item (List.mem_append_right _ hmem) hup.fresh⟩

/-- A post is added, with a mail or without one. -/
theorem Kept.post {item : Item} (h : Kept provider w) (hup : w.db.ledger.Upcoming item)
    (hposted : w'.posted = w.posted ++ [item]) (hreceived : w'.received = w.received)
    (hsent : w'.db.sent = w.db.sent ∨
      ∃ m, Internal m ∧ w'.db.sent = w.db.sent ++ [(item, m)])
    (hfresh : ∀ other, w'.db.ledger.Fresh other → w.db.ledger.Fresh other ∧ other ≠ item) :
    Kept provider w' := by
  obtain ⟨hnew, hnew'⟩ := h.not_given hup
  have hgiven : ∀ other ∈ w'.posted ++ w'.received, ¬w'.db.ledger.Fresh other := by
    intro other hother hfresh'
    obtain ⟨hbefore, hne⟩ := hfresh other hfresh'
    rw [hposted, hreceived] at hother
    simp only [List.mem_append, List.mem_singleton] at hother
    rcases hother with (hmem | heq) | hmem
    · exact h.given other (List.mem_append_left _ hmem) hbefore
    · exact hne heq
    · exact h.given other (List.mem_append_right _ hmem) hbefore
  rcases hsent with hsent | ⟨m, hm, hsent⟩
  · refine ⟨⟨?_, ?_, ?_, ?_⟩, hgiven⟩
    · rw [hsent]
      exact h.once
    · intro x hx
      rw [hsent] at hx
      rw [hposted]
      exact List.mem_append_left _ (h.posted x hx)
    · intro x hx
      rw [hsent] at hx
      rw [hreceived]
      exact h.received x hx
    · intro x hx
      rw [hsent] at hx
      exact h.refused x hx
  · refine ⟨⟨?_, ?_, ?_, ?_⟩, hgiven⟩
    · rw [hsent, List.map_append, List.map_cons, List.map_nil]
      refine List.nodup_append.mpr ⟨h.once, List.nodup_singleton _, ?_⟩
      intro a ha b hb heq
      rw [List.mem_singleton] at hb
      subst hb
      subst heq
      obtain ⟨x, hx, rfl⟩ := List.mem_map.mp ha
      exact hnew (h.posted x hx)
    · intro x hx
      rw [hsent, List.mem_append, List.mem_singleton] at hx
      rw [hposted]
      rcases hx with hx | rfl
      · exact List.mem_append_left _ (h.posted x hx)
      · exact List.mem_append_right _ (List.mem_singleton_self _)
    · intro x hx
      rw [hsent, List.mem_append, List.mem_singleton] at hx
      rw [hreceived]
      rcases hx with hx | rfl
      · exact h.received x hx
      · exact hnew'
    · intro x hx
      rw [hsent, List.mem_append, List.mem_singleton] at hx
      rcases hx with hx | rfl
      · exact h.refused x hx
      · exact hm.refused

/-- What comes by mail is added without one. -/
theorem Kept.receive (new : List Item) (h : Kept provider w)
    (hnew : ∀ item ∈ new, w.db.ledger.Upcoming item) (hposted : w'.posted = w.posted)
    (hreceived : w'.received = w.received ++ new) (hsent : w'.db.sent = w.db.sent)
    (hfresh : ∀ other, w'.db.ledger.Fresh other → w.db.ledger.Fresh other ∧ other ∉ new) :
    Kept provider w' where
  once := by
    rw [hsent]
    exact h.once
  posted := by
    rw [hsent, hposted]
    exact h.posted
  received := by
    intro x hx hmem
    rw [hsent] at hx
    rw [hreceived, List.mem_append] at hmem
    rcases hmem with hmem | hmem
    · exact h.received x hx hmem
    · exact (h.not_given (hnew _ hmem)).1 (h.posted x hx)
  refused := by
    rw [hsent]
    exact h.refused
  given := by
    intro other hother hfresh'
    obtain ⟨hbefore, hne⟩ := hfresh other hfresh'
    rw [hposted, hreceived] at hother
    simp only [List.mem_append] at hother
    rcases hother with hmem | hmem | hmem
    · exact h.given other (List.mem_append_left _ hmem) hbefore
    · exact h.given other (List.mem_append_right _ hmem) hbefore
    · exact hne hmem

theorem Kept.step (h : Kept provider w) (act : Act) : Kept provider (step provider w act) := by
  have honce := step_once provider w act
  cases act with
  | write letter => exact ⟨⟨h.once, h.posted, h.received, h.refused⟩, h.given⟩
  | submit s faults =>
    obtain ⟨hfresh, hadds⟩ := outcome_cases (submit_outcome s faults w.db) fun _ => s.makes_upcoming
    obtain ⟨hreceived, honce⟩ := honce
    cases hmakes : s.makes w.db with
    | none =>
      rw [hmakes] at honce
      obtain ⟨-, hposted, hsent⟩ := honce
      refine h.receive [] (fun _ hmem => by cases hmem) hposted ?_ hsent ?_
      · rw [List.append_nil]
        exact hreceived
      · intro other hother
        exact ⟨(hfresh other hother).1, List.not_mem_nil⟩
    | some item =>
      rw [hmakes] at honce hadds hfresh
      refine h.post (s.makes_upcoming hmakes) honce.2.1 hreceived ?_ ?_
      · exact hadds.2.imp_right fun hmailed => hmailed.2
      · intro other hother
        exact ⟨(hfresh other hother).1, fun heq => (hfresh other hother).2 (heq ▸ rfl)⟩
  | deliver n chapter official faults =>
    obtain ⟨hposted, hsent, honce⟩ := honce
    cases hincoming : w.incoming n chapter official with
    | none =>
      rw [step_deliver_none hincoming]
      exact h
    | some d =>
      obtain ⟨hfresh, -⟩ := outcome_cases (deliver_outcome official d faults w.db)
        fun _ => d.makes_upcoming
      rw [hincoming, Option.bind_some] at honce
      rw [← db_step_deliver hincoming] at hfresh
      cases hmakes : d.makes w.db official with
      | none =>
        rw [hmakes] at honce
        refine h.receive [] (fun _ hmem => by cases hmem) hposted ?_ hsent ?_
        · rw [List.append_nil]
          exact honce.2
        · intro other hother
          exact ⟨(hfresh other hother).1, List.not_mem_nil⟩
      | some item =>
        rw [hmakes] at honce hfresh
        refine h.receive [item] ?_ hposted honce.2 hsent ?_
        · intro i hi
          rw [List.mem_singleton.mp hi]
          exact d.makes_upcoming hmakes
        · intro other hother
          refine ⟨(hfresh other hother).1, fun hmem => (hfresh other hother).2 ?_⟩
          rw [List.mem_singleton.mp hmem]

/-- Whatever is posted, written and delivered, and in whatever order: each post and each mail that
is accepted makes one item, a post is mailed to its list at most once, and nothing else is. -/
theorem histories_loopFree (provider : Provider) (db : Db) (letters : List Letter)
    (acts : List Act) :
    ∀ w ∈ histories provider (start db letters) acts,
      LoopFree provider w ∧ ∀ act, Once w act (step provider w act) := by
  intro w hw
  have hkept : Kept provider w := Run.states_invariant (I := Kept provider) (C := fun _ _ => True)
    (fun w act w' h _ hstep => by
      obtain rfl := Option.some.inj hstep
      exact h.step act) (start_kept db letters) (Run.throughout_of_forall (fun _ _ => trivial) _ _)
    w hw
  exact ⟨hkept.toLoopFree, step_once provider w⟩

end World

section Examples

def annAccount : Account := ⟨(Petri.member 1 (text "ann") true).user, true⟩

def bobAccount : Account := ⟨(Petri.member 2 (text "bob") false).user, true⟩

/-- A chapter of a leader and a member, without a post. -/
def emptyBoard : Db where
  users := .ofList [annAccount, bobAccount]
  chapters := .ofList [Petri.nyc]
  profiles := .ofList [Petri.member 1 (text "ann") true, Petri.member 2 (text "bob") false]
  bulletins := .empty
  comments := .empty
  notifications := .empty
  notificationTypes := [⟨text "new_mention", true, true⟩, ⟨text "new_comment", true, true⟩,
    ⟨text "new_leadership", true, true⟩]
  followedBy := []
  usersMentioned := []
  usersNotified := []
  recipients := []
  entries := []
  receivers := .initial
  messageId := Petri.decimal
  sent := []

/-- A reply of the member, to the list of all. -/
def bobsReply : MailData where
  recipient := some Petri.nyc.getDiscussList
  sender := some bobAccount.email
  messageFrom := some bobAccount.email
  subject := text "Re: leaders"
  bodyPlain := text "me too"
  bodyHtml := text "me too"
  strippedHtml := text "me too"
  strippedText := text "me too"
  contentIdMap := .blank
  messageId := text "reply"
  messageHeaders := .value []
  inReplyTo := text "thread"
  chapter := some 1

/-- A mail is posted with its own headers and nothing more. -/
def plainProvider : Provider where
  post m :=
    { recipient := some m.recipient
      sender := some m.sender
      messageFrom := some m.sender
      subject := m.subject
      bodyPlain := m.text
      bodyHtml := m.html
      strippedHtml := m.html
      strippedText := m.text
      contentIdMap := .blank
      messageId := m.id
      messageHeaders := .value m.headers
      inReplyTo := []
      chapter := none }
  headers := fun m _ hh => ⟨m.headers, rfl, hh⟩

/-- The leader posts a talk, which comes back, and the member replies to it by mail. -/
def talkActs : List Act :=
  [.submit (.post .talk (some 1) (text "nyc") { title := text "hello", content := text "hi all" })
      fun _ _ => false,
    .write ⟨Petri.nyc.getDiscussList, { bobsReply with inReplyTo := Petri.decimal 0 }⟩,
    .deliver 0 1 false fun _ _ => false,
    .deliver 0 1 false fun _ _ => false]

def talked : World := talkActs.foldl (World.step plainProvider) (.start emptyBoard [])

/-- The talk is mailed, what comes back is refused, and the reply is taken. -/
theorem histories_loopFree_talked :
    (talked.posted = [.bulletin 1] ∧ talked.received = [.comment 1] ∧
      talked.db.sent.map Prod.fst = [.bulletin 1] ∧ talked.flight = []) ∧
    World.LoopFree plainProvider talked ∧
      ∀ act, World.Once talked act (World.step plainProvider talked act) :=
  ⟨by decide +kernel, World.histories_loopFree plainProvider emptyBoard [] talkActs talked
    (Run.foldl_mem_states _ _ _)⟩

end Examples

end HackerUnion.Board
