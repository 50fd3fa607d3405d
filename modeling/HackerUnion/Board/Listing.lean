import HackerUnion.Board.Authority

namespace HackerUnion.Board

open Bash (Text text)
open Durable
open Durable.Handler

/-- Every user has a profile, and the chapter of it is there. -/
def People.Staffed (people : People) : Prop :=
  ∀ u ∈ people.users.rows, ∃ p, people.profiles.find? u.pk = some p ∧
    ∃ c, people.chapters.find? p.chapter.pk = some c

/-- What is there. -/
def Db.Has (db : Db) : Item → Prop
  | .bulletin k => ∃ b, db.bulletins.find? k = some b
  | .comment k => ∃ c, db.comments.find? k = some c

/-- The notification is of a bulletin that still exists, and if of a comment on it, so does that. -/
def Standing (db : Db) (n : Nat) : Prop :=
  (∃ k, Refers db n (.bulletin k) ∧ db.Has (.bulletin k)) ∧
    ∀ w, getNDVal db n (text "comment") = some w →
      ∃ k, Refers db n (.comment k) ∧ db.Has (.comment k)

/-- The user gets his notifications, and among them every one that he has not read and of which
everything still exists. -/
def Listed (db : Db) (u : Account) : Prop :=
  ∃ shown slug, get db (some u.pk) = .ok (shown, slug) ∧
    ∀ n ∈ unread db u.pk, Standing db n.pk → ∃ s ∈ shown, s.notification = n.pk

/-- Nothing is taken away that somebody is still to read about. -/
def Act.Spares (db : Db) : Act → Prop
  | .submit s _ => s.Spares db
  | _ => True

variable {db : Db} {l : Ledger} {n : Nat} {ns : List Notification} {u : Account}

section Shown

/-- The notification is of a bulletin. -/
def OfBulletin (db : Db) (n : Nat) : Bool := (getNDVal db n (text "bulletin")).isSome

theorem getBulletin_of_mem {k : Nat} (h : k ∈ db.ledger.bulletins) :
    ∃ b, getBulletin db k = .ok b := by
  obtain ⟨b, hb⟩ := mem_ledger_bulletins.mp h
  refine ⟨b, ?_⟩
  unfold getBulletin
  rw [hb]

theorem getComment_of_mem {k : Nat} (h : k ∈ db.ledger.comments) :
    ∃ c, getComment db k = .ok c := by
  obtain ⟨c, hc⟩ := mem_ledger_comments.mp h
  refine ⟨c, ?_⟩
  unfold getComment
  rw [hc]

theorem mem_of_getBulletin {k : Nat} {b : Bulletin} (h : getBulletin db k = .ok b) :
    k ∈ db.ledger.bulletins := by
  unfold getBulletin at h
  split at h
  · rename_i b' hb
    exact mem_ledger_bulletins.mpr ⟨b', hb⟩
  · cases h

theorem mem_of_getComment {k : Nat} {c : Comment} (h : getComment db k = .ok c) :
    k ∈ db.ledger.comments := by
  unfold getComment at h
  split at h
  · rename_i c' hc
    exact mem_ledger_comments.mpr ⟨c', hc⟩
  · cases h

/-- A notification is shown where all that it refers to is there, if it is of a bulletin. -/
theorem showNotification_of_resolves (h : Resolves db.ledger (getNDVal db n)) :
    ∃ shown, showNotification db n = .ok shown ∧
      shown.toList.map Shown.notification = if OfBulletin db n then [n] else [] := by
  unfold showNotification OfBulletin
  cases hbulletin : getNDVal db n (text "bulletin") with
  | none => exact ⟨none, rfl, rfl⟩
  | some v =>
    obtain ⟨⟨k, hk, hint⟩, hcomment⟩ := h v hbulletin
    obtain ⟨b, hb⟩ := getBulletin_of_mem hk
    dsimp only
    cases hvalue : getNDVal db n (text "comment") with
    | none =>
      refine ⟨some ⟨n, k, b.title, none⟩, ?_, rfl⟩
      rw [bind_eq_ok_iff]
      refine ⟨k, hint, ?_⟩
      rw [bind_eq_ok_iff]
      exact ⟨b, hb, rfl⟩
    | some w =>
      obtain ⟨j, hj, hint'⟩ := hcomment w hvalue
      obtain ⟨c, hc⟩ := getComment_of_mem hj
      refine ⟨some ⟨n, k, b.title, some (j, (stripTags c.content).take 30)⟩, ?_, rfl⟩
      rw [bind_eq_ok_iff]
      refine ⟨k, hint, ?_⟩
      rw [bind_eq_ok_iff]
      refine ⟨j, hint', ?_⟩
      rw [bind_eq_ok_iff]
      refine ⟨b, hb, ?_⟩
      rw [bind_eq_ok_iff]
      exact ⟨c, hc, rfl⟩

theorem resolves_of_showNotification {shown : Option Shown}
    (h : showNotification db n = .ok shown) : Resolves db.ledger (getNDVal db n) := by
  intro v hv
  unfold showNotification at h
  rw [hv] at h
  dsimp only at h
  rw [bind_eq_ok_iff] at h
  obtain ⟨k, hint, h⟩ := h
  cases hvalue : getNDVal db n (text "comment") with
  | none =>
    rw [hvalue] at h
    dsimp only at h
    rw [bind_eq_ok_iff] at h
    obtain ⟨b, hb, -⟩ := h
    exact ⟨⟨k, mem_of_getBulletin hb, hint⟩, fun _ hw => by cases hw⟩
  | some w =>
    rw [hvalue] at h
    dsimp only at h
    rw [bind_eq_ok_iff] at h
    obtain ⟨j, hint', h⟩ := h
    rw [bind_eq_ok_iff] at h
    obtain ⟨b, hb, h⟩ := h
    rw [bind_eq_ok_iff] at h
    obtain ⟨c, hc, -⟩ := h
    refine ⟨⟨k, mem_of_getBulletin hb, hint⟩, ?_⟩
    intro w' hw'
    obtain rfl := Option.some.inj hw'
    exact ⟨j, mem_of_getComment hc, hint'⟩

/-- Where all that they refer to is there, those of bulletins are shown. -/
theorem showNotifications_of_resolves (h : ∀ n ∈ ns, Resolves db.ledger (getNDVal db n.pk)) :
    ∃ shown, showNotifications db ns = .ok shown ∧
      shown.map Shown.notification = (ns.map Notification.pk).filter (OfBulletin db) := by
  induction ns with
  | nil => exact ⟨[], rfl, rfl⟩
  | cons n ns ih =>
    obtain ⟨first, hfirst, hkeys⟩ := showNotification_of_resolves (h n List.mem_cons_self)
    obtain ⟨rest, hrest, hrestKeys⟩ := ih fun m hm => h m (List.mem_cons_of_mem n hm)
    refine ⟨first.toList ++ rest, ?_, ?_⟩
    · unfold showNotifications
      rw [bind_eq_ok_iff]
      refine ⟨first, hfirst, ?_⟩
      rw [bind_eq_ok_iff]
      exact ⟨rest, hrest, rfl⟩
    · rw [List.map_append, hkeys, hrestKeys, List.map_cons, List.filter_cons]
      split
      · rfl
      · rfl

/-- One of which something is missing is enough that none is shown. -/
theorem resolves_of_showNotifications {shown : List Shown}
    (h : showNotifications db ns = .ok shown) :
    ∀ n ∈ ns, Resolves db.ledger (getNDVal db n.pk) := by
  induction ns generalizing shown with
  | nil =>
    intro n hn
    cases hn
  | cons m ms ih =>
    unfold showNotifications at h
    rw [bind_eq_ok_iff] at h
    obtain ⟨first, hfirst, h⟩ := h
    rw [bind_eq_ok_iff] at h
    obtain ⟨rest, hrest, -⟩ := h
    intro n hn
    rcases List.mem_cons.mp hn with rfl | hn
    · exact resolves_of_showNotification hfirst
    · exact ih hrest n hn

end Shown

section Get

/-- The user is one, with a profile in a chapter that is there. -/
def Enrolled (db : Db) (user : Nat) : Prop :=
  ∃ u p c, db.users.find? user = some u ∧ db.profiles.find? u.pk = some p ∧
    db.chapters.find? p.chapter.pk = some c

theorem People.Staffed.enrolled (h : db.ledger.people.Staffed) (hu : u ∈ db.users.rows) :
    Enrolled db u.pk := by
  obtain ⟨p, hp, c, hc⟩ := h u hu
  exact ⟨u, p, c, Table.find?_eq_some_iff.mpr ⟨hu, rfl⟩, hp, hc⟩

/-- It is such a user who gets his notifications, and what he gets is shown of what he has not
read. -/
theorem get_eq_ok_iff {user : Nat} {shown : List Shown} :
    (∃ slug, get db (some user) = .ok (shown, slug)) ↔
      Enrolled db user ∧ showNotifications db (unread db user) = .ok shown := by
  unfold get
  constructor
  · intro hget
    obtain ⟨slug, hget⟩ := hget
    rw [bind_eq_ok_iff] at hget
    obtain ⟨u, hu, hget⟩ := hget
    rw [bind_eq_ok_iff] at hget
    obtain ⟨profile, hprofile, hget⟩ := hget
    rw [bind_eq_ok_iff] at hget
    obtain ⟨shown', hshown, hget⟩ := hget
    rw [session_eq_ok_iff, Option.bind_some] at hu
    obtain ⟨p, hp, rfl⟩ := getProfile_eq_ok_iff.mp hprofile
    obtain rfl : u.pk = user := (Table.find?_eq_some_iff.mp hu).2
    split at hget
    · cases hget
    · rename_i c hc
      cases hget
      exact ⟨⟨u, p, c, hu, hp, hc⟩, hshown⟩
  · intro h
    obtain ⟨⟨u, p, c, hu, hp, hc⟩, hshown⟩ := h
    obtain rfl : u.pk = user := (Table.find?_eq_some_iff.mp hu).2
    refine ⟨c.slug, ?_⟩
    rw [bind_eq_ok_iff]
    refine ⟨u, session_eq_ok_iff.mpr hu, ?_⟩
    rw [bind_eq_ok_iff]
    refine ⟨{ p with user := u.toUser }, getProfile_eq_ok_iff.mpr ⟨p, hp, rfl⟩, ?_⟩
    rw [bind_eq_ok_iff]
    refine ⟨shown, hshown, ?_⟩
    dsimp only
    rw [hc]
    rfl

theorem mem_unread {user : Nat} {m : Notification} : m ∈ unread db user ↔
    m ∈ db.notifications.rows ∧ m.status = .unread ∧ (m.pk, user) ∈ db.recipients := by
  simp only [unread, List.mem_filter, Bool.and_eq_true, decide_eq_true_eq, List.any_eq_true]
  constructor
  · intro h
    obtain ⟨hm, hunread, r, hr, hpk, huser⟩ := h
    rw [← hpk, ← huser]
    exact ⟨hm, hunread, hr⟩
  · intro h
    obtain ⟨hm, hunread, hr⟩ := h
    exact ⟨hm, hunread, (m.pk, user), hr, rfl, rfl⟩

/-- Where the notifications are readable, everyone gets his. -/
theorem Readable.listed (h : Readable db) (hstaffed : db.ledger.people.Staffed)
    (hu : u ∈ db.users.rows) : Listed db u := by
  have hresolves : ∀ n ∈ unread db u.pk, Resolves db.ledger (getNDVal db n.pk) := by
    intro n hn
    obtain ⟨hmem, hunread, haddressed⟩ := mem_unread.mp hn
    exact h.live n ⟨hmem, hunread, u.pk, haddressed⟩
  obtain ⟨shown, hshown, hkeys⟩ := showNotifications_of_resolves hresolves
  obtain ⟨slug, hget⟩ := get_eq_ok_iff.mpr ⟨hstaffed.enrolled hu, hshown⟩
  refine ⟨shown, slug, hget, ?_⟩
  intro n hn hstanding
  obtain ⟨⟨k, ⟨v, hv, -⟩, -⟩, -⟩ := hstanding
  have hmem : n.pk ∈ shown.map Shown.notification := by
    rw [hkeys]
    refine List.mem_filter.mpr ⟨List.mem_map_of_mem hn, ?_⟩
    unfold OfBulletin
    rw [hv]
    rfl
  obtain ⟨s, hs, hkey⟩ := List.mem_map.mp hmem
  exact ⟨s, hs, hkey⟩

end Get

namespace World

variable {provider : Provider} {w : World}

/-- The people are these, and what the notifications refer to is there. -/
structure Legible (people : People) (w : World) : Prop where
  people : w.db.ledger.people = people
  readable : Readable w.db

/-- What a handler leaves that makes something or nothing. -/
theorem legible_of_outcome {people : People} {l : Ledger} {made : Option Item} {may : Prop}
    {db : Db} (hpeople : l.people = people) (h : Outcome l True made may db) :
    db.ledger.people = people ∧ Readable db := by
  cases made with
  | none =>
    obtain ⟨l', hlost, hledger, hreadable⟩ := h
    refine ⟨?_, hreadable trivial⟩
    rw [hledger, hlost.people, hpeople]
  | some item =>
    obtain ⟨s, -, hledger, hreadable⟩ := h
    refine ⟨?_, hreadable trivial⟩
    rw [hledger]
    cases item with
    | bulletin k => exact hpeople
    | comment k => exact hpeople

theorem Legible.step {people : People} (h : Legible people w) {act : Act}
    (hspares : act.Spares w.db) : Legible people (World.step provider w act) := by
  have hat : At w.db.ledger True w.db := ⟨rfl, fun _ => h.readable⟩
  cases act with
  | write letter => exact ⟨h.people, h.readable⟩
  | submit s faults =>
    have houtcome : Outcome w.db.ledger True (s.makes w.db) True
        (exec s.handle ⟨w.db, faults⟩).2.db :=
      db_of_ensures (s.handle_outcome hat fun _ => hspares) fun _ _ => trivial
    obtain ⟨hpeople, hreadable⟩ := legible_of_outcome h.people houtcome
    exact ⟨hpeople, hreadable⟩
  | deliver n chapter official faults =>
    cases hincoming : w.incoming n chapter official with
    | none =>
      rw [World.step_deliver_none hincoming]
      exact h
    | some d =>
      have houtcome : Outcome w.db.ledger True (d.makes w.db official) False
          (exec (receiveMail official d) ⟨w.db, faults⟩).2.db :=
        db_of_ensures (receiveMail_outcome hat) fun _ _ => trivial
      rw [← World.db_step_deliver hincoming] at houtcome
      obtain ⟨hpeople, hreadable⟩ := legible_of_outcome h.people houtcome
      exact ⟨hpeople, hreadable⟩

/-- As long as nothing is taken away that somebody is still to read about, everyone gets his
notifications, and among them all of which everything still exists. -/
theorem histories_listed (provider : Provider) (db : Db) (letters : List Letter)
    (acts : List Act) (hstaffed : db.ledger.people.Staffed) (hreadable : Readable db)
    (hspares : Run.Throughout (fun w act => some (step provider w act))
      (fun w act => act.Spares w.db) (start db letters) acts) :
    ∀ w ∈ histories provider (start db letters) acts, ∀ u ∈ w.db.users.rows, Listed w.db u := by
  have hstart : Legible db.ledger.people (start db letters) :=
    ⟨rfl, hreadable.congr rfl rfl rfl (List.Subset.refl _) (List.Subset.refl _)⟩
  have hlegible := Run.states_invariant (I := Legible db.ledger.people)
    (fun w act w' h hspares hstep => by
      obtain rfl := Option.some.inj hstep
      exact h.step hspares) hstart hspares
  intro w hw u hu
  have hw := hlegible w hw
  have hstaffed : w.db.ledger.people.Staffed := by
    rw [hw.people]
    exact hstaffed
  exact hw.readable.listed hstaffed hu

end World

section Examples

def talk : Act := .submit (.post .talk (some 1) (text "nyc") { content := text "hi all" })
  fun _ _ => false

def commentWith (content : Text) : Act :=
  .submit (.comment (some 1) (text "nyc") 1 { content := content }) fun _ _ => false

def uncomment (pk : Nat) : Act :=
  .submit (.deleteComment (some 1) (text "nyc") 1 pk) fun _ _ => false

theorem emptyBoard_staffed : emptyBoard.ledger.people.Staffed := by
  intro u hu
  have hrows : emptyBoard.ledger.people.users.rows = [annAccount, bobAccount] := by decide
  rw [hrows] at hu
  rcases List.mem_cons.mp hu with rfl | hu
  · exact ⟨Petri.member 1 (text "ann") true, by decide, Petri.nyc, by decide⟩
  · rw [List.mem_singleton.mp hu]
    exact ⟨Petri.member 2 (text "bob") false, by decide, Petri.nyc, by decide⟩

theorem emptyBoard_readable : Readable emptyBoard where
  fresh := fun _ he => by cases he
  live := fun _ hn => by cases hn.1

/-- The leader deletes a comment before the member whom it mentions has read about it. -/
def retracted : World :=
  [talk, commentWith (text "@bob look"), uncomment 1].foldl (World.step plainProvider)
    (.start emptyBoard [])

/-- The member gets no notifications any more. -/
theorem histories_not_listed :
    ¬∀ (provider : Provider) (db : Db) (letters : List Letter) (acts : List Act),
      db.ledger.people.Staffed → Readable db →
        ∀ w ∈ World.histories provider (.start db letters) acts,
          ∀ u ∈ w.db.users.rows, Listed w.db u := by
  intro h
  have hbob : bobAccount ∈ retracted.db.users.rows := by decide +kernel
  obtain ⟨shown, slug, hget, -⟩ := h plainProvider emptyBoard [] _ emptyBoard_staffed
    emptyBoard_readable retracted (Run.foldl_mem_states _ _ _) bobAccount hbob
  have hraises : get retracted.db (some bobAccount.pk) = .error (.raised .indexError) := by
    decide +kernel
  rw [hraises] at hget
  cases hget

/-- Two comments, and only the one is deleted that mentions nobody. -/
def revisedActs : List Act :=
  [talk, commentWith (text "look"), uncomment 1, commentWith (text "@bob look")]

def revised : World := revisedActs.foldl (World.step plainProvider) (.start emptyBoard [])

theorem revised_spares : Run.Throughout (fun w act => some (World.step plainProvider w act))
    (fun w act => act.Spares w.db) (.start emptyBoard []) revisedActs := by
  refine ⟨fun _ _ _ _ => rfl, fun w hw => ⟨fun _ _ _ _ => rfl, fun w' hw' => ⟨?_, ?_⟩⟩⟩
  · intro n hn
    obtain rfl := Option.some.inj hw
    obtain rfl := Option.some.inj hw'
    have hnone : (World.step plainProvider (World.step plainProvider (.start emptyBoard []) talk)
        (commentWith (text "look"))).db.notifications.rows = [] := by decide +kernel
    have hmem := hn.1
    rw [hnone] at hmem
    cases hmem
  · exact fun _ _ => ⟨fun _ _ _ _ => rfl, fun _ _ => trivial⟩

/-- The member reads of the other one. -/
theorem histories_listed_revised :
    (unread revised.db bobAccount.pk).length = 1 ∧
      ∀ u ∈ revised.db.users.rows, Listed revised.db u :=
  ⟨by decide +kernel, World.histories_listed plainProvider emptyBoard [] revisedActs
    emptyBoard_staffed emptyBoard_readable revised_spares revised (Run.foldl_mem_states _ _ _)⟩

end Examples

end HackerUnion.Board
