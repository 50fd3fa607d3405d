import HackerUnion.Board.Views

namespace HackerUnion.Board

open Bash (Text text)
open Durable
open Durable.Handler
open Petri (decimal getMentions)

/-- Who there is and of what chapters. -/
structure People where
  users : Table Account Account.key
  chapters : Table Petri.Chapter Petri.Chapter.pk
  profiles : Table Petri.UserProfile Petri.UserProfile.pk

/-- What there is, what keys come next, what was mailed to lists, and who there is. -/
structure Ledger where
  bulletins : List Nat
  nextBulletin : Nat
  comments : List Nat
  nextComment : Nat
  sent : List (Item × Message)
  people : People

def Db.ledger (db : Db) : Ledger where
  bulletins := db.bulletins.rows.map Bulletin.pk
  nextBulletin := db.bulletins.next
  comments := db.comments.rows.map Comment.pk
  nextComment := db.comments.next
  sent := db.sent
  people := ⟨db.users, db.chapters, db.profiles⟩

/-- A bulletin that is entered is there, and so is a comment. -/
def Resolves (l : Ledger) (look : Text → Option Text) : Prop :=
  ∀ v, look (text "bulletin") = some v → (∃ k ∈ l.bulletins, int v = .ok k) ∧
    ∀ w, look (text "comment") = some w → ∃ k ∈ l.comments, int w = .ok k

/-- The notification is one that somebody is still to read. -/
def Pending (db : Db) (n : Notification) : Prop :=
  n ∈ db.notifications.rows ∧ n.status = .unread ∧ ∃ u, (n.pk, u) ∈ db.recipients

/-- What the notifications refer to that somebody is still to read is there. -/
structure Readable (db : Db) : Prop where
  fresh : ∀ e ∈ db.entries, e.notification < db.notifications.next
  live : ∀ n, Pending db n → Resolves db.ledger (getNDVal db n.pk)

/-- The ledger is this one, and if so supposed the notifications are readable. -/
def At (l : Ledger) (P : Prop) (db : Db) : Prop := db.ledger = l ∧ (P → Readable db)

/-- All calls of services may fail. -/
abbrev anyhow : Service → Bool → Prop := fun _ _ => True

/-- Nothing comes or goes, and nothing is mailed to a list. -/
def Quiet {α : Type} (l : Ledger) (P : Prop) (c : M α) : Prop := Keeps anyhow (At l P) c

variable {db : Db} {l : Ledger} {P : Prop} {b : Bulletin} {c : Comment} {k : Nat}

section Decimal

theorem int_decimal (n : Nat) : int (decimal n) = .ok n := by
  have hne : decimal n ≠ [] := Nat.toDigits_ne_nil
  have hall : (decimal n).all Char.isDigit = true := by
    rw [List.all_eq_true]
    intro c hc
    exact Nat.isDigit_of_mem_toDigits (by decide) (by decide) hc
  have hvalue : Nat.ofDigitChars 10 (decimal n) 0 = n := Nat.ofDigitChars_ten_toDigits
  simp only [int, hne, hall, hvalue, ne_eq, not_false_eq_true, decide_true, Bool.and_self, if_true]

end Decimal

section Informed

/-- A notification with these entries, to these users. -/
def Db.informed (type : Text) (users : List Nat) (es : List (Text × Text)) (db : Db) : Db :=
  let n := db.notifications.next
  { db with
    notifications := db.notifications.save ⟨n, type, .unread⟩
    recipients := users.foldl (fun rs u => added (n, u) rs) db.recipients
    entries := db.entries ++ es.map fun e => ⟨n, e.1, e.2⟩ }

/-- What a list of entries has under a key. -/
def look (es : List (Text × Text)) (key : Text) : Option Text :=
  (es.find? fun e => e.1 = key).map Prod.snd

theorem Resolves.mono {l l' : Ledger} {f : Text → Option Text} (h : Resolves l f)
    (hb : l.bulletins ⊆ l'.bulletins) (hc : l.comments ⊆ l'.comments) : Resolves l' f := by
  intro v hv
  obtain ⟨hbulletin, hcomment⟩ := h v hv
  obtain ⟨k, hk, hint⟩ := hbulletin
  refine ⟨⟨k, hb hk, hint⟩, ?_⟩
  intro w hw
  obtain ⟨j, hj, hint⟩ := hcomment w hw
  exact ⟨j, hc hj, hint⟩

@[simp] theorem informed_ledger (type : Text) (users : List Nat) (es : List (Text × Text)) :
    (db.informed type users es).ledger = db.ledger := rfl

theorem mem_added {α : Type} [DecidableEq α] {x y : α} {xs : List α} :
    y ∈ added x xs ↔ y = x ∨ y ∈ xs := by
  unfold added
  split
  · rename_i h
    constructor
    · exact Or.inr
    · intro hy
      rcases hy with rfl | hy
      · exact h
      · exact hy
  · simp [or_comm]

theorem mem_foldl_added {α : Type} [DecidableEq α] {n : α} {users : List Nat}
    {rs : List (α × Nat)} {r : α × Nat} :
    r ∈ users.foldl (fun rs u => added (n, u) rs) rs ↔ r ∈ rs ∨ ∃ u ∈ users, r = (n, u) := by
  induction users generalizing rs with
  | nil => simp
  | cons u us ih =>
    rw [List.foldl_cons, ih, mem_added]
    simp only [List.mem_cons]
    constructor
    · intro h
      rcases h with (h | h) | ⟨v, hv, h⟩
      · exact Or.inr ⟨u, Or.inl rfl, h⟩
      · exact Or.inl h
      · exact Or.inr ⟨v, Or.inr hv, h⟩
    · intro h
      rcases h with h | ⟨v, rfl | hv, h⟩
      · exact Or.inl (Or.inr h)
      · exact Or.inl (Or.inl h)
      · exact Or.inr ⟨v, hv, h⟩

/-- The entries of the new notification are its own. -/
theorem getNDVal_informed_next {type : Text} {users : List Nat} {es : List (Text × Text)}
    (hfresh : ∀ e ∈ db.entries, e.notification < db.notifications.next) (key : Text) :
    getNDVal (db.informed type users es) db.notifications.next key = look es key := by
  have hold : (db.entries.find? fun e =>
      e.notification = db.notifications.next && e.key = key) = none := by
    rw [List.find?_eq_none]
    intro e he
    have := hfresh e he
    simp only [Bool.and_eq_true, decide_eq_true_eq, not_and]
    omega
  simp only [getNDVal, Db.informed, look, List.find?_append, hold, Option.none_or, List.find?_map,
    Option.map_map]
  congr 1
  congr 1
  funext e
  simp

/-- Those of any other are as they were. -/
theorem getNDVal_informed {type : Text} {users : List Nat} {es : List (Text × Text)} {n : Nat}
    (hn : n ≠ db.notifications.next) (key : Text) :
    getNDVal (db.informed type users es) n key = getNDVal db n key := by
  have hnew : ((es.map fun e => (⟨db.notifications.next, e.1, e.2⟩ : Entry)).find? fun e =>
      e.notification = n && e.key = key) = none := by
    rw [List.find?_eq_none]
    intro e he
    obtain ⟨x, -, rfl⟩ := List.mem_map.mp he
    simp [hn.symm]
  simp only [getNDVal, Db.informed, List.find?_append, hnew, Option.or_none]

theorem informed_fresh {type : Text} {users : List Nat} {es : List (Text × Text)}
    (h : ∀ e ∈ db.entries, e.notification < db.notifications.next) :
    ∀ e ∈ (db.informed type users es).entries,
      e.notification < (db.informed type users es).notifications.next := by
  intro e he
  have hnext : (db.informed type users es).notifications.next = db.notifications.next + 1 :=
    Serial.next_save_next rfl
  rw [hnext]
  rcases List.mem_append.mp he with he | he
  · have := h e he
    omega
  · obtain ⟨x, -, rfl⟩ := List.mem_map.mp he
    exact Nat.lt_succ_self _

theorem Readable.informed {type : Text} {users : List Nat} {es : List (Text × Text)}
    (h : Readable db) (hes : Resolves db.ledger (look es)) :
    Readable (db.informed type users es) where
  fresh := informed_fresh h.fresh
  live := by
    intro n hn
    obtain ⟨hmem, hunread, u, hu⟩ := hn
    rcases Serial.mem_save.mp hmem with rfl | ⟨hmem, hne⟩
    · rw [funext (getNDVal_informed_next h.fresh)]
      exact hes
    · rw [funext (getNDVal_informed hne)]
      rcases mem_foldl_added.mp hu with hu | ⟨v, -, hv⟩
      · exact h.live n ⟨hmem, hunread, u, hu⟩
      · exact absurd (congrArg Prod.fst hv) hne

/-- Readability is about notifications and about what those still to read refer to. -/
theorem Readable.of_resolves {db' : Db} (h : Readable db)
    (hn : db'.notifications = db.notifications) (hr : db'.recipients = db.recipients)
    (he : db'.entries = db.entries)
    (hlive : ∀ n, Pending db n → Resolves db.ledger (getNDVal db n.pk) →
      Resolves db'.ledger (getNDVal db n.pk)) : Readable db' where
  fresh := by
    rw [he, hn]
    exact h.fresh
  live := by
    intro n hpending
    unfold Pending at hpending
    rw [hn, hr] at hpending
    have hsame : getNDVal db' n.pk = getNDVal db n.pk := by
      funext key
      simp only [getNDVal, he]
    rw [hsame]
    exact hlive n hpending (h.live n hpending)

theorem Readable.congr {db' : Db} (h : Readable db) (hn : db'.notifications = db.notifications)
    (hr : db'.recipients = db.recipients) (he : db'.entries = db.entries)
    (hb : db.ledger.bulletins ⊆ db'.ledger.bulletins)
    (hc : db.ledger.comments ⊆ db'.ledger.comments) : Readable db' :=
  h.of_resolves hn hr he fun _ _ hresolves => hresolves.mono hb hc

theorem At.same {db' : Db} (h : At l P db) (hl : db'.ledger = db.ledger)
    (hn : db'.notifications = db.notifications) (hr : db'.recipients = db.recipients)
    (he : db'.entries = db.entries) : At l P db' := by
  obtain ⟨hledger, hreadable⟩ := h
  refine ⟨hl.trans hledger, fun hp => (hreadable hp).congr hn hr he ?_ ?_⟩
  · rw [hl]
    exact List.Subset.refl _
  · rw [hl]
    exact List.Subset.refl _

end Informed

section Notify

theorem getUser_quiet (k : Nat) : Quiet l P (getUser k) := by
  apply keeps_bind keeps_read
  intro db
  split
  · exact keeps_pure _
  · exact keeps_throw

theorem ensures_getUser {may : Service → Bool → Prop} {Q : Account → Db → Prop} {R : Db → Prop}
    {u : Account} (hu : db.users.find? k = some u) (hq : Q u db) :
    Ensures may db (getUser k) Q R := by
  apply ensures_read
  rw [hu]
  exact ensures_pure hq

theorem getUserByName_quiet (name : Text) : Quiet l P (getUserByName name) := by
  apply keeps_bind keeps_read
  intro db
  split
  · exact keeps_pure _
  · exact keeps_pure _
  · exact keeps_throw

/-- One notification type has the name. -/
def Installed (type : Text) (db : Db) : Prop :=
  ∃ t, db.notificationTypes.filter (fun t => t.name = type) = [t]

/-- The notification goes out by mail. -/
def ByMail (type : Text) (n : Nat) (db : Db) : Prop :=
  ∃ t, db.notificationTypes.filter (fun t => t.name = type) = [t] ∧ t.generatesEmail = true ∧
    ∃ u, (n, u) ∈ db.recipients

/-- A notification with these entries to these users, of each of whom `f` notes that they were
told. -/
def Db.told (type : Text) (users : List Nat) (es : List (Text × Text))
    (f : Nat → List (Item × Nat) → List (Item × Nat)) (db : Db) : Db :=
  { db.informed type users es with
    usersNotified := users.foldl (fun told u => f u told) db.usersNotified }

/-- The users are told, and it may be noted that they were. -/
def Told (type : Text) (users : List Nat) (es : List (Text × Text)) (db db' : Db) : Prop :=
  ∃ told, db' = { db.informed type users es with usersNotified := told }

section Told

variable {may : Service → Bool → Prop} {R : Db → Prop} {type : Text} {users : List Nat}
  {es : List (Text × Text)} {f : Nat → List (Item × Nat) → List (Item × Nat)}
  {each : Nat → M Unit}

theorem ensures_getNotificationType {Q : Petri.NotificationType → Db → Prop}
    (hok : ∀ t, db.notificationTypes.filter (fun t => t.name = type) = [t] → Q t db)
    (hnone : ¬Installed type db → R db) : Ensures may db (getNotificationType type) Q R := by
  apply ensures_read
  split
  · rename_i hnil
    refine ensures_throw (hnone ?_)
    intro h
    obtain ⟨t, ht⟩ := h
    cases hnil.symm.trans ht
  · rename_i t ht
    exact ensures_pure (hok t ht)
  · rename_i hnot
    refine ensures_throw (hnone ?_)
    intro h
    obtain ⟨t, ht⟩ := h
    exact hnot t ht

/-- Mails are sent where the type is one of mail and somebody is to get them. -/
theorem ensures_dispatch {t : Petri.NotificationType} {n : Nat} {Q : Unit → Db → Prop}
    (hok : (t.generatesEmail = true → (∃ u, (n, u) ∈ db.recipients) → may .mail false) → Q () db)
    (hfail : t.generatesEmail = true → (∃ u, (n, u) ∈ db.recipients) → may .mail true → R db) :
    Ensures may db (dispatch t n) Q R := by
  apply ensures_read
  dsimp only
  split
  · rename_i hmails
    rw [Bool.and_eq_true, decide_eq_true_eq] at hmails
    obtain ⟨hemail, hne⟩ := hmails
    have hsome : ∃ u, (n, u) ∈ db.recipients := by
      obtain ⟨r, hr⟩ := List.exists_mem_of_ne_nil _ hne
      obtain ⟨hmem, hn⟩ := List.mem_filter.mp hr
      exact ⟨r.2, by simpa [← of_decide_eq_true hn] using hmem⟩
    split
    · let users := db.recipients.filter fun r => r.1 = n
      let I : List (Nat × Nat) → Db → Prop := fun rest db' =>
        db' = db ∧ (rest.length < users.length → may .mail false)
      have hround (r : Nat × Nat) (rest : List (Nat × Nat)) (db' : Db) (hi : I (r :: rest) db') :
          Ensures may db' (call .mail .outage : M Unit) (fun _ => I rest) R := by
        obtain ⟨rfl, -⟩ := hi
        exact ensures_call (fun hmay => ⟨rfl, fun _ => hmay⟩) (hfail hemail hsome)
      refine ensures_weaken (ensures_forM hround ⟨rfl, fun hlt => absurd hlt (lt_irrefl _)⟩) ?_
      intro _ db' hi
      obtain ⟨rfl, hmay⟩ := hi
      exact hok fun _ _ => hmay (List.length_pos_iff.mpr hne)
    · exact ensures_call (fun hmay => hok fun _ _ => hmay) (hfail hemail hsome)
  · rename_i hnot
    refine ensures_pure (hok ?_)
    intro hemail hsome
    obtain ⟨u, hu⟩ := hsome
    refine absurd ?_ hnot
    rw [Bool.and_eq_true, decide_eq_true_eq]
    exact ⟨hemail, List.ne_nil_of_mem (List.mem_filter.mpr ⟨hu, decide_eq_true rfl⟩)⟩

/-- The users are added to the notification, one after the other. -/
theorem users_told (users : List Nat)
    (heach : ∀ u db R, Ensures may db (each u)
      (fun _ db' => db' = { db with usersNotified := f u db.usersNotified }) R) :
    Ensures may (db.informed type [] [])
      (users.forM fun u => do
        write fun db' => { db' with recipients := added (db.notifications.next, u) db'.recipients }
        each u)
      (fun _ db' => db' = db.told type users [] f) R := by
  let I : List Nat → Db → Prop := fun rest db' =>
    ∃ done, users = done ++ rest ∧ db' = db.told type done [] f
  have hround (u : Nat) (rest : List Nat) (db' : Db) (hi : I (u :: rest) db') :
      Ensures may db' (do
        write fun db' => { db' with recipients := added (db.notifications.next, u) db'.recipients }
        each u) (fun _ => I rest) R := by
    obtain ⟨done, husers, rfl⟩ := hi
    apply ensures_bind
    apply ensures_write
    refine ensures_weaken (heach u _ _) ?_
    intro _ db₂ h₂
    subst h₂
    refine ⟨done ++ [u], by simp [husers], ?_⟩
    simp [Db.told, Db.informed]
  refine ensures_weaken (ensures_forM hround ⟨[], rfl, rfl⟩) ?_
  intro _ db' h
  obtain ⟨done, husers, h⟩ := h
  rw [List.append_nil] at husers
  exact husers ▸ h

/-- And then the entries. -/
theorem entries_told (es : List (Text × Text)) :
    Ensures may (db.told type users [] f)
      (es.forM fun e => write fun db' => { db' with
        entries := db'.entries ++ [⟨db.notifications.next, e.1, e.2⟩] } : M Unit)
      (fun _ db' => db' = db.told type users es f) R := by
  let I : List (Text × Text) → Db → Prop := fun rest db' =>
    ∃ done, es = done ++ rest ∧ db' = db.told type users done f
  have hround (e : Text × Text) (rest : List (Text × Text)) (db' : Db) (hi : I (e :: rest) db') :
      Ensures may db' (write fun db' => { db' with
        entries := db'.entries ++ [⟨db.notifications.next, e.1, e.2⟩] } : M Unit)
        (fun _ => I rest) R := by
    obtain ⟨done, hes, rfl⟩ := hi
    apply ensures_write
    refine ⟨done ++ [e], by simp [hes], ?_⟩
    simp [Db.told, Db.informed]
  refine ensures_weaken (ensures_forM hround ⟨[], rfl, rfl⟩) ?_
  intro _ db' h
  obtain ⟨done, hes, h⟩ := h
  rw [List.append_nil] at hes
  exact hes ▸ h

/-- Nothing is written where the type is not installed. The only call of a service comes when
everything is written. -/
theorem ensures_notify {Q : Unit → Db → Prop}
    (heach : ∀ u db R, Ensures may db (each u)
      (fun _ db' => db' = { db with usersNotified := f u db.usersNotified }) R)
    (hok : (ByMail type db.notifications.next (db.told type users es f) → may .mail false) →
      Q () (db.told type users es f))
    (hfail : ByMail type db.notifications.next (db.told type users es f) → may .mail true →
      R (db.told type users es f))
    (hnone : ¬Installed type db → R db) :
    Ensures may db (notify type users es each) Q R := by
  apply ensures_bind
  refine ensures_getNotificationType ?_ hnone
  intro t ht
  apply ensures_read
  apply ensures_bind
  apply ensures_write
  let n : Notification := ⟨db.notifications.next, type, .unread⟩
  have hstored : { db with notifications := db.notifications.save n } =
      db.informed type [] [] := by simp [Db.informed, n]
  rw [hstored]
  apply ensures_seq (users_told users heach)
  intro _ db₂ h₂
  subst h₂
  apply ensures_seq (entries_told es)
  intro _ db₃ h₃
  subst h₃
  apply ensures_dispatch
  · intro hmay
    refine hok ?_
    intro hmail
    obtain ⟨t', ht', hemail, hsome⟩ := hmail
    obtain rfl := List.singleton_inj.mp (ht.symm.trans ht')
    exact hmay hemail hsome
  · intro hemail hsome
    exact hfail ⟨t, ht, hemail, hsome⟩

end Told

theorem At.told {type : Text} {users : List Nat} {es : List (Text × Text)} {db' : Db}
    (h : At l P db) (hes : Resolves l (look es)) (ht : Told type users es db db') : At l P db' := by
  obtain ⟨told, rfl⟩ := ht
  have hinformed : At l P (db.informed type users es) := by
    obtain ⟨rfl, hreadable⟩ := h
    exact ⟨rfl, fun hp => (hreadable hp).informed hes⟩
  exact hinformed.same rfl rfl rfl rfl

theorem notify_quiet {type : Text} {users : List Nat} {es : List (Text × Text)}
    {f : Nat → List (Item × Nat) → List (Item × Nat)} {each : Nat → M Unit}
    (hes : Resolves l (look es))
    (heach : ∀ u db R, Ensures anyhow db (each u)
      (fun _ db' => db' = { db with usersNotified := f u db.usersNotified }) R) :
    Quiet l P (notify type users es each) := by
  intro db h
  have htold : At l P (db.told type users es f) := h.told hes ⟨_, rfl⟩
  exact ensures_notify heach (fun _ => htold) (fun _ _ => htold) fun _ => h

theorem createMentionNotifications_quiet {item : Item} {es : List (Text × Text)}
    (hes : Resolves l (look es)) : Quiet l P (createMentionNotifications item es) := by
  apply keeps_bind keeps_read
  intro db
  dsimp only
  split
  · exact keeps_pure _
  · exact notify_quiet hes fun u db R => ensures_write rfl

theorem mentioned_quiet {item : Item} {es : List (Text × Text)} (hes : Resolves l (look es))
    (names : List Text) : Quiet l P (mentioned item es names) := by
  apply keeps_bind
  · refine keeps_forM fun name => ?_
    apply keeps_bind (getUserByName_quiet name)
    intro u
    cases u with
    | none => exact keeps_pure _
    | some u => exact fun db h => ensures_write (h.same rfl rfl rfl rfl)
  · intro _
    exact createMentionNotifications_quiet hes

end Notify

section Entries

variable {key key' v : Text} {es : List (Text × Text)}

theorem look_cons_self : look ((key, v) :: es) key = some v := by
  simp [look]

theorem look_cons_of_ne (h : key' ≠ key) : look ((key', v) :: es) key = look es key := by
  simp [look, h]

/-- Whatever comes after its entries, they are about the bulletin, -/
theorem look_bulletin : look (b.entries ++ es) (text "bulletin") = some (decimal b.pk) := by
  have hchapter : text "chapter" ≠ text "bulletin" := by decide
  unfold Bulletin.entries
  rw [List.cons_append, look_cons_of_ne hchapter, List.cons_append, look_cons_self]

/-- and not about a comment. -/
theorem look_comment : look (b.entries ++ es) (text "comment") = look es (text "comment") := by
  have hchapter : text "chapter" ≠ text "comment" := by decide
  have hbulletin : text "bulletin" ≠ text "comment" := by decide
  unfold Bulletin.entries
  rw [List.cons_append, look_cons_of_ne hchapter, List.cons_append, look_cons_of_ne hbulletin,
    List.nil_append]

theorem resolves_bulletin (hb : b.pk ∈ l.bulletins)
    (hes : ∀ w, look es (text "comment") = some w → ∃ k ∈ l.comments, int w = .ok k) :
    Resolves l (look (b.entries ++ es)) := by
  intro v hv
  rw [look_bulletin] at hv
  obtain rfl := Option.some.inj hv
  refine ⟨⟨b.pk, hb, int_decimal b.pk⟩, ?_⟩
  intro w hw
  rw [look_comment] at hw
  exact hes w hw

theorem resolves_entries (hb : b.pk ∈ l.bulletins) : Resolves l (look b.entries) := by
  have hnone : Resolves l (look (b.entries ++ [])) := resolves_bulletin hb (by simp [look])
  rwa [List.append_nil] at hnone

theorem resolves_comment_entries (hb : b.pk ∈ l.bulletins) (hc : c.pk ∈ l.comments) :
    Resolves l (look (c.entries b)) := by
  apply resolves_bulletin hb
  intro w hw
  rw [look_cons_self] at hw
  obtain rfl := Option.some.inj hw
  exact ⟨c.pk, hc, int_decimal c.pk⟩

theorem resolves_leadership (hb : b.pk ∈ l.bulletins) {title content : Text} :
    Resolves l (look (b.entries ++ [(text "title", title), (text "content", content)])) := by
  have htitle : text "title" ≠ text "comment" := by decide
  have hcontent : text "content" ≠ text "comment" := by decide
  apply resolves_bulletin hb
  intro w hw
  rw [look_cons_of_ne htitle, look_cons_of_ne hcontent] at hw
  cases hw

end Entries

end HackerUnion.Board
