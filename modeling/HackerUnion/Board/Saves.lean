import HackerUnion.Board.Notices

namespace HackerUnion.Board

open Bash (Text text)
open Durable
open Durable.Handler
open Petri (decimal getMentions linkifyMentions)

/-- A save of a bulletin: the bulletin as it is then, and which calls fail. -/
structure Saving where
  bulletin : Bulletin
  faults : Nat → Service → Bool

namespace Saving

/-- The save that makes the bulletin. -/
def first (s : Saving) (db : Db) : Db := (exec s.bulletin.create ⟨db, s.faults⟩).2.db

/-- A later save of bulletin `k`. -/
def again (k : Nat) (db : Db) (s : Saving) : Db :=
  (exec { s.bulletin with pk := k }.update ⟨db, s.faults⟩).2.db

/-- Where the bulletin is mailed to its list it is saved again meanwhile, as the first save has made
it, and this second save comes to its end before the first one. -/
def contents (s : Saving) : List Text :=
  (if s.bulletin.canBroadcast then [s.bulletin.withContent.content] else []) ++
    [s.bulletin.content]

end Saving

/-- A bulletin is made and then saved again, time after time. -/
def saves (s : Saving) (later : List Saving) (db : Db) : Db :=
  later.foldl (Saving.again db.bulletins.next) (s.first db)

/-- The names that the saved contents mention. -/
def savedNames (s : Saving) (later : List Saving) : List Text :=
  (s.contents ++ later.map fun x => x.bulletin.content).flatMap getMentions

/-- The notifications that bulletin `k` mentions them, of a user. -/
def notices (db : Db) (k u : Nat) : List Notification :=
  db.notifications.rows.filter fun n =>
    n.notificationType = text "new_mention" &&
      (getNDVal db n.pk (text "bulletin") = some (decimal k)) &&
      (getNDVal db n.pk (text "comment")).isNone && db.recipients.any fun r => r = (n.pk, u)

/-- Whose own name is mentioned has one notice, and who is not mentioned so has none. -/
def OneNotice (k : Nat) (names : List Text) (db : Db) : Prop :=
  ∀ u, (Names db names u → (notices db k u).length = 1) ∧
    (¬Names db names u → (notices db k u).length = 0)

/-- Before the mentions of the first save are noted no call fails: the mail to the list, what the
save meanwhile sends, or the notice to leaders. -/
structure Saving.Undisturbed (s : Saving) : Prop where
  mailgun : s.bulletin.canBroadcast = true → ∀ n, s.faults n .mailgun = false
  mentions : s.bulletin.canBroadcast = true → getMentions s.bulletin.withContent.content ≠ [] →
    ∀ n, s.faults n .mail = false
  leadership : s.bulletin.actualType = .leadership → ∀ n, s.faults n .mail = false

/-- Between the saves: who was mentioned in the bulletin was told so, once. -/
structure Kept (db₀ : Db) (k : Nat) (names : List Text) (db : Db) : Prop where
  users : db.users = db₀.users
  types : db.notificationTypes = db₀.notificationTypes
  recipients : ∀ r ∈ db.recipients, r.1 < db.notifications.next
  entries : ∀ e ∈ db.entries, e.notification < db.notifications.next
  mentioned : ∀ u, (.bulletin k, u) ∈ db.usersMentioned ↔ Names db₀ names u
  notified : ∀ u, (.bulletin k, u) ∈ db.usersNotified ↔ Names db₀ names u
  noticed : ∀ u, (notices db k u).length = if (.bulletin k, u) ∈ db.usersNotified then 1 else 0

variable {may : Service → Bool → Prop} {db db₀ : Db} {R : Db → Prop} {b : Bulletin}
  {item : Item} {names names' : List Text} {es : List (Text × Text)} {k u : Nat}

section Names

theorem names_append :
    Names db (names ++ names') u ↔ Names db names u ∨ Names db names' u := by
  simp only [Names, List.mem_append, or_and_right, exists_or]

theorem named_congr (h : db.users = db₀.users) (name : Text) : db.named name = db₀.named name := by
  rw [Db.named, Db.named, h]

theorem names_congr (h : db.users = db₀.users) : Names db names u ↔ Names db₀ names u := by
  simp only [Names, named_congr h]

theorem ambiguous_congr (h : db.users = db₀.users) (name : Text) :
    Ambiguous db name ↔ Ambiguous db₀ name := by
  rw [Ambiguous, Ambiguous, named_congr h]

end Names

section Notices

variable {type : Text} {users : List Nat} {f : Nat → List (Item × Nat) → List (Item × Nat)}

/-- A notification that is stored adds a notice where it is one, to those whom it is to. -/
theorem notices_told (hrecipients : ∀ r ∈ db.recipients, r.1 < db.notifications.next)
    (hentries : ∀ e ∈ db.entries, e.notification < db.notifications.next) :
    (notices (db.told type users es f) k u).length = (notices db k u).length +
      if type = text "new_mention" ∧ look es (text "bulletin") = some (decimal k) ∧
        look es (text "comment") = none ∧ u ∈ users then 1 else 0 := by
  have hold (n : Nat) (hn : n ≠ db.notifications.next) (key : Text) :
      getNDVal (db.told type users es f) n key = getNDVal db n key :=
    @getNDVal_informed db type users es n hn key
  have hnew (key : Text) :
      getNDVal (db.told type users es f) db.notifications.next key = look es key :=
    @getNDVal_informed_next db type users es hentries key
  have hto (db : Db) (n : Nat) : (db.recipients.any fun r => r = (n, u)) = true ↔
      (n, u) ∈ db.recipients := by simp
  have holdTo (n : Nat) (hn : n ≠ db.notifications.next) :
      ((db.told type users es f).recipients.any fun r => r = (n, u)) =
        db.recipients.any fun r => r = (n, u) := by
    rw [Bool.eq_iff_iff, hto, hto, mem_told_recipients, or_iff_left]
    intro h
    obtain ⟨v, -, heq⟩ := h
    exact hn (Prod.mk.inj heq).1
  have hnewTo : ((db.told type users es f).recipients.any fun r =>
      r = (db.notifications.next, u)) = true ↔ u ∈ users := by
    rw [hto, mem_told_recipients, or_iff_right fun h => absurd (hrecipients _ h) (lt_irrefl _)]
    simp
  unfold notices
  rw [told_notifications, List.filter_append, List.length_append]
  congr 1
  · congr 1
    apply List.filter_congr
    intro n hn
    have hne : n.pk ≠ db.notifications.next := (db.notifications.lt_next n hn).ne
    simp only [hold _ hne, holdTo _ hne]
  · simp only [List.filter_singleton, hnew, hnewTo, cond_eq_ite, Bool.and_eq_true,
      decide_eq_true_eq, Option.isNone_iff_eq_none, and_assoc]
    split <;> rfl

/-- No notification is about a bulletin that is still to come. -/
theorem notices_eq_nil (h : ∀ e ∈ db.entries, e.key = text "bulletin" → e.value ≠ decimal k) :
    notices db k u = [] := by
  unfold notices
  rw [List.filter_eq_nil_iff]
  intro n _ hn
  simp only [Bool.and_eq_true, decide_eq_true_eq] at hn
  obtain ⟨⟨⟨-, hbulletin⟩, -⟩, -⟩ := hn
  obtain ⟨e, he, hvalue⟩ := Option.map_eq_some_iff.mp hbulletin
  have hkey := List.find?_some he
  rw [Bool.and_eq_true, decide_eq_true_eq, decide_eq_true_eq] at hkey
  exact h e (List.mem_of_find?_eq_some he) hkey.2 hvalue

end Notices

namespace Kept

theorem oneNotice (h : Kept db₀ k names db) : OneNotice k names db := by
  intro u
  have hnotified := (h.notified u).trans (names_congr h.users).symm
  rw [h.noticed]
  constructor
  · exact fun hnames => if_pos (hnotified.mpr hnames)
  · exact fun hnot => if_neg fun hmem => hnot (hnotified.mp hmem)

/-- Of what does not refer to notifications and mentions anything may be written. -/
theorem congr {db' : Db} (h : Kept db₀ k names db) (hu : db'.users = db.users)
    (ht : db'.notificationTypes = db.notificationTypes)
    (hn : db'.notifications = db.notifications) (hr : db'.recipients = db.recipients)
    (he : db'.entries = db.entries) (hm : db'.usersMentioned = db.usersMentioned)
    (ho : db'.usersNotified = db.usersNotified) : Kept db₀ k names db' where
  users := hu.trans h.users
  types := ht.trans h.types
  recipients := by
    rw [hr, hn]
    exact h.recipients
  entries := by
    rw [he, hn]
    exact h.entries
  mentioned := by
    rw [hm]
    exact h.mentioned
  notified := by
    rw [ho]
    exact h.notified
  noticed := by
    intro u
    have hval : getNDVal db' = getNDVal db := by
      funext n key
      rw [getNDVal, getNDVal, he]
    have hsame : notices db' k u = notices db k u := by
      unfold notices
      rw [hn]
      apply List.filter_congr
      intro n _
      rw [hval, hr]
    rw [hsame, h.noticed]
    simp only [ho]

theorem start (hsound : db.Sound) : Kept db db.bulletins.next [] (b.stored db) where
  users := rfl
  types := rfl
  recipients := hsound.recipients
  entries := hsound.entries
  mentioned := by
    intro u
    exact iff_of_false (hsound.mentioned u) (by simp [Names])
  notified := by
    intro u
    exact iff_of_false (hsound.notified u) (by simp [Names])
  noticed := by
    intro u
    have hentered : ∀ e ∈ (b.stored db).entries, e.key = text "bulletin" →
        e.value ≠ decimal db.bulletins.next := hsound.entered
    have hnone : (.bulletin db.bulletins.next, u) ∉ (b.stored db).usersNotified := hsound.notified u
    rw [notices_eq_nil hentered, if_neg hnone]
    rfl

/-- A notice to the leaders is none that they are mentioned. -/
theorem withLeaders (h : Kept db₀ k names db) : Kept db₀ k names (b.withLeaders db) where
  users := h.users
  types := h.types
  recipients := told_fresh h.recipients
  entries := told_entries h.entries
  mentioned := h.mentioned
  notified := by
    rw [Bulletin.withLeaders_usersNotified]
    exact h.notified
  noticed := by
    intro u
    have hne : text "new_leadership" ≠ text "new_mention" := by decide
    have hsame : (notices (b.withLeaders db) k u).length = (notices db k u).length := by
      unfold Bulletin.withLeaders
      rw [notices_told h.recipients h.entries, if_neg fun hnotice => hne hnotice.1, Nat.add_zero]
    rw [hsame, h.noticed]
    simp only [Bulletin.withLeaders_usersNotified]

section CaughtUp

/-- Who is mentioned now and was not before has not been told before. -/
theorem mem_untold_noted (h : Kept db₀ k names db) :
    u ∈ untold (.bulletin k) (db.noted (.bulletin k) names') ↔
      Names db₀ names' u ∧ ¬Names db₀ names u := by
  have hnotified : (.bulletin k, u) ∈ (db.noted (.bulletin k) names').usersNotified ↔
      Names db₀ names u := h.notified u
  rw [mem_untold, mem_noted, h.mentioned, hnotified, and_iff_right rfl, names_congr h.users]
  constructor
  · intro hnew
    obtain ⟨hold | hnow, hnot⟩ := hnew
    · exact absurd hold hnot
    · exact ⟨hnow, hnot⟩
  · intro hnew
    exact ⟨.inr hnew.1, hnew.2⟩

theorem mem_noted_mentioned (h : Kept db₀ k names db) :
    (.bulletin k, u) ∈ (db.noted (.bulletin k) names').usersMentioned ↔
      Names db₀ (names ++ names') u := by
  rw [mem_noted, h.mentioned, and_iff_right rfl, names_congr h.users, names_append]

/-- Where everybody has been told, all names were mentioned before. -/
theorem noted_of_untold_nil (h : Kept db₀ k names db)
    (hnil : untold (.bulletin k) (db.noted (.bulletin k) names') = []) :
    Kept db₀ k (names ++ names') (db.noted (.bulletin k) names') := by
  refine ⟨h.users, h.types, h.recipients, h.entries, fun _ => h.mem_noted_mentioned, ?_,
    h.noticed⟩
  intro u
  have hbefore : Names db₀ names' u → Names db₀ names u := by
    intro hnow
    by_contra hnot
    have hmem := h.mem_untold_noted.mpr ⟨hnow, hnot⟩
    rw [hnil] at hmem
    cases hmem
  rw [names_append, or_iff_left_of_imp hbefore]
  exact h.notified u

/-- The others are told now, and their first notice is the one they get. -/
theorem told_untold (h : Kept db₀ b.pk names db) :
    Kept db₀ b.pk (names ++ names')
      ((db.noted (.bulletin b.pk) names').told (text "new_mention")
        (untold (.bulletin b.pk) (db.noted (.bulletin b.pk) names')) b.entries
        fun u told => added (.bulletin b.pk, u) told) := by
  let noted := db.noted (.bulletin b.pk) names'
  have hmem (u : Nat) : u ∈ untold (.bulletin b.pk) noted ↔
      Names db₀ names' u ∧ ¬Names db₀ names u := h.mem_untold_noted
  have hbefore (u : Nat) : (.bulletin b.pk, u) ∈ noted.usersNotified ↔ Names db₀ names u :=
    h.notified u
  have hnow (u : Nat) : (.bulletin b.pk, u) ∈ (noted.told (text "new_mention")
      (untold (.bulletin b.pk) noted) b.entries
      fun u told => added (.bulletin b.pk, u) told).usersNotified ↔
        Names db₀ names u ∨ u ∈ untold (.bulletin b.pk) noted := by
    rw [mem_told_notified, hbefore]
    simp
  have hlook : look b.entries (text "bulletin") = some (decimal b.pk) ∧
      look b.entries (text "comment") = none := by
    have hbulletin := @look_bulletin b []
    have hcomment := @look_comment b []
    rw [List.append_nil] at hbulletin hcomment
    exact ⟨hbulletin, hcomment⟩
  have hrecipients : ∀ r ∈ noted.recipients, r.1 < noted.notifications.next := h.recipients
  have hentries : ∀ e ∈ noted.entries, e.notification < noted.notifications.next := h.entries
  refine ⟨h.users, h.types, told_fresh hrecipients, told_entries hentries,
    fun _ => h.mem_noted_mentioned, ?_, ?_⟩
  · intro u
    rw [hnow, hmem, names_append]
    tauto
  · intro u
    have hcount : (notices noted b.pk u).length =
        if (.bulletin b.pk, u) ∈ noted.usersNotified then 1 else 0 := h.noticed u
    rw [notices_told hrecipients hentries, hcount]
    by_cases hnames : Names db₀ names u
    · rw [if_pos ((hbefore u).mpr hnames), if_pos ((hnow u).mpr (.inl hnames)),
        if_neg fun htold => ((hmem u).mp htold.2.2.2).2 hnames]
    · rw [if_neg fun hmem => hnames ((hbefore u).mp hmem), Nat.zero_add]
      by_cases hu : u ∈ untold (.bulletin b.pk) noted
      · rw [if_pos ⟨rfl, hlook.1, hlook.2, hu⟩, if_pos ((hnow u).mpr (.inr hu))]
      · rw [if_neg fun htold => hu htold.2.2.2,
          if_neg fun hmem => ((hnow u).mp hmem).elim hnames hu]

theorem caughtUp (h : Kept db₀ b.pk names db) :
    Kept db₀ b.pk (names ++ names')
      ((db.noted (.bulletin b.pk) names').caughtUp (.bulletin b.pk) b.entries) := by
  unfold Db.caughtUp
  split
  · rename_i hnil
    exact h.noted_of_untold_nil hnil
  · exact h.told_untold

end CaughtUp

end Kept

section Saving

variable (hsound : db₀.Sound)

include hsound

/-- The end of saving a bulletin. Where it raises, everybody has been told. -/
theorem mentioned_kept (h : Kept db₀ b.pk names db)
    (hunique : ∀ name ∈ names', ¬Ambiguous db₀ name)
    (hfail : may .mail true → names' ≠ [] →
      ∀ db', Kept db₀ b.pk (names ++ names') db' → R db') :
    Ensures may db (mentioned (.bulletin b.pk) b.entries names')
      (fun _ => Kept db₀ b.pk (names ++ names')) R := by
  have hnew : Installed (text "new_mention") db := by
    unfold Installed
    rw [h.types]
    exact hsound.newMention
  apply ensures_mentioned hnew
  · exact fun _ => h.caughtUp
  · intro _ hmay huntold
    refine hfail hmay ?_ _ h.caughtUp
    intro hnil
    subst hnil
    refine huntold (List.eq_nil_iff_forall_not_mem.mpr fun u hu => ?_)
    obtain ⟨⟨name, hname, -⟩, -⟩ := h.mem_untold_noted.mp hu
    cases hname
  · intro hseveral
    obtain ⟨name, hname, hname'⟩ := hseveral
    exact absurd ((ambiguous_congr h.users name).mp hname') (hunique name hname)

theorem update_kept (h : Kept db₀ b.pk names db)
    (hunique : ∀ name ∈ getMentions b.content, ¬Ambiguous db₀ name)
    (hfail : may .mail true → getMentions b.content ≠ [] →
      ∀ db', Kept db₀ b.pk (names ++ getMentions b.content) db' → R db') :
    Ensures may db b.update (fun _ => Kept db₀ b.pk (names ++ getMentions b.content)) R := by
  apply ensures_bind
  apply ensures_write
  exact mentioned_kept hsound (h.congr rfl rfl rfl rfl rfl rfl rfl) hunique hfail

/-- A bulletin that is mailed to its list is saved meanwhile. -/
theorem broadcast_kept (h : Kept db₀ b.pk [] db)
    (howner : (db₀.users.find? b.owner).isSome = true)
    (hmailgun : b.canBroadcast = true → ¬may .mailgun true)
    (hmail : b.canBroadcast = true → getMentions b.content ≠ [] → ¬may .mail true)
    (hunique : b.canBroadcast = true → ∀ name ∈ getMentions b.content, ¬Ambiguous db₀ name) :
    Ensures may db b.broadcast
      (fun _ => Kept db₀ b.pk (if b.canBroadcast then getMentions b.content else [])) R := by
  unfold Bulletin.broadcast
  split
  · rename_i hcannot
    have hcannot : b.canBroadcast = false := by simpa using hcannot
    rw [hcannot]
    exact ensures_pure h
  · rename_i hcan
    have hcan : b.canBroadcast = true := by simpa using hcan
    obtain ⟨owner, howner⟩ := Option.isSome_iff_exists.mp howner
    have hsaved (id : Text) {db' : Db} (h' : Kept db₀ b.pk [] db') :
        Ensures may db' (Bulletin.update { b with threadId := some id })
          (fun _ => Kept db₀ b.pk (getMentions b.content)) R :=
      update_kept (b := { b with threadId := some id }) hsound h' (hunique hcan)
        fun hmay hne => absurd hmay (hmail hcan hne)
    have hfound : db.users.find? b.owner = some owner := by rw [h.users, howner]
    simp only [hcan, if_true]
    apply ensures_bind
    apply ensures_getUser hfound
    apply ensures_bind
    apply ensures_sendEmail
    · exact fun _ _ _ => hsaved _ (h.congr rfl rfl rfl rfl rfl rfl rfl)
    · exact fun hmay => absurd hmay (hmailgun hcan)

/-- The first save. -/
theorem create_kept (howner : (db₀.users.find? b.owner).isSome = true)
    (hmailgun : b.canBroadcast = true → ¬may .mailgun true)
    (hmail : b.canBroadcast = true → getMentions b.withContent.content ≠ [] → ¬may .mail true)
    (hleadership : b.actualType = .leadership → ¬may .mail true)
    (hnested : b.canBroadcast = true →
      ∀ name ∈ getMentions b.withContent.content, ¬Ambiguous db₀ name)
    (hunique : ∀ name ∈ getMentions b.content, ¬Ambiguous db₀ name) :
    Ensures may db₀ b.create
      (fun _ => Kept db₀ db₀.bulletins.next
        ((if b.canBroadcast then getMentions b.withContent.content else []) ++
          getMentions b.content))
      (Kept db₀ db₀.bulletins.next
        ((if b.canBroadcast then getMentions b.withContent.content else []) ++
          getMentions b.content)) := by
  let names := if b.canBroadcast then getMentions b.withContent.content else []
  have hlast {db : Db} (h : Kept db₀ db₀.bulletins.next names db) :
      Ensures may db (do
        mentioned (.bulletin db₀.bulletins.next) (b.made db₀).entries (getMentions b.content)
        return b.made db₀)
        (fun _ => Kept db₀ db₀.bulletins.next (names ++ getMentions b.content))
        (Kept db₀ db₀.bulletins.next (names ++ getMentions b.content)) := by
    apply ensures_seq (mentioned_kept (b := b.made db₀) hsound h hunique fun _ _ _ h => h)
    exact fun _ _ h => ensures_pure h
  apply ensures_read
  apply ensures_bind
  apply ensures_write
  apply ensures_seq (broadcast_kept (b := b.made db₀) hsound (Kept.start hsound) howner hmailgun
    hmail hnested)
  intro _ db₁ h₁
  dsimp only
  split
  · rename_i htype
    have h₂ : Kept db₀ db₀.bulletins.next names ((b.made db₀).withLeaders db₁) :=
      Kept.withLeaders h₁
    have hnew : Installed (text "new_leadership") db₁ := by
      unfold Installed
      rw [h₁.types]
      exact hsound.newLeadership
    apply ensures_bind
    apply Bulletin.ensures_createLeadership hnew
    · exact fun _ => hlast h₂
    · exact fun _ hmay => absurd hmay (hleadership htype)
  · exact hlast h₁

theorem first_kept (s : Saving) (howner : (db₀.users.find? s.bulletin.owner).isSome = true)
    (hundisturbed : s.Undisturbed)
    (hunique : ∀ name ∈ s.contents.flatMap getMentions, ¬Ambiguous db₀ name) :
    Kept db₀ db₀.bulletins.next (s.contents.flatMap getMentions) (s.first db₀) := by
  have hcontents : s.contents.flatMap getMentions =
      (if s.bulletin.canBroadcast then getMentions s.bulletin.withContent.content else []) ++
        getMentions s.bulletin.content := by
    unfold Saving.contents
    split <;> simp
  rw [hcontents] at hunique ⊢
  have hnever {service : Service} (h : ∀ n, s.faults n service = false) :
      ¬∃ n, s.faults n service = true := by
    intro hfails
    obtain ⟨n, hn⟩ := hfails
    rw [h n] at hn
    cases hn
  have hcreate : Ensures (fun service fails => ∃ n, s.faults n service = fails) db₀
      s.bulletin.create (fun _ => Kept db₀ db₀.bulletins.next _) (Kept db₀ db₀.bulletins.next _) :=
    create_kept hsound howner (fun hcan => hnever (hundisturbed.mailgun hcan))
      (fun hcan hne => hnever (hundisturbed.mentions hcan hne))
      (fun htype => hnever (hundisturbed.leadership htype))
      (fun hcan name hname => hunique name (List.mem_append_left _ (by rwa [if_pos hcan])))
      fun name hname => hunique name (List.mem_append_right _ hname)
  exact db_of_ensures hcreate fun n service => ⟨n, rfl⟩

theorem again_kept {s : Saving} (h : Kept db₀ k names db)
    (hunique : ∀ name ∈ getMentions s.bulletin.content, ¬Ambiguous db₀ name) :
    Kept db₀ k (names ++ getMentions s.bulletin.content) (s.again k db) := by
  have hupdate : Ensures anyhow db (Bulletin.update { s.bulletin with pk := k })
      (fun _ => Kept db₀ k (names ++ getMentions s.bulletin.content))
      (Kept db₀ k (names ++ getMentions s.bulletin.content)) :=
    update_kept (b := { s.bulletin with pk := k }) hsound h hunique fun _ _ _ h => h
  exact db_of_ensures hupdate fun _ _ => trivial

theorem later_kept {later : List Saving} (h : Kept db₀ k names db)
    (hunique : ∀ s ∈ later, ∀ name ∈ getMentions s.bulletin.content, ¬Ambiguous db₀ name) :
    Kept db₀ k (names ++ later.flatMap fun s => getMentions s.bulletin.content)
      (later.foldl (Saving.again k) db) := by
  induction later generalizing names db with
  | nil => simpa using h
  | cons s later ih =>
    rw [List.flatMap_cons, ← List.append_assoc, List.foldl_cons]
    refine ih (again_kept hsound h (hunique s List.mem_cons_self)) ?_
    exact fun x hx => hunique x (List.mem_cons_of_mem _ hx)

end Saving

/-- Whatever is saved, again and again, also while a save is under way: who is mentioned by a name
of their own is told once that the bulletin mentions them, and nobody else is told, as long as no
name is mentioned that several users have, and no call fails before the mentions of the first save
are noted. -/
theorem saves_oneNotice (db : Db) (s : Saving) (later : List Saving) (hsound : db.Sound)
    (howner : (db.users.find? s.bulletin.owner).isSome = true) (hundisturbed : s.Undisturbed)
    (hunique : ∀ name ∈ savedNames s later, ¬Ambiguous db name) :
    OneNotice db.bulletins.next (savedNames s later) (saves s later db) := by
  have hnames : savedNames s later = s.contents.flatMap getMentions ++
      later.flatMap fun x => getMentions x.bulletin.content := by
    rw [savedNames, List.flatMap_append, List.flatMap_map]
  rw [hnames] at hunique ⊢
  have hfirst := first_kept hsound s howner hundisturbed fun name hname =>
    hunique name (List.mem_append_left _ hname)
  refine (later_kept hsound hfirst ?_).oneNotice
  intro x hx name hname
  exact hunique name (List.mem_append_right _ (List.mem_flatMap.mpr ⟨x, hx, hname⟩))

/-- Where a talk cannot be mailed to its list, what it mentions is stored as links and nobody is
told. -/
theorem first_outage (hsound : db.Sound) (s : Saving)
    (howner : (db.users.find? s.bulletin.owner).isSome = true)
    (hcan : s.bulletin.canBroadcast = true) (hdown : ∀ n, s.faults n .mailgun = true) :
    OneNotice db.bulletins.next [] (s.first db) := by
  obtain ⟨owner, howner⟩ := Option.isSome_iff_exists.mp howner
  have hcan' : (s.bulletin.made db).canBroadcast = true := hcan
  have hbroadcast : Ensures (fun service fails => service = .mailgun → fails = true)
      (s.bulletin.stored db) (s.bulletin.made db).broadcast (fun _ _ => False)
      (Kept db db.bulletins.next []) := by
    have hfound : (s.bulletin.stored db).users.find? (s.bulletin.made db).owner = some owner :=
      howner
    unfold Bulletin.broadcast
    rw [hcan']
    apply ensures_bind
    apply ensures_getUser hfound
    apply ensures_bind
    apply ensures_sendEmail
    · intro hmay
      cases hmay rfl
    · exact fun _ => Kept.start hsound
  have hcreate : Ensures (fun service fails => service = .mailgun → fails = true) db
      s.bulletin.create (fun _ => Kept db db.bulletins.next [])
      (Kept db db.bulletins.next []) := by
    apply ensures_read
    apply ensures_bind
    apply ensures_write
    exact ensures_seq hbroadcast fun _ _ h => h.elim
  exact (db_of_ensures hcreate fun n service hservice => hservice ▸ hdown n).oneNotice

section Examples

def annsTalk (content : Text) : Saving where
  bulletin := ⟨0, .talk, text "hello", content, 1, none, Petri.nyc, false, false, none, false, none⟩
  faults := fun _ _ => false

/-- Two users whose names differ in case. -/
def twoBobs : Db :=
  { emptyBoard with
    users := .ofList [annAccount, bobAccount, ⟨(Petri.member 3 (text "BOB") false).user, true⟩] }

/-- The member is mentioned in the save while the talk is mailed, and once more later. -/
theorem saves_oneNotice_chained :
    savedNames (annsTalk (text "@ann@bob")) [annsTalk (text "hi @bob")] =
      [text "bob", text "ann", text "bob"] ∧
    OneNotice 1 (savedNames (annsTalk (text "@ann@bob")) [annsTalk (text "hi @bob")])
      (saves (annsTalk (text "@ann@bob")) [annsTalk (text "hi @bob")] emptyBoard) :=
  ⟨by decide +kernel, saves_oneNotice emptyBoard (annsTalk (text "@ann@bob"))
    [annsTalk (text "hi @bob")] emptyBoard_sound (by decide)
    ⟨fun _ _ => rfl, fun _ _ _ => rfl, fun _ _ => rfl⟩ (by decide +kernel)⟩

theorem twoBobs_sound : twoBobs.Sound :=
  Db.sound_of_new ⟨_, rfl⟩ ⟨_, rfl⟩ rfl rfl rfl rfl (by decide)

/-- Whose name is bob's cannot be said, which raises before the leader is told. -/
theorem saves_not_oneNotice :
    ¬∀ (db : Db) (s : Saving) (later : List Saving), db.Sound →
      (db.users.find? s.bulletin.owner).isSome = true →
        OneNotice db.bulletins.next (savedNames s later) (saves s later db) := by
  intro h
  have hone := h twoBobs (annsTalk (text "@ann @bob")) [] twoBobs_sound (by decide) 1
  have hnamed : Names (saves (annsTalk (text "@ann @bob")) [] twoBobs)
      (savedNames (annsTalk (text "@ann @bob")) []) 1 :=
    ⟨text "ann", by decide +kernel, annAccount, by decide +kernel, rfl⟩
  exact absurd (hone.1 hnamed) (by decide +kernel)

end Examples

end HackerUnion.Board
