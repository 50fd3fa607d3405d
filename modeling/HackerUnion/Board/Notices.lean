import HackerUnion.Board.Loop

namespace HackerUnion.Board

open Bash (Text text lower)
open Durable
open Durable.Handler
open Petri (UserProfile decimal getMentions linkifyMentions)

variable {may : Service → Bool → Prop} {db : Db} {R : Db → Prop} {b : Bulletin} {c : Comment}
  {item : Item} {names : List Text} {es : List (Text × Text)} {k u : Nat}

section Recipients

variable {type : Text} {users : List Nat} {f : Nat → List (Item × Nat) → List (Item × Nat)}

/-- A notification is stored after the others, with its recipients and entries. -/
theorem told_notifications : (db.told type users es f).notifications.rows =
    db.notifications.rows ++ [⟨db.notifications.next, type, .unread⟩] :=
  Serial.rows_save_next rfl

theorem told_next : (db.told type users es f).notifications.next = db.notifications.next + 1 :=
  Serial.next_save_next rfl

theorem mem_told_recipients {r : Nat × Nat} : r ∈ (db.told type users es f).recipients ↔
    r ∈ db.recipients ∨ ∃ u ∈ users, r = (db.notifications.next, u) :=
  mem_foldl_added

theorem mem_told_notified {m : Item × Nat} :
    m ∈ (db.told type users es fun u told => added (item, u) told).usersNotified ↔
      m ∈ db.usersNotified ∨ ∃ u ∈ users, m = (item, u) :=
  mem_foldl_added

theorem told_fresh (h : ∀ r ∈ db.recipients, r.1 < db.notifications.next) :
    ∀ r ∈ (db.told type users es f).recipients,
      r.1 < (db.told type users es f).notifications.next := by
  intro r hr
  rw [told_next]
  rcases mem_told_recipients.mp hr with hr | ⟨u, -, rfl⟩
  · have := h r hr
    omega
  · exact Nat.lt_succ_self _

theorem told_entries (h : ∀ e ∈ db.entries, e.notification < db.notifications.next) :
    ∀ e ∈ (db.told type users es f).entries,
      e.notification < (db.told type users es f).notifications.next :=
  @informed_fresh db type users es h

end Recipients

section Comments

/-- Who is to be told of a comment. -/
def Hears (c : Comment) (b : Bulletin) (db : Db) (u : Nat) : Prop :=
  u ≠ c.owner ∧ (u = b.owner ∨ (∃ x ∈ db.comments.rows, x.bulletin = b.pk ∧ x.owner = u) ∨
    (b.pk, u) ∈ db.followedBy)

/-- The three sources, where `last` is whom the loop over the comments leaves behind. -/
theorem mem_listeners_of_last {last : Comment}
    (hlast : (db.comments.rows.filter fun x => x.bulletin = b.pk).getLast? = some last) :
    u ∈ c.listeners b db ↔
      (b.owner ≠ c.owner ∧ u = b.owner) ∨
        (∃ x ∈ db.comments.rows.filter fun x => x.bulletin = b.pk,
          (b.owner ≠ x.owner ∧ x.owner ≠ c.owner) ∧ x.owner = u) ∨
        (b.pk, u) ∈ db.followedBy ∧ last.owner ≠ u ∧ u ≠ c.owner := by
  let comments := db.comments.rows.filter fun x => x.bulletin = b.pk
  have howner : u ∈ (if b.owner ≠ c.owner then [b.owner] else []) ↔
      b.owner ≠ c.owner ∧ u = b.owner := by
    split <;> simp_all
  have hloop : u ∈ (comments.filter fun x =>
        b.owner ≠ x.owner && x.owner ≠ c.owner).map Comment.owner ↔
      ∃ x ∈ comments, (b.owner ≠ x.owner ∧ x.owner ≠ c.owner) ∧ x.owner = u := by
    simp [and_assoc]
  have hfollowers : u ∈ (db.followedBy.filter fun f => f.1 = b.pk &&
        (comments.getLast?.map Comment.owner ≠ some f.2) && f.2 ≠ c.owner).map Prod.snd ↔
      (b.pk, u) ∈ db.followedBy ∧ last.owner ≠ u ∧ u ≠ c.owner := by
    simp [comments, hlast, and_assoc]
  unfold Comment.listeners
  rw [List.mem_append, List.mem_append, or_assoc, howner, hloop, hfollowers]

/-- The comment itself is among those on the bulletin, so that the loop leaves one of them behind,
and whose that is was told in the loop already. -/
theorem mem_listeners (hc : c ∈ db.comments.rows) (hb : c.bulletin = b.pk) :
    u ∈ c.listeners b db ↔ Hears c b db u := by
  let comments := db.comments.rows.filter fun x => x.bulletin = b.pk
  have hmem {x : Comment} : x ∈ comments ↔ x ∈ db.comments.rows ∧ x.bulletin = b.pk := by
    simp [comments]
  obtain ⟨last, hlast⟩ : ∃ last, comments.getLast? = some last := by
    have hne : comments ≠ [] := List.ne_nil_of_mem (hmem.mpr ⟨hc, hb⟩)
    exact ⟨comments.getLast hne, List.getLast?_eq_some_getLast hne⟩
  have hleft : last ∈ comments := List.mem_of_getLast? hlast
  rw [mem_listeners_of_last hlast]
  constructor
  · intro h
    rcases h with ⟨hne, rfl⟩ | ⟨x, hx, ⟨-, hne⟩, rfl⟩ | ⟨hfollows, -, hne⟩
    · exact ⟨hne, .inl rfl⟩
    · exact ⟨hne, .inr (.inl ⟨x, (hmem.mp hx).1, (hmem.mp hx).2, rfl⟩)⟩
    · exact ⟨hne, .inr (.inr hfollows)⟩
  · intro h
    obtain ⟨hne, hrole⟩ := h
    -- The owner is told first, and those who have commented are told in the loop.
    have hwrote {x : Comment} (hx : x ∈ comments) (hu : x.owner = u) :
        (b.owner ≠ c.owner ∧ u = b.owner) ∨
          (∃ x ∈ comments, (b.owner ≠ x.owner ∧ x.owner ≠ c.owner) ∧ x.owner = u) := by
      subst hu
      by_cases howner : b.owner = x.owner
      · exact .inl ⟨fun h => hne (howner.symm.trans h), howner.symm⟩
      · exact .inr ⟨x, hx, ⟨howner, hne⟩, rfl⟩
    rw [← or_assoc]
    rcases hrole with rfl | ⟨x, hx, hxb, hu⟩ | hfollows
    · exact .inl (.inl ⟨hne, rfl⟩)
    · exact .inl (hwrote (hmem.mpr ⟨hx, hxb⟩) hu)
    · by_cases hlastOwner : last.owner = u
      · exact .inl (hwrote hleft hlastOwner)
      · exact .inr ⟨hfollows, hlastOwner, hne⟩

/-- A notification of the comment is stored, and whom it adds are those who are to be told. -/
def Announced (c : Comment) (b : Bulletin) (db db' : Db) : Prop :=
  ⟨db.notifications.next, text "new_comment", .unread⟩ ∈ db'.notifications.rows ∧
    ∀ r, r ∈ db'.recipients ↔
      r ∈ db.recipients ∨ ∃ u, Hears c b db u ∧ r = (db.notifications.next, u)

/-- Whoever has written and whoever follows, and in whatever order the comments come: the owner of
the bulletin, those who commented on it and its followers are told of a new comment, but for who
wrote it, and nobody else. Where a mail fails they are told too. -/
theorem createComment_announced (db : Db) (c : Comment) (b : Bulletin)
    (hc : c ∈ db.comments.rows) (hb : c.bulletin = b.pk) (hnotify : b.canNotify = true) :
    Ensures anyhow db (c.createComment b) (fun _ => Announced c b db)
      (fun db' => ¬Installed (text "new_comment") db ∧ db' = db ∨ Announced c b db db') := by
  have hannounced : Announced c b db (db.told (text "new_comment") (c.listeners b db)
      (c.entries b) fun _ told => told) := by
    constructor
    · rw [told_notifications]
      exact List.mem_append_right _ (List.mem_singleton_self _)
    · intro r
      rw [mem_told_recipients]
      simp only [mem_listeners hc hb]
  unfold Comment.createComment
  rw [hnotify]
  apply ensures_read
  apply ensures_notify (f := fun _ told => told)
  · exact fun u db R => ensures_pure rfl
  · exact fun _ => hannounced
  · exact fun _ _ => .inr hannounced
  · exact fun hnone => .inl ⟨hnone, rfl⟩

/-- The leader's project, on which the member has commented, and which both follow. -/
def leadersProject : Bulletin :=
  ⟨1, .project, text "tool", text "look", 1, none, Petri.nyc, false, false, none, false, none⟩

def leadersAnswer : Comment := ⟨2, 1, 1, text "thanks", none, false⟩

def discussed : Db :=
  { emptyBoard with
    bulletins := .ofList [leadersProject]
    comments := .ofList [⟨1, 2, 1, text "nice", none, false⟩, leadersAnswer]
    followedBy := [(1, 1), (1, 2)] }

theorem createComment_announced_answer :
    Ensures anyhow discussed (leadersAnswer.createComment leadersProject)
      (fun _ => Announced leadersAnswer leadersProject discussed)
      (fun db' => ¬Installed (text "new_comment") discussed ∧ db' = discussed ∨
        Announced leadersAnswer leadersProject discussed db') :=
  createComment_announced discussed leadersAnswer leadersProject (by decide) rfl (by decide)

end Comments

section Mentions

/-- The users who have the name, up to case. -/
def Db.named (db : Db) (name : Text) : List Account :=
  db.users.rows.filter fun u => lower u.username = lower name

/-- Several users have the name, up to case. -/
def Ambiguous (db : Db) (name : Text) : Prop := 1 < (db.named name).length

instance (db : Db) (name : Text) : Decidable (Ambiguous db name) :=
  inferInstanceAs (Decidable (_ < _))

/-- Some of the names is that of this user alone. -/
def Names (db : Db) (names : List Text) (u : Nat) : Prop :=
  ∃ name ∈ names, ∃ a, db.named name = [a] ∧ a.pk = u

/-- The mention of a name, where one user has it. -/
def Db.note (db : Db) (item : Item) (noted : List (Item × Nat)) (name : Text) :
    List (Item × Nat) :=
  match db.named name with
  | [a] => added (item, a.pk) noted
  | _ => noted

/-- The database with the mentions of these names. -/
def Db.noted (item : Item) (names : List Text) (db : Db) : Db :=
  { db with usersMentioned := names.foldl (db.note item) db.usersMentioned }

/-- The database with those told who are still to be. -/
def Db.caughtUp (item : Item) (es : List (Text × Text)) (db : Db) : Db :=
  if untold item db = [] then db
  else db.told (text "new_mention") (untold item db) es fun u told => added (item, u) told

theorem mem_note {m : Item × Nat} {noted : List (Item × Nat)} {name : Text} :
    m ∈ db.note item noted name ↔ m ∈ noted ∨ ∃ a, db.named name = [a] ∧ m = (item, a.pk) := by
  unfold Db.note
  split
  · rename_i a ha
    rw [mem_added, ha]
    simp [or_comm]
  · rename_i hnot
    constructor
    · exact .inl
    · intro h
      rcases h with h | ⟨a, ha, -⟩
      · exact h
      · exact absurd ha (hnot a)

theorem mem_noted {m : Item × Nat} : m ∈ (db.noted item names).usersMentioned ↔
    m ∈ db.usersMentioned ∨ m.1 = item ∧ Names db names m.2 := by
  have hfold (noted : List (Item × Nat)) : m ∈ names.foldl (db.note item) noted ↔
      m ∈ noted ∨ m.1 = item ∧ Names db names m.2 := by
    induction names generalizing noted with
    | nil => simp [Names]
    | cons name names ih =>
      rw [List.foldl_cons, ih, mem_note, or_assoc, or_congr_right]
      simp only [Names, List.exists_mem_cons_iff, and_or_left]
      refine or_congr_left ?_
      constructor
      · intro h
        obtain ⟨a, ha, rfl⟩ := h
        exact ⟨rfl, a, ha, rfl⟩
      · intro h
        obtain ⟨rfl, a, ha, hu⟩ := h
        exact ⟨a, ha, by rw [hu]⟩
  exact hfold _

theorem mem_untold : u ∈ untold item db ↔
    (item, u) ∈ db.usersMentioned ∧ (item, u) ∉ db.usersNotified := by
  constructor
  · intro h
    obtain ⟨m, hm, rfl⟩ := List.mem_map.mp h
    obtain ⟨hmem, hnot⟩ := List.mem_filter.mp hm
    rw [Bool.and_eq_true, decide_eq_true_eq, decide_eq_true_eq] at hnot
    obtain ⟨rfl, hnot⟩ := hnot
    exact ⟨hmem, hnot⟩
  · intro h
    refine List.mem_map.mpr ⟨(item, u), List.mem_filter.mpr ⟨h.1, ?_⟩, rfl⟩
    rw [Bool.and_eq_true, decide_eq_true_eq, decide_eq_true_eq]
    exact ⟨rfl, h.2⟩

theorem ensures_getUserByName {name : Text} {Q : Option Account → Db → Prop}
    (hnone : db.named name = [] → Q none db) (hsome : ∀ a, db.named name = [a] → Q (some a) db)
    (hraise : Ambiguous db name → R db) : Ensures may db (getUserByName name) Q R := by
  apply ensures_read
  split
  · rename_i hnil
    exact ensures_pure (hnone hnil)
  · rename_i a ha
    exact ensures_pure (hsome a ha)
  · rename_i hnil hone
    refine ensures_throw (hraise ?_)
    unfold Ambiguous
    match hnamed : db.named name with
    | [] => exact absurd hnamed hnil
    | [a] => exact absurd hnamed (hone a)
    | _ :: _ :: _ => simp

/-- The names are noted up to the first that several users have. -/
theorem ensures_names (names : List Text) :
    Ensures may db (names.forM fun name => do
        match ← getUserByName name with
        | none => return
        | some u =>
          write fun db => { db with usersMentioned := added (item, u.pk) db.usersMentioned })
      (fun _ db' => (∀ name ∈ names, ¬Ambiguous db name) ∧ db' = db.noted item names)
      (fun db' => ∃ front, (∃ name ∈ names, Ambiguous db name) ∧ db' = db.noted item front) := by
  let I : List Text → Db → Prop := fun rest db' =>
    ∃ front, names = front ++ rest ∧ (∀ name ∈ front, ¬Ambiguous db name) ∧
      db' = db.noted item front
  have hround (name : Text) (rest : List Text) (db' : Db) (hi : I (name :: rest) db') :
      Ensures may db' (do
        match ← getUserByName name with
        | none => return
        | some u =>
          write fun db => { db with usersMentioned := added (item, u.pk) db.usersMentioned })
        (fun _ => I rest)
        (fun db' => ∃ front, (∃ name ∈ names, Ambiguous db name) ∧ db' = db.noted item front) := by
    obtain ⟨front, hnames, hfront, rfl⟩ := hi
    have hnames' : names = (front ++ [name]) ++ rest := by simp [hnames]
    have hfront' (hunique : ¬Ambiguous db name) : ∀ x ∈ front ++ [name], ¬Ambiguous db x := by
      intro x hx
      rcases List.mem_append.mp hx with hx | hx
      · exact hfront x hx
      · rwa [List.mem_singleton.mp hx]
    apply ensures_bind
    apply ensures_getUserByName
    · intro hnil
      have hnil' : db.named name = [] := hnil
      refine ensures_pure ⟨front ++ [name], hnames', hfront' ?_, ?_⟩
      · simp [Ambiguous, hnil']
      · simp [Db.noted, Db.note, hnil']
    · intro a ha
      have ha' : db.named name = [a] := ha
      refine ensures_write ⟨front ++ [name], hnames', hfront' ?_, ?_⟩
      · simp [Ambiguous, ha']
      · simp [Db.noted, Db.note, ha']
    · intro hseveral
      exact ⟨front, ⟨name, by simp [hnames], hseveral⟩, rfl⟩
  have hstart : I names db := ⟨[], rfl, fun _ h => absurd h List.not_mem_nil, rfl⟩
  refine ensures_weaken (ensures_forM hround hstart) ?_
  intro _ db' hi
  obtain ⟨front, hnames, hfront, rfl⟩ := hi
  rw [List.append_nil] at hnames
  subst hnames
  exact ⟨hfront, rfl⟩

/-- What the end of saving leaves. -/
theorem ensures_mentioned {Q : Unit → Db → Prop} (hnew : Installed (text "new_mention") db)
    (hok : (∀ name ∈ names, ¬Ambiguous db name) → Q () ((db.noted item names).caughtUp item es))
    (hfail : (∀ name ∈ names, ¬Ambiguous db name) → may .mail true →
      untold item (db.noted item names) ≠ [] → R ((db.noted item names).caughtUp item es))
    (hraise : (∃ name ∈ names, Ambiguous db name) → ∀ front, R (db.noted item front)) :
    Ensures may db (mentioned item es names) Q R := by
  apply ensures_then (ensures_names names)
  · intro _ db₁ h₁
    obtain ⟨hunique, rfl⟩ := h₁
    apply ensures_read
    dsimp only
    unfold Db.caughtUp at hok hfail
    split
    · rename_i hnil
      rw [if_pos hnil] at hok
      exact ensures_pure (hok hunique)
    · rename_i hne
      rw [if_neg hne] at hok hfail
      apply ensures_notify (f := fun u told => added (item, u) told)
      · exact fun u db R => ensures_write rfl
      · exact fun _ => hok hunique
      · exact fun _ hmay => hfail hunique hmay hne
      · exact fun hnone => absurd hnew hnone
  · intro db₁ h₁
    obtain ⟨front, hseveral, rfl⟩ := h₁
    exact hraise hseveral front

end Mentions

/-- Types of notifications are installed, what refers to something refers to what there is or was,
and whose profile it is has an account. -/
structure Db.Sound (db : Db) : Prop where
  newMention : Installed (text "new_mention") db
  newLeadership : Installed (text "new_leadership") db
  recipients : ∀ r ∈ db.recipients, r.1 < db.notifications.next
  entries : ∀ e ∈ db.entries, e.notification < db.notifications.next
  entered : ∀ e ∈ db.entries, e.key = text "bulletin" → e.value ≠ decimal db.bulletins.next
  mentioned : ∀ u, (.bulletin db.bulletins.next, u) ∉ db.usersMentioned
  notified : ∀ u, (.bulletin db.bulletins.next, u) ∉ db.usersNotified
  profiles : ∀ p ∈ db.profiles.rows, ∃ a ∈ db.users.rows, a.toUser = p.user

/-- Before there are notifications and mentions nothing can refer to what is not there. -/
theorem Db.sound_of_new (hmention : Installed (text "new_mention") db)
    (hleadership : Installed (text "new_leadership") db) (hr : db.recipients = [])
    (he : db.entries = []) (hm : db.usersMentioned = []) (hn : db.usersNotified = [])
    (hprofiles : ∀ p ∈ db.profiles.rows, ∃ a ∈ db.users.rows, a.toUser = p.user) : db.Sound where
  newMention := hmention
  newLeadership := hleadership
  recipients := by simp [hr]
  entries := by simp [he]
  entered := by simp [he]
  mentioned := by simp [hm]
  notified := by simp [hn]
  profiles := hprofiles

section Leadership

/-- The leaders of the chapter. -/
def Leads (b : Bulletin) (db : Db) (p : UserProfile) : Prop :=
  p ∈ db.profiles.rows ∧ p.chapter.pk = b.chapter.pk ∧ p.isLeader = true

/-- The leader is left out, as what the request links to is searched for the name. -/
def LeftOut (b : Bulletin) (p : UserProfile) : Prop :=
  Bash.contains (text "?n=" ++ lower p.user.username) b.withContent.content = true

/-- The content mentions exactly the name of the leader, up to case. -/
def Mentions (b : Bulletin) (p : UserProfile) : Prop :=
  ∃ name ∈ getMentions b.content, lower p.user.username = lower name

/-- A notification about bulletin `k`, from the first on, is one to the user. -/
def Received (first : Nat) (db : Db) (type : Text) (k u : Nat) : Prop :=
  ∃ n ∈ db.notifications.rows, first ≤ n.pk ∧ n.notificationType = type ∧
    (n.pk, u) ∈ db.recipients ∧ ⟨n.pk, text "bulletin", decimal k⟩ ∈ db.entries

instance (first : Nat) (db : Db) (type : Text) (k u : Nat) :
    Decidable (Received first db type k u) :=
  inferInstanceAs (Decidable (∃ n ∈ db.notifications.rows, _))

/-- Every leader of the chapter is told of the request: that it mentions them, if it does, or that
it was made. -/
def LeadersTold (b : Bulletin) (db db' : Db) : Prop :=
  ∀ p, Leads b db p →
    (Mentions b p ∧
      Received db.notifications.next db' (text "new_mention") db.bulletins.next p.pk) ∨
    Received db.notifications.next db' (text "new_leadership") db.bulletins.next p.pk

/-- Calls may fail where there are outages. -/
abbrev unreliable (outages : Bool) : Service → Bool → Prop := fun _ fails =>
  fails = true → outages = true

/-- Whom a request mentions is told in any case: it mentions no name that several users have, and
no mail is sent before that could fail. -/
def Reaches (outages : Bool) (b : Bulletin) (db : Db) : Prop :=
  (∀ name ∈ getMentions b.content, ¬Ambiguous db name) ∧
    (outages = true →
      (∃ t, db.notificationTypes.filter (fun t => t.name = text "new_leadership") = [t] ∧
        t.generatesEmail = true) →
      ∀ p, Leads b db p → LeftOut b p)

section Received

variable {type type' : Text} {users : List Nat} {first : Nat}
  {f : Nat → List (Item × Nat) → List (Item × Nat)}

theorem not_received (h : db.notifications.next ≤ first) : ¬Received first db type k u := by
  intro hreceived
  obtain ⟨n, hn, hfirst, -⟩ := hreceived
  have := db.notifications.lt_next n hn
  omega

theorem received_told (hfresh : ∀ r ∈ db.recipients, r.1 < db.notifications.next)
    (hfirst : first ≤ db.notifications.next) (hes : (text "bulletin", decimal k) ∈ es) :
    Received first (db.told type users es f) type' k u ↔
      Received first db type' k u ∨ type' = type ∧ u ∈ users := by
  unfold Received
  simp only [told_notifications, mem_told_recipients]
  constructor
  · intro h
    obtain ⟨n, hn, hle, htype, hrecipient, hentry⟩ := h
    rcases List.mem_append.mp hn with hn | hn
    · -- one of the others, to which nothing was added
      have hlt := db.notifications.lt_next n hn
      refine .inl ⟨n, hn, hle, htype, ?_, ?_⟩
      · rcases hrecipient with hrecipient | ⟨v, -, heq⟩
        · exact hrecipient
        · have := congrArg Prod.fst heq
          simp only at this
          omega
      · rcases List.mem_append.mp hentry with hentry | hentry
        · exact hentry
        · obtain ⟨e, -, heq⟩ := List.mem_map.mp hentry
          have := congrArg Entry.notification heq
          simp only at this
          omega
    · obtain rfl := List.mem_singleton.mp hn
      refine .inr ⟨htype.symm, ?_⟩
      rcases hrecipient with hrecipient | ⟨v, hv, heq⟩
      · exact absurd (hfresh _ hrecipient) (lt_irrefl _)
      · obtain ⟨-, rfl⟩ := Prod.mk.inj heq
        exact hv
  · intro h
    rcases h with ⟨n, hn, hle, htype, hrecipient, hentry⟩ | ⟨rfl, hu⟩
    · exact ⟨n, List.mem_append_left _ hn, hle, htype, .inl hrecipient,
        List.mem_append_left _ hentry⟩
    · exact ⟨_, List.mem_append_right _ (List.mem_singleton_self _), hfirst, rfl,
        .inr ⟨u, hu, rfl⟩, List.mem_append_right _ (List.mem_map.mpr ⟨_, hes, rfl⟩)⟩

theorem received_caughtUp (hfresh : ∀ r ∈ db.recipients, r.1 < db.notifications.next)
    (hfirst : first ≤ db.notifications.next) (hes : (text "bulletin", decimal k) ∈ es) :
    Received first (db.caughtUp item es) type k u ↔
      Received first db type k u ∨ type = text "new_mention" ∧ u ∈ untold item db := by
  unfold Db.caughtUp
  split
  · rename_i hnil
    simp [hnil]
  · exact received_told hfresh hfirst hes

end Received

/-- A name that no other user has is the one of the user. -/
theorem names_iff {a : Account} (ha : a ∈ db.users.rows)
    (hunique : ∀ name ∈ names, ¬Ambiguous db name) :
    Names db names a.pk ↔ ∃ name ∈ names, lower a.username = lower name := by
  have hmem {x : Account} {name : Text} : x ∈ db.named name ↔
      x ∈ db.users.rows ∧ lower x.username = lower name := by simp [Db.named]
  constructor
  · intro h
    obtain ⟨name, hname, x, hx, hpk⟩ := h
    obtain ⟨hrow, hlower⟩ := hmem.mp (hx ▸ List.mem_singleton_self x)
    obtain rfl := Table.eq_of_key hrow ha hpk
    exact ⟨name, hname, hlower⟩
  · intro h
    obtain ⟨name, hname, hlower⟩ := h
    have hhas : a ∈ db.named name := hmem.mpr ⟨ha, hlower⟩
    have hone : (db.named name).length = 1 :=
      le_antisymm (Nat.not_lt.mp (hunique name hname)) (List.length_pos_of_mem hhas)
    obtain ⟨x, hx⟩ := List.length_eq_one_iff.mp hone
    rw [hx, List.mem_singleton] at hhas
    exact ⟨name, hname, a, hhas ▸ hx, rfl⟩

namespace Bulletin

/-- The leaders who are told that the bulletin was made. -/
def leaders (b : Bulletin) (db : Db) : List Nat :=
  (db.profiles.rows.filter fun p => p.chapter.pk = b.chapter.pk && p.isLeader &&
    !Bash.contains (text "?n=" ++ lower p.user.username) b.content).map UserProfile.pk

/-- The database once they are. -/
def withLeaders (b : Bulletin) (db : Db) : Db :=
  db.told (text "new_leadership") (b.leaders db)
    (b.entries ++ [(text "title", b.title), (text "content", b.content)]) fun _ told => told

theorem withLeaders_usersNotified : (b.withLeaders db).usersNotified = db.usersNotified :=
  List.foldl_fixed _

theorem ensures_createLeadership {Q : Unit → Db → Prop}
    (hnew : Installed (text "new_leadership") db)
    (hok : (ByMail (text "new_leadership") db.notifications.next (b.withLeaders db) →
      may .mail false) → Q () (b.withLeaders db))
    (hfail : ByMail (text "new_leadership") db.notifications.next (b.withLeaders db) →
      may .mail true → R (b.withLeaders db)) : Ensures may db b.createLeadership Q R := by
  apply ensures_read
  apply ensures_notify (f := fun _ told => told)
  · exact fun u db R => ensures_pure rfl
  · exact hok
  · exact hfail
  · exact fun hnone => absurd hnew hnone

/-- The bulletin as it is stored. -/
def made (b : Bulletin) (db : Db) : Bulletin := { b.withContent with pk := db.bulletins.next }

def stored (b : Bulletin) (db : Db) : Db :=
  { db with bulletins := db.bulletins.save (b.made db) }

/-- The database once the request is stored and the leaders are told. -/
def announced (b : Bulletin) (db : Db) : Db := (b.made db).withLeaders (b.stored db)

/-- And once those are told whom it mentions. -/
def finished (b : Bulletin) (db : Db) : Db :=
  ((b.announced db).noted (.bulletin db.bulletins.next) (getMentions b.content)).caughtUp
    (.bulletin db.bulletins.next) (b.made db).entries

/-- How the request ends: the notice to the leaders is mailed and that fails, or a name is one that
several users have, or everything is done. -/
def Ends (may : Service → Bool → Prop) (b : Bulletin) (db db' : Db) : Prop :=
  let mailed := ByMail (text "new_leadership") db.notifications.next (b.announced db)
  mailed ∧ may .mail true ∧ db' = b.announced db ∨
  (∃ name ∈ getMentions b.content, Ambiguous db name) ∧
    (∃ front, db' = (b.announced db).noted (.bulletin db.bulletins.next) front) ∨
  (mailed → may .mail false) ∧ (∀ name ∈ getMentions b.content, ¬Ambiguous db name) ∧
    db' = b.finished db

theorem create_ends (hsound : db.Sound) (hb : b.actualType = .leadership) :
    Ensures may db b.create (fun _ => b.Ends may db) (b.Ends may db) := by
  have hquiet : (b.made db).canBroadcast = false := by
    simp [canBroadcast, made, withContent, hb]
  have hmentioned (hmail : ByMail (text "new_leadership") db.notifications.next
      (b.announced db) → may .mail false) :
      Ensures may (b.announced db)
        (mentioned (.bulletin db.bulletins.next) (b.made db).entries (getMentions b.content))
        (fun _ => b.Ends may db) (b.Ends may db) := by
    have hnew : Installed (text "new_mention") (b.announced db) := hsound.newMention
    apply ensures_mentioned hnew
    · exact fun hunique => .inr (.inr ⟨hmail, hunique, rfl⟩)
    · exact fun hunique _ _ => .inr (.inr ⟨hmail, hunique, rfl⟩)
    · exact fun hseveral front => .inr (.inl ⟨hseveral, front, rfl⟩)
  apply ensures_read
  apply ensures_bind
  apply ensures_write
  apply ensures_bind
  unfold broadcast
  rw [show { b.withContent with pk := db.bulletins.next } = b.made db from rfl, hquiet]
  apply ensures_pure
  dsimp only
  rw [if_pos (show (b.made db).actualType = .leadership from hb)]
  apply ensures_bind
  have hnew : Installed (text "new_leadership") (b.stored db) := hsound.newLeadership
  refine ensures_createLeadership hnew ?_ ?_
  · intro hmail
    exact ensures_seq (hmentioned hmail) fun _ _ h => ensures_pure h
  · exact fun hmail hmay => .inl ⟨hmail, hmay, rfl⟩

section Told

variable {type : Text}

theorem mem_entries (b : Bulletin) (db : Db) (es : List (Text × Text)) :
    (text "bulletin", decimal db.bulletins.next) ∈ (b.made db).entries ++ es := by
  simp [Bulletin.entries, made]

theorem mem_leaders : u ∈ (b.made db).leaders (b.stored db) ↔
    ∃ p, Leads b db p ∧ ¬LeftOut b p ∧ p.pk = u := by
  have hmem : u ∈ (db.profiles.rows.filter fun p => p.chapter.pk = b.chapter.pk && p.isLeader &&
        !Bash.contains (text "?n=" ++ lower p.user.username) b.withContent.content).map
          UserProfile.pk ↔
      ∃ p, Leads b db p ∧ ¬LeftOut b p ∧ p.pk = u := by
    simp [Leads, LeftOut, and_assoc]
  exact hmem

theorem stored_fresh (hsound : db.Sound) :
    ∀ r ∈ (b.stored db).recipients, r.1 < (b.stored db).notifications.next := hsound.recipients

theorem received_announced (hsound : db.Sound) :
    Received db.notifications.next (b.announced db) type db.bulletins.next u ↔
      type = text "new_leadership" ∧ ∃ p, Leads b db p ∧ ¬LeftOut b p ∧ p.pk = u := by
  have hbefore : ¬Received db.notifications.next (b.stored db) type db.bulletins.next u :=
    not_received le_rfl
  have hfirst : db.notifications.next ≤ (b.stored db).notifications.next := le_rfl
  unfold announced withLeaders
  rw [received_told (stored_fresh hsound) hfirst (mem_entries b db _), or_iff_right hbefore]
  exact and_congr_right fun _ => mem_leaders

/-- Nobody was mentioned in the bulletin before it was made. -/
theorem untold_announced (hsound : db.Sound) :
    u ∈ untold (.bulletin db.bulletins.next)
        ((b.announced db).noted (.bulletin db.bulletins.next) names) ↔ Names db names u := by
  have hmentioned : (.bulletin db.bulletins.next, u) ∉ (b.announced db).usersMentioned :=
    hsound.mentioned u
  have hnotified : (.bulletin db.bulletins.next, u) ∉
      ((b.announced db).noted (.bulletin db.bulletins.next) names).usersNotified := by
    change _ ∉ ((b.made db).withLeaders (b.stored db)).usersNotified
    rw [withLeaders_usersNotified]
    exact hsound.notified u
  rw [mem_untold, mem_noted, and_iff_left hnotified, or_iff_right hmentioned,
    and_iff_right rfl]
  rfl

theorem received_finished (hsound : db.Sound) :
    Received db.notifications.next (b.finished db) type db.bulletins.next u ↔
      (type = text "new_leadership" ∧ ∃ p, Leads b db p ∧ ¬LeftOut b p ∧ p.pk = u) ∨
        type = text "new_mention" ∧ Names db (getMentions b.content) u := by
  let noted := (b.announced db).noted (.bulletin db.bulletins.next) (getMentions b.content)
  have hannounced : ∀ r ∈ (b.announced db).recipients, r.1 < (b.announced db).notifications.next :=
    told_fresh (stored_fresh hsound)
  have hfresh : ∀ r ∈ noted.recipients, r.1 < noted.notifications.next := hannounced
  have hnext : (b.announced db).notifications.next = db.notifications.next + 1 := told_next
  have hfirst : db.notifications.next ≤ noted.notifications.next :=
    (Nat.le_succ _).trans hnext.ge
  have hentries := mem_entries b db []
  rw [List.append_nil] at hentries
  have hnoted : Received db.notifications.next noted type db.bulletins.next u ↔
      Received db.notifications.next (b.announced db) type db.bulletins.next u := Iff.rfl
  unfold finished
  rw [received_caughtUp hfresh hfirst hentries, hnoted, received_announced hsound,
    untold_announced hsound]

end Told

/-- A profile is of one user, so that a leader who is left out is not told for another one. -/
theorem told_iff_not_leftOut {p : UserProfile} (hp : Leads b db p) :
    (∃ q, Leads b db q ∧ ¬LeftOut b q ∧ q.pk = p.pk) ↔ ¬LeftOut b p := by
  constructor
  · intro h
    obtain ⟨q, hq, hin, hpk⟩ := h
    exact Table.eq_of_key hq.1 hp.1 hpk ▸ hin
  · exact fun hin => ⟨p, hp, hin, rfl⟩

/-- As long as only the leaders are told, those who are left out are not. -/
theorem leadersTold_announced (hsound : db.Sound) (front : List Text) :
    LeadersTold b db ((b.announced db).noted (.bulletin db.bulletins.next) front) ↔
      ∀ p, Leads b db p → ¬LeftOut b p := by
  have hreceived (type : Text) (u : Nat) : Received db.notifications.next
      ((b.announced db).noted (.bulletin db.bulletins.next) front) type db.bulletins.next u ↔
        type = text "new_leadership" ∧ ∃ p, Leads b db p ∧ ¬LeftOut b p ∧ p.pk = u :=
    received_announced hsound
  have hne : text "new_mention" ≠ text "new_leadership" := by decide
  unfold LeadersTold
  simp only [hreceived, hne, false_and, and_false, false_or, true_and]
  exact forall₂_congr fun p hp => told_iff_not_leftOut hp

/-- Once everything is done, those are told of whom the request also mentions the name. -/
theorem leadersTold_finished (hsound : db.Sound)
    (hunique : ∀ name ∈ getMentions b.content, ¬Ambiguous db name) :
    LeadersTold b db (b.finished db) ↔ ∀ p, Leads b db p → LeftOut b p → Mentions b p := by
  have hne : text "new_mention" ≠ text "new_leadership" := by decide
  have hne' : text "new_leadership" ≠ text "new_mention" := by decide
  unfold LeadersTold
  simp only [received_finished hsound, hne, hne', false_and, false_or, or_false, true_and]
  refine forall₂_congr fun p hp => ?_
  have hnames : Mentions b p → Names db (getMentions b.content) p.pk := by
    intro hmentions
    obtain ⟨a, ha, huser⟩ := hsound.profiles p hp.1
    have hpk : a.pk = p.pk := congrArg Petri.User.pk huser
    rw [← hpk, names_iff ha hunique]
    exact huser.symm ▸ hmentions
  rw [told_iff_not_leftOut hp, and_iff_left_of_imp hnames, or_comm, ← imp_iff_not_or]

/-- The notice to the leaders goes out by mail where its type does and somebody gets it. -/
theorem byMail_announced_iff (hsound : db.Sound) :
    ByMail (text "new_leadership") db.notifications.next (b.announced db) ↔
      (∃ t, db.notificationTypes.filter (fun t => t.name = text "new_leadership") = [t] ∧
        t.generatesEmail = true) ∧ ∃ p, Leads b db p ∧ ¬LeftOut b p := by
  have hsome : (∃ u, (db.notifications.next, u) ∈ (b.announced db).recipients) ↔
      ∃ p, Leads b db p ∧ ¬LeftOut b p := by
    constructor
    · intro h
      obtain ⟨u, hu⟩ := h
      rcases mem_told_recipients.mp hu with hu | ⟨v, hv, -⟩
      · exact absurd (hsound.recipients _ hu) (lt_irrefl _)
      · obtain ⟨p, hp, hin, -⟩ := mem_leaders.mp hv
        exact ⟨p, hp, hin⟩
    · intro h
      obtain ⟨p, hp, hin⟩ := h
      exact ⟨p.pk, mem_told_recipients.mpr (.inr ⟨p.pk, mem_leaders.mpr ⟨p, hp, hin, rfl⟩, rfl⟩)⟩
  constructor
  · intro h
    obtain ⟨t, ht, hemail, hu⟩ := h
    exact ⟨⟨t, ht, hemail⟩, hsome.mp hu⟩
  · intro h
    obtain ⟨⟨t, ht, hemail⟩, hp⟩ := h
    exact ⟨t, ht, hemail, hsome.mpr hp⟩

end Bulletin

/-- When a leadership request is made, every leader of its chapter is told of it if and only if
those who are left out of the notice to the leaders are told that it mentions them: it does
mention exactly their names, and nothing stops it from telling them. -/
theorem create_leadersTold_iff (outages : Bool) (db : Db) (b : Bulletin) (hsound : db.Sound)
    (hb : b.actualType = .leadership) :
    Ensures (unreliable outages) db b.create (fun _ => LeadersTold b db) (LeadersTold b db) ↔
      ∀ p, Leads b db p → LeftOut b p → Mentions b p ∧ Reaches outages b db := by
  have hmailed := Bulletin.byMail_announced_iff (b := b) hsound
  have hannounced (front : List Text) := Bulletin.leadersTold_announced (b := b) hsound front
  have hstart := hannounced []
  constructor
  · intro h p hp hout
    -- a run in which all calls fail, or none does
    let steady : Service → Bool → Prop := fun _ fails => fails = outages
    have hends : b.Ends steady db (exec b.create ⟨db, fun _ _ => outages⟩).2.db :=
      db_of_ensures (Bulletin.create_ends hsound hb) fun _ _ => rfl
    have htold : LeadersTold b db (exec b.create ⟨db, fun _ _ => outages⟩).2.db :=
      db_of_ensures h fun _ _ hfails => hfails
    rcases hends with ⟨-, -, heq⟩ | ⟨-, front, heq⟩ | ⟨hmail, hunique, heq⟩
    · rw [heq] at htold
      exact absurd hout (hstart.mp htold p hp)
    · rw [heq] at htold
      exact absurd hout ((hannounced front).mp htold p hp)
    · rw [heq, Bulletin.leadersTold_finished hsound hunique] at htold
      refine ⟨htold p hp hout, hunique, ?_⟩
      intro houtages htype q hq
      by_contra hin
      have hfalse : false = outages := hmail (hmailed.mpr ⟨htype, q, hq, hin⟩)
      rw [houtages] at hfalse
      cases hfalse
  · intro h
    have hends {db' : Db} (hdb' : b.Ends (unreliable outages) db db') : LeadersTold b db db' := by
      rcases hdb' with ⟨hmail, hmay, rfl⟩ | ⟨hseveral, front, rfl⟩ | ⟨-, hunique, rfl⟩
      · refine hstart.mpr fun p hp hout => ?_
        obtain ⟨htype, q, hq, hin⟩ := hmailed.mp hmail
        exact hin ((h p hp hout).2.2 (hmay rfl) htype q hq)
      · refine (hannounced front).mpr fun p hp hout => ?_
        obtain ⟨name, hname, hname'⟩ := hseveral
        exact (h p hp hout).2.1 name hname hname'
      · exact (Bulletin.leadersTold_finished hsound hunique).mpr
          fun p hp hout => (h p hp hout).1
    exact ensures_mono (Bulletin.create_ends hsound hb) (fun _ _ => hends) fun _ => hends

theorem emptyBoard_sound : emptyBoard.Sound :=
  Db.sound_of_new ⟨_, rfl⟩ ⟨_, rfl⟩ rfl rfl rfl rfl (by decide)

/-- The member asks to lead. -/
def bobsRequest (content : Text) : Bulletin :=
  ⟨0, .leadership, text "Bob wants to lead", content, 2, none, Petri.nyc, true, false, none, false,
    none⟩

theorem create_leadersTold_iff_mentioned :
    Ensures (unreliable true) emptyBoard (bobsRequest (text "@ann knows me")).create
        (fun _ => LeadersTold (bobsRequest (text "@ann knows me")) emptyBoard)
        (LeadersTold (bobsRequest (text "@ann knows me")) emptyBoard) ↔
      ∀ p, Leads (bobsRequest (text "@ann knows me")) emptyBoard p →
        LeftOut (bobsRequest (text "@ann knows me")) p →
          Mentions (bobsRequest (text "@ann knows me")) p ∧
            Reaches true (bobsRequest (text "@ann knows me")) emptyBoard :=
  create_leadersTold_iff true emptyBoard (bobsRequest (text "@ann knows me")) emptyBoard_sound rfl

/-- Somebody else is mentioned, whose name begins with the leader's. -/
theorem create_not_leadersTold :
    ¬∀ (db : Db) (b : Bulletin), db.Sound → b.actualType = .leadership →
      Ensures (unreliable false) db b.create (fun _ => LeadersTold b db) (LeadersTold b db) := by
  intro h
  let b := bobsRequest (text "@anna knows me")
  let db := (exec b.create ⟨emptyBoard, fun _ _ => false⟩).2.db
  have htold : LeadersTold b emptyBoard db :=
    db_of_ensures (h emptyBoard b emptyBoard_sound rfl) fun _ _ hfails => hfails
  have hleads : Leads b emptyBoard (Petri.member 1 (text "ann") true) :=
    ⟨by decide, rfl, rfl⟩
  rcases htold _ hleads with ⟨-, hreceived⟩ | hreceived
  · exact absurd hreceived (by decide +kernel)
  · exact absurd hreceived (by decide +kernel)

end Leadership

end HackerUnion.Board
