import HackerUnion.Petri.Sync

namespace HackerUnion.Petri

open Bash (Text text)
open Durable
open Durable.Handler

/-- The route of a user's own address here to the address that he gave. -/
def proxyRoute (u : User) : Route :=
  ⟨emailFormat u.username, u.email,
    text "[proxy] " ++ proxyFromFlag u.email ++ emailFormat u.username⟩

/-- A route that was made for the user's address. -/
def OwnRoute (u : User) (r : Route) : Prop :=
  r.forward = u.email ∧ text "[proxy] " ++ proxyFromFlag u.email <+: r.description

/-- The user's own proxy route is replaced, and every other route is left in place: those of other
users and of chapters, and any that there are besides. -/
structure Isolated (users : List User) (chapters : List Chapter) (u : User)
    (before after : List Route) : Prop where
  once : after.count (proxyRoute u) = 1
  own : ∀ r ∈ after, OwnRoute u r → r = proxyRoute u
  users : ∀ v ∈ users, v ≠ u → after.count (proxyRoute v) = before.count (proxyRoute v)
  chapters : ∀ c ∈ chapters, ∀ r ∈ chapterRoutes c, after.count r = before.count r
  others : ∀ r, ¬OwnRoute u r → after.count r = before.count r

/-- No route but the user's own has his flag in its description. -/
def Unflagged (u : User) (routes : List Route) : Prop :=
  ∀ r ∈ routes, ¬OwnRoute u r → ¬proxyFromFlag u.email <:+: r.description

variable {db : Db} {R : Db → Prop} {u v : User} {c : Chapter} {users : List User}
  {chapters : List Chapter} {before after : List Route}

section Flag

/-- A part that ends in a separator occurs before the only separator there is if and only if it is
an ending of what is there. -/
theorem flag_infix_iff {d : Char} {e w s a : Text} (hs : d ∉ s) (hw : d ∉ w) (ha : d ∉ a) :
    e ++ (d :: s ++ [d]) <:+: w ++ (d :: s ++ [d]) ++ a ↔ e <:+ w := by
  constructor
  · intro h
    obtain ⟨x, y, hxy⟩ := h
    have hcount := congrArg (List.count d) hxy
    simp only [List.count_append, List.count_cons_self, List.count_nil, List.cons_append,
      List.count_eq_zero_of_not_mem hs, List.count_eq_zero_of_not_mem hw,
      List.count_eq_zero_of_not_mem ha] at hcount
    have hx : d ∉ x := List.count_eq_zero.mp (by omega)
    have he : d ∉ e := List.count_eq_zero.mp (by omega)
    have hxe : d ∉ x ++ e := by simp [hx, he]
    have hsplit : (x ++ e) ++ d :: (s ++ [d] ++ y) = w ++ d :: (s ++ [d] ++ a) := by
      simpa using hxy
    exact ⟨x, (Bash.append_cons_inj hxe hw hsplit).1⟩
  · intro h
    obtain ⟨x, rfl⟩ := h
    exact ⟨x, a, by simp⟩

theorem proxyFromFlag_eq (e : Text) : proxyFromFlag e = e ++ (':' :: text "proxy" ++ [':']) := rfl

/-- Where neither address nor name has a colon, another user's route has the flag of those whose
address is an ending of his own. -/
theorem flag_infix_proxyRoute_iff (he : ':' ∉ v.email) (hn : ':' ∉ v.username) :
    proxyFromFlag u.email <:+: (proxyRoute v).description ↔
      u.email <:+ text "[proxy] " ++ v.email := by
  have hw : ':' ∉ text "[proxy] " ++ v.email := by
    rw [List.mem_append, not_or]
    exact ⟨by decide, he⟩
  have ha : ':' ∉ emailFormat v.username := by
    unfold emailFormat
    rw [List.mem_append, not_or]
    exact ⟨hn, by decide⟩
  have hs : ':' ∉ text "proxy" := by decide
  have hflag := flag_infix_iff (e := u.email) hs hw ha
  rw [← hflag]
  simp only [proxyRoute, proxyFromFlag_eq, List.append_assoc]

/-- A chapter's route has it only where the slug has a colon. -/
theorem flag_not_infix_chapterRoute (hc : ':' ∉ c.slug) {r : Route} (hr : r ∈ chapterRoutes c) :
    ¬proxyFromFlag u.email <:+: r.description := by
  intro h
  have hcolon : ':' ∈ r.description := by
    refine h.subset ?_
    rw [proxyFromFlag_eq]
    simp
  have hprefix : ':' ∉ chapterPrefix ++ text " " := by decide
  have hdiscuss : ':' ∉ text " discussion list" := by decide
  have hofficial : ':' ∉ text " official list" := by decide
  simp only [chapterRoutes, List.mem_cons, List.not_mem_nil, or_false] at hr
  rcases hr with rfl | rfl
  · simp_all
  · simp_all

end Flag

section Routes

/-- The routes that have the flag of the user are dropped, and his own is created. -/
def Reproxied (u : User) (before after : List Route) : Prop :=
  ∀ r, after.count r =
    (if Bash.contains (proxyFromFlag u.email) r.description = true then 0 else before.count r) +
      [proxyRoute u].count r

theorem dropRoutes_count {flag : Text} : Ensures calm db (dropRoutes flag)
    (fun _ db' => ∀ r, db'.routes.count r =
      if Bash.contains flag r.description = true then 0 else db.routes.count r) R := by
  let kept (r : Route) : Nat :=
    if Bash.contains flag r.description = true then 0 else db.routes.count r
  let I : List Route → Db → Prop := fun rest db' =>
    ∀ r, db'.routes.count r = kept r + rest.count r
  have hround (x : Route) (rest : List Route) (db' : Db) (h : I (x :: rest) db') :
      Ensures calm db' (quietly .mailgun fun db => { db with routes := db.routes.erase x } : M Unit)
        (fun _ => I rest) R := by
    apply ensures_quietly
    · intro r
      have hr := h r
      rw [List.count_cons] at hr
      rw [List.count_erase]
      omega
    · intro hdown
      cases hdown (by decide)
  apply ensures_bind
  apply ensures_call
  · intro _
    apply ensures_read
    refine ensures_weaken (ensures_forM hround fun r => ?_) ?_
    · by_cases hflag : Bash.contains flag r.description = true
      · have hcount := List.count_filter (l := db.routes)
          (p := fun r => Bash.contains flag r.description) (a := r) hflag
        simp only [kept, hflag, if_true, hcount]
        omega
      · have hout : r ∉ db.routes.filter fun r => Bash.contains flag r.description := by
          intro hmem
          exact hflag (List.mem_filter.mp hmem).2
        simp only [kept, hflag, List.count_eq_zero_of_not_mem hout, if_false, Bool.false_eq_true]
        omega
    · intro _ db' h r
      have hr := h r
      rwa [List.count_nil, Nat.add_zero] at hr
  · intro hdown
    cases hdown (by decide)

theorem proxyEmail_reproxied : Ensures calm db (proxyEmail u.email u.username)
    (fun _ db' => Reproxied u db.routes db'.routes) R := by
  have hdrop : Ensures calm db (unproxyEmail u.email) (fun _ db' => ∀ r, db'.routes.count r =
      if Bash.contains (proxyFromFlag u.email) r.description = true then 0
      else db.routes.count r) R := dropRoutes_count
  apply ensures_seq hdrop
  intro _ db₁ h₁
  apply ensures_quietly
  · intro r
    have happend : (db₁.routes ++ [proxyRoute u]).count r =
        db₁.routes.count r + [proxyRoute u].count r := List.count_append
    rw [← h₁ r, ← happend]
    rfl
  · intro hdown
    cases hdown (by decide)

/-- The other things that are done for a member who is approved leave the routes as they are. -/
theorem activate_reproxied {p : UserProfile} {chapter : Chapter} {leader : User}
    (hleader : (db.tables.profiles.find? leader.pk).isSome = true) :
    Ensures calm db (p.activate chapter leader)
      (fun _ db' => Reproxied p.user db.routes db'.routes) R := by
  let I (_ : Option Nat) (db' : Db) : Prop := Reproxied p.user db.routes db'.routes
  have hsubscribe (list : Text) (k : Option Nat) (db' : Db) (h : I k db') :
      Ensures calm db' (subscribeList list p.getEmail) (fun _ => I k) R := by
    apply ensures_bind
    apply ensures_quietly
    · apply ensures_store
      · exact h
      · intro hdown
        cases hdown (by decide)
    · intro hdown
      cases hdown (by decide)
  have hstages : Ensures calm db (p.activate chapter leader)
      (fun p' db' => ∃ k,
        p' = { p with status := .approved, chapter := chapter, leader := k } ∧ I k db') R := by
    apply activate_stages (fun _ db' => db'.routes = db.routes) I I I
    · intro hnone
      rw [hnone] at hleader
      cases hleader
    · intro k _
      exact saved_calm rfl
    · intro k db' h
      change Ensures calm db' _ (fun _ db' => Reproxied p.user db.routes db'.routes) R
      rw [← h]
      exact proxyEmail_reproxied
    · intro k db' h
      exact ⟨fun _ => hsubscribe _ k db' h, fun _ => h⟩
    · intro k db' h
      exact ⟨fun _ => hsubscribe _ k db' h, fun _ => h⟩
  apply ensures_weaken hstages
  intro _ db' h
  obtain ⟨k, -, h⟩ := h
  exact h

end Routes

section Isolated

theorem ownRoute_proxyRoute : OwnRoute u (proxyRoute u) := by
  refine ⟨rfl, emailFormat u.username, ?_⟩
  simp only [proxyRoute, List.append_assoc]

theorem OwnRoute.contains {r : Route} (h : OwnRoute u r) :
    Bash.contains (proxyFromFlag u.email) r.description = true := by
  obtain ⟨-, hprefix⟩ := h
  rw [Bash.contains_iff]
  exact (List.suffix_append (text "[proxy] ") _).isInfix.trans hprefix.isInfix

/-- The descriptions of chapters' routes begin with another word. -/
theorem not_ownRoute_chapterRoute {r : Route} (hr : r ∈ chapterRoutes c) : ¬OwnRoute u r := by
  intro h
  obtain ⟨-, w, hw⟩ := h
  have hsecond : r.description[1]? = some 'c' := by
    simp only [chapterRoutes, List.mem_cons, List.not_mem_nil, or_false] at hr
    rcases hr with rfl | rfl
    · rfl
    · rfl
  rw [← hw] at hsecond
  cases hsecond

/-- Routes are left in place exactly where none but his own has the flag. -/
theorem isolated_iff (h : Reproxied u before after)
    (hdistinct : ∀ v ∈ users, v ≠ u → v.email ≠ u.email) :
    Isolated users chapters u before after ↔ Unflagged u before := by
  constructor
  · intro hisolated r hr hown hflag
    have hcount := hisolated.others r hown
    have hne : proxyRoute u ≠ r := by
      intro heq
      exact hown (heq ▸ ownRoute_proxyRoute)
    rw [h r, if_pos ((Bash.contains_iff _ _).mpr hflag),
      List.count_singleton, beq_eq_false_iff_ne.mpr hne] at hcount
    have hpos := List.count_pos_iff.mpr hr
    simp only [Bool.false_eq_true, if_false] at hcount
    omega
  · intro hunflagged
    have hothers (r : Route) (hown : ¬OwnRoute u r) : after.count r = before.count r := by
      have hne : proxyRoute u ≠ r := by
        intro heq
        exact hown (heq ▸ ownRoute_proxyRoute)
      rw [h r, List.count_singleton, beq_eq_false_iff_ne.mpr hne]
      simp only [Bool.false_eq_true, if_false, Nat.add_zero]
      split
      · rename_i hflag
        have hout : r ∉ before := fun hr =>
          hunflagged r hr hown ((Bash.contains_iff _ _).mp hflag)
        exact (List.count_eq_zero_of_not_mem hout).symm
      · rfl
    constructor
    · rw [h, if_pos ownRoute_proxyRoute.contains, List.count_singleton_self]
    · intro r hr hown
      have hcount := h r
      have hpos := List.count_pos_iff.mpr hr
      rw [if_pos hown.contains] at hcount
      have hmem : r ∈ [proxyRoute u] := List.count_pos_iff.mp (by omega)
      exact List.mem_singleton.mp hmem
    · intro v hv hne
      exact hothers _ fun hown => hdistinct v hv hne hown.1
    · intro c _ r hr
      exact hothers r (not_ownRoute_chapterRoute hr)
    · exact hothers

/-- Where the provider holds only routes that were made here, of addresses, names and slugs without
a colon, these are the users no ending of whose address, with the word that is put before it, is the
address of the user. -/
theorem unflagged_iff (hmade : ∀ r ∈ before, (∃ v ∈ users, r = proxyRoute v) ∨
      ∃ c ∈ chapters, r ∈ chapterRoutes c)
    (hdistinct : ∀ v ∈ users, v ≠ u → v.email ≠ u.email)
    (husers : ∀ v ∈ users, ':' ∉ v.email ∧ ':' ∉ v.username)
    (hchapters : ∀ c ∈ chapters, ':' ∉ c.slug) :
    Unflagged u before ↔ ∀ v ∈ users, v ≠ u → proxyRoute v ∈ before →
      ¬u.email <:+ text "[proxy] " ++ v.email := by
  constructor
  · intro h v hv hne hmem hsuffix
    have hown : ¬OwnRoute u (proxyRoute v) := fun hown => hdistinct v hv hne hown.1
    have hflag := (flag_infix_proxyRoute_iff (husers v hv).1 (husers v hv).2).mpr hsuffix
    exact h _ hmem hown hflag
  · intro h r hr hown hflag
    rcases hmade r hr with hproxy | hchapter
    · obtain ⟨v, hv, rfl⟩ := hproxy
      have hne : v ≠ u := by
        intro heq
        exact hown (heq ▸ ownRoute_proxyRoute)
      have hsuffix := (flag_infix_proxyRoute_iff (husers v hv).1 (husers v hv).2).mp hflag
      exact h v hv hne hr hsuffix
    · obtain ⟨c, hc, hroute⟩ := hchapter
      exact flag_not_infix_chapterRoute (hchapters c hc) hroute hflag

/-- Activating or proxying a user anew isolates the others if and only if no other route has his
flag in its description. -/
theorem proxyEmail_isolates_iff (users : List User) (chapters : List Chapter) (u : User) (db : Db)
    (hu : u ∈ users) (hemails : (users.map User.email).Nodup) (faults : Nat → Service → Bool)
    (hfaults : Within calm faults) :
    (Isolated users chapters u db.routes
        (exec (proxyEmail u.email u.username) ⟨db, faults⟩).2.db.routes ↔
      Unflagged u db.routes) ∧
    ∀ (p : UserProfile) (chapter : Chapter) (leader : User), p.user = u →
      (db.tables.profiles.find? leader.pk).isSome = true →
      (Isolated users chapters u db.routes
          (exec (p.activate chapter leader) ⟨db, faults⟩).2.db.routes ↔
        Unflagged u db.routes) := by
  have hdistinct : ∀ v ∈ users, v ≠ u → v.email ≠ u.email := by
    intro v hv hne hemail
    exact hne (List.inj_on_of_nodup_map hemails hv hu hemail)
  constructor
  · have hproxied : Reproxied u db.routes
        (exec (proxyEmail u.email u.username) ⟨db, faults⟩).2.db.routes :=
      db_of_ensures (P := fun db' : Db => Reproxied u db.routes db'.routes)
        proxyEmail_reproxied hfaults
    exact isolated_iff hproxied hdistinct
  · intro p chapter leader hp hleader
    have hactivated : Reproxied p.user db.routes
        (exec (p.activate chapter leader) ⟨db, faults⟩).2.db.routes :=
      db_of_ensures (P := fun db' : Db => Reproxied p.user db.routes db'.routes)
        (activate_reproxied hleader) hfaults
    rw [hp] at hactivated
    exact isolated_iff hactivated hdistinct

section Examples

/-- A member whose address ends in another's. -/
def joann : User := (member 3 (text "joann") false).user

/-- Both have their routes. -/
def annAndJoann : Db := { annAndBob with
  routes := [proxyRoute (member 1 (text "ann") true).user, proxyRoute joann] }

/-- His route is dropped when hers is made anew. -/
theorem proxyEmail_not_isolated :
    ¬∀ (users : List User) (chapters : List Chapter) (u : User) (db : Db), u ∈ users →
      (users.map User.email).Nodup → (users.map User.username).Nodup →
      ∀ faults, Within calm faults → Isolated users chapters u db.routes
        (exec (proxyEmail u.email u.username) ⟨db, faults⟩).2.db.routes := by
  intro h
  let ann := (member 1 (text "ann") true).user
  have hisolated := h [ann, joann] [] ann annAndJoann (by decide) (by decide) (by decide)
    (fun _ _ => false) fun _ _ _ => rfl
  have hjoann := hisolated.users joann (by decide) (by decide)
  have hcount : (exec (proxyEmail ann.email ann.username)
      ⟨annAndJoann, fun _ _ => false⟩).2.db.routes.count (proxyRoute joann) ≠
        annAndJoann.routes.count (proxyRoute joann) := by decide +kernel
  exact hcount hjoann

/-- When his is made anew, hers is kept. -/
theorem proxyEmail_isolates_iff_joann :
    (Isolated [(member 1 (text "ann") true).user, joann] [nyc] joann annAndJoann.routes
        (exec (proxyEmail joann.email joann.username)
          ⟨annAndJoann, fun _ _ => false⟩).2.db.routes ↔ Unflagged joann annAndJoann.routes) ∧
    (Isolated [(member 1 (text "ann") true).user, joann] [nyc] joann annAndJoann.routes
        (exec ((member 3 (text "joann") false).activate nyc (member 1 (text "ann") true).user)
          ⟨annAndJoann, fun _ _ => false⟩).2.db.routes ↔ Unflagged joann annAndJoann.routes) := by
  have hboth := proxyEmail_isolates_iff [(member 1 (text "ann") true).user, joann] [nyc] joann
    annAndJoann (by decide) (by decide) (fun _ _ => false) fun _ _ _ => rfl
  exact ⟨hboth.1, hboth.2 _ nyc (member 1 (text "ann") true).user rfl (by decide)⟩

end Examples

end Isolated

end HackerUnion.Petri
