import HackerUnion.Board.Listing
import Mathlib.Data.Finset.Basic

namespace HackerUnion.Board

open Bash (Text text)
open Durable
open Durable.Handler

/-- The notifications that the listing shows to a user, where he gets it. -/
def shownTo (db : Db) (user : Nat) : Option (Finset Nat) :=
  match get db (some user) with
  | .ok (shown, _) => some (shown.map Shown.notification).toFinset
  | .error _ => none

/-- After what a user reads, everyone else is shown what he was shown, and he himself is too, but
perhaps for what he read. -/
structure ReadPrivately (db db' : Db) (user : Nat) (data : ReadData) : Prop where
  others : ∀ v, v ≠ user → shownTo db' v = shownTo db v
  own : shownTo db' user = shownTo db user ∨
    ∃ k, data.notifId = .value k ∧ shownTo db' user = (shownTo db user).map fun s => s.erase k

/-- Nothing is missing of what else the user has not read. -/
def Clear (db : Db) (user k : Nat) : Prop :=
  ∀ n ∈ unread db user, n.pk ≠ k → Resolves db.ledger (getNDVal db n.pk)

/-- The user has not read it, and it is what he is shown, or what keeps him from being shown
anything. -/
structure Sees (db : Db) (user k : Nat) : Prop where
  enrolled : Enrolled db user
  unread : ∃ n ∈ unread db user, n.pk = k
  ofBulletin : OfBulletin db k = true
  clear : Clear db user k

/-- What is marked is seen by nobody else, and by the user himself only if nothing of it is
missing. -/
def Unshared (db : Db) (user : Nat) (data : ReadData) : Prop :=
  ∀ url k, data = ⟨some url, .value k⟩ →
    (∀ v, v ≠ user → ¬Sees db v k) ∧ (Sees db user k → Resolves db.ledger (getNDVal db k))

variable {db : Db} {user v k : Nat} {data : ReadData}

section Shown

/-- What a user is shown where he gets the listing. -/
def listing (db : Db) (user : Nat) : Finset Nat :=
  (((unread db user).map Notification.pk).filter (OfBulletin db)).toFinset

theorem shownTo_eq_some_iff {s : Finset Nat} : shownTo db user = some s ↔
    Enrolled db user ∧ (∀ n ∈ unread db user, Resolves db.ledger (getNDVal db n.pk)) ∧
      s = listing db user := by
  unfold shownTo
  constructor
  · intro h
    split at h
    · rename_i shown slug hget
      obtain ⟨henrolled, hshown⟩ := get_eq_ok_iff.mp ⟨slug, hget⟩
      have hresolves := resolves_of_showNotifications hshown
      obtain ⟨shown', hshown', hkeys⟩ := showNotifications_of_resolves hresolves
      rw [hshown] at hshown'
      obtain rfl := Except.ok.inj hshown'
      refine ⟨henrolled, hresolves, ?_⟩
      rw [← Option.some.inj h, hkeys]
      rfl
    · cases h
  · intro h
    obtain ⟨henrolled, hresolves, rfl⟩ := h
    obtain ⟨shown, hshown, hkeys⟩ := showNotifications_of_resolves hresolves
    obtain ⟨slug, hget⟩ := get_eq_ok_iff.mpr ⟨henrolled, hshown⟩
    rw [hget]
    dsimp only
    rw [hkeys]
    rfl

theorem shownTo_eq_none_iff : shownTo db user = none ↔
    ¬(Enrolled db user ∧ ∀ n ∈ unread db user, Resolves db.ledger (getNDVal db n.pk)) := by
  rw [Option.eq_none_iff_forall_ne_some]
  constructor
  · intro h hboth
    exact h (listing db user) (shownTo_eq_some_iff.mpr ⟨hboth.1, hboth.2, rfl⟩)
  · intro h s hs
    obtain ⟨henrolled, hresolves, -⟩ := shownTo_eq_some_iff.mp hs
    exact h ⟨henrolled, hresolves⟩

theorem resolves_of_not_ofBulletin (h : OfBulletin db k = false) :
    Resolves db.ledger (getNDVal db k) := by
  intro w hw
  unfold OfBulletin at h
  rw [hw] at h
  cases h

/-- Nothing is missing where nothing else is and nothing of it is. -/
theorem Clear.resolves (h : Clear db user k) (hk : Resolves db.ledger (getNDVal db k)) :
    ∀ n ∈ unread db user, Resolves db.ledger (getNDVal db n.pk) := by
  intro n hn
  by_cases hpk : n.pk = k
  · rw [hpk]
    exact hk
  · exact h n hn hpk

end Shown

section MarkRead

theorem unread_markRead (db : Db) (k user : Nat) :
    unread (markRead k db) user = (unread db user).filter fun n => n.pk ≠ k := by
  unfold markRead
  cases hfind : db.notifications.find? k with
  | none =>
    symm
    rw [List.filter_eq_self]
    intro n hn
    have hmem := (mem_unread.mp hn).1
    simpa using Serial.find?_eq_none_iff.mp hfind n hmem
  | some n =>
    obtain ⟨hmem, hpk⟩ := Serial.find?_eq_some_iff.mp hfind
    unfold unread
    have hkeys : n.pk ∈ db.notifications.rows.map Notification.pk := List.mem_map_of_mem hmem
    have hrows (p : Notification → Bool) (hp : p { n with status := .read } = false) :
        (db.notifications.save { n with status := .read }).rows.filter p =
          (db.notifications.rows.filter p).filter fun m => m.pk ≠ n.pk :=
      Table.filter_put db.notifications.nodup hp hkeys
    rw [← hpk]
    exact hrows _ rfl

/-- Nothing else is changed. -/
theorem markRead_eq (db : Db) (k : Nat) :
    ∃ ns, markRead k db = { db with notifications := ns } := by
  unfold markRead
  split
  · exact ⟨db.notifications, rfl⟩
  · exact ⟨_, rfl⟩

theorem enrolled_markRead : Enrolled (markRead k db) user ↔ Enrolled db user := by
  obtain ⟨ns, hns⟩ := markRead_eq db k
  rw [hns]
  rfl

theorem listing_markRead : listing (markRead k db) user = (listing db user).erase k := by
  have hof : OfBulletin (markRead k db) = OfBulletin db := by
    obtain ⟨ns, hns⟩ := markRead_eq db k
    rw [hns]
    rfl
  ext j
  simp only [listing, hof, unread_markRead, List.mem_toFinset, List.mem_filter, List.mem_map,
    Finset.mem_erase, decide_eq_true_eq]
  constructor
  · intro h
    obtain ⟨⟨n, ⟨hn, hne⟩, hpk⟩, hj⟩ := h
    exact ⟨hpk ▸ hne, ⟨n, hn, hpk⟩, hj⟩
  · intro h
    obtain ⟨hne, ⟨n, hn, hpk⟩, hj⟩ := h
    exact ⟨⟨n, ⟨hn, hpk ▸ hne⟩, hpk⟩, hj⟩

theorem resolves_markRead :
    (∀ n ∈ unread (markRead k db) user,
        Resolves (markRead k db).ledger (getNDVal (markRead k db) n.pk)) ↔ Clear db user k := by
  have hsame (n : Nat) : Resolves (markRead k db).ledger (getNDVal (markRead k db) n) ↔
      Resolves db.ledger (getNDVal db n) := by
    obtain ⟨ns, hns⟩ := markRead_eq db k
    rw [hns]
    rfl
  simp only [unread_markRead, hsame, Clear, List.mem_filter, decide_eq_true_eq, and_imp]

/-- What someone is shown afterwards, where he is shown something. -/
theorem shownTo_markRead {s : Finset Nat} : shownTo (markRead k db) user = some s ↔
    Enrolled db user ∧ Clear db user k ∧ s = (listing db user).erase k := by
  rw [shownTo_eq_some_iff, enrolled_markRead, resolves_markRead, listing_markRead]

/-- Who does not see it sees no change. -/
theorem shownTo_of_not_sees (h : ¬Sees db v k) :
    shownTo (markRead k db) v = shownTo db v := by
  apply Option.ext
  intro s
  rw [shownTo_markRead, shownTo_eq_some_iff]
  refine and_congr_right fun henrolled => ?_
  by_cases hmem : ∃ n ∈ unread db v, n.pk = k
  · by_cases hclear : Clear db v k
    · have hof : OfBulletin db k = false := by
        by_contra hof
        exact h ⟨henrolled, hmem, by simpa using hof, hclear⟩
      have hnot : k ∉ listing db v := by simp [listing, hof]
      rw [Finset.erase_eq_of_notMem hnot]
      exact and_congr_left fun _ =>
        ⟨fun hc => hc.resolves (resolves_of_not_ofBulletin hof), fun _ => hclear⟩
    · refine iff_of_false (fun hboth => hclear hboth.1) fun hboth => hclear ?_
      exact fun n hn _ => hboth.1 n hn
  · have hne : ∀ n ∈ unread db v, n.pk ≠ k := fun n hn hpk => hmem ⟨n, hn, hpk⟩
    have hnot : k ∉ listing db v := by
      simp only [listing, List.mem_toFinset, List.mem_filter, List.mem_map, not_and]
      intro hsome
      obtain ⟨n, hn, hpk⟩ := hsome
      exact absurd hpk (hne n hn)
    rw [Finset.erase_eq_of_notMem hnot]
    exact and_congr_left fun _ => ⟨fun hc n hn => hc n hn (hne n hn), fun hall n hn _ => hall n hn⟩

/-- Who sees it is shown the rest. -/
theorem Sees.shownTo_markRead (h : Sees db v k) :
    shownTo (markRead k db) v = some ((listing db v).erase k) :=
  Board.shownTo_markRead.mpr ⟨h.enrolled, h.clear, rfl⟩

theorem Sees.mem_listing (h : Sees db v k) : k ∈ listing db v := by
  obtain ⟨n, hn, hpk⟩ := h.unread
  simp only [listing, List.mem_toFinset, List.mem_filter, List.mem_map]
  exact ⟨⟨n, hn, hpk⟩, h.ofBulletin⟩

/-- And that is something else than before. -/
theorem Sees.changed (h : Sees db v k) : shownTo (markRead k db) v ≠ shownTo db v := by
  rw [h.shownTo_markRead]
  intro heq
  obtain ⟨-, -, hlisting⟩ := shownTo_eq_some_iff.mp heq.symm
  have hmem := h.mem_listing
  rw [← hlisting] at hmem
  exact Finset.notMem_erase k (listing db v) hmem

/-- It is taken from what he was shown before, if he was shown anything. -/
theorem Sees.erased_iff (h : Sees db v k) :
    shownTo (markRead k db) v = (shownTo db v).map (fun s => s.erase k) ↔
      Resolves db.ledger (getNDVal db k) := by
  rw [h.shownTo_markRead]
  constructor
  · intro heq
    obtain ⟨s, hs, -⟩ := Option.map_eq_some_iff.mp heq.symm
    obtain ⟨n, hn, hpk⟩ := h.unread
    rw [← hpk]
    exact (shownTo_eq_some_iff.mp hs).2.1 n hn
  · intro hresolves
    have hshown : shownTo db v = some (listing db v) :=
      shownTo_eq_some_iff.mpr ⟨h.enrolled, h.clear.resolves hresolves, rfl⟩
    rw [hshown]
    rfl

end MarkRead

/-- The marking is all that the view does, where it is given an id and where to go. -/
theorem readNotification_db {account : Account} (hu : db.users.find? user = some account)
    (faults : Nat → Service → Bool) :
    (exec (readNotification (some user) data) ⟨db, faults⟩).2.db =
      match data with
      | ⟨some _, .value k⟩ => markRead k db
      | _ => db := by
  have hsession : session db (some user) = .ok account := session_eq_ok_iff.mpr hu
  have hread : exec (read : M Db) ⟨db, faults⟩ = (.ok db, ⟨db, faults⟩) := rfl
  unfold readNotification
  rw [exec_bind, hread]
  dsimp only
  rw [hsession]
  obtain ⟨url, notifId⟩ := data
  cases url with
  | none => rfl
  | some url =>
    cases notifId with
    | blank => rfl
    | malformed => rfl
    | value k => rfl

/-- Reading is private if and only if nobody else has the notification to read, and of one's own
nothing is missing. -/
theorem readNotification_private_iff (db : Db) (user : Nat) (data : ReadData)
    (faults : Nat → Service → Bool) (hu : (db.users.find? user).isSome = true) :
    ReadPrivately db (exec (readNotification (some user) data) ⟨db, faults⟩).2.db user data ↔
      Unshared db user data := by
  obtain ⟨account, hu⟩ := Option.isSome_iff_exists.mp hu
  rw [readNotification_db hu]
  obtain ⟨url, notifId⟩ := data
  cases url with
  | none =>
    refine iff_of_true ⟨fun _ _ => rfl, Or.inl rfl⟩ ?_
    intro url k hdata
    cases hdata
  | some url =>
    cases notifId with
    | blank =>
      refine iff_of_true ⟨fun _ _ => rfl, Or.inl rfl⟩ ?_
      intro url k hdata
      cases hdata
    | malformed =>
      refine iff_of_true ⟨fun _ _ => rfl, Or.inl rfl⟩ ?_
      intro url k hdata
      cases hdata
    | value k =>
      dsimp only
      constructor
      · intro h url' k' hdata
        cases hdata
        refine ⟨fun v hv hsees => hsees.changed (h.others v hv), fun hsees => ?_⟩
        rcases h.own with hsame | ⟨k', hk', herased⟩
        · exact absurd hsame hsees.changed
        · cases hk'
          exact hsees.erased_iff.mp herased
      · intro h
        obtain ⟨hothers, hown⟩ := h url k rfl
        refine ⟨fun v hv => shownTo_of_not_sees (hothers v hv), ?_⟩
        by_cases hsees : Sees db user k
        · exact Or.inr ⟨k, rfl, hsees.erased_iff.mpr (hown hsees)⟩
        · exact Or.inl (shownTo_of_not_sees hsees)

section Examples

/-- A talk of the leader that mentions him and the member. -/
def shared : World := World.step plainProvider (.start emptyBoard [])
  (.submit (.post .talk (some 1) (text "nyc") { content := text "@ann @bob hi" }) fun _ _ => false)

/-- When the leader has read about it the member is not shown it any more. -/
theorem readNotification_not_private :
    ¬∀ (db : Db) (user : Nat) (data : ReadData) (faults : Nat → Service → Bool),
      (db.users.find? user).isSome = true →
        ReadPrivately db (exec (readNotification (some user) data) ⟨db, faults⟩).2.db user
          data := by
  intro h
  have hread := h shared.db 1 ⟨some (text "/"), .value 1⟩ (fun _ _ => false) (by decide +kernel)
  have hbefore : shownTo shared.db 2 = some {1} := by decide +kernel
  have hafter : shownTo (exec (readNotification (some 1) ⟨some (text "/"), .value 1⟩)
      ⟨shared.db, fun _ _ => false⟩).2.db 2 = some ∅ := by decide +kernel
  have hsame := hread.others 2 (by decide)
  rw [hbefore, hafter] at hsame
  exact absurd hsame (by decide)

/-- What only the member is mentioned in he reads for himself. -/
theorem readNotification_private_iff_revised :
    ReadPrivately revised.db
        (exec (readNotification (some 2) ⟨some (text "/"), .value 1⟩)
          ⟨revised.db, fun _ _ => false⟩).2.db 2 ⟨some (text "/"), .value 1⟩ ↔
      Unshared revised.db 2 ⟨some (text "/"), .value 1⟩ :=
  readNotification_private_iff revised.db 2 _ _ (by decide +kernel)

end Examples

end HackerUnion.Board
