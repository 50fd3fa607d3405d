import HackerUnion.Board.Ledger

namespace HackerUnion.Board

open Bash (Text text)
open Durable
open Durable.Handler
open Petri (decimal getMentions)

namespace Ledger

def Has (l : Ledger) : Item → Prop
  | .bulletin k => k ∈ l.bulletins
  | .comment k => k ∈ l.comments

/-- What comes next of each kind. -/
def upcomingBulletin (l : Ledger) : Item := .bulletin l.nextBulletin

def upcomingComment (l : Ledger) : Item := .comment l.nextComment

/-- The key of this item has not been given out. -/
def Fresh (l : Ledger) : Item → Prop
  | .bulletin k => l.nextBulletin ≤ k
  | .comment k => l.nextComment ≤ k

def enterBulletin (l : Ledger) : Ledger :=
  { l with bulletins := l.bulletins ++ [l.nextBulletin], nextBulletin := l.nextBulletin + 1 }

def enterComment (l : Ledger) : Ledger :=
  { l with comments := l.comments ++ [l.nextComment], nextComment := l.nextComment + 1 }

end Ledger

/-- The mail is marked as one from here. -/
def Internal (m : Message) : Prop := ∃ v, (internalEmailHeader, v) ∈ m.headers

/-- The ledger is this one, but that there may be one mail more, about this item. -/
def Mailed (l : Ledger) (P : Prop) (item : Item) (may : Prop) (db : Db) : Prop :=
  ∃ s, (s = l.sent ∨ (may ∧ ∃ m, Internal m ∧ s = l.sent ++ [(item, m)])) ∧
    At { l with sent := s } P db

variable {db : Db} {l : Ledger} {P may : Prop} {b : Bulletin} {c : Comment} {item : Item}

theorem At.mailed (h : At l P db) : Mailed l P item may db := ⟨l.sent, Or.inl rfl, h⟩

theorem Mailed.mono {may' : Prop} (h : Mailed l P item may db) (hmay : may → may') :
    Mailed l P item may' db := by
  obtain ⟨s, hs, hat⟩ := h
  exact ⟨s, hs.imp_right fun hs => ⟨hmay hs.1, hs.2⟩, hat⟩

/-- What is quiet whatever was mailed leaves it at that. -/
theorem mailed_keeps {α : Type} {d : M α} (hd : ∀ s, Quiet { l with sent := s } P d) :
    Keeps anyhow (Mailed l P item may) d := by
  intro db h
  obtain ⟨s, hs, hat⟩ := h
  refine ensures_mono (hd s db hat) ?_ ?_
  · intro _ _ h'
    exact ⟨s, hs, h'⟩
  · intro _ h'
    exact ⟨s, hs, h'⟩

section Save

/-- A bulletin that is there is saved in its place. -/
theorem Bulletin.put_quiet (hb : b.pk ∈ l.bulletins) : Quiet l P b.put := by
  intro db h
  apply ensures_write
  obtain ⟨rfl, hreadable⟩ := h
  obtain ⟨x, hx, hpk⟩ := List.mem_map.mp hb
  have hfind : db.bulletins.find? b.pk = some x := Serial.find?_eq_some_iff.mpr ⟨hx, hpk⟩
  have hkeys := Serial.map_save_of_find? (r := b) hfind
  have hnext := Serial.next_save_of_find? (r := b) hfind
  refine ⟨?_, fun hp => (hreadable hp).congr rfl rfl rfl ?_ (List.Subset.refl _)⟩
  · simp only [Db.ledger, hkeys, hnext]
  · simp only [Db.ledger, hkeys]
    exact List.Subset.refl _

theorem Comment.put_quiet (hc : c.pk ∈ l.comments) : Quiet l P c.put := by
  intro db h
  apply ensures_write
  obtain ⟨rfl, hreadable⟩ := h
  obtain ⟨x, hx, hpk⟩ := List.mem_map.mp hc
  have hfind : db.comments.find? c.pk = some x := Serial.find?_eq_some_iff.mpr ⟨hx, hpk⟩
  have hkeys := Serial.map_save_of_find? (r := c) hfind
  have hnext := Serial.next_save_of_find? (r := c) hfind
  refine ⟨?_, fun hp => (hreadable hp).congr rfl rfl rfl (List.Subset.refl _) ?_⟩
  · simp only [Db.ledger, hkeys, hnext]
  · simp only [Db.ledger, hkeys]
    exact List.Subset.refl _

/-- A new one is entered. -/
theorem At.put_bulletin (h : At l P db) (hb : b.pk = l.nextBulletin) :
    At l.enterBulletin P { db with bulletins := db.bulletins.save b } := by
  obtain ⟨rfl, hreadable⟩ := h
  have hkeys := Serial.map_save_next (t := db.bulletins) (r := b) hb
  have hnext := Serial.next_save_next (t := db.bulletins) (r := b) hb
  refine ⟨?_, fun hp => (hreadable hp).congr rfl rfl rfl ?_ (List.Subset.refl _)⟩
  · simp only [Db.ledger, Ledger.enterBulletin, hkeys, hnext]
  · simp only [Db.ledger, hkeys]
    exact List.subset_append_left _ _

theorem At.put_comment (h : At l P db) (hc : c.pk = l.nextComment) :
    At l.enterComment P { db with comments := db.comments.save c } := by
  obtain ⟨rfl, hreadable⟩ := h
  have hkeys := Serial.map_save_next (t := db.comments) (r := c) hc
  have hnext := Serial.next_save_next (t := db.comments) (r := c) hc
  refine ⟨?_, fun hp => (hreadable hp).congr rfl rfl rfl (List.Subset.refl _) ?_⟩
  · simp only [Db.ledger, Ledger.enterComment, hkeys, hnext]
  · simp only [Db.ledger, hkeys]
    exact List.subset_append_left _ _

theorem Bulletin.update_quiet (hb : b.pk ∈ l.bulletins) : Quiet l P b.update := by
  apply keeps_bind (Bulletin.put_quiet (b := b.withContent) hb)
  intro _
  exact mentioned_quiet (resolves_entries hb) _

theorem Comment.update_quiet (hb : b.pk ∈ l.bulletins) (hc : c.pk ∈ l.comments) :
    Quiet l P (c.update b) := by
  apply keeps_bind (Comment.put_quiet (c := c.withContent b) hc)
  intro _
  exact mentioned_quiet (resolves_comment_entries hb hc) _

/-- Of what is not in the ledger anything may be written. -/
theorem write_quiet {f : Db → Db} (hl : ∀ db, (f db).ledger = db.ledger)
    (hn : ∀ db, (f db).notifications = db.notifications)
    (hr : ∀ db, (f db).recipients = db.recipients) (he : ∀ db, (f db).entries = db.entries) :
    Quiet l P (write f) :=
  fun db h => ensures_write (h.same (hl db) (hn db) (hr db) (he db))

theorem Bulletin.follow_quiet (user : Nat) : Quiet l P (b.follow user) :=
  write_quiet (fun _ => rfl) (fun _ => rfl) (fun _ => rfl) fun _ => rfl

theorem Bulletin.unfollow_quiet (user : Nat) : Quiet l P (b.unfollow user) :=
  write_quiet (fun _ => rfl) (fun _ => rfl) (fun _ => rfl) fun _ => rfl

end Save

section Broadcast

/-- A mail that is taken is marked, and is the last one. -/
theorem ensures_sendEmail {may : Service → Bool → Prop} {Q : Text → Db → Prop} {R : Db → Prop}
    {recipient subject body sender : Text} {reply : Option Text}
    (hok : may .mailgun false → ∀ m, Internal m →
      Q (db.messageId db.sent.length) { db with sent := db.sent ++ [(item, m)] })
    (hfail : may .mailgun true → R db) :
    Ensures may db (sendEmail item recipient subject body sender reply true) Q R := by
  apply ensures_bind
  refine ensures_call ?_ hfail
  intro hmay
  apply ensures_read
  apply ensures_bind
  apply ensures_write
  apply ensures_pure
  refine hok hmay _ ?_
  exact ⟨text "Made by MY team.", List.mem_append_left _ (List.mem_singleton_self _)⟩

theorem sendEmail_ensures {recipient subject body sender : Text} {reply : Option Text}
    (h : At l P db) :
    Ensures anyhow db (sendEmail item recipient subject body sender reply true)
      (fun _ db' => ∃ m, Internal m ∧ At { l with sent := l.sent ++ [(item, m)] } P db')
      (At l P) := by
  refine ensures_sendEmail ?_ fun _ => h
  intro _ m hm
  obtain ⟨rfl, hreadable⟩ := h
  refine ⟨m, hm, rfl, fun hp => (hreadable hp).congr rfl rfl rfl ?_ ?_⟩
  · exact List.Subset.refl _
  · exact List.Subset.refl _

theorem Bulletin.broadcast_ensures (hb : b.pk ∈ l.bulletins) (h : At l P db) :
    Ensures anyhow db b.broadcast
      (fun _ => Mailed l P (.bulletin b.pk) (b.canBroadcast = true))
      (Mailed l P (.bulletin b.pk) (b.canBroadcast = true)) := by
  unfold Bulletin.broadcast
  split
  · exact ensures_pure h.mailed
  · rename_i hcan
    have hcan : b.canBroadcast = true := by simpa using hcan
    apply ensures_then (getUser_quiet b.owner db h)
    · intro owner db₁ h₁
      apply ensures_then (sendEmail_ensures h₁)
      · intro id db₂ h₂
        obtain ⟨m, hm, h₂⟩ := h₂
        have hmailed (db' : Db) (h' : At { l with sent := l.sent ++ [(.bulletin b.pk, m)] } P db') :
            Mailed l P (.bulletin b.pk) (b.canBroadcast = true) db' :=
          ⟨_, Or.inr ⟨hcan, m, hm, rfl⟩, h'⟩
        have hsaved : Quiet { l with sent := l.sent ++ [(.bulletin b.pk, m)] } P
            (Bulletin.update { b with threadId := some id }) := Bulletin.update_quiet hb
        refine ensures_mono (hsaved db₂ h₂) ?_ ?_
        · intro _ _ h'
          exact hmailed _ h'
        · exact hmailed
      · intro _ h'
        exact h'.mailed
    · intro _ h'
      exact h'.mailed

theorem Comment.broadcast_ensures (hb : b.pk ∈ l.bulletins) (hc : c.pk ∈ l.comments)
    (h : At l P db) :
    Ensures anyhow db (c.broadcast b)
      (fun _ => Mailed l P (.comment c.pk) (c.canBroadcast b = true))
      (Mailed l P (.comment c.pk) (c.canBroadcast b = true)) := by
  unfold Comment.broadcast
  split
  · exact ensures_pure h.mailed
  · rename_i hcan
    have hcan : c.canBroadcast b = true := by simpa using hcan
    apply ensures_then (getUser_quiet b.owner db h)
    · intro owner db₁ h₁
      apply ensures_then (getUser_quiet c.owner db₁ h₁)
      · intro author db₂ h₂
        apply ensures_then (sendEmail_ensures h₂)
        · intro id db₃ h₃
          obtain ⟨m, hm, h₃⟩ := h₃
          have hmailed (db' : Db)
              (h' : At { l with sent := l.sent ++ [(.comment c.pk, m)] } P db') :
              Mailed l P (.comment c.pk) (c.canBroadcast b = true) db' :=
            ⟨_, Or.inr ⟨hcan, m, hm, rfl⟩, h'⟩
          have hsaved : Quiet { l with sent := l.sent ++ [(.comment c.pk, m)] } P (do
              write fun db => { db with receivers := db.receivers.disconnect .broadcastComment }
              { c with threadId := some id }.update b
              write fun db => { db with receivers := db.receivers.connect .broadcastComment }) := by
            apply keeps_bind
            · exact write_quiet (fun _ => rfl) (fun _ => rfl) (fun _ => rfl) fun _ => rfl
            · intro _
              apply keeps_bind
              · exact Comment.update_quiet (c := { c with threadId := some id }) hb hc
              · intro _
                exact write_quiet (fun _ => rfl) (fun _ => rfl) (fun _ => rfl) fun _ => rfl
          refine ensures_mono (hsaved db₃ h₃) ?_ ?_
          · intro _ _ h'
            exact hmailed _ h'
          · exact hmailed
        · intro _ h'
          exact h'.mailed
      · intro _ h'
        exact h'.mailed
    · intro _ h'
      exact h'.mailed

end Broadcast

section Create

theorem Bulletin.createLeadership_quiet (hb : b.pk ∈ l.bulletins) :
    Quiet l P b.createLeadership := by
  apply keeps_bind keeps_read
  intro db
  exact notify_quiet (f := fun _ told => told) (resolves_leadership hb)
    fun u db R => ensures_pure rfl

theorem Comment.createComment_quiet (hb : b.pk ∈ l.bulletins) (hc : c.pk ∈ l.comments) :
    Quiet l P (c.createComment b) := by
  unfold Comment.createComment
  split
  · exact keeps_pure _
  · apply keeps_bind keeps_read
    intro db
    exact notify_quiet (f := fun _ told => told) (resolves_comment_entries hb hc)
      fun u db R => ensures_pure rfl

theorem Bulletin.create_ensures (h : At l P db) :
    Ensures anyhow db b.create
      (fun b' db' => b'.pk = l.nextBulletin ∧
        Mailed l.enterBulletin P l.upcomingBulletin (b.canBroadcast = true) db')
      (Mailed l.enterBulletin P l.upcomingBulletin (b.canBroadcast = true)) := by
  have hnext : db.bulletins.next = l.nextBulletin := by
    rw [← h.1]
    rfl
  apply ensures_read
  rw [hnext]
  let made : Bulletin := { b.withContent with pk := l.nextBulletin }
  have hmem : made.pk ∈ l.enterBulletin.bulletins :=
    List.mem_append_right _ (List.mem_singleton_self _)
  have hmem' (s : List (Item × Message)) :
      made.pk ∈ ({ l.enterBulletin with sent := s } : Ledger).bulletins := hmem
  apply ensures_bind
  apply ensures_write
  apply ensures_seq (Bulletin.broadcast_ensures hmem (h.put_bulletin rfl))
  intro _ db₁ h₁
  have hnoted : Keeps anyhow (Mailed l.enterBulletin P l.upcomingBulletin (b.canBroadcast = true))
      (mentioned (.bulletin made.pk) made.entries (getMentions b.content)) :=
    mailed_keeps fun s => mentioned_quiet (resolves_entries (hmem' s)) _
  have hlast (db₂ : Db)
      (h₂ : Mailed l.enterBulletin P l.upcomingBulletin (b.canBroadcast = true) db₂) :
      Ensures anyhow db₂ (do
        mentioned (.bulletin made.pk) made.entries (getMentions b.content)
        return made)
        (fun b' db' => b'.pk = l.nextBulletin ∧
          Mailed l.enterBulletin P l.upcomingBulletin (b.canBroadcast = true) db')
        (Mailed l.enterBulletin P l.upcomingBulletin (b.canBroadcast = true)) := by
    apply ensures_seq (hnoted db₂ h₂)
    intro _ db₃ h₃
    exact ensures_pure ⟨rfl, h₃⟩
  dsimp only
  split
  · have htold : Keeps anyhow
        (Mailed l.enterBulletin P l.upcomingBulletin (b.canBroadcast = true))
        made.createLeadership :=
      mailed_keeps fun s => Bulletin.createLeadership_quiet (hmem' s)
    apply ensures_seq (htold db₁ h₁)
    intro _ db₂ h₂
    exact hlast db₂ h₂
  · exact hlast db₁ h₁

/-- A comment is mailed at most once, as each receiver is called once. -/
theorem Comment.receive_ensures (hb : b.pk ∈ l.bulletins) (hc : c.pk ∈ l.comments)
    {rs : List Receiver} (hrs : rs.Nodup) (h : At l P db) :
    Ensures anyhow db (rs.forM (c.receive b))
      (fun _ => Mailed l P (.comment c.pk) (c.canBroadcast b = true))
      (Mailed l P (.comment c.pk) (c.canBroadcast b = true)) := by
  let I : List Receiver → Db → Prop := fun rest db' => rest.Nodup ∧
    Mailed l P (.comment c.pk) (c.canBroadcast b = true) db' ∧
    (.broadcastComment ∈ rest → At l P db')
  have hround (r : Receiver) (rest : List Receiver) (db' : Db) (hi : I (r :: rest) db') :
      Ensures anyhow db' (c.receive b r) (fun _ => I rest)
        (Mailed l P (.comment c.pk) (c.canBroadcast b = true)) := by
    obtain ⟨hnodup, hmailed, hat⟩ := hi
    obtain ⟨hr, hrest⟩ := List.nodup_cons.mp hnodup
    cases r with
    | broadcastComment =>
      refine ensures_weaken (Comment.broadcast_ensures hb hc (hat List.mem_cons_self)) ?_
      intro _ _ h'
      exact ⟨hrest, h', fun hmem => absurd hmem hr⟩
    | createComment =>
      by_cases hmem : .broadcastComment ∈ rest
      · refine ensures_mono (Comment.createComment_quiet hb hc db'
          (hat (List.mem_cons_of_mem _ hmem))) ?_ ?_
        · intro _ _ h'
          exact ⟨hrest, h'.mailed, fun _ => h'⟩
        · intro _ h'
          exact h'.mailed
      · have hquiet : Keeps anyhow (Mailed l P (.comment c.pk) (c.canBroadcast b = true))
            (c.createComment b) := mailed_keeps fun s => Comment.createComment_quiet hb hc
        refine ensures_weaken (hquiet db' hmailed) ?_
        intro _ _ h'
        exact ⟨hrest, h', fun hmem' => absurd hmem' hmem⟩
  refine ensures_weaken (ensures_forM hround ⟨hrs, h.mailed, fun _ => h⟩) ?_
  intro _ _ h'
  exact h'.2.1

theorem Comment.create_ensures (hb : b.pk ∈ l.bulletins) (h : At l P db) :
    Ensures anyhow db (c.create b)
      (fun c' db' => c'.pk = l.nextComment ∧
        Mailed l.enterComment P l.upcomingComment (c.canBroadcast b = true) db')
      (Mailed l.enterComment P l.upcomingComment (c.canBroadcast b = true)) := by
  have hnext : db.comments.next = l.nextComment := by
    rw [← h.1]
    rfl
  apply ensures_read
  rw [hnext]
  let made : Comment := { c.withContent b with pk := l.nextComment }
  have hmem : made.pk ∈ l.enterComment.comments :=
    List.mem_append_right _ (List.mem_singleton_self _)
  have hb' : b.pk ∈ l.enterComment.bulletins := hb
  apply ensures_bind
  apply ensures_write
  apply ensures_read
  apply ensures_seq (Comment.receive_ensures hb' hmem db.receivers.nodup (h.put_comment rfl))
  intro _ db₁ h₁
  have hnoted : Keeps anyhow (Mailed l.enterComment P l.upcomingComment (c.canBroadcast b = true))
      (mentioned (.comment made.pk) (made.entries b) (getMentions c.content)) :=
    mailed_keeps fun s => mentioned_quiet (resolves_comment_entries (b := b) (c := made)
      (l := { l.enterComment with sent := s }) hb hmem) _
  apply ensures_seq (hnoted db₁ h₁)
  intro _ db₂ h₂
  exact ensures_pure ⟨rfl, h₂⟩

end Create

end HackerUnion.Board
