import HackerUnion.Bash.Text
import HackerUnion.Durable.Handler
import Mathlib.Data.List.Nodup

namespace HackerUnion.Mailgun

open Bash (Text text)
open Durable Durable.Handler

/-- A route or a list, as the provider tells of it. -/
structure Item where
  id : Option Text
  address : Option Text
  description : Option Text
  deriving DecidableEq

inductive Kind where
  | routes
  | lists
  deriving DecidableEq

/-- What names an item in a request to drop it. -/
def Kind.name : Kind → Item → Option Text
  | .routes => Item.id
  | .lists => Item.address

/-- What the provider holds of one kind. -/
structure Stored (kind : Kind) where
  items : List Item
  named : ∀ item ∈ items, ∃ i, kind.name item = some i ∧ i ≠ []
  distinct : (items.map kind.name).Nodup

def Stored.drop {kind : Kind} (s : Stored kind) (i : Text) : Stored kind where
  items := s.items.filter fun item => kind.name item ≠ some i
  named item h := s.named item (List.mem_of_mem_filter h)
  distinct := s.distinct.sublist (List.filter_sublist.map kind.name)

/-- The provider, and the requests to drop something that it was sent. -/
structure Db where
  stored : (kind : Kind) → Stored kind
  requested : List (Kind × Text)

inductive Exn where
  | mailgunError
  | attributeError
  deriving DecidableEq

/-- Calls may fail, and there is only one provider to be called. -/
abbrev M := Handler Unit Exn Db

/-- A reply to a request for the items of a kind. -/
structure Reply where
  totalCount : Option Nat
  items : Option (List Item)

/-- What the provider answers to `list_routes` or `list_lists`. -/
def Db.reply (db : Db) (kind : Kind) (limit skip : Nat) : Reply where
  totalCount := some (db.stored kind).items.length
  items := some (((db.stored kind).items.drop skip).take limit)

/-- A silent client passes over what goes wrong. -/
def invalid {α : Type} (silent : Bool) (result : α) : M α :=
  if silent then return result else throw .mailgunError

def listItems (kind : Kind) (silent : Bool) (limit skip : Nat) : M (Option Reply) := do
  if ← fault () then invalid silent none
  else return some ((← read).reply kind limit skip)

def listRoutes (silent : Bool) (limit : Nat := 100) (skip : Nat := 0) : M (Option Reply) :=
  listItems .routes silent limit skip

def listLists (silent : Bool) (limit : Nat := 100) (skip : Nat := 0) : M (Option Reply) :=
  listItems .lists silent limit skip

/-- An item that the provider does not hold is not found. -/
def dropItem (kind : Kind) (silent : Bool) (i : Text) : M Bool := do
  write fun db => { db with requested := db.requested ++ [(kind, i)] }
  if ← fault () then invalid silent false
  else
    let found := ((← read).stored kind).items.any fun item => kind.name item = some i
    write fun db =>
      { db with stored := Function.update db.stored kind ((db.stored kind).drop i) }
    if found then return true else invalid silent false

def dropRoute (silent : Bool) (i : Text) : M Bool := dropItem .routes silent i

def dropList (silent : Bool) (address : Text) : M Bool := dropItem .lists silent address

/-- The loop that collects the items, in at most so many rounds, by `list`. -/
def fetchAll (list : M (Option Reply)) : Nat → Option Int → List Item → M (Option (List Item))
  | 0, _, _ => return none
  | rounds + 1, total, items =>
    if total.all fun total => 0 < total then do
      match ← list with
      | none => throw .attributeError
      | some reply =>
        let found := reply.items.getD []
        fetchAll list rounds (some (total.getD (reply.totalCount.getD 0) - found.length))
          (items ++ found)
    else return some items

/-- The name of an item that is to go. -/
def wanted (kind : Kind) (contains : Option Text) (item : Item) : Option Text :=
  (kind.name item).filter fun i =>
    i ≠ [] && contains.all fun part => Bash.contains part (item.description.getD [])

/-- One round of the loop that drops what is to go. -/
def dropWanted (drop : Text → M Bool) (kind : Kind) (contains : Option Text) (item : Item) :
    M Unit :=
  match wanted kind contains item with
  | none => return
  | some i => do
    let _ ← drop i
    return

/-- Whether the function has returned after so many rounds. -/
def dropAll (list : M (Option Reply)) (drop : Text → M Bool) (kind : Kind) (rounds : Nat)
    (contains : Option Text) : M Bool := do
  match ← fetchAll list rounds none [] with
  | none => return false
  | some items =>
    items.forM (dropWanted drop kind contains)
    return true

def dropRoutes (silent : Bool) (rounds : Nat) (contains : Option Text := none)
    (limit : Nat := 500) : M Bool :=
  dropAll (listRoutes silent limit) (dropRoute silent) .routes rounds contains

def dropLists (silent : Bool) (rounds : Nat) (contains : Option Text := none)
    (limit : Nat := 500) : M Bool :=
  dropAll (listLists silent limit) (dropList silent) .lists rounds contains

/-- The provider answers every call. -/
def answering (_ : Unit) (fails : Bool) : Prop := fails = false

/-- Each item that is wanted is dropped by one request, and no request is made for another. -/
def Removes (kind : Kind) (contains : Option Text) (drop : Nat → M Bool) (db : Db) : Prop :=
  ∃ enough, ∀ rounds ≥ enough, Ensures answering db (drop rounds)
    (fun returned db' => returned = true ∧
      (∃ names : List Text, db'.requested = db.requested ++ names.map (kind, ·) ∧
        names.Perm ((db.stored kind).items.filterMap (wanted kind contains))) ∧
      (db'.stored kind).items =
        (db.stored kind).items.filter (fun item => wanted kind contains item = none) ∧
      ∀ other ≠ kind, db'.stored other = db.stored other)
    (fun _ => False)

variable {kind : Kind} {silent : Bool} {limit : Nat} {contains : Option Text} {db : Db}
  {names : List Text} {R : Db → Prop}

theorem listItems_answering (limit skip : Nat) {Q : Option Reply → Db → Prop}
    (h : Q (some (db.reply kind limit skip)) db) :
    Ensures answering db (listItems kind silent limit skip) Q R := by
  apply ensures_bind
  apply ensures_fault
  · exact fun _ => ensures_read (ensures_pure h)
  · exact fun hfails => absurd hfails (by simp [answering])

section Fetch

variable {list : M (Option Reply)}
  (hlist : ∀ {Q R}, Q (some (db.reply kind limit 0)) db → Ensures answering db list Q R)

include hlist

theorem fetchAll_more {rounds : Nat} {total : Option Int} {items : List Item}
    {Q : Option (List Item) → Db → Prop} (htotal : total.all fun total => 0 < total)
    (h : Ensures answering db
      (fetchAll list rounds
        (some (total.getD (db.stored kind).items.length -
          ((db.stored kind).items.take limit).length))
        (items ++ (db.stored kind).items.take limit)) Q R) :
    Ensures answering db (fetchAll list (rounds + 1) total items) Q R := by
  rw [fetchAll, if_pos htotal]
  apply ensures_bind
  exact hlist h

/-- The loop asks for the first page again and again, and how often is counted by the total. -/
theorem fetchAll_some (hlimit : 1 ≤ limit) {rounds : Nat} {total : Int} {items : List Item}
    (hsome : 0 < total → (db.stored kind).items ≠ []) (hrounds : total.toNat < rounds) :
    Ensures answering db (fetchAll list rounds (some total) items)
      (fun found db' => db' = db ∧ ∃ times : Nat, (times = 0 ↔ total ≤ 0) ∧
        found = some (items ++
          (List.replicate times ((db.stored kind).items.take limit)).flatten)) R := by
  induction rounds generalizing total items with
  | zero => omega
  | succ rounds ih =>
    by_cases htotal : 0 < total
    · have hpage := List.length_pos_iff.mpr (hsome htotal)
      have hlength := List.length_take (i := limit) (l := (db.stored kind).items)
      apply fetchAll_more hlist (by simpa using htotal)
      rw [Option.getD_some]
      refine ensures_weaken (ih (fun _ => hsome htotal) (by omega)) ?_
      intro found db' h
      obtain ⟨hdb, times, _, hfound⟩ := h
      refine ⟨hdb, times + 1, by omega, ?_⟩
      rw [hfound, List.replicate_succ, List.flatten_cons, List.append_assoc]
    · rw [fetchAll, if_neg (by simpa using htotal)]
      exact ensures_pure ⟨rfl, 0, by omega, by simp⟩

theorem fetchAll_none (hlimit : 1 ≤ limit) {rounds : Nat}
    (hrounds : (db.stored kind).items.length + 2 ≤ rounds) :
    Ensures answering db (fetchAll list rounds none [])
      (fun found db' => db' = db ∧ ∃ times : Nat,
        (times = 0 ↔ (db.stored kind).items.length ≤ limit) ∧
        found = some
          (List.replicate (times + 1) ((db.stored kind).items.take limit)).flatten) R := by
  obtain ⟨rounds, rfl⟩ := Nat.exists_eq_add_of_lt (show 0 < rounds by omega)
  have hlength := List.length_take (i := limit) (l := (db.stored kind).items)
  rw [Nat.zero_add]
  apply fetchAll_more hlist rfl
  rw [Option.getD_none]
  refine ensures_weaken (fetchAll_some hlist hlimit ?_ (by omega)) ?_
  · intro hmore hnone
    rw [hnone] at hmore
    simp at hmore
  · intro found db' h
    obtain ⟨hdb, times, htimes, hfound⟩ := h
    refine ⟨hdb, times, by omega, ?_⟩
    rw [hfound, List.nil_append, List.replicate_succ, List.flatten_cons]

end Fetch

section Drop

/-- The store without an item, and with the request to drop it. -/
def Db.dropped (db : Db) (kind : Kind) (i : Text) : Db where
  stored := Function.update db.stored kind ((db.stored kind).drop i)
  requested := db.requested ++ [(kind, i)]

theorem Db.dropped_stored (db : Db) (kind : Kind) (i : Text) :
    ((db.dropped kind i).stored kind).items =
      (db.stored kind).items.filter fun item => kind.name item ≠ some i := by
  simp [Db.dropped, Stored.drop]

theorem Db.dropped_other (db : Db) {kind other : Kind} (i : Text) (h : other ≠ kind) :
    (db.dropped kind i).stored other = db.stored other := by
  simp [Db.dropped, h]

theorem ensures_invalid {α : Type} {result : α} {Q : α → Db → Prop} (hok : Q result db)
    (hraise : R db) : Ensures answering db (invalid silent result) Q R := by
  cases silent
  · exact ensures_throw hraise
  · exact ensures_pure hok

/-- The request is made, also where it raises, which it does for nothing that is stored. -/
theorem dropItem_answering {i : Text} {Q : Bool → Db → Prop} (hok : ∀ b, Q b (db.dropped kind i))
    (hraise : some i ∉ (db.stored kind).items.map kind.name → R (db.dropped kind i)) :
    Ensures answering db (dropItem kind silent i) Q R := by
  apply ensures_bind
  apply ensures_write
  apply ensures_bind
  apply ensures_fault
  · intro _
    apply ensures_read
    apply ensures_bind
    apply ensures_write
    by_cases hfound : some i ∈ (db.stored kind).items.map kind.name
    · rw [if_pos (by simpa using hfound)]
      exact ensures_pure (hok true)
    · rw [if_neg (by simpa using hfound)]
      exact ensures_invalid (hok false) (hraise hfound)
  · exact fun hfails => absurd hfails (by simp [answering])

/-- The loop that drops the items with these names. -/
def dropNames (drop : Text → M Bool) (names : List Text) : M Unit :=
  names.forM fun i => do
    let _ ← drop i
    return

theorem forM_wanted (drop : Text → M Bool) (kind : Kind) (contains : Option Text)
    (items : List Item) :
    items.forM (dropWanted drop kind contains) =
      dropNames drop (items.filterMap (wanted kind contains)) := by
  induction items with
  | nil => rfl
  | cons item items ih =>
    show (dropWanted drop kind contains item >>= fun _ =>
      items.forM (dropWanted drop kind contains)) = _
    rw [List.filterMap_cons, ih, dropWanted]
    cases wanted kind contains item with
    | none => rfl
    | some i => rfl

theorem dropNames_cons {i : Text} {Q : Unit → Db → Prop}
    (hok : Ensures answering (db.dropped kind i) (dropNames (dropItem kind silent) names) Q R)
    (hraise : some i ∉ (db.stored kind).items.map kind.name → R (db.dropped kind i)) :
    Ensures answering db (dropNames (dropItem kind silent) (i :: names)) Q R := by
  show Ensures answering db ((do
    let _ ← dropItem kind silent i
    return) >>= fun _ => dropNames (dropItem kind silent) names) Q R
  apply ensures_bind
  apply ensures_bind
  exact dropItem_answering (fun _ => ensures_pure hok) hraise

theorem dropNames_requested (names : List Text) :
    Ensures answering db (dropNames (dropItem kind silent) names)
      (fun _ db' => db'.requested = db.requested ++ names.map (kind, ·)) fun _ => True := by
  induction names generalizing db with
  | nil => exact ensures_pure (by simp)
  | cons i names ih =>
    apply dropNames_cons _ fun _ => trivial
    refine ensures_weaken ih fun _ db' h => ?_
    rw [h, Db.dropped, List.append_assoc]
    rfl

theorem dropNames_found (hnames : names.Nodup)
    (hstored : ∀ i ∈ names, some i ∈ (db.stored kind).items.map kind.name) :
    Ensures answering db (dropNames (dropItem kind silent) names)
      (fun _ db' => db'.requested = db.requested ++ names.map (kind, ·) ∧
        (db'.stored kind).items =
          (db.stored kind).items.filter (fun item => ∀ i ∈ names, kind.name item ≠ some i) ∧
        ∀ other ≠ kind, db'.stored other = db.stored other) R := by
  induction names generalizing db with
  | nil => exact ensures_pure (by simp)
  | cons i names ih =>
    obtain ⟨hfresh, hnames⟩ := List.nodup_cons.mp hnames
    apply dropNames_cons
    · refine ensures_weaken (ih hnames ?_) ?_
      · intro j hj
        obtain ⟨item, hitem, hname⟩ := List.mem_map.mp (hstored j (List.mem_cons_of_mem i hj))
        rw [Db.dropped_stored, List.mem_map]
        refine ⟨item, List.mem_filter.mpr ⟨hitem, ?_⟩, hname⟩
        have hne : j ≠ i := fun hsame => hfresh (hsame ▸ hj)
        simpa [hname] using hne
      · intro _ db' h
        obtain ⟨hrequested, hitems, hother⟩ := h
        refine ⟨?_, ?_, ?_⟩
        · rw [hrequested, Db.dropped, List.append_assoc]
          rfl
        · rw [hitems, Db.dropped_stored, List.filter_filter]
          refine List.filter_congr fun item _ => ?_
          simp [Bool.and_comm]
        · intro other hne
          rw [hother other hne, Db.dropped_other db i hne]
    · exact fun hnone => absurd (hstored i List.mem_cons_self) hnone

end Drop

theorem wanted_eq_some {item : Item} {i : Text} (h : wanted kind contains item = some i) :
    kind.name item = some i := (Option.filter_eq_some_iff.mp h).1

theorem wanted_sublist (kind : Kind) (contains : Option Text) (items : List Item) :
    ((items.filterMap (wanted kind contains)).map some).Sublist (items.map kind.name) := by
  induction items with
  | nil => exact .slnil
  | cons item items ih =>
    rw [List.filterMap_cons, List.map_cons]
    cases hwanted : wanted kind contains item with
    | none => exact .cons _ ih
    | some i =>
      rw [wanted_eq_some hwanted]
      exact .cons_cons _ ih

theorem Stored.wanted_nodup (s : Stored kind) (contains : Option Text) :
    (s.items.filterMap (wanted kind contains)).Nodup :=
  (s.distinct.sublist (wanted_sublist kind contains s.items)).of_map

/-- Different items have different names, so the names tell which items were wanted. -/
theorem Stored.filter_wanted (s : Stored kind) (contains : Option Text) :
    s.items.filter (fun item =>
        ∀ i ∈ s.items.filterMap (wanted kind contains), kind.name item ≠ some i) =
      s.items.filter fun item => wanted kind contains item = none := by
  refine List.filter_congr fun item hitem => decide_eq_decide.mpr ?_
  constructor
  · intro hnone
    rw [Option.eq_none_iff_forall_not_mem]
    intro i hi
    exact hnone i (List.mem_filterMap.mpr ⟨item, hitem, hi⟩) (wanted_eq_some hi)
  · intro hnone i hi hname
    obtain ⟨other, hother, hwanted⟩ := List.mem_filterMap.mp hi
    have hsame : other = item :=
      List.inj_on_of_nodup_map s.distinct hother hitem ((wanted_eq_some hwanted).trans hname.symm)
    rw [hsame, hnone] at hwanted
    cases hwanted

/-- What is fetched, in so many rounds but one. -/
def Db.fetched (db : Db) (kind : Kind) (limit times : Nat) : List Item :=
  (List.replicate (times + 1) ((db.stored kind).items.take limit)).flatten

theorem Db.mem_fetched {item : Item} {times : Nat} (h : item ∈ db.fetched kind limit times) :
    item ∈ (db.stored kind).items.take limit := by
  obtain ⟨page, hpage, hitem⟩ := List.mem_flatten.mp h
  rwa [List.eq_of_mem_replicate hpage] at hitem

/-- Nothing of a page that is fetched twice can be wanted once only. -/
theorem Db.fetched_again {times : Nat} (htimes : times ≠ 0)
    (hnodup : ((db.fetched kind limit times).filterMap (wanted kind contains)).Nodup) :
    (db.fetched kind limit times).filterMap (wanted kind contains) = [] := by
  rw [List.filterMap_eq_nil_iff]
  intro item hitem
  by_contra hwanted
  obtain ⟨i, hi⟩ := Option.ne_none_iff_exists'.mp hwanted
  obtain ⟨times, rfl⟩ := Nat.exists_eq_succ_of_ne_zero htimes
  have hname : i ∈ ((db.stored kind).items.take limit).filterMap (wanted kind contains) :=
    List.mem_filterMap.mpr ⟨item, db.mem_fetched hitem, hi⟩
  rw [fetched, List.replicate_succ, List.flatten_cons, List.replicate_succ, List.flatten_cons,
    List.filterMap_append, List.filterMap_append, List.nodup_append] at hnodup
  exact hnodup.2.2 i hname i (List.mem_append_left _ hname) rfl

theorem dropAll_answering (hlimit : 1 ≤ limit) {rounds : Nat} {Q : Bool → Db → Prop}
    (hrounds : (db.stored kind).items.length + 2 ≤ rounds)
    (h : ∀ times, (times = 0 ↔ (db.stored kind).items.length ≤ limit) →
      Ensures answering db
        (dropNames (dropItem kind silent)
          ((db.fetched kind limit times).filterMap (wanted kind contains)))
        (fun _ => Q true) R) :
    Ensures answering db
      (dropAll (listItems kind silent limit 0) (dropItem kind silent) kind rounds contains)
      Q R := by
  apply ensures_seq (fetchAll_none (listItems_answering limit 0) hlimit hrounds)
  intro found db' hfetched
  obtain ⟨rfl, times, htimes, rfl⟩ := hfetched
  show Ensures answering db' (do
    List.forM _ (dropWanted (dropItem kind silent) kind contains)
    return true) Q R
  rw [forM_wanted]
  exact ensures_seq (h times htimes) fun _ _ hq => ensures_pure hq

/-- All items fit on the first page, or none is to go. Otherwise those of the first page are asked
to go more than once, and those of the other pages never. -/
theorem removes_iff (hlimit : 1 ≤ limit) :
    Removes kind contains (dropAll (listItems kind silent limit 0) (dropItem kind silent) kind ·
      contains) db ↔
      (db.stored kind).items.length ≤ limit ∨
        ∀ item ∈ (db.stored kind).items, wanted kind contains item = none := by
  constructor
  · intro hremoves
    by_contra! hcon
    obtain ⟨hmany, item, hitem, hwanted⟩ := hcon
    obtain ⟨enough, hremoves⟩ := hremoves
    have hremoves := hremoves (max enough ((db.stored kind).items.length + 2)) (by omega)
    have hrequested : Ensures answering db
        (dropAll (listItems kind silent limit 0) (dropItem kind silent) kind
          (max enough ((db.stored kind).items.length + 2)) contains)
        (fun _ db' => ∃ times, times ≠ 0 ∧ db'.requested = db.requested ++
          ((db.fetched kind limit times).filterMap (wanted kind contains)).map (kind, ·))
        fun _ => True := by
      apply dropAll_answering hlimit (by omega)
      intro times htimes
      exact ensures_weaken (dropNames_requested _) fun _ db' h => ⟨times, by omega, h⟩
    have hboth := ensures_raise (ensures_and hremoves hrequested) fun _ h => h.1
    obtain ⟨_, _, ⟨_, ⟨names, hnames, hperm⟩, _⟩, times, htimes, hfetched⟩ :=
      ok_of_ensures hboth (show Within answering fun _ _ => false from fun _ _ => rfl)
    have hsame : names = (db.fetched kind limit times).filterMap (wanted kind contains) :=
      List.map_injective_iff.mpr (fun _ _ h => (Prod.mk.inj h).2)
        (List.append_cancel_left (hnames.symm.trans hfetched))
    have hnodup := hperm.nodup_iff.mpr ((db.stored kind).wanted_nodup contains)
    rw [hsame] at hperm hnodup
    rw [db.fetched_again htimes hnodup] at hperm
    have hnone := List.filterMap_eq_nil_iff.mp hperm.nil_eq.symm
    exact hwanted (hnone item hitem)
  · intro hfits
    refine ⟨(db.stored kind).items.length + 2, fun rounds hrounds => ?_⟩
    apply dropAll_answering hlimit hrounds
    intro times htimes
    have hnames : (db.fetched kind limit times).filterMap (wanted kind contains) =
        (db.stored kind).items.filterMap (wanted kind contains) := by
      rcases hfits with hpage | hnone
      · rw [htimes.mpr hpage, Db.fetched, List.take_of_length_le hpage]
        simp
      · rw [List.filterMap_eq_nil_iff.mpr hnone, List.filterMap_eq_nil_iff]
        exact fun item hitem => hnone item (List.mem_of_mem_take (db.mem_fetched hitem))
    rw [hnames]
    refine ensures_weaken (dropNames_found ((db.stored kind).wanted_nodup contains) ?_) ?_
    · intro i hi
      exact (wanted_sublist kind contains _).subset (List.mem_map_of_mem hi)
    · intro _ db' h
      obtain ⟨hrequested, hitems, hother⟩ := h
      rw [Stored.filter_wanted] at hitems
      exact ⟨rfl, ⟨_, hrequested, .refl _⟩, hitems, hother⟩

/-- `drop_routes` and `drop_lists` -/
theorem dropRoutes_dropLists_iff (silent : Bool) (contains : Option Text) (limit : Nat)
    (hlimit : 1 ≤ limit) (db : Db) :
    (Removes .routes contains (dropRoutes silent · contains limit) db ↔
      (db.stored .routes).items.length ≤ limit ∨
        ∀ item ∈ (db.stored .routes).items, wanted .routes contains item = none) ∧
    (Removes .lists contains (dropLists silent · contains limit) db ↔
      (db.stored .lists).items.length ≤ limit ∨
        ∀ item ∈ (db.stored .lists).items, wanted .lists contains item = none) :=
  ⟨removes_iff hlimit, removes_iff hlimit⟩

/-- Two routes, and no lists. -/
def twoRoutes : Db where
  stored
    | .routes =>
      { items := [⟨some (text "1"), none, some (text "[proxy] ann")⟩,
          ⟨some (text "2"), none, some (text "[proxy] bob")⟩]
        named := by simp [Kind.name, text]
        distinct := by decide }
    | .lists => { items := [], named := by simp, distinct := by simp }
  requested := []

theorem dropRoutes_onePage :
    Removes .routes (some (text "[proxy]")) (dropRoutes true · (some (text "[proxy]")) 2)
      twoRoutes :=
  (dropRoutes_dropLists_iff true (some (text "[proxy]")) 2 (by decide) twoRoutes).1.mpr
    (.inl (by decide))

theorem dropRoutes_twoPages :
    ¬∀ (silent : Bool) (contains : Option Text) (limit : Nat) (db : Db), 1 ≤ limit →
      Removes .routes contains (dropRoutes silent · contains limit) db ∧
      Removes .lists contains (dropLists silent · contains limit) db := by
  intro hall
  have hremoves := (hall true (some (text "[proxy]")) 1 twoRoutes (by decide)).1
  exact absurd ((removes_iff (by decide)).mp hremoves) (by decide)

end HackerUnion.Mailgun
