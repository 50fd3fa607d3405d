import HackerUnion.Announce.Queue
import HackerUnion.Announce.Runs
import HackerUnion.Js.Walk

namespace HackerUnion.Announce

open Js

variable {F D : Type}

/-- A call of the callback: the task it is given, and the task it leaves unless it throws. -/
structure Call (F : Type) where
  task : Task F
  left : Option (Task F)

/-- The calls that are made in the rounds from index `i` on. -/
def callsFrom (map : Obj Nat (Option Announcement))
    (cb : Scope F D → Task F → Option Announcement → Option (Scope F D × Task F)) :
    Nat → Nat → Scope F D → List (Call F)
  | 0, _, _ => []
  | n + 1, i, scope =>
    match scope.db.spool[i]? with
    | none => callsFrom map cb n (i + 1) scope
    | some task =>
      if task.ttl = 0 then
        callsFrom map cb n (i + 1)
          { scope with db := { scope.db with spool := scope.db.spool.eraseIdx i } }
      else
        match cb scope task (map.get task.id).join with
        | none => [⟨task, none⟩]
        | some (scope, left) =>
          ⟨task, some left⟩ :: callsFrom map cb n (i + 1)
            { scope with db := { scope.db with spool := scope.db.spool.set i left } }

/-- The calls that `processQueue` makes. -/
def calls (scope : Scope F D)
    (cb : Scope F D → Task F → Option Announcement → Option (Scope F D × Task F)) :
    List (Call F) :=
  callsFrom (getAnnounceMap scope) cb scope.db.spool.length 0 { scope with dirty := true }

/-- Each task that has rounds left is passed once and in order, and nothing but what the callback
makes of them is left. -/
structure Passes (scope : Scope F D)
    (cb : Scope F D → Task F → Option Announcement → Option (Scope F D × Task F)) : Prop where
  passed : (calls scope cb).map Call.task = scope.db.spool.filter fun t => 0 < t.ttl
  left : (processQueue scope cb).map (fun s => s.db.spool) =
    some ((calls scope cb).filterMap Call.left)

def Task.expired (t : Task F) : Bool := t.ttl = 0

section Rounds

variable {map : Obj Nat (Option Announcement)}
  {cb : Scope F D → Task F → Option Announcement → Option (Scope F D × Task F)}
  {s s' : Scope F D} {i : Nat}

variable (map cb) in
/-- Past the end nothing happens. -/
theorem rounds_past (h : s.db.spool.length ≤ i) (n : Nat) :
    processFrom map cb n i s = some s ∧ callsFrom map cb n i s = [] := by
  induction n generalizing i with
  | zero => exact ⟨rfl, rfl⟩
  | succ n ih =>
    have hnone : s.db.spool[i]? = none := List.getElem?_eq_none h
    unfold processFrom callsFrom
    rw [hnone]
    exact ih (Nat.le_succ_of_le h)

/-- The rounds over `todo`, with `done` before it. -/
structure Walk (done todo : List (Task F)) (calls : List (Call F)) (spool : List (Task F)) :
    Prop where
  tasks : calls.map Call.task = walked Task.expired false todo
  spool : ∃ rest, spool = done ++ rest ∧ rest.length = (spared Task.expired false todo).length ∧
    ((∀ t ∈ todo.dropLast, t.expired = false) → rest = calls.filterMap Call.left)

/-- A task that has expired is dropped, and the one that moves up is never come to. -/
theorem Walk.expired {t u : Task F} {done todo : List (Task F)} {calls : List (Call F)}
    {spool : List (Task F)} (ht : t.expired = true) (h : Walk (done ++ [u]) todo calls spool) :
    Walk done (t :: u :: todo) calls spool := by
  obtain ⟨htasks, rest, hrest, hlength, -⟩ := h
  refine ⟨?_, u :: rest, by simp [hrest], ?_, ?_⟩
  · rw [htasks]
    simp [walked, ht]
  · rw [List.length_cons, hlength]
    simp [spared, ht]
  · intro hlast
    have hfalse := hlast t (by simp)
    rw [ht] at hfalse
    cases hfalse

/-- A task that has rounds left is passed to the callback, which leaves one in its place. -/
theorem Walk.visited {t t' : Task F} {done todo : List (Task F)} {calls : List (Call F)}
    {spool : List (Task F)} (ht : t.expired = false) (h : Walk (done ++ [t']) todo calls spool) :
    Walk done (t :: todo) (⟨t, some t'⟩ :: calls) spool := by
  obtain ⟨htasks, rest, hrest, hlength, hleft⟩ := h
  refine ⟨?_, t' :: rest, by simp [hrest], ?_, ?_⟩
  · rw [List.map_cons, htasks]
    simp [walked, ht]
  · rw [List.length_cons, hlength]
    simp [spared, ht]
  · intro hlast
    have hrest' : ∀ x ∈ todo.dropLast, x.expired = false := by
      intro x hx
      cases todo with
      | nil => cases hx
      | cons u todo => exact hlast x (List.mem_cons_of_mem t hx)
    rw [hleft hrest']
    rfl

theorem rounds_walk
    (hcb : ∀ s t a s' t', cb s t a = some (s', t') → s'.db.spool = s.db.spool)
    (n : Nat) (done todo : List (Task F)) (hspool : s.db.spool = done ++ todo)
    (hn : todo.length ≤ n) (h : processFrom map cb n done.length s = some s') :
    Walk done todo (callsFrom map cb n done.length s) s'.db.spool := by
  induction n generalizing s done todo with
  | zero =>
    obtain rfl := List.length_eq_zero_iff.mp (Nat.le_zero.mp hn)
    cases h
    exact ⟨rfl, [], hspool, rfl, fun _ => rfl⟩
  | succ n ih =>
    cases todo with
    | nil =>
      have hend : s.db.spool.length ≤ done.length := by simp [hspool]
      have hpast := rounds_past map cb hend (n + 1)
      rw [hpast.1] at h
      cases h
      rw [hpast.2]
      exact ⟨rfl, [], hspool, rfl, fun _ => rfl⟩
    | cons t todo =>
      have hget : s.db.spool[done.length]? = some t := by simp [hspool]
      rw [List.length_cons, Nat.add_le_add_iff_right] at hn
      rw [processFrom, hget] at h
      rw [callsFrom, hget]
      dsimp only at h ⊢
      by_cases hz : t.ttl = 0
      · have hexpired : t.expired = true := by simp [Task.expired, hz]
        rw [if_pos hz] at h ⊢
        have herase : s.db.spool.eraseIdx done.length = done ++ todo := by
          rw [hspool, List.eraseIdx_append_of_length_le (le_refl _), Nat.sub_self]
          rfl
        rw [herase] at h ⊢
        cases todo with
        | nil =>
          let emptied : Scope F D := { s with db := { s.db with spool := done ++ [] } }
          have hend : emptied.db.spool.length ≤ done.length + 1 := by simp [emptied]
          have hpast := rounds_past map cb hend n
          rw [hpast.1] at h
          obtain rfl := Option.some.inj h
          rw [hpast.2]
          refine ⟨by simp [walked, hexpired], [], rfl, by simp [spared, hexpired], fun _ => rfl⟩
        | cons u todo =>
          -- `u` has moved up, and the next round is at what follows it
          have hmoved : done ++ u :: todo = (done ++ [u]) ++ todo := by simp
          have hlen : done.length + 1 = (done ++ [u]).length := by simp
          rw [hlen] at h ⊢
          rw [List.length_cons] at hn
          exact (ih (done ++ [u]) todo hmoved (by omega) h).expired hexpired
      · have hexpired : t.expired = false := by simp [Task.expired, hz]
        rw [if_neg hz] at h ⊢
        obtain ⟨⟨s₁, t₁⟩, hc, h⟩ := Option.bind_eq_some_iff.mp h
        rw [hc]
        have hset : s₁.db.spool.set done.length t₁ = (done ++ [t₁]) ++ todo := by
          rw [hcb _ _ _ _ _ hc, hspool, List.set_append_right _ _ (le_refl _), Nat.sub_self]
          simp
        have hlen : done.length + 1 = (done ++ [t₁]).length := by simp
        dsimp only at h ⊢
        rw [hset, hlen] at h ⊢
        exact (ih (done ++ [t₁]) todo rfl hn h).visited hexpired

theorem processQueue_walk {scope : Scope F D}
    (hcb : ∀ s t a s' t', cb s t a = some (s', t') → s'.db.spool = s.db.spool)
    (h : processQueue scope cb = some s') :
    Walk [] scope.db.spool (calls scope cb) s'.db.spool := by
  have hspool : ({ scope with dirty := true } : Scope F D).db.spool = [] ++ scope.db.spool := rfl
  exact rounds_walk hcb _ [] scope.db.spool hspool (le_refl _) h

end Rounds

/-- A pass of the queue is complete if and only if no task has expired but the last one. -/
theorem processQueue_passes_iff (scope : Scope F D)
    (cb : Scope F D → Task F → Option Announcement → Option (Scope F D × Task F))
    (hcb : ∀ s t a s' t', cb s t a = some (s', t') → s'.db.spool = s.db.spool)
    (hreturns : (processQueue scope cb).isSome = true) (httl : ∀ t ∈ scope.db.spool, 0 ≤ t.ttl) :
    Passes scope cb ↔ ∀ t ∈ scope.db.spool.dropLast, t.ttl ≠ 0 := by
  obtain ⟨s', hs'⟩ := Option.isSome_iff_exists.mp hreturns
  obtain ⟨htasks, rest, hrest, hlength, hleft⟩ := processQueue_walk hcb hs'
  have hfilter : (scope.db.spool.filter fun t => decide (0 < t.ttl)) =
      scope.db.spool.filter fun t => !t.expired := by
    refine List.filter_congr ?_
    intro t ht
    have hpos := httl t ht
    rw [Task.expired, Bool.eq_iff_iff, decide_eq_true_eq, Bool.not_eq_true',
      decide_eq_false_iff_not]
    omega
  have hlast : (∀ t ∈ scope.db.spool.dropLast, t.ttl ≠ 0) ↔
      ∀ t ∈ scope.db.spool.dropLast, t.expired = false := by
    simp only [Task.expired, decide_eq_false_iff_not, ne_eq]
  rw [hlast, ← walked_spared_iff, ← hfilter]
  constructor
  · intro h
    refine ⟨htasks.symm.trans h.passed, ?_⟩
    have hspool : s'.db.spool = (calls scope cb).filterMap Call.left := by
      have hsome := h.left
      rw [hs'] at hsome
      exact Option.some.inj hsome
    have hle : ((calls scope cb).filterMap Call.left).length ≤
        ((calls scope cb).map Call.task).length := by
      rw [List.length_map]
      exact List.length_filterMap_le _ _
    rw [← hspool, h.passed, hrest, List.nil_append, hlength] at hle
    have hge := (sublist_spared Task.expired scope.db.spool false).length_le
    rw [← hfilter] at hge
    exact Nat.le_antisymm hle hge
  · intro h
    refine ⟨htasks.trans h.1, ?_⟩
    rw [hfilter] at h
    rw [hs', Option.map_some, hrest, List.nil_append, hleft (walked_spared_iff.mp h)]

/-- The callback of `dispatch` leaves the queue around the task alone. -/
theorem handleTask_spool [Number F] [DecidableEq D] (sha1 : String → D) (run : Dispatch)
    (s : Scope F D) (t : Task F) (a : Option Announcement) (s' : Scope F D) (t' : Task F)
    (h : handleTask sha1 run s t a = some (s', t')) : s'.db.spool = s.db.spool := by
  cases a with
  | none => cases h
  | some a => exact (handleTask_spec h).spool

section Examples

/-- A queue with a task that has two rounds left, one that has one left, and an expired one. -/
def twoRounds : Scope Rat String :=
  getScope (queueOf "ann" [⟨0, 2, none, 0, some ["ann"]⟩, ⟨0, 1, none, 0, some []⟩,
    ⟨0, 0, none, 0, some []⟩]) ""

theorem processQueue_passes_twoRounds :
    Passes twoRounds (handleTask id annAndBob) :=
  (processQueue_passes_iff twoRounds (handleTask id annAndBob) (handleTask_spool id annAndBob)
    (by decide +kernel) (by decide)).mpr (by decide)

/-- An expired task in front keeps the next one from being passed. -/
theorem processQueue_not_passes :
    ¬∀ (scope : Scope Rat String)
      (cb : Scope Rat String → Task Rat → Option Announcement →
        Option (Scope Rat String × Task Rat)),
      (∀ s t a s' t', cb s t a = some (s', t') → s'.db.spool = s.db.spool) →
        (processQueue scope cb).isSome = true → (∀ t ∈ scope.db.spool, 0 ≤ t.ttl) →
          Passes scope cb := by
  intro h
  have hpasses := h (getScope (queueOf "ann" [⟨0, 0, none, 0, some []⟩,
    ⟨0, 3, none, 0, some ["ann"]⟩]) "") (handleTask id annAndBob) (handleTask_spool id annAndBob)
    (by decide +kernel) (by decide)
  have hpassed := hpasses.passed
  revert hpassed
  decide +kernel

end Examples

end HackerUnion.Announce
