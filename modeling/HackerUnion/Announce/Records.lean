import HackerUnion.Announce.Lib

namespace HackerUnion.Announce

open Js

variable {F D : Type} [Number F]

/-- A user's reputation as the file has it. -/
def reputationOf (db : Database F D) (user : String) : Reputation F :=
  ((db.users.get user).bind Profile.reputation).getD Reputation.zero

/-- A record under this name is an own property of `users`, or becomes one. -/
def Kept (db : Database F D) (user : String) : Prop :=
  db.users.has user = true ∨ inherited.contains user = false

/-- Nobody has hung a reputation on `Object.prototype`. -/
def Clean (s : Scope F D) : Prop := (s.builtins "__proto__").reputation = none

theorem reputationOf_congr {db db' : Database F D} (h : db'.users = db.users) (user : String) :
    reputationOf db' user = reputationOf db user := by
  rw [reputationOf, h, reputationOf]

theorem reputationOf_of_not_has {db : Database F D} {user : String}
    (h : db.users.has user = false) : reputationOf db user = Reputation.zero := by
  have hget : db.users.get user = none := by simpa [Obj.has] using h
  rw [reputationOf, hget]
  rfl

section Put

variable (s : Scope F D) (user : String) (p : Profile F) (v : String)

omit [Number F]

theorem putRecord_get :
    (putRecord s user p).db.users.get v =
      if v = user ∧ s.db.users.has user = true then some p else s.db.users.get v := by
  unfold putRecord
  by_cases hh : s.db.users.has user = true
  · simp only [hh, if_true, and_true]
    exact s.db.users.get_set user v p
  · simp [hh]

theorem putRecord_has : (putRecord s user p).db.users.has v = s.db.users.has v := by
  rw [Obj.has, putRecord_get]
  split
  · rename_i h
    rw [h.1, h.2]
    rfl
  · rfl

variable {v} in
theorem putRecord_builtins (h : v ≠ user) : (putRecord s user p).builtins v = s.builtins v := by
  unfold putRecord
  split
  · rfl
  · exact Function.update_of_ne h _ _

theorem record_putRecord : record (putRecord s user p) user = p := by
  rw [record, putRecord_get]
  by_cases hh : s.db.users.has user = true
  · simp [hh]
  · have hget : s.db.users.get user = none := by simpa [Obj.has] using hh
    simp [hh, hget, putRecord]

theorem record_of_has {s : Scope F D} {user : String} (h : s.db.users.has user = true) :
    s.db.users.get user = some (record s user) := by
  obtain ⟨p, hp⟩ := Option.isSome_iff_exists.mp h
  rw [record, hp]
  rfl

end Put

theorem putRecord_reputationOf (s : Scope F D) (user : String) (p : Profile F) (v : String) :
    reputationOf (putRecord s user p).db v =
      if v = user ∧ s.db.users.has user = true then p.reputation.getD Reputation.zero
      else reputationOf s.db v := by
  rw [reputationOf, putRecord_get]
  split
  · rfl
  · rfl

/-- A record as its owner, in the file, has it. -/
theorem reputation_of_has {s : Scope F D} {user : String} (h : s.db.users.has user = true)
    (hr : (record s user).reputation.isSome = true) :
    reputation s user = reputationOf s.db user := by
  obtain ⟨r, hr⟩ := Option.isSome_iff_exists.mp hr
  rw [reputation, reputationOf, record_of_has h, hr]
  simp [hr]

section Ensure

variable (s : Scope F D) (user v : String)

/-- The first half of `getProfile`: the user's record exists, own or inherited. -/
def ensure : Scope F D :=
  if hasUser s user then s
  else { s with db := { s.db with users := s.db.users.set user ⟨none, none⟩ } }

omit [Number F]

theorem ensure_get :
    (ensure s user).db.users.get v =
      if v = user ∧ hasUser s user = false then some ⟨none, none⟩ else s.db.users.get v := by
  unfold ensure
  cases hh : hasUser s user with
  | true => simp
  | false =>
    simp only [and_true]
    exact s.db.users.get_set user v ⟨none, none⟩

theorem ensure_builtins : (ensure s user).builtins = s.builtins := by
  unfold ensure
  split <;> rfl

variable {s user v}

theorem has_of_hasUser (h : hasUser s user = false) : s.db.users.has user = false := by
  simp only [hasUser, Obj.hasIn, Bool.or_eq_false_iff] at h
  exact h.1.1

theorem ensure_has_of_has (h : s.db.users.has v = true) :
    (ensure s user).db.users.has v = true := by
  rw [Obj.has, ensure_get]
  split
  · rfl
  · exact h

theorem ensure_has_inherited (h : inherited.contains v = true) :
    (ensure s user).db.users.has v = s.db.users.has v := by
  rw [Obj.has, ensure_get]
  split
  · rename_i hv
    obtain ⟨rfl, hu⟩ := hv
    simp only [hasUser, Obj.hasIn, h, Bool.or_true, Bool.true_or] at hu
    exact absurd hu (by decide)
  · rfl

end Ensure

theorem ensure_reputationOf (s : Scope F D) (user v : String) :
    reputationOf (ensure s user).db v = reputationOf s.db v := by
  rw [reputationOf, ensure_get]
  split
  · rename_i h
    rw [h.1, reputationOf_of_not_has (has_of_hasUser h.2)]
    rfl
  · rfl

section Profiles

variable (s : Scope F D) (user v : String)

theorem getProfile_eq :
    getProfile s user = putRecord (ensure s user) user
      (defaults (record (ensure s user) user) (s.builtins "__proto__")) := by
  rw [← ensure_builtins s user]
  rfl

theorem defaults_reputation (p proto : Profile F) :
    (defaults p proto).reputation.getD Reputation.zero = p.reputation.getD Reputation.zero := by
  unfold defaults
  cases p.reputation <;> by_cases hp : proto.reputation.isSome = true <;> simp [hp]

/-- The defaults say what a missing record says. -/
theorem getProfile_reputationOf : reputationOf (getProfile s user).db v = reputationOf s.db v := by
  rw [getProfile_eq, putRecord_reputationOf]
  split
  · rename_i h
    obtain ⟨rfl, hh⟩ := h
    rw [defaults_reputation, ← ensure_reputationOf s v v, reputationOf, record_of_has hh]
    rfl
  · exact ensure_reputationOf s user v

variable {s user v}

theorem getProfile_has_of_has (h : s.db.users.has v = true) :
    (getProfile s user).db.users.has v = true := by
  rw [getProfile_eq, putRecord_has]
  exact ensure_has_of_has h

theorem getProfile_has_inherited (h : inherited.contains v = true) :
    (getProfile s user).db.users.has v = s.db.users.has v := by
  rw [getProfile_eq, putRecord_has]
  exact ensure_has_inherited h

theorem getProfile_has (hc : Clean s) (hk : Kept s.db user) :
    (getProfile s user).db.users.has user = true := by
  rcases hk with hh | hi
  · exact getProfile_has_of_has hh
  · rw [getProfile_eq, putRecord_has, Obj.has, ensure_get]
    split
    · rfl
    · rename_i hu
      have hu : hasUser s user = true := by simpa using hu
      have hproto : (s.builtins "__proto__").reputation = none := hc
      rw [hasUser, Obj.hasIn, hi, hproto] at hu
      have hown : s.db.users.has user = true := by simpa using hu
      exact hown

theorem getProfile_kept (hk : Kept s.db v) : Kept (getProfile s user).db v :=
  hk.imp_left getProfile_has_of_has

theorem getProfile_builtins (h : v ≠ user) : (getProfile s user).builtins v = s.builtins v := by
  rw [getProfile_eq, putRecord_builtins _ _ _ h, ensure_builtins]

theorem getProfile_clean (hc : Clean s) (hu : user ≠ "__proto__") : Clean (getProfile s user) := by
  rw [Clean, getProfile_builtins hu.symm]
  exact hc

theorem getProfile_reputation (hc : Clean s) :
    (record (getProfile s user) user).reputation.isSome = true := by
  have hproto : (s.builtins "__proto__").reputation = none := hc
  rw [getProfile_eq, record_putRecord, defaults, hproto]
  cases (record (ensure s user) user).reputation <;> rfl

/-- What a user finds is what the file has. -/
theorem getScope_reputation (db : Database F D) (user name : String) :
    reputation (getProfile (getScope db user) name) name = reputationOf db name := by
  have hclean : Clean (getScope db user) := rfl
  obtain ⟨r, hr⟩ := Option.isSome_iff_exists.mp (getProfile_reputation hclean)
  have hown : reputation (getProfile (getScope db user) name) name =
      (record (getProfile (getScope db user) name) name).reputation.getD Reputation.zero := by
    rw [reputation, hr]
    rfl
  have hens : reputationOf (ensure (getScope db user) name).db name = reputationOf db name :=
    ensure_reputationOf (getScope db user) name name
  rw [hown, getProfile_eq, record_putRecord, defaults_reputation, ← hens]
  cases hh : (ensure (getScope db user) name).db.users.get name with
  | none =>
    rw [reputationOf, record, hh, ensure_builtins]
    rfl
  | some p =>
    rw [reputationOf, record, hh]
    rfl

omit [Number F] in
theorem setReputation_eq (h : (record s user).reputation.isSome = true) (r : Reputation F) :
    setReputation s user r = putRecord s user { record s user with reputation := some r } := by
  rw [setReputation, if_pos h]

theorem setReputation_reputationOf (h : (record s user).reputation.isSome = true)
    (r : Reputation F) :
    reputationOf (setReputation s user r).db v =
      if v = user ∧ s.db.users.has user = true then r else reputationOf s.db v := by
  rw [setReputation_eq h, putRecord_reputationOf]
  rfl

omit [Number F] in
/-- Putting a record back under its name changes nothing. -/
theorem setProfile_get (h : inherited.contains user = false → s.db.users.has user = true) :
    (setProfile s user).db.users.get v = s.db.users.get v := by
  unfold setProfile
  by_cases hi : inherited.contains user = true
  · rw [if_pos hi]
  · rw [if_neg hi]
    show (s.db.users.set user (record s user)).get v = _
    rw [Obj.get_set]
    split
    · rename_i hv
      rw [hv, record_of_has (h (by simpa using hi))]
    · rfl

/-- The state of the user's record after `getProfile`. -/
def Ready (s : Scope F D) (user : String) : Prop :=
  (record s user).reputation.isSome = true ∧
    (inherited.contains user = false → s.db.users.has user = true)

theorem getProfile_ready (hc : Clean s) (user : String) : Ready (getProfile s user) user :=
  ⟨getProfile_reputation hc, fun hi => getProfile_has hc (Or.inr hi)⟩

end Profiles

section Total

variable {s : Scope F D} {user v : String}

/-- How a broadcast of `n` e-mails ends for its author. -/
def addTotal (s : Scope F D) (user : String) (n : Nat) : Scope F D :=
  let r := reputation s user
  setProfile (setReputation s user { r with total := r.total + n }) user

theorem addTotal_get (h : Ready s user) (n : Nat) :
    (addTotal s user n).db.users.get v =
      (setReputation s user { reputation s user with
        total := (reputation s user).total + n }).db.users.get v := by
  apply setProfile_get
  intro hi
  rw [setReputation_eq h.1, putRecord_has]
  exact h.2 hi

theorem addTotal_has (h : Ready s user) (n : Nat) :
    (addTotal s user n).db.users.has v = s.db.users.has v := by
  rw [Obj.has, addTotal_get h, setReputation_eq h.1]
  exact putRecord_has s user _ v

theorem addTotal_reputationOf (h : Ready s user) (n : Nat) :
    reputationOf (addTotal s user n).db v =
      if v = user ∧ s.db.users.has user = true then
        { reputationOf s.db user with total := (reputationOf s.db user).total + n }
      else reputationOf s.db v := by
  have hset := setReputation_reputationOf (v := v) h.1
    { reputation s user with total := (reputation s user).total + n }
  rw [reputationOf, addTotal_get h]
  refine hset.trans ?_
  split
  · rename_i hv
    rw [reputation_of_has hv.2 h.1]
  · rfl

theorem addTotal_clean (hc : Clean s) (h : Ready s user) (hu : user ≠ "__proto__") (n : Nat) :
    Clean (addTotal s user n) := by
  show ((setReputation s user _).builtins "__proto__").reputation = none
  rw [setReputation_eq h.1, putRecord_builtins _ _ _ hu.symm]
  exact hc

end Total

end HackerUnion.Announce
