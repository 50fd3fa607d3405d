import Mathlib.Logic.Basic

namespace HackerUnion.Durable

/-- What a handler runs against: the store, each write of which lasts at once, and for each call
still to come whether it fails, by the service that is called. -/
structure Site (κ σ : Type) where
  db : σ
  faults : Nat → κ → Bool

/-- A handler of requests. What it has written when it raises stays written. -/
abbrev Handler (κ ε σ : Type) := ExceptT ε (StateM (Site κ σ))

namespace Handler

variable {κ ε σ α β : Type}

def exec (c : Handler κ ε σ α) (s : Site κ σ) : Except ε α × Site κ σ := c.run.run s

def read : Handler κ ε σ σ := do return (← get).db

def write (f : σ → σ) : Handler κ ε σ Unit := modify fun s => { s with db := f s.db }

/-- Whether a call of the service fails now. -/
def fault (k : κ) : Handler κ ε σ Bool := do
  let s ← get
  set { s with faults := fun n => s.faults (n + 1) }
  return s.faults 0 k

/-- A call that raises where the service fails. -/
def call (k : κ) (e : ε) : Handler κ ε σ Unit := do
  if ← fault k then throw e

/-- A write through a service: it is not made where the service fails. -/
def store (k : κ) (e : ε) (f : σ → σ) : Handler κ ε σ Unit := do
  call k e
  write f

/-- A write through a service of which a failure is passed over. -/
def quietly (k : κ) (f : σ → σ) : Handler κ ε σ Unit := do
  unless ← fault k do write f

/-- Each call fails or does not, as calls of the service may. -/
def Within (may : κ → Bool → Prop) (faults : Nat → κ → Bool) : Prop := ∀ n k, may k (faults n k)

/-- However the calls of services go that may, the handler returns with `Q` of what it returns and
of the store, or raises with `R` of the store. -/
def Ensures (may : κ → Bool → Prop) (db : σ) (c : Handler κ ε σ α) (Q : α → σ → Prop)
    (R : σ → Prop) : Prop :=
  ∀ faults, Within may faults →
    match exec c ⟨db, faults⟩ with
    | (.ok a, s) => Q a s.db ∧ Within may s.faults
    | (.error _, s) => R s.db

section Rules

variable {may : κ → Bool → Prop} {db : σ} {Q : α → σ → Prop} {R : σ → Prop} {k : κ} {e : ε}

theorem exec_bind (c : Handler κ ε σ α) (f : α → Handler κ ε σ β) (s : Site κ σ) :
    exec (c >>= f) s =
      match exec c s with
      | (.ok a, s') => exec (f a) s'
      | (.error e, s') => (.error e, s') := by
  have hbind : exec (c >>= f) s =
      (ExceptT.bindCont f (exec c s).1).run (exec c s).2 := rfl
  rw [hbind]
  cases exec c s with
  | mk r s' => cases r <;> rfl

theorem ensures_pure {a : α} (h : Q a db) : Ensures may db (pure a : Handler κ ε σ α) Q R :=
  fun _ hw => ⟨h, hw⟩

theorem ensures_throw (h : R db) : Ensures may db (throw e : Handler κ ε σ α) Q R :=
  fun _ _ => h

theorem ensures_bind {c : Handler κ ε σ β} {f : β → Handler κ ε σ α}
    (h : Ensures may db c (fun b db' => Ensures may db' (f b) Q R) R) :
    Ensures may db (c >>= f) Q R := by
  intro faults hw
  have hc := h faults hw
  rw [exec_bind]
  generalize exec c ⟨db, faults⟩ = out at hc
  obtain ⟨r, s⟩ := out
  cases r with
  | ok b => exact hc.1 s.faults hc.2
  | error e => exact hc

theorem ensures_mono {Q' : α → σ → Prop} {R' : σ → Prop} {c : Handler κ ε σ α}
    (h : Ensures may db c Q' R') (hq : ∀ a db', Q' a db' → Q a db') (hr : ∀ db', R' db' → R db') :
    Ensures may db c Q R := by
  intro faults hw
  have hc := h faults hw
  generalize exec c ⟨db, faults⟩ = out at hc
  obtain ⟨r, s⟩ := out
  cases r with
  | ok b => exact ⟨hq _ _ hc.1, hc.2⟩
  | error e => exact hr _ hc

theorem ensures_and {Q' : α → σ → Prop} {R' : σ → Prop} {c : Handler κ ε σ α}
    (h : Ensures may db c Q R) (h' : Ensures may db c Q' R') :
    Ensures may db c (fun a db' => Q a db' ∧ Q' a db') fun db' => R db' ∧ R' db' := by
  intro faults hw
  have hc := h faults hw
  have hc' := h' faults hw
  generalize exec c ⟨db, faults⟩ = out at hc hc'
  obtain ⟨r, s⟩ := out
  cases r with
  | ok b => exact ⟨⟨hc.1, hc'.1⟩, hc.2⟩
  | error e => exact ⟨hc, hc'⟩

/-- A part of a handler by what is known of it. -/
theorem ensures_then {c : Handler κ ε σ β} {f : β → Handler κ ε σ α} {Q' : β → σ → Prop}
    {R' : σ → Prop} (h : Ensures may db c Q' R')
    (hf : ∀ b db', Q' b db' → Ensures may db' (f b) Q R) (hr : ∀ db', R' db' → R db') :
    Ensures may db (c >>= f) Q R :=
  ensures_bind (ensures_mono h hf hr)

/-- What a part raises with, the whole raises with. -/
theorem ensures_seq {c : Handler κ ε σ β} {f : β → Handler κ ε σ α} {Q' : β → σ → Prop}
    (h : Ensures may db c Q' R) (hf : ∀ b db', Q' b db' → Ensures may db' (f b) Q R) :
    Ensures may db (c >>= f) Q R :=
  ensures_then h hf fun _ hr => hr

theorem ensures_weaken {Q' : α → σ → Prop} {c : Handler κ ε σ α} (h : Ensures may db c Q' R)
    (hq : ∀ a db', Q' a db' → Q a db') : Ensures may db c Q R :=
  ensures_mono h hq fun _ hr => hr

/-- The other way about: what it raises with is weakened. -/
theorem ensures_raise {R' : σ → Prop} {c : Handler κ ε σ α} (h : Ensures may db c Q R')
    (hr : ∀ db', R' db' → R db') : Ensures may db c Q R :=
  ensures_mono h (fun _ _ hq => hq) hr

/-- A handler that cannot raise may be taken to raise with anything. -/
theorem ensures_never {c : Handler κ ε σ α} (h : Ensures may db c Q fun _ => False) :
    Ensures may db c Q R :=
  ensures_raise h fun _ hfalse => hfalse.elim

theorem ensures_read {f : σ → Handler κ ε σ α} (h : Ensures may db (f db) Q R) :
    Ensures may db (read >>= f) Q R :=
  ensures_bind fun _ hw => ⟨h, hw⟩

theorem ensures_write {Q : Unit → σ → Prop} {f : σ → σ} (h : Q () (f db)) :
    Ensures may db (write f : Handler κ ε σ Unit) Q R :=
  fun _ hw => ⟨h, hw⟩

theorem ensures_fault {Q : Bool → σ → Prop} (hok : may k false → Q false db)
    (hfail : may k true → Q true db) :
    Ensures may db (fault k : Handler κ ε σ Bool) Q R := by
  intro faults hw
  have hout : exec (fault k : Handler κ ε σ Bool) ⟨db, faults⟩ =
      (.ok (faults 0 k), ⟨db, fun n => faults (n + 1)⟩) := rfl
  rw [hout]
  refine ⟨?_, fun n j => hw (n + 1) j⟩
  have hk := hw 0 k
  cases hf : faults 0 k with
  | false => exact hok (hf ▸ hk)
  | true => exact hfail (hf ▸ hk)

theorem ensures_call {Q : Unit → σ → Prop} (hok : may k false → Q () db)
    (hfail : may k true → R db) : Ensures may db (call k e : Handler κ ε σ Unit) Q R := by
  apply ensures_bind
  apply ensures_fault
  · intro hk
    exact ensures_pure (hok hk)
  · intro hk
    exact ensures_throw (hfail hk)

theorem ensures_store {Q : Unit → σ → Prop} {f : σ → σ} (hok : Q () (f db))
    (hfail : may k true → R db) : Ensures may db (store k e f : Handler κ ε σ Unit) Q R := by
  apply ensures_bind
  exact ensures_call (fun _ => ensures_write hok) hfail

theorem ensures_quietly {Q : Unit → σ → Prop} {f : σ → σ} (hok : Q () (f db))
    (hfail : may k true → Q () db) : Ensures may db (quietly k f : Handler κ ε σ Unit) Q R := by
  apply ensures_bind
  apply ensures_fault
  · intro _
    exact ensures_write hok
  · intro hk
    exact ensures_pure (hfail hk)

/-- A loop keeps what each round keeps. -/
theorem ensures_forM {I : List β → σ → Prop} {f : β → Handler κ ε σ Unit} {xs : List β}
    (hround : ∀ x xs db, I (x :: xs) db → Ensures may db (f x) (fun _ => I xs) R)
    (h : I xs db) : Ensures may db (xs.forM f) (fun _ => I []) R := by
  induction xs generalizing db with
  | nil => exact ensures_pure h
  | cons x xs ih =>
    change Ensures may db (f x >>= fun _ => xs.forM f) _ _
    exact ensures_then (hround x xs db h) (fun _ _ hi => ih hi) (fun _ hr => hr)

/-- What holds however the handler ends holds of the store it leaves. -/
theorem db_of_ensures {P : σ → Prop} {c : Handler κ ε σ α}
    (h : Ensures may db c (fun _ => P) P) {faults : Nat → κ → Bool} (hw : Within may faults) :
    P (exec c ⟨db, faults⟩).2.db := by
  have hc := h faults hw
  generalize exec c ⟨db, faults⟩ = out at hc
  obtain ⟨r, s⟩ := out
  cases r with
  | ok b => exact hc.1
  | error e => exact hc

/-- A handler that cannot raise returns. -/
theorem ok_of_ensures {c : Handler κ ε σ α} (h : Ensures may db c Q fun _ => False)
    {faults : Nat → κ → Bool} (hw : Within may faults) :
    ∃ a, (exec c ⟨db, faults⟩).1 = .ok a ∧ Q a (exec c ⟨db, faults⟩).2.db := by
  have hc := h faults hw
  generalize exec c ⟨db, faults⟩ = out at hc
  obtain ⟨r, s⟩ := out
  cases r with
  | ok a => exact ⟨a, rfl, hc.1⟩
  | error e => exact hc.elim

end Rules

/-- The handler only reads, and this is what it returns. -/
def Finds (db : σ) (c : Handler κ ε σ α) (a : α) : Prop :=
  ∀ faults, exec c ⟨db, faults⟩ = (.ok a, ⟨db, faults⟩)

section Finds

variable {may : κ → Bool → Prop} {db : σ} {a : α} {b : β}

theorem finds_pure : Finds db (pure a : Handler κ ε σ α) a := fun _ => rfl

theorem finds_read : Finds db (read : Handler κ ε σ σ) db := fun _ => rfl

theorem finds_bind {c : Handler κ ε σ β} {f : β → Handler κ ε σ α} (hc : Finds db c b)
    (hf : Finds db (f b) a) : Finds db (c >>= f) a := by
  intro faults
  rw [exec_bind, hc faults]
  exact hf faults

theorem ensures_finds {c : Handler κ ε σ β} {f : β → Handler κ ε σ α} {Q : α → σ → Prop}
    {R : σ → Prop} (hc : Finds db c b) (hf : Ensures may db (f b) Q R) :
    Ensures may db (c >>= f) Q R := by
  apply ensures_bind
  intro faults hw
  rw [hc faults]
  exact ⟨hf, hw⟩

end Finds

/-- What holds before the handler holds after it, however it ends. -/
def Keeps (may : κ → Bool → Prop) (I : σ → Prop) (c : Handler κ ε σ α) : Prop :=
  ∀ db, I db → Ensures may db c (fun _ => I) I

section Keeps

variable {may : κ → Bool → Prop} {I : σ → Prop} {k : κ} {e : ε}

theorem keeps_pure (a : α) : Keeps may I (pure a : Handler κ ε σ α) := fun _ h => ensures_pure h

theorem keeps_throw : Keeps may I (throw e : Handler κ ε σ α) := fun _ h => ensures_throw h

theorem keeps_read : Keeps may I (read : Handler κ ε σ σ) := fun _ h _ hw => ⟨h, hw⟩

theorem keeps_bind {c : Handler κ ε σ β} {f : β → Handler κ ε σ α} (hc : Keeps may I c)
    (hf : ∀ b, Keeps may I (f b)) : Keeps may I (c >>= f) :=
  fun db h => ensures_then (hc db h) (fun b db' hi => hf b db' hi) (fun _ hr => hr)

theorem keeps_call : Keeps may I (call k e : Handler κ ε σ Unit) :=
  fun _ h => ensures_call (fun _ => h) fun _ => h

theorem keeps_store {f : σ → σ} (hf : ∀ db, I db → I (f db)) :
    Keeps may I (store k e f : Handler κ ε σ Unit) :=
  fun db h => ensures_store (hf db h) fun _ => h

theorem keeps_quietly {f : σ → σ} (hf : ∀ db, I db → I (f db)) :
    Keeps may I (quietly k f : Handler κ ε σ Unit) :=
  fun db h => ensures_quietly (hf db h) fun _ => h

theorem keeps_forM {f : β → Handler κ ε σ Unit} {xs : List β} (hf : ∀ x, Keeps may I (f x)) :
    Keeps may I (xs.forM f) :=
  fun _ h => ensures_forM (I := fun _ => I) (fun x _ db hi => hf x db hi) h

end Keeps

end Handler

end HackerUnion.Durable
