import HackerUnion.Bash.Text
import HackerUnion.Js.Json

namespace HackerUnion.Portal

open Bash

/-- What a call returns. -/
inductive Result where
  | undefined
  | bool (b : Bool)
  deriving DecidableEq

def Result.truthy : Result → Bool
  | .undefined => false
  | .bool b => b

/-- `r1 && r2` -/
def Result.and (r1 r2 : Result) : Result := if r1.truthy then r2 else r1

/-- `JSON.parse` and `JSON.stringify`, with `empty` for the object without members. -/
structure Codec (J : Type) where
  parse : Text → Option J
  stringify : J → Text
  empty : J

/-- Who created a lock file. -/
inductive Owner where
  | this
  | other
  deriving DecidableEq

/-- The stored document and its lock file, what the process may do to them, the document as it was
loaded before, and whether the lock file is counted as its own. -/
structure World (J : Type) where
  contents : Text
  readable : Bool
  writable : Bool
  lock : Option Owner
  mayCreate : Bool
  mayUnlink : Bool
  cache : Option J
  locks : Bool

structure Db (J : Type) where
  data : J
  world : World J

variable {J : Type} (codec : Codec J)

namespace World

/-- `require(p)` -/
def require (w : World J) : Except Unit (J × World J) :=
  match w.cache with
  | some doc => .ok (doc, w)
  | none =>
    if w.readable then
      match codec.parse w.contents with
      | some doc => .ok (doc, { w with cache := some doc })
      | none => .error ()
    else .error ()

def writeFileSync (w : World J) (contents : Text) : Except Unit (World J) :=
  if w.writable then .ok { w with contents := contents } else .error ()

/-- Without options nothing is waited for and no lock file is stale. -/
def lockSync (w : World J) : Except Unit (World J) :=
  if w.lock = none && w.mayCreate then .ok { w with lock := some .this, locks := true }
  else .error ()

/-- It makes no difference who created the lock file, nor whether it goes. -/
def unlockSync (w : World J) : Except Unit (World J) :=
  .ok { w with lock := if w.mayUnlink then none else w.lock, locks := false }

end World

namespace Db

def read (s : Db J) : Result × Db J :=
  match s.world.require codec with
  | .ok (doc, w) => (.bool true, ⟨doc, w⟩)
  | .error _ => (.bool false, { s with data := codec.empty })

def write (s : Db J) : Result × Db J :=
  match s.world.writeFileSync (codec.stringify s.data) with
  | .ok w => (.bool true, { s with world := w })
  | .error _ => (.bool false, s)

/-- Where the lock is taken nothing is returned. -/
def lock (s : Db J) : Result × Db J :=
  match s.world.lockSync with
  | .ok w => (.undefined, { s with world := w })
  | .error _ => (.bool false, s)

def unlock (s : Db J) : Result × Db J :=
  match s.world.unlockSync with
  | .ok w => (.undefined, { s with world := w })
  | .error _ => (.bool false, s)

def close (s : Db J) : Result × Db J :=
  let (r1, s) := s.write codec
  let (r2, s) := s.unlock
  (r1.and r2, s)

end Db

def Db.open (s : Db J) : Result × Db J :=
  let (r1, s) := s.lock
  let (r2, s) := s.read codec
  (r1.and r2, s)

/-- `open()` takes the lock. -/
def Obtained (w : World J) : Prop := w.lock = none ∧ w.mayCreate = true

/-- What `open()` reads of a stored document, if it can be read. -/
def found (w : World J) : Option J :=
  w.cache.or (if w.readable then codec.parse w.contents else none)

/-- `open()` and `close()`, with nothing done to the data between them, leave the document; the
first reports whether the lock was taken and the document read; and the second leaves a lock file
of another process. -/
structure Sound (s : Db J) : Prop where
  unchanged : codec.parse (((s.open codec).2.close codec).2.world.contents) =
    codec.parse s.world.contents
  reports : (s.open codec).1.truthy = true ↔ Obtained s.world ∧ (found codec s.world).isSome
  locks : (s.open codec).2.world.lock = some .other →
    ((s.open codec).2.close codec).2.world.lock = some .other

/-- Either the lock cannot be taken or the document cannot be read; the file cannot be written, or
what was read, the empty object if nothing was, is written as a text of the same document; and a
lock file of another process cannot be removed. -/
structure Harmless (s : Db J) : Prop where
  reports : ¬(Obtained s.world ∧ (found codec s.world).isSome)
  unchanged : s.world.writable = true →
    codec.parse (codec.stringify ((found codec s.world).getD codec.empty)) =
      codec.parse s.world.contents
  locks : s.world.lock = some .other → s.world.mayUnlink = false

variable {codec} {s : Db J} {w : World J}

section Calls

/-- A lock that is taken is never reported. -/
theorem lock_truthy (s : Db J) : s.lock.1.truthy = false := by
  rw [Db.lock]
  split
  · rfl
  · rfl

theorem lock_world (s : Db J) : s.lock.2.world =
    if s.world.lock = none && s.world.mayCreate then
      { s.world with lock := some .this, locks := true }
    else s.world := by
  rw [Db.lock, World.lockSync]
  split
  · rename_i w hw
    split at hw
    · rename_i hfree
      injection hw with hw
      rw [if_pos hfree, hw]
    · cases hw
  · rename_i hw
    split at hw
    · cases hw
    · rename_i hfree
      rw [if_neg hfree]

theorem read_spec (s : Db J) : (s.read codec).2.data = (found codec s.world).getD codec.empty ∧
    ∃ cache, (s.read codec).2.world = { s.world with cache := cache } := by
  obtain ⟨data, contents, readable, writable, lock, mayCreate, mayUnlink, cache, locks⟩ := s
  cases cache with
  | some doc => exact ⟨rfl, some doc, rfl⟩
  | none =>
    cases readable with
    | false => exact ⟨rfl, none, rfl⟩
    | true =>
      cases hparse : codec.parse contents with
      | none => simp [Db.read, World.require, found, hparse]
      | some doc => simp [Db.read, World.require, found, hparse]

/-- What `open()` leaves: the data read, the document as it is, and the lock file with its creator
where there was one. -/
theorem open_spec (codec : Codec J) (s : Db J) :
    (s.open codec).1.truthy = false ∧
      (s.open codec).2.data = (found codec s.world).getD codec.empty ∧
      (s.open codec).2.world.contents = s.world.contents ∧
      (s.open codec).2.world.writable = s.world.writable ∧
      (s.open codec).2.world.mayUnlink = s.world.mayUnlink ∧
      ((s.open codec).2.world.lock = some .other ↔ s.world.lock = some .other) := by
  have hfound : found codec s.lock.2.world = found codec s.world := by
    rw [lock_world]
    split
    · rfl
    · rfl
  obtain ⟨hdata, cache, hworld⟩ := @read_spec J codec s.lock.2
  have hopen : (s.open codec).2 = (s.lock.2.read codec).2 := rfl
  rw [hopen, hdata, hworld, hfound]
  refine ⟨?_, rfl, ?_⟩
  · have hreport : (s.open codec).1 = s.lock.1.and (s.lock.2.read codec).1 := rfl
    rw [hreport, Result.and, if_neg (by simp [lock_truthy]), lock_truthy]
  · rw [lock_world]
    split
    · rename_i hfree
      simp only [Bool.and_eq_true, decide_eq_true_eq] at hfree
      simp [hfree.1]
    · simp

/-- What `close()` leaves. -/
theorem close_spec (codec : Codec J) (s : Db J) :
    (s.close codec).2.world.contents =
        (if s.world.writable then codec.stringify s.data else s.world.contents) ∧
      (s.close codec).2.world.lock = if s.world.mayUnlink then none else s.world.lock := by
  rw [Db.close, Db.write, World.writeFileSync]
  cases s.world.writable with
  | false => exact ⟨rfl, rfl⟩
  | true => exact ⟨rfl, rfl⟩

end Calls

/-- Opening and closing do no harm just where that is so. -/
theorem sound_iff : Sound codec s ↔ Harmless codec s := by
  obtain ⟨hreport, hdata, hcontents, hwritable, hunlink, hlock⟩ := open_spec codec s
  obtain ⟨hclosed, hunlocked⟩ := close_spec codec (s.open codec).2
  rw [hwritable, hdata, hcontents] at hclosed
  rw [hunlink] at hunlocked
  constructor
  · intro h
    refine ⟨fun hobtained => ?_, fun hwrites => ?_, fun hother => ?_⟩
    · have hsuccess := h.reports.mpr hobtained
      rw [hreport] at hsuccess
      cases hsuccess
    · have hsame := h.unchanged
      rw [hclosed, if_pos hwrites] at hsame
      exact hsame
    · have hstays := h.locks (hlock.mpr hother)
      rw [hunlocked] at hstays
      cases hmay : s.world.mayUnlink with
      | false => rfl
      | true =>
        rw [hmay] at hstays
        cases hstays
  · intro h
    refine ⟨?_, ⟨fun hsuccess => ?_, fun hobtained => absurd hobtained h.reports⟩, ?_⟩
    · rw [hclosed]
      split
      · rename_i hwrites
        exact h.unchanged hwrites
      · rfl
    · rw [hreport] at hsuccess
      cases hsuccess
    · intro hother
      rw [hunlocked, h.locks (hlock.mp hother)]
      exact hother

/-- The codec on documents of which nothing but the empty object is written. -/
def emptyWriter : Codec Js.Json.Value where
  parse := Js.Json.parse
  stringify _ := text "\x7b\x7d"
  empty := .object []

/-- A document that cannot be read, and of which another process has the lock. -/
def unreadable : World Js.Json.Value where
  contents := text "\x7b\"a\": 1\x7d"
  readable := false
  writable := true
  lock := some .other
  mayCreate := true
  mayUnlink := true
  cache := none
  locks := false

/-- The empty object is written over the document, and the lock of the other process goes. -/
theorem open_close_not_sound :
    ¬∀ (w : World Js.Json.Value), (emptyWriter.parse w.contents).isSome →
      Sound emptyWriter ⟨emptyWriter.empty, w⟩ := by
  intro h
  have hlost := (h unreadable rfl).unchanged
  have hwritten : emptyWriter.parse (((Db.open emptyWriter ⟨emptyWriter.empty, unreadable⟩).2.close
      emptyWriter).2.world.contents) = some (.object []) := rfl
  have hstored : emptyWriter.parse unreadable.contents =
      some (.object [([97], .number ['1'])]) := rfl
  rw [hwritten, hstored] at hlost
  injection hlost with hlost
  injection hlost with hlost
  cases hlost

end HackerUnion.Portal
