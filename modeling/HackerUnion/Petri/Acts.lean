import HackerUnion.Petri.Frame

namespace HackerUnion.Petri

open Durable

/-- What a profile says of membership, roles and the mentor. -/
def UserProfile.roles (p : UserProfile) : Status × Bool × Bool × Option Nat :=
  (p.status, p.isLeader, p.isModerator, p.leader)

/-- What a request is, whose, and how it was answered. -/
def Leadership.core (l : Leadership) : Nat × Kind × Response × Option Nat :=
  (l.owner, l.request, l.response, l.processedBy)

def Post.core (p : Post) : Option (Nat × Kind × Response × Option Nat) :=
  p.asLeadership.map Leadership.core

/-- One write of the application to its tables. -/
inductive Act where
  | settings (p : UserProfile)
  | lead (p : UserProfile)
  | moderate (p : UserProfile)
  | unmoderate (p : UserProfile)
  | assign (p : UserProfile) (leader : Option Nat)
  | retire (p : UserProfile)
  | enroll (p : UserProfile) (chapter : Chapter) (leader : Option Nat)
  | refuse (p : UserProfile)
  | register (p : UserProfile)
  | account (u : User)
  | redeem (i : Invitation)
  | file (l : Leadership)
  | answer (l : Leadership) (response : Response) (user : Option Nat)
  | touch (p : Post)

namespace Act

/-- The profile an act is about, as it was read. -/
def subject : Act → Option UserProfile
  | settings p | lead p | moderate p | unmoderate p | assign p _ | retire p | enroll p _ _
  | refuse p | register p => some p
  | _ => none

/-- The profile that is written. -/
def profile : Act → Option UserProfile
  | settings p => some p
  | lead p => some { p with isLeader := true, leader := none }
  | moderate p => some { p with isModerator := true }
  | unmoderate p => some { p with isModerator := false }
  | assign p leader => some { p with leader := leader }
  | retire p => some { p with isLeader := false }
  | enroll p chapter leader =>
    some { p with status := .approved, chapter := chapter, leader := leader }
  | refuse p => some { p with status := .denied }
  | register p => some p
  | _ => none

/-- The bulletin that is written. -/
def post : Act → Option Post
  | file l => some (.leadership l)
  | answer l response user =>
    some (.leadership { l with response := response, processedBy := user })
  | touch p => some p
  | _ => none

def apply (t : Tables) (a : Act) : Tables where
  users := match a with
    | account u => t.users.save u
    | _ => t.users
  chapters := t.chapters
  profiles := match a.profile with
    | some p => t.profiles.save p
    | none => t.profiles
  posts := match a.post with
    | some p => t.posts.save p
    | none => t.posts
  invitations := match a with
    | redeem i => t.invitations.save i
    | _ => t.invitations

end Act

/-- The profile has the row's roles. -/
def Current (t : Tables) (p : UserProfile) : Prop :=
  ∃ q, t.profiles.find? p.pk = some q ∧ q.roles = p.roles

def mentees (t : Tables) (k : Nat) : Nat := t.profiles.count fun p => p.leader = some k

/-- A leader who can take one more mentee. -/
def Available (t : Tables) (k : Nat) : Prop :=
  (t.profiles.find? k).any UserProfile.isLeader = true ∧ mentees t k < maxMentees

instance decidableAvailable (t : Tables) (k : Nat) : Decidable (Available t k) :=
  inferInstanceAs (Decidable ((t.profiles.find? k).any UserProfile.isLeader = true ∧
    mentees t k < maxMentees))

/-- The request is stored, with what makes it the request it is. -/
def Stored (t : Tables) (l : Leadership) : Prop :=
  ∃ l', t.posts.find? l.pk = some (.leadership l') ∧ l'.core = l.core

/-- When the application makes a write. -/
def Act.Guard (t : Tables) : Act → Prop
  | settings p => Current t p
  | lead p => Current t p ∧ p.isLeader = false
  | moderate p => Current t p ∧ p.isLeader = true
  | unmoderate p => Current t p
  | assign p leader => Current t p ∧ ∀ k ∈ leader, Available t k
  | retire p =>
    p.isLeader = true ∧ p.isModerator = false ∧ (∀ m ∈ t.profiles.rows, m.leader ≠ some p.pk) ∧
      (Current t p ∨ (p.leader = some p.pk ∧ Current t { p with leader := none }))
  | enroll p _ leader => Current t p ∧ ∀ k ∈ leader, Available t k
  | refuse p => Current t p
  | register p =>
    t.profiles.find? p.pk = none ∧ p.roles = (.pending, false, false, none)
  | account _ => True
  | redeem _ => True
  | file l =>
    t.posts.find? l.pk = none ∧ l.response = .pending ∧ l.processedBy = none ∧
      (l.request.allowMultiple = false → ∀ l', .leadership l' ∈ t.posts.rows →
        l'.request = l.request → l'.owner = l.owner → l'.response ≠ .pending)
  | answer l response user =>
    Stored t l ∧ l.canRespond = true ∧ response ≠ .pending ∧ user.isSome = true
  | touch p => ∃ p', t.posts.find? p.pk = some p' ∧ p'.core = p.core

/-- From one state of the tables to another by acts that are allowed. -/
inductive Path (E : Act → Prop) (t : Tables) : Tables → Prop where
  | refl : Path E t t
  | step {t' : Tables} {a : Act} : Path E t t' → E a → a.Guard t' → Path E t (a.apply t')

section Path

variable {E F : Act → Prop} {s t u : Tables}

theorem Path.trans (h : Path E s t) (h' : Path E t u) : Path E s u := by
  induction h' with
  | refl => exact h
  | step _ he hg ih => exact ih.step he hg

theorem Path.mono (hef : ∀ a, E a → F a) (h : Path E s t) : Path F s t := by
  induction h with
  | refl => exact Path.refl
  | step _ he hg ih => exact ih.step (hef _ he) hg

/-- What each allowed act keeps is kept by a path of them. -/
theorem Path.invariant {I : Tables → Prop}
    (hstep : ∀ t a, I t → E a → a.Guard t → I (a.apply t)) (h : Path E s t) (hi : I s) : I t := by
  induction h with
  | refl => exact hi
  | step _ he hg ih => exact hstep _ _ ih he hg

end Path

section Current

variable {t : Tables} {p q : UserProfile}

theorem current_of_mem (h : p ∈ t.profiles.rows) : Current t p :=
  ⟨p, Table.find?_of_mem h, rfl⟩

theorem Current.congr {s : Tables} (h : Current t p) (hst : s.profiles = t.profiles) :
    Current s p := by
  unfold Current at *
  rwa [hst]

end Current

end HackerUnion.Petri
