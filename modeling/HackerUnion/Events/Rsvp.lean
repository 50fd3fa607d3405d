import HackerUnion.Js.Value
import HackerUnion.Lock.Guarded
import Mathlib.Algebra.Group.Nat.Even

namespace HackerUnion.Events

open Js Lock

/-- `rest` stands for the fields that no request looks at. -/
structure Event (I R : Type) where
  id : I
  rsvp : List String
  rest : R
  deriving DecidableEq

structure Form where
  user : Field
  email : Field
  id : Field

/-- An RSVP: the user the server authenticated, and the body as `body.parse` reports it. -/
structure Request where
  user : String
  body : Except String Form

/-- The checks before the lock. -/
def Request.validate (req : Request) : Option Form :=
  match req.body with
  | .error _ => none
  | .ok qs =>
    if qs.user.truthy && req.user ≠ qs.user.joined then none
    else if qs.email.truthy && !qs.email.hasAt then none
    else some qs

def endpoint (user : String) (qs : Form) : String :=
  if qs.email.truthy then "email:" ++ qs.email.joined else "user:" ++ user

def toggle {α : Type} [DecidableEq α] (x : α) (l : List α) : List α :=
  if x ∈ l then l.erase x else l ++ [x]

section Toggle

variable {α : Type} [DecidableEq α] {x y : α} {l : List α}

theorem toggle_nodup (h : l.Nodup) (x : α) : (toggle x l).Nodup := by
  unfold toggle
  split
  · exact h.erase x
  · rename_i hx
    rw [List.nodup_append]
    refine ⟨h, List.nodup_singleton x, ?_⟩
    intro a ha b hb hab
    rw [List.mem_singleton] at hb
    rw [hab, hb] at ha
    exact hx ha

theorem mem_toggle_self (h : l.Nodup) : x ∈ toggle x l ↔ x ∉ l := by
  unfold toggle
  split
  · rename_i hx
    have hout : x ∉ l.erase x := h.not_mem_erase
    simp [hx, hout]
  · rename_i hx
    simp [hx]

theorem mem_toggle_of_ne (h : y ≠ x) : y ∈ toggle x l ↔ y ∈ l := by
  unfold toggle
  split
  · exact List.mem_erase_of_ne h
  · simp [h]

/-- The other entries stay as they were, in the same order. -/
theorem toggle_erase (h : l.Nodup) : (toggle x l).erase x = l.erase x := by
  unfold toggle
  split
  · have hout : x ∉ l.erase x := h.not_mem_erase
    exact List.erase_of_not_mem hout
  · rename_i hx
    rw [List.erase_append_right _ hx, List.erase_of_not_mem hx]
    simp

end Toggle

variable {I R : Type} (same : I → Field → Bool)

/-- The part under the lock. `same` is the operator `==` between an event's id and the id sent. -/
def handle (user : String) (qs : Form) (events : List (Event I R)) : Option (List (Event I R)) :=
  match events.filter (fun e => same e.id qs.id) with
  | [_] =>
    some (events.map (fun e =>
      if same e.id qs.id then { e with rsvp := toggle (endpoint user qs) e.rsvp } else e))
  | _ => none

def Request.handle (req : Request) (events : List (Event I R)) : Option (List (Event I R)) :=
  req.validate.bind (fun qs => Events.handle same req.user qs events)

/-- The process of a request: one that is not valid ends before it gets to the lock. -/
def Request.program (req : Request) (writable : Bool) : Program (List (Event I R)) where
  actions := if req.validate.isSome then guarded else [.exit]
  handle events := (req.handle same events).map (fun events => (events, true))
  writable := writable

/-- The toggle of a request, where it is accepted. -/
def Request.apply (req : Request) (events : List (Event I R)) : List (Event I R) :=
  (req.handle same events).getD events

/-- The request is valid and its id is the id of exactly one event. -/
def Request.Accepted (req : Request) (ids : List I) : Prop :=
  ∃ qs, req.validate = some qs ∧ (ids.filter (fun id => same id qs.id)).length = 1

/-- The request is about the entry `x` of the event `id`. -/
def Request.concerns (req : Request) (id : I) (x : String) : Bool :=
  req.validate.any (fun qs => same id qs.id && endpoint req.user qs = x)

variable {same} {req : Request} {qs : Form} {events events' : List (Event I R)}

/-- Whether a request is accepted depends on the ids alone. -/
theorem handle_eq (user : String) (qs : Form) (events : List (Event I R)) :
    handle same user qs events =
      if ((events.map Event.id).filter (fun id => same id qs.id)).length = 1 then
        some (events.map (fun e =>
          if same e.id qs.id then { e with rsvp := toggle (endpoint user qs) e.rsvp } else e))
      else none := by
  have hlen : ((events.map Event.id).filter (fun id => same id qs.id)).length =
      (events.filter (fun e => same e.id qs.id)).length := by
    rw [List.filter_map, List.length_map]
    rfl
  rw [handle, hlen]
  cases hf : events.filter (fun e => same e.id qs.id) with
  | nil => simp
  | cons e rest =>
    cases rest with
    | nil => simp
    | cons e' rest => simp

theorem Request.handle_eq_some :
    req.handle same events = some events' ↔ ∃ qs, req.validate = some qs ∧
      ((events.map Event.id).filter (fun id => same id qs.id)).length = 1 ∧
      events' = events.map (fun e =>
        if same e.id qs.id then { e with rsvp := toggle (endpoint req.user qs) e.rsvp } else e) := by
  unfold Request.handle
  rw [Option.bind_eq_some_iff]
  refine exists_congr (fun qs => and_congr_right (fun _ => ?_))
  rw [handle_eq]
  split
  · rename_i h
    rw [Option.some_inj]
    exact ⟨fun he => ⟨h, he.symm⟩, fun he => he.2.symm⟩
  · rename_i h
    simp [h]

/-- A toggle changes no id. -/
theorem Request.handle_ids (h : req.handle same events = some events') :
    events'.map Event.id = events.map Event.id := by
  obtain ⟨qs, -, -, rfl⟩ := Request.handle_eq_some.mp h
  rw [List.map_map]
  apply List.map_congr_left
  intro e _
  show (if same e.id qs.id then _ else e).id = e.id
  split <;> rfl

theorem Request.handle_isSome :
    (req.handle same events).isSome ↔ req.Accepted same (events.map Event.id) := by
  rw [Option.isSome_iff_exists]
  constructor
  · intro hsome
    obtain ⟨events', h⟩ := hsome
    obtain ⟨qs, hq, hlen, -⟩ := Request.handle_eq_some.mp h
    exact ⟨qs, hq, hlen⟩
  · intro hacc
    obtain ⟨qs, hq, hlen⟩ := hacc
    exact ⟨_, Request.handle_eq_some.mpr ⟨qs, hq, hlen, rfl⟩⟩

variable (same)

/-- What a request makes of one event. -/
def Request.touch (req : Request) (e : Event I R) : Event I R :=
  match req.validate with
  | some qs =>
    if same e.id qs.id then { e with rsvp := toggle (endpoint req.user qs) e.rsvp } else e
  | none => e

variable {same}

theorem Request.apply_eq (h : req.Accepted same (events.map Event.id)) :
    req.apply same events = events.map (req.touch same) := by
  obtain ⟨qs, hq, hlen⟩ := h
  have hh := Request.handle_eq_some.mpr ⟨qs, hq, hlen, rfl⟩
  rw [Request.apply, hh]
  unfold Request.touch
  rw [hq]
  rfl

section Touch

variable (req) (e : Event I R)

theorem Request.touch_id : (req.touch same e).id = e.id := by
  unfold Request.touch
  split
  · split <;> rfl
  · rfl

theorem Request.touch_rest : (req.touch same e).rest = e.rest := by
  unfold Request.touch
  split
  · split <;> rfl
  · rfl

theorem Request.touch_nodup (h : e.rsvp.Nodup) : (req.touch same e).rsvp.Nodup := by
  unfold Request.touch
  split
  · split
    · exact toggle_nodup h _
    · exact h
  · exact h

/-- A request turns over exactly the entry it is about. -/
theorem Request.mem_touch (h : e.rsvp.Nodup) (x : String) :
    x ∈ (req.touch same e).rsvp ↔ (x ∈ e.rsvp ↔ req.concerns same e.id x = false) := by
  unfold Request.touch Request.concerns
  cases req.validate with
  | none => simp
  | some qs =>
    by_cases hs : same e.id qs.id = true
    · by_cases hx : endpoint req.user qs = x
      · subst hx
        simp [hs, mem_toggle_self h]
      · have hne : x ≠ endpoint req.user qs := fun he => hx he.symm
        simp [hs, hx, mem_toggle_of_ne hne]
    · simp [hs]

end Touch

theorem foldl_apply (order : List Request)
    (h : ∀ req ∈ order, req.Accepted same (events.map Event.id)) :
    order.foldl (fun events req => req.apply same events) events =
      events.map (fun e => order.foldl (fun e req => req.touch same e) e) := by
  induction order generalizing events with
  | nil => simp
  | cons req order ih =>
    have hap := Request.apply_eq (h req (List.mem_cons_self ..))
    have hids : (events.map (req.touch same)).map Event.id = events.map Event.id := by
      rw [List.map_map]
      exact List.map_congr_left (fun e _ => req.touch_id e)
    simp only [List.foldl_cons]
    rw [hap, ih, List.map_map]
    · rfl
    · intro req' hm
      rw [hids]
      exact h req' (List.mem_cons_of_mem req hm)

/-- `e'` is `e` after the requests `order`: an entry is in its list if it was there and an even
number of them is about it, or if it was not and the number is odd. -/
structure Toggles (same : I → Field → Bool) (order : List Request) (e e' : Event I R) : Prop where
  id : e'.id = e.id
  rest : e'.rest = e.rest
  nodup : e'.rsvp.Nodup
  parity : ∀ x, x ∈ e'.rsvp ↔
    (x ∈ e.rsvp ↔ Even (order.countP (fun req => req.concerns same e.id x)))

theorem toggles_foldl (order : List Request) {e : Event I R} (h : e.rsvp.Nodup) :
    Toggles same order e (order.foldl (fun e req => req.touch same e) e) := by
  induction order generalizing e with
  | nil => exact ⟨rfl, rfl, h, by simp⟩
  | cons req order ih =>
    have ht := ih (e := req.touch same e) (req.touch_nodup e h)
    rw [List.foldl_cons]
    refine ⟨ht.id.trans (req.touch_id e), ht.rest.trans (req.touch_rest e), ht.nodup, ?_⟩
    intro x
    rw [ht.parity x, req.mem_touch e h x, req.touch_id, List.countP_cons]
    by_cases hc : req.concerns same e.id x = true
    · rw [if_pos hc, Nat.even_add_one, hc]
      tauto
    · rw [if_neg hc]
      simp only [hc]
      tauto

variable (same)

/-- `events'` is `events` with the endpoint of a valid request put into or taken out of the list of
the one event it is about. -/
def Toggled (req : Request) (events events' : List (Event I R)) : Prop :=
  ∃ qs before e rsvp after, req.validate = some qs ∧
    events = before ++ e :: after ∧ events' = before ++ { e with rsvp := rsvp } :: after ∧
    same e.id qs.id = true ∧ (∀ e ∈ before ++ after, same e.id qs.id = false) ∧
    (endpoint req.user qs ∈ rsvp ↔ endpoint req.user qs ∉ e.rsvp) ∧
    rsvp.erase (endpoint req.user qs) = e.rsvp.erase (endpoint req.user qs)

variable {same}

theorem Request.handle_toggled (hn : ∀ e ∈ events, e.rsvp.Nodup)
    (h : req.handle same events = some events') : Toggled same req events events' := by
  obtain ⟨qs, hq, hlen, rfl⟩ := Request.handle_eq_some.mp h
  rw [List.filter_map, List.length_map] at hlen
  obtain ⟨e, he⟩ := List.length_eq_one_iff.mp hlen
  obtain ⟨before, after, rfl, hbefore, hs, hafter⟩ := List.filter_eq_cons_iff.mp he
  have hb : ∀ e ∈ before, same e.id qs.id = false := by
    intro e hm
    simpa using hbefore e hm
  have ha : ∀ e ∈ after, same e.id qs.id = false := by
    intro e hm
    simpa using List.filter_eq_nil_iff.mp hafter e hm
  have keep (l : List (Event I R)) (hl : ∀ e ∈ l, same e.id qs.id = false) :
      l.map (fun e => if same e.id qs.id then
        { e with rsvp := toggle (endpoint req.user qs) e.rsvp } else e) = l := by
    refine (List.map_congr_left ?_).trans (List.map_id' l)
    intro e hm
    simp [hl e hm]
  have hne : e.rsvp.Nodup := hn e (by simp)
  refine ⟨qs, before, e, toggle (endpoint req.user qs) e.rsvp, after, hq, rfl, ?_, hs, ?_,
    mem_toggle_self hne, toggle_erase hne⟩
  · rw [List.map_append, List.map_cons, keep before hb, keep after ha]
    simp only [Function.comp_apply] at hs
    rw [if_pos hs]
  · intro e' hm
    rcases List.mem_append.mp hm with hm | hm
    · exact hb e' hm
    · exact ha e' hm

/-- The endpoint of a request is nobody else's user entry. -/
theorem endpoint_ne {user u : String} (h : u ≠ user) (qs : Form) :
    endpoint user qs ≠ "user:" ++ u := by
  intro he
  have hl := congrArg String.toList he
  unfold endpoint at hl
  split at hl
  · simp [String.toList_append] at hl
  · simp only [String.toList_append, List.append_cancel_left_eq, String.toList_inj] at hl
    exact h hl.symm

theorem Toggled.others (h : Toggled same req events events') :
    List.Forall₂ (fun e e' : Event I R => ∀ u, u ≠ req.user →
      ("user:" ++ u ∈ e'.rsvp ↔ "user:" ++ u ∈ e.rsvp)) events events' := by
  obtain ⟨qs, before, e, rsvp, after, -, rfl, rfl, -, -, -, hrest⟩ := h
  have hrefl (l : List (Event I R)) : List.Forall₂ (fun e e' : Event I R => ∀ u, u ≠ req.user →
      ("user:" ++ u ∈ e'.rsvp ↔ "user:" ++ u ∈ e.rsvp)) l l :=
    List.forall₂_same.mpr (fun e _ u _ => Iff.rfl)
  refine List.rel_append (hrefl before) (List.Forall₂.cons ?_ (hrefl after))
  intro u hu
  have hne : "user:" ++ u ≠ endpoint req.user qs := (endpoint_ne hu qs).symm
  rw [← List.mem_erase_of_ne hne, hrest, List.mem_erase_of_ne hne]

/-- What holds at any time of processes that started with the events `init`: those in `locked` got
the lock and those in `finished` were accepted and wrote, most recent first in both. -/
structure Served {Pid : Type} (same : I → Field → Bool) (reqs : Pid → Request)
    (writable : Pid → Bool) (init : List (Event I R)) (w : World Pid (List (Event I R))) : Prop where
  once : w.locked.Nodup
  order : w.finished.Sublist w.locked
  accepted : ∀ p ∈ w.finished, (reqs p).Accepted same (init.map Event.id)
  all : ∀ p ∈ w.locked, (reqs p).Accepted same (init.map Event.id) → writable p = true →
    .write ∉ (w.procs p).todo → p ∈ w.finished
  file : w.file = (w.finished.reverse.map reqs).foldl (fun events req => req.apply same events) init
  toggles : List.Forall₂ (Toggles same (w.finished.map reqs)) init w.file

variable {Pid : Type} (same) (reqs : Pid → Request) (writable : Pid → Bool)

def serve (p : Pid) : Program (List (Event I R)) := (reqs p).program same (writable p)

theorem serve_actions (p : Pid) :
    (serve (I := I) (R := R) same reqs writable p).actions = guarded ∨
      (serve (I := I) (R := R) same reqs writable p).actions = [.exit] := by
  by_cases hv : (reqs p).validate.isSome = true
  · exact Or.inl (if_pos hv)
  · exact Or.inr (if_neg hv)

variable {reqs writable}

theorem serve_handle {p : Pid} {s s' : List (Event I R)} {d : Bool}
    (h : (serve same reqs writable p).handle s = some (s', d)) :
    (reqs p).handle same s = some s' ∧ d = true := by
  obtain ⟨s'', hh, he⟩ := Option.map_eq_some_iff.mp h
  cases he
  exact ⟨hh, rfl⟩

theorem serve_exec {p : Pid} (hw : writable p = true) (s : List (Event I R)) :
    (serve same reqs writable p).exec s = (reqs p).apply same s := by
  cases hh : (reqs p).handle same s with
  | none =>
    have hnone : (serve same reqs writable p).handle s = none := by
      simp [serve, Request.program, hh]
    simp [Program.exec, hnone, Request.apply, hh]
  | some s' =>
    have hsome : (serve same reqs writable p).handle s = some (s', true) := by
      simp [serve, Request.program, hh]
    rw [exec_of_dirty hsome hw, Request.apply, hh]
    rfl

variable [DecidableEq Pid]

omit [DecidableEq Pid] in
theorem Served.nodup {init : List (Event I R)} {w : World Pid (List (Event I R))}
    (h : Served same reqs writable init w) : ∀ e ∈ w.file, e.rsvp.Nodup := by
  have hflip : List.Forall₂ (fun e' (_ : Event I R) => e'.rsvp.Nodup ∧ True) w.file init :=
    List.Forall₂.flip (h.toggles.imp (fun _ _ ht => ⟨ht.nodup, trivial⟩))
  exact ((List.forall₂_and_left _ _).mp hflip).1

theorem served_run {init : List (Event I R)} (h : ∀ e ∈ init, e.rsvp.Nodup) (sched : List Pid) :
    Served same reqs writable init (run (serve same reqs writable)
      (start (serve same reqs writable) init) sched) := by
  have hprog := serve_actions (I := I) (R := R) same reqs writable
  have hids (p : Pid) (s s' : List (Event I R)) (d : Bool) (hs : s.map Event.id = init.map Event.id)
      (hh : (serve same reqs writable p).handle s = some (s', d)) :
      s'.map Event.id = init.map Event.id :=
    (Request.handle_ids (serve_handle same hh).1).trans hs
  have hg := guarded_run init hprog sched
  have hk := worked_run _ hids rfl sched
  have hs := settled_run hids hprog rfl sched
  generalize run (serve same reqs writable) (start (serve same reqs writable) init) sched = w
    at hg hk hs
  have hacc : ∀ p ∈ w.finished, (reqs p).Accepted same (init.map Event.id) ∧ writable p = true := by
    intro p hp
    obtain ⟨s, ⟨s', d⟩, hs, hh, hw⟩ := hk.finished p hp
    obtain ⟨hsome, rfl⟩ := serve_handle same hh
    rw [← hs]
    exact ⟨Request.handle_isSome.mp (Option.isSome_of_eq_some hsome), hw rfl⟩
  have hfile : w.file =
      (w.finished.reverse.map reqs).foldl (fun events req => req.apply same events) init := by
    rw [← hg.replay, replay, List.foldl_map]
    apply List.foldl_ext
    intro s p hp
    exact serve_exec same (hacc p (List.mem_reverse.mp hp)).2 s
  refine ⟨hg.nodup, hg.sublist, fun p hp => (hacc p hp).1, ?_, hfile, ?_⟩
  · intro p hp ha hw hout
    rcases hs p hp with ⟨hin, -⟩ | hf | ⟨s, hs, hnone⟩ | hro
    · exact absurd hin hout
    · exact hf
    · have hsome : ((reqs p).handle same s).isSome := by
        rw [Request.handle_isSome, hs]
        exact ha
      have hno : (reqs p).handle same s = none := Option.map_eq_none_iff.mp hnone
      simp [hno] at hsome
    · exact absurd hw (by simpa [serve, Request.program] using hro)
  · have hall : ∀ req ∈ w.finished.reverse.map reqs, req.Accepted same (init.map Event.id) := by
      intro req hm
      obtain ⟨p, hp, rfl⟩ := List.mem_map.mp hm
      exact (hacc p (List.mem_reverse.mp hp)).1
    rw [hfile, foldl_apply _ hall, List.forall₂_map_right_iff]
    apply List.forall₂_same.mpr
    intro e he
    have ht : Toggles same (w.finished.reverse.map reqs) e _ := toggles_foldl _ (h e he)
    refine ⟨ht.id, ht.rest, ht.nodup, ?_⟩
    intro x
    rw [ht.parity x, List.map_reverse, List.countP_reverse]

/-- However the steps of the processes interleave, the file is what the accepted requests make of
it in lock order, and a step that changes it is the toggle of a process that holds the lock. -/
theorem rsvp_run {init : List (Event I R)} (h : ∀ e ∈ init, e.rsvp.Nodup) (sched : List Pid) :
    let w := run (serve same reqs writable) (start (serve same reqs writable) init) sched
    Served same reqs writable init w ∧
      ∀ p, (step (serve same reqs writable) w p).file = w.file ∨
        p ∈ w.locked ∧ Toggled same (reqs p) w.file (step (serve same reqs writable) w p).file ∧
          List.Forall₂ (fun e e' : Event I R => ∀ u, u ≠ (reqs p).user →
            ("user:" ++ u ∈ e'.rsvp ↔ "user:" ++ u ∈ e.rsvp))
            w.file (step (serve same reqs writable) w p).file := by
  intro w
  have hserved : Served same reqs writable init w := served_run same h sched
  refine ⟨hserved, ?_⟩
  intro p
  by_cases hfile : (step (serve same reqs writable) w p).file = w.file
  · exact Or.inl hfile
  · have hg := guarded_run init (serve_actions same reqs writable) sched
    obtain ⟨hlocked, hh⟩ := hg.step_handle p hfile
    have ht := Request.handle_toggled hserved.nodup (serve_handle same hh).1
    exact Or.inr ⟨hlocked, ht, ht.others⟩

/-- `==` between strings. -/
def sameText (id : String) : Field → Bool
  | .text s => id = s
  | _ => false

def party : List (Event String Unit) := [⟨"0", ["user:ann"], ()⟩, ⟨"1", [], ()⟩]

/-- The process `true` takes ann off the list of the first event, and `false` puts bob's address
on the second's. -/
def pair (p : Bool) : Request :=
  if p then ⟨"ann", .ok ⟨.text "ann", .absent, .text "0"⟩⟩
  else ⟨"bob", .ok ⟨.absent, .text "bob@x", .text "1"⟩⟩

def turns : List Bool := [true, true, true, true, true, true, false, false, false, false, false]

theorem rsvp_run_party :
    let w := run (serve sameText pair (fun _ => true))
      (start (serve sameText pair (fun _ => true)) party) turns
    (∀ e ∈ party, e.rsvp.Nodup) ∧ w.file = [⟨"0", [], ()⟩, ⟨"1", ["email:bob@x"], ()⟩] ∧
      Served sameText pair (fun _ => true) party w :=
  ⟨by decide, by decide, (rsvp_run sameText (by decide) turns).1⟩

end HackerUnion.Events
