import Mathlib.Data.List.DropRight

namespace HackerUnion.Tags

/-- What is known of characters: which are white space, which of these an expression for white space
finds, the one that stands for a run of them, and the small letter of each. -/
structure Script (α : Type) where
  isSpace : α → Bool
  isBlank : α → Bool
  blank : α
  lowered : α → α
  isBlank_blank : isBlank blank = true
  isSpace_of_isBlank : ∀ c, isBlank c = true → isSpace c = true
  isSpace_lowered : ∀ c, isSpace (lowered c) = isSpace c
  lowered_lowered : ∀ c, lowered (lowered c) = lowered c

namespace Script

variable {α : Type} (script : Script α)

def strip (t : List α) : List α := (t.dropWhile script.isSpace).rdropWhile script.isSpace

def lower (t : List α) : List α := t.map script.lowered

/-- Each run of blanks gives way to one. `inRun` says whether one has been put for this run. -/
def collapseFrom (inRun : Bool) : List α → List α
  | [] => []
  | c :: t =>
    if script.isBlank c then
      if inRun then collapseFrom true t else script.blank :: collapseFrom true t
    else c :: collapseFrom false t

def collapse (t : List α) : List α := script.collapseFrom false t

/-- Before the first word, in a word, or after one. -/
inductive Place where
  | start
  | word
  | gap
  deriving DecidableEq

/-- The words in small letters, with one blank between any two. -/
def squeezeFrom : Place → List α → List α
  | _, [] => []
  | .start, c :: t =>
    if script.isSpace c then squeezeFrom .start t
    else script.lowered c :: squeezeFrom .word t
  | .word, c :: t =>
    if script.isSpace c then squeezeFrom .gap t
    else script.lowered c :: squeezeFrom .word t
  | .gap, c :: t =>
    if script.isSpace c then squeezeFrom .gap t
    else script.blank :: script.lowered c :: squeezeFrom .word t

/-- A text up to case and runs of white space. -/
def squeeze (t : List α) : List α := script.squeezeFrom .start t

/-- Where white space leads to. -/
def Place.after : Place → Place
  | .start => .start
  | .word => .gap
  | .gap => .gap

variable {script} {t s : List α} {c : α} {place : Place}

theorem squeezeFrom_space (h : script.isSpace c = true) :
    script.squeezeFrom place (c :: t) = script.squeezeFrom place.after t := by
  cases place with
  | start => simp [squeezeFrom, h, Place.after]
  | word => simp [squeezeFrom, h, Place.after]
  | gap => simp [squeezeFrom, h, Place.after]

/-- What is no white space is put the same way by texts that go on the same way. -/
theorem squeezeFrom_letter {d : α} (hc : script.isSpace c = false)
    (hd : script.lowered d = script.lowered c)
    (h : script.squeezeFrom .word t = script.squeezeFrom .word s) :
    script.squeezeFrom place (d :: t) = script.squeezeFrom place (c :: s) := by
  have hd' : script.isSpace d = false := by
    rw [← script.isSpace_lowered, hd, script.isSpace_lowered, hc]
  cases place with
  | start => simp [squeezeFrom, hc, hd', hd, h]
  | word => simp [squeezeFrom, hc, hd', hd, h]
  | gap => simp [squeezeFrom, hc, hd', hd, h]

theorem squeezeFrom_spaces (h : ∀ c ∈ t, script.isSpace c = true) :
    script.squeezeFrom place t = [] := by
  induction t generalizing place with
  | nil => cases place <;> rfl
  | cons c t ih =>
    rw [squeezeFrom_space (h c List.mem_cons_self)]
    exact ih fun d hd => h d (List.mem_cons_of_mem c hd)

theorem squeezeFrom_append_spaces (h : ∀ c ∈ s, script.isSpace c = true) :
    script.squeezeFrom place (t ++ s) = script.squeezeFrom place t := by
  induction t generalizing place with
  | nil =>
    rw [List.nil_append, squeezeFrom_spaces h]
    cases place <;> rfl
  | cons c t ih =>
    rw [List.cons_append]
    cases hc : script.isSpace c with
    | true => rw [squeezeFrom_space hc, squeezeFrom_space hc, ih]
    | false => exact squeezeFrom_letter hc rfl ih

/-- White space at the ends does not matter. -/
theorem squeeze_strip (t : List α) : script.squeeze (script.strip t) = script.squeeze t := by
  have hstart : script.squeeze (t.dropWhile script.isSpace) = script.squeeze t := by
    unfold squeeze
    induction t with
    | nil => rfl
    | cons c t ih =>
      cases hc : script.isSpace c with
      | true =>
        rw [List.dropWhile_cons_of_pos hc, ih, squeezeFrom_space hc]
        rfl
      | false => rw [List.dropWhile_cons_of_neg (by simp [hc])]
  have hend : script.squeezeFrom .start
      ((t.dropWhile script.isSpace).rdropWhile script.isSpace ++
        (t.dropWhile script.isSpace).rtakeWhile script.isSpace) =
      script.squeeze (script.strip t) :=
    squeezeFrom_append_spaces fun c hc => List.mem_rtakeWhile_imp hc
  rw [List.rdropWhile_append_rtakeWhile] at hend
  exact hend.symm.trans hstart

theorem squeeze_lower (t : List α) : script.squeeze (script.lower t) = script.squeeze t := by
  have hfrom (place : Place) :
      script.squeezeFrom place (script.lower t) = script.squeezeFrom place t := by
    induction t generalizing place with
    | nil => rfl
    | cons c t ih =>
      have hcons : script.lower (c :: t) = script.lowered c :: script.lower t := rfl
      rw [hcons]
      cases hc : script.isSpace c with
      | true =>
        rw [squeezeFrom_space hc, squeezeFrom_space ((script.isSpace_lowered c).trans hc), ih]
      | false => exact squeezeFrom_letter hc (script.lowered_lowered c) (ih .word)
  exact hfrom .start

/-- Neither does how long a run of blanks is. -/
theorem squeeze_collapse (t : List α) :
    script.squeeze (script.collapse t) = script.squeeze t := by
  have hblank := script.isSpace_of_isBlank _ script.isBlank_blank
  -- once a blank has been put for the run, white space leads nowhere else
  have hfrom (inRun : Bool) (place : Place) (hrun : inRun = true → place.after = place) :
      script.squeezeFrom place (script.collapseFrom inRun t) = script.squeezeFrom place t := by
    induction t generalizing inRun place with
    | nil => rfl
    | cons c t ih =>
      have hagain : place.after.after = place.after := by cases place <;> rfl
      unfold collapseFrom
      cases hc : script.isBlank c with
      | true =>
        rw [if_pos rfl, squeezeFrom_space (script.isSpace_of_isBlank c hc)]
        cases inRun with
        | true =>
          rw [if_pos rfl, hrun rfl]
          exact ih true place hrun
        | false =>
          rw [if_neg Bool.false_ne_true, squeezeFrom_space hblank]
          exact ih true place.after fun _ => hagain
      | false =>
        rw [if_neg Bool.false_ne_true]
        have hnot : false = true → place.after.after = place.after := fun h => by cases h
        cases hspace : script.isSpace c with
        | true =>
          rw [squeezeFrom_space hspace, squeezeFrom_space hspace]
          exact ih false place.after hnot
        | false => exact squeezeFrom_letter hspace rfl (ih false .word fun h => by cases h)
  exact hfrom false .start fun h => by cases h

end Script

end HackerUnion.Tags
