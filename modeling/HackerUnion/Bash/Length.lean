import HackerUnion.Bash.Words

namespace HackerUnion.Bash

section Lines

variable {t : Text} {ls : List Text} {f : Char → Char}

theorem length_unlines (ls : List Text) :
    (unlines ls).length = (ls.map fun l => l.length + 1).sum := by
  induction ls with
  | nil => rfl
  | cons l ls ih =>
    simp only [unlines_cons, List.length_append, List.length_cons, List.map_cons, List.sum_cons, ih]
    omega

/-- A text whose end is ended is made of its lines. -/
theorem unlines_lines (t : Text) : unlines (lines (t ++ ['\n'])) = t ++ ['\n'] := by
  obtain ⟨ls, rest, rfl, hls, hrest⟩ := exists_unlines_append t
  have hended : unlines ls ++ rest ++ ['\n'] = unlines (ls ++ [rest]) := by
    simp [unlines_append]
  have hline : ∀ l ∈ ls ++ [rest], Line l := by
    intro l hl
    rcases List.mem_append.mp hl with hl | hl
    · exact hls l hl
    · exact List.mem_singleton.mp hl ▸ hrest
  rw [hended, lines_unlines hline]

/-- Lines are captured as the text they are made of, whether its end was ended or not. -/
theorem capture_unlines_lines (t : Text) : capture (unlines (lines t)) = capture t := by
  obtain ⟨ls, rest, rfl, hls, hrest⟩ := exists_unlines_append t
  rw [lines_unlines_append hls hrest]
  split
  · rename_i hnil
    simp [hnil]
  · rw [unlines_append, unlines_cons, unlines_nil, ← List.append_assoc, capture_append_newline]

theorem map_unlines (hf : ∀ c, f c = '\n' ↔ c = '\n') (ls : List Text) :
    (unlines ls).map f = unlines (ls.map (List.map f)) := by
  have hnewline : f '\n' = '\n' := (hf '\n').mpr rfl
  induction ls with
  | nil => rfl
  | cons l ls ih =>
    rw [unlines_cons, List.map_append, List.map_cons, ih, hnewline, List.map_cons, unlines_cons]

theorem length_capture_map (hf : ∀ c, f c = '\n' ↔ c = '\n') (t : Text) :
    (capture (t.map f)).length = (capture t).length := by
  unfold capture
  induction t using List.reverseRecOn with
  | nil => rfl
  | append_singleton t c ih =>
    rw [List.map_append, List.map_singleton, List.rdropWhile_concat, List.rdropWhile_concat]
    by_cases hc : c = '\n'
    · have hfc := (hf c).mpr hc
      rw [if_pos (beq_iff_eq.mpr hfc), if_pos (beq_iff_eq.mpr hc)]
      exact ih
    · have hfc := mt (hf c).mp hc
      simp [hc, hfc]

theorem length_capture_le (t : Text) : (capture t).length ≤ t.length :=
  (List.rdropWhile_prefix _ _).length_le

end Lines

section Echo

variable {o : EchoOptions}

/-- Nothing gets longer where escapes are interpreted. -/
theorem length_unescape (skip : Nat) (t : Text) : (unescape skip t).1.length ≤ t.length := by
  induction t generalizing skip with
  | nil => cases skip <;> simp [unescape]
  | cons c t ih =>
    cases skip with
    | succ skip => exact (ih skip).trans (Nat.le_succ _)
    | zero =>
      rw [unescape]
      split
      · split
        · simp
        · rename_i length _
          exact Nat.succ_le_succ (ih length)
        · exact Nat.succ_le_succ (ih 0)
      · exact Nat.succ_le_succ (ih 0)

theorem length_capture_echoRest (o : EchoOptions) (args : List Text) :
    (capture (echoRest o args)).length ≤ (List.intercalate [' '] args).length := by
  have hrest (out : Text) (stop : Bool) :
      (capture (if o.newline && !stop then out ++ ['\n'] else out)).length ≤ out.length := by
    split
    · rw [capture_append_newline]
      exact length_capture_le out
    · exact length_capture_le out
  rw [echoRest]
  cases o.escapes with
  | false => exact hrest _ _
  | true => exact (hrest _ _).trans (length_unescape 0 _)

theorem length_intercalate_cons (w : Text) (ws : List Text) :
    (List.intercalate [' '] ws).length ≤ (List.intercalate [' '] (w :: ws)).length := by
  cases ws with
  | nil => simp [List.intercalate]
  | cons w' ws =>
    have hcons : List.intercalate [' '] (w :: w' :: ws) =
        w ++ ' ' :: List.intercalate [' '] (w' :: ws) := by
      simp [List.intercalate]
    rw [hcons, List.length_append, List.length_cons]
    omega

/-- `echo` prints no more than its arguments, the blanks between them and a newline. -/
theorem length_capture_echo (args : List Text) :
    (capture (echo args)).length ≤ (List.intercalate [' '] args).length := by
  suffices h : ∀ o, (capture (echoWith o args)).length ≤ (List.intercalate [' '] args).length from
    h ⟨true, false⟩
  induction args with
  | nil => exact fun o => length_capture_echoRest o []
  | cons arg args ih =>
    intro o
    rw [echoWith]
    split
    · exact (ih _).trans (length_intercalate_cons arg args)
    · exact length_capture_echoRest o (arg :: args)

end Echo

/-- The words with a space between them are no longer than the text, and shorter where it begins
with a blank. -/
theorem length_joined (t : Text) :
    (joined t).length ≤ t.length ∧ (t.head?.any isBlank → (joined t).length < t.length) := by
  induction t with
  | nil => simp [joined, words]
  | cons c t ih =>
    obtain ⟨hle, hlt⟩ := ih
    cases hc : isBlank c with
    | true =>
      have hjoined : joined (c :: t) = joined t := by rw [joined, words_blank hc, joined]
      rw [hjoined, List.length_cons]
      exact ⟨by omega, fun _ => by omega⟩
    | false =>
      refine ⟨?_, by simp [hc]⟩
      rw [joined_char hc, List.length_cons, List.length_cons]
      split
      · rename_i hblank
        have hlt := hlt hblank
        split
        · exact Nat.succ_le_succ (Nat.zero_le _)
        · rw [List.length_cons]
          omega
      · omega

end HackerUnion.Bash
