import HackerUnion.Diff.JsDiff
import Mathlib.Data.List.Basic

namespace HackerUnion.Diff.JsDiff

open HackerUnion.Lists

/-- The script that components stand for. -/
def script (components : List Component) : List Edit :=
  components.flatMap fun c => List.replicate c.count c.edit

theorem script_append (cs ds : List Component) : script (cs ++ ds) = script cs ++ script ds := by
  simp [script]

theorem script_pushComponent (cs : List Component) (e : Edit) :
    script (pushComponent cs e) = script cs ++ [e] := by
  unfold pushComponent
  split
  · next last hlast =>
    split
    · next hsame =>
      subst hsame
      have hcs : cs = cs.dropLast ++ [last] := (List.dropLast_append_getLast? last hlast).symm
      nth_rewrite 2 [hcs]
      rw [script_append, script_append, List.append_assoc]
      simp [script, List.replicate_succ']
    · rw [script_append]
      simp [script]
  · next hnone =>
    rw [List.getLast?_eq_none_iff.mp hnone]
    simp [script]

section Common

variable {α : Type} {equals : α → α → Bool} {newString oldString : List α} {n o : Nat}

/-- The next tokens of both texts are equal. -/
def Same (equals : α → α → Bool) (newString oldString : List α) (n o : Nat) : Prop :=
  ∃ a b, newString[n]? = some a ∧ oldString[o]? = some b ∧ equals a b = true

variable (equals) in
theorem commonCount_le (as bs : List α) :
    commonCount equals as bs ≤ as.length ∧ commonCount equals as bs ≤ bs.length := by
  induction as generalizing bs with
  | nil => simp [commonCount]
  | cons a as ih =>
    cases bs with
    | nil => simp [commonCount]
    | cons b bs =>
      have h := ih bs
      unfold commonCount
      simp only [List.length_cons]
      split <;> omega

theorem same_of_lt_commonCount {as bs : List α} {i : Nat} (h : i < commonCount equals as bs) :
    Same equals as bs i i := by
  induction as generalizing bs i with
  | nil => simp [commonCount] at h
  | cons a as ih =>
    cases bs with
    | nil => simp [commonCount] at h
    | cons b bs =>
      unfold commonCount at h
      split at h
      · next heq =>
        cases i with
        | zero => exact ⟨a, b, rfl, rfl, heq⟩
        | succ i => exact ih (by omega)
      · omega

theorem le_commonCount {as bs : List α} {m : Nat} (h : ∀ i < m, Same equals as bs i i) :
    m ≤ commonCount equals as bs := by
  induction m generalizing as bs with
  | zero => omega
  | succ m ih =>
    obtain ⟨a, b, ha, hb, heq⟩ := h 0 (by omega)
    cases as with
    | nil => simp at ha
    | cons a' as =>
      cases bs with
      | nil => simp at hb
      | cons b' bs =>
        obtain rfl : a' = a := by simpa using ha
        obtain rfl : b' = b := by simpa using hb
        have hrest : m ≤ commonCount equals as bs := ih fun i hi => h (i + 1) (by omega)
        unfold commonCount
        rw [if_pos heq]
        omega

theorem same_drop (i : Nat) :
    Same equals (newString.drop n) (oldString.drop o) i i ↔
      Same equals newString oldString (n + i) (o + i) := by
  simp [Same]

end Common

section Search

variable {α : Type} (equals : α → α → Bool) (newString oldString : List α)

/-- Scripts between points of the two texts. -/
abbrev Script (es : List Edit) (n o n' o' : Nat) : Prop :=
  Walk (Same equals newString oldString) newString.length oldString.length es n o n' o'

/-- The path leads to a point on the diagonal, with so many edits. -/
def Sound (d : Nat) (diagonalPath : Int) (path : Path) : Prop :=
  ∃ n o : Nat, path.newPos + 1 = n ∧ diagonalPath = n - o ∧ cost (script path.components) = d ∧
    Script equals newString oldString (script path.components) 0 0 n o

/-- After so many edits: every path is one of the texts, and where a script with `D` edits passes,
none is left behind. -/
structure Frontier (D d : Nat) (bestPath : Paths) : Prop where
  sound : ∀ k path, bestPath k = some path → Sound equals newString oldString d k path
  far : ∀ n o : Nat,
    OnScript (Same equals newString oldString) newString.length oldString.length D d n o →
      ∃ path, bestPath (n - o) = some path ∧ n ≤ path.newPos + 1

variable {equals newString oldString} {d D : Nat} {k : Int} {path : Path} {bestPath : Paths}

theorem Sound.bounded (h : Sound equals newString oldString d k path) : -d ≤ k ∧ k ≤ d := by
  obtain ⟨n, o, -, hk, hcost, hwalk⟩ := h
  have hnew := hwalk.new_eq
  have hold := hwalk.old_eq
  unfold cost at hcost
  omega

theorem Sound.parity (h : Sound equals newString oldString d k path) : (k + d) % 2 = 0 := by
  obtain ⟨n, o, -, hk, hcost, hwalk⟩ := h
  have hnew := hwalk.new_eq
  have hold := hwalk.old_eq
  unfold cost at hcost
  omega

variable (equals newString oldString) in
theorem extractCommon_eq {n o : Nat} (hn : path.newPos + 1 = n) (hk : k = n - o) :
    ∃ path', extractCommon equals newString oldString path k = (path', path'.newPos - k) ∧
      path'.newPos + 1 =
        (n + commonCount equals (newString.drop n) (oldString.drop o) : Nat) ∧
      script path'.components = script path.components ++
        List.replicate (commonCount equals (newString.drop n) (oldString.drop o)) .keep := by
  have hnew : (path.newPos + 1).toNat = n := by omega
  have hold : (path.newPos - k + 1).toNat = o := by omega
  have hpos : ¬path.newPos - k + 1 < 0 := by omega
  unfold extractCommon
  simp only [hnew, hold, if_neg hpos]
  generalize commonCount equals (newString.drop n) (oldString.drop o) = c
  refine ⟨⟨path.newPos + c,
    if c = 0 then path.components else path.components ++ [⟨c, .keep⟩]⟩, ?_, ?_, ?_⟩
  · refine Prod.ext rfl ?_
    dsimp only
    omega
  · dsimp only
    omega
  · dsimp only
    split
    · next hc => simp [hc]
    · rw [script_append]
      simp [script]

/-- Going along what is the same keeps a path sound, and leads as far as any script does that has
come no further before. -/
theorem extractCommon_sound (h : Sound equals newString oldString d k path) :
    ∃ path', extractCommon equals newString oldString path k = (path', path'.newPos - k) ∧
      Sound equals newString oldString d k path' ∧
      ∀ n o c : Nat, (n : Int) - o = k → n ≤ path.newPos + 1 →
        Script equals newString oldString (List.replicate c .keep) n o (n + c) (o + c) →
        (n + c : Nat) ≤ path'.newPos + 1 := by
  obtain ⟨n, o, hn, hk, hcost, hwalk⟩ := h
  obtain ⟨path', heq, hnew, hscript⟩ :=
    extractCommon_eq equals newString oldString hn hk
  have hle := commonCount_le equals (newString.drop n) (oldString.drop o)
  have hn' := hwalk.new_le (Nat.zero_le _)
  have ho' := hwalk.old_le (Nat.zero_le _)
  rw [List.length_drop, List.length_drop] at hle
  refine ⟨path', heq, ?_, ?_⟩
  · refine ⟨_, o + commonCount equals (newString.drop n) (oldString.drop o), hnew, by omega, ?_, ?_⟩
    · rw [hscript, cost_append, hcost, cost_keeps]
      omega
    · rw [hscript]
      apply hwalk.append
      rw [Walk.keeps_iff _ (by omega) (by omega)]
      intro i hi
      exact (same_drop i).mp (same_of_lt_commonCount hi)
  · intro n₀ o₀ c hdiagonal hbefore hkeeps
    have hn₀ := hkeeps.new_le
    have ho₀ := hkeeps.old_le
    by_cases hpast : n₀ + c ≤ n
    · omega
    · -- the rest of what the script keeps begins where the path stands
      have hbound : n₀ + c ≤ newString.length ∧ o₀ + c ≤ oldString.length := by
        cases c with
        | zero => omega
        | succ c =>
          cases hkeeps with
          | keep hlt hlt' _ _ => exact ⟨hn₀ (by omega), ho₀ (by omega)⟩
      have hsames := (Walk.keeps_iff _ hbound.1 hbound.2).mp hkeeps
      have hsame : n₀ + c - n ≤ commonCount equals (newString.drop n) (oldString.drop o) := by
        apply le_commonCount
        intro i hi
        rw [same_drop]
        have hnext := hsames (n - n₀ + i) (by omega)
        rwa [show n₀ + (n - n₀ + i) = n + i by omega,
          show o₀ + (n - n₀ + i) = o + i by omega] at hnext
      omega

theorem branch_cases (h : branch newString oldString bestPath k = some path) :
    (∃ added, bestPath (k - 1) = some added ∧ added.newPos + 1 < newString.length ∧
      path = ⟨added.newPos + 1, pushComponent added.components .add⟩) ∨
    ∃ removed, bestPath (k + 1) = some removed ∧ 0 ≤ removed.newPos - k ∧
      removed.newPos - k < oldString.length ∧
      path = ⟨removed.newPos, pushComponent removed.components .remove⟩ := by
  unfold branch at h
  dsimp only at h
  split at h
  · cases h
  · next removed _ hremove =>
    obtain ⟨hbest, hpos⟩ := Option.filter_eq_some_iff.mp hremove
    rw [hbest] at hpos
    cases h
    exact Or.inr ⟨removed, hbest, by simpa using hpos⟩
  · next added hadd _ =>
    obtain ⟨hbest, hpos⟩ := Option.filter_eq_some_iff.mp hadd
    cases h
    exact Or.inl ⟨added, hbest, by simpa using hpos⟩
  · next added removed hadd hremove =>
    obtain ⟨hbest, hpos⟩ := Option.filter_eq_some_iff.mp hadd
    obtain ⟨hbest', hpos'⟩ := Option.filter_eq_some_iff.mp hremove
    rw [hbest'] at hpos'
    split at h
    · cases h
      exact Or.inr ⟨removed, hbest', by simpa using hpos'⟩
    · cases h
      exact Or.inl ⟨added, hbest, by simpa using hpos⟩

variable (newString oldString) in
theorem branch_add {added : Path} (hbest : bestPath (k - 1) = some added)
    (hlt : added.newPos + 1 < newString.length) :
    ∃ path, branch newString oldString bestPath k = some path ∧
      added.newPos + 1 ≤ path.newPos := by
  have hadd : (bestPath (k - 1)).filter
      (fun path => decide (path.newPos + 1 < (newString.length : Int))) = some added :=
    Option.filter_eq_some_iff.mpr ⟨hbest, decide_eq_true hlt⟩
  unfold branch
  dsimp only
  rw [hadd]
  split
  · next h _ => cases h
  · next h _ => cases h
  · next h _ =>
    cases h
    exact ⟨_, rfl, Int.le_refl _⟩
  · next h _ =>
    cases h
    split
    · next hfar => exact ⟨_, rfl, by dsimp only; omega⟩
    · exact ⟨_, rfl, Int.le_refl _⟩

variable (newString oldString) in
theorem branch_remove {removed : Path} (hbest : bestPath (k + 1) = some removed)
    (hpos : 0 ≤ removed.newPos - k) (hlt : removed.newPos - k < oldString.length) :
    ∃ path, branch newString oldString bestPath k = some path ∧
      removed.newPos ≤ path.newPos := by
  have hremove : (bestPath (k + 1)).filter
      (fun _ => decide (0 ≤ (bestPath (k + 1)).elim 0 Path.newPos - k ∧
        (bestPath (k + 1)).elim 0 Path.newPos - k < (oldString.length : Int))) = some removed := by
    rw [Option.filter_eq_some_iff]
    refine ⟨hbest, ?_⟩
    rw [hbest]
    exact decide_eq_true ⟨hpos, hlt⟩
  unfold branch
  dsimp only
  rw [hremove]
  split
  · next h => cases h
  · next h =>
    cases h
    exact ⟨_, rfl, Int.le_refl _⟩
  · next h => cases h
  · next h =>
    cases h
    split
    · exact ⟨_, rfl, Int.le_refl _⟩
    · next hfar => exact ⟨_, rfl, by dsimp only; omega⟩

theorem branch_sound (hbest : ∀ k path, bestPath k = some path →
      Sound equals newString oldString d k path)
    (h : branch newString oldString bestPath k = some path) :
    Sound equals newString oldString (d + 1) k path := by
  rcases branch_cases h with ⟨added, hadded, hlt, rfl⟩ | ⟨removed, hremoved, hpos, hlt, rfl⟩
  · obtain ⟨n, o, hn, hk, hcost, hwalk⟩ := hbest _ _ hadded
    refine ⟨n + 1, o, by dsimp only; omega, by omega, ?_, ?_⟩
    · rw [script_pushComponent, cost_append, hcost]
      rfl
    · rw [script_pushComponent]
      exact hwalk.append (.add (by omega) (.nil _ _))
  · obtain ⟨n, o, hn, hk, hcost, hwalk⟩ := hbest _ _ hremoved
    refine ⟨n, o + 1, hn, by omega, ?_, ?_⟩
    · rw [script_pushComponent, cost_append, hcost]
      rfl
    · rw [script_pushComponent]
      exact hwalk.append (.remove (by omega) (.nil _ _))

theorem extend_sound {oldPos : Int} (hbest : ∀ k path, bestPath k = some path →
      Sound equals newString oldString d k path)
    (h : extend equals newString oldString bestPath k = some (path, oldPos)) :
    Sound equals newString oldString (d + 1) k path ∧ oldPos = path.newPos - k := by
  unfold extend at h
  obtain ⟨base, hbase, hcommon⟩ := Option.map_eq_some_iff.mp h
  obtain ⟨path', heq, hsound, -⟩ := extractCommon_sound (branch_sound hbest hbase)
  rw [heq] at hcommon
  cases hcommon
  exact ⟨hsound, rfl⟩

/-- One edit more, on the diagonal of a point that a shortest script passes. -/
theorem Frontier.extend_far (h : Frontier equals newString oldString D d bestPath)
    (hleast : AtLeast (Same equals newString oldString) newString.length oldString.length D)
    {n o : Nat} (hon : OnScript (Same equals newString oldString) newString.length
      oldString.length D (d + 1) n o) :
    ∃ path : Path, extend equals newString oldString bestPath (n - o) =
        some (path, path.newPos - (n - o)) ∧
      n ≤ path.newPos + 1 := by
  obtain ⟨n₁, o₁, e, c, hbefore, he, ⟨es, hcost, hleads⟩, hlast⟩ := hon.last_edit
  obtain ⟨before, hbest, hfar⟩ := h.far n₁ o₁ hbefore
  obtain ⟨n₂, o₂, hn₂, hdiagonal, hcost₂, hwalk⟩ := h.sound _ _ hbest
  -- a path that is not behind the script when it comes to what is kept after the edit
  have hreach {base : Path} {n₀ o₀ : Nat}
      (hbase : branch newString oldString bestPath (n - o) = some base)
      (hnot : n₀ ≤ base.newPos + 1) (hrest : Script equals newString oldString
        (List.replicate c .keep) n₀ o₀ n o) :
      ∃ path : Path, extend equals newString oldString bestPath (n - o) =
        some (path, path.newPos - (n - o)) ∧ n ≤ path.newPos + 1 := by
    obtain ⟨rfl, rfl⟩ := hrest.keeps_eq
    obtain ⟨path, heq, -, hfar⟩ := extractCommon_sound (branch_sound h.sound hbase)
    refine ⟨path, ?_, hfar n₀ o₀ c (by omega) hnot hrest⟩
    unfold extend
    rw [hbase, Option.map_some, heq]
  cases e with
  | keep => exact absurd rfl he
  | add =>
    have hlt := hleast.can_add hcost₂ hwalk hcost hleads (by omega)
    cases hlast with
    | add _ hrest =>
      obtain ⟨hnew, hold⟩ := hrest.keeps_eq
      have hside : bestPath ((n : Int) - o - 1) = some before := by
        rw [← hbest]
        congr 1
        omega
      obtain ⟨base, hbase, hge⟩ := branch_add newString oldString hside (by omega)
      exact hreach hbase (by omega) hrest
  | remove =>
    have hlt := hleast.can_remove hcost₂ hwalk hcost hleads (by omega)
    cases hlast with
    | remove _ hrest =>
      obtain ⟨hnew, hold⟩ := hrest.keeps_eq
      have hside : bestPath ((n : Int) - o + 1) = some before := by
        rw [← hbest]
        congr 1
        omega
      obtain ⟨base, hbase, hge⟩ := branch_remove newString oldString hside (by omega)
        (by omega)
      exact hreach hbase (by omega) hrest

variable (equals newString oldString) in
theorem extend_congr {bestPath' : Paths} (hbelow : bestPath (k - 1) = bestPath' (k - 1))
    (habove : bestPath (k + 1) = bestPath' (k + 1)) :
    extend equals newString oldString bestPath k =
      extend equals newString oldString bestPath' k := by
  unfold extend branch
  rw [hbelow, habove]

variable (equals newString oldString) in
theorem execDiagonal_cases (bestPath : Paths) (k : Int) :
    (∃ path oldPos, extend equals newString oldString bestPath k = some (path, oldPos) ∧
      atEnd newString oldString path oldPos = true ∧
      execDiagonal equals newString oldString bestPath k = .inl path.components) ∨
    (∀ path oldPos, extend equals newString oldString bestPath k = some (path, oldPos) →
      atEnd newString oldString path oldPos = false) ∧
      execDiagonal equals newString oldString bestPath k =
        .inr (Function.update (Function.update bestPath (k - 1) none) k
          ((extend equals newString oldString bestPath k).map Prod.fst)) := by
  unfold execDiagonal
  cases hextend : extend equals newString oldString bestPath k with
  | none => exact Or.inr ⟨by simp, rfl⟩
  | some next =>
    obtain ⟨path, oldPos⟩ := next
    cases hend : atEnd newString oldString path oldPos with
    | true => exact Or.inl ⟨path, oldPos, rfl, hend, by simp [hend]⟩
    | false =>
      refine Or.inr ⟨?_, by simp [hend]⟩
      intro path' oldPos' h
      cases h
      exact hend

variable (equals newString oldString) in
/-- A pass over every other diagonal extends the paths as they were before it. -/
theorem execDiagonals_cases (start : Paths) (m : Nat) :
    ∀ (k : Int) (bestPath : Paths), (∀ i : Nat, i ≤ m →
      bestPath (k - 1 + 2 * i) = start (k - 1 + 2 * i)) →
    (∃ j path oldPos, extend equals newString oldString start j = some (path, oldPos) ∧
      atEnd newString oldString path oldPos = true ∧
      execDiagonals equals newString oldString (diagonals k m) bestPath = .inl path.components) ∨
    ∃ after, execDiagonals equals newString oldString (diagonals k m) bestPath = .inr after ∧
      (∀ j, j < k - 1 ∨ k + 2 * m ≤ j + 1 → after j = bestPath j) ∧
      ∀ i : Nat, i < m → after (k - 1 + 2 * i) = none ∧
        after (k + 2 * i) =
          (extend equals newString oldString start (k + 2 * i)).map Prod.fst ∧
        ∀ path oldPos, extend equals newString oldString start (k + 2 * i) = some (path, oldPos) →
          atEnd newString oldString path oldPos = false := by
  induction m with
  | zero =>
    intro k bestPath _
    exact Or.inr ⟨bestPath, rfl, by simp, by omega⟩
  | succ m ih =>
    intro k bestPath hstart
    have hbelow : bestPath (k - 1) = start (k - 1) := by simpa using hstart 0 (by omega)
    have habove : bestPath (k + 1) = start (k + 1) := by
      have h := hstart 1 (by omega)
      rwa [show k - 1 + 2 * ((1 : Nat) : Int) = k + 1 by omega] at h
    have hextend := extend_congr equals newString oldString hbelow habove
    unfold diagonals execDiagonals
    rcases execDiagonal_cases equals newString oldString bestPath k with
      ⟨path, oldPos, hpath, hend, hexec⟩ | ⟨hnot, hexec⟩
    · rw [hexec]
      exact Or.inl ⟨k, path, oldPos, hextend ▸ hpath, hend, rfl⟩
    · rw [hexec]
      generalize hnext : Function.update (Function.update bestPath (k - 1) none) k
        ((extend equals newString oldString bestPath k).map Prod.fst) = next
      have hat : next k = (extend equals newString oldString start k).map Prod.fst := by
        rw [← hnext, Function.update_self, hextend]
      have hcleared : next (k - 1) = none := by
        rw [← hnext, Function.update_of_ne (by omega), Function.update_self]
      have hother (j : Int) (hj : j ≠ k) (hj' : j ≠ k - 1) : next j = bestPath j := by
        rw [← hnext, Function.update_of_ne hj, Function.update_of_ne hj']
      have hagree : ∀ i : Nat, i ≤ m →
          next (k + 2 - 1 + 2 * i) = start (k + 2 - 1 + 2 * i) := by
        intro i hi
        rw [hother _ (by omega) (by omega)]
        have h := hstart (i + 1) (by omega)
        rwa [show k - 1 + 2 * ((i + 1 : Nat) : Int) = k + 2 - 1 + 2 * i by omega] at h
      rcases ih (k + 2) next hagree with hdone | ⟨after, hafter, hkept, hextended⟩
      · exact Or.inl hdone
      · refine Or.inr ⟨after, hafter, ?_, ?_⟩
        · intro j hj
          rw [hkept j (by omega), hother j (by omega) (by omega)]
        · intro i hi
          cases i with
          | zero =>
            rw [show k - 1 + 2 * ((0 : Nat) : Int) = k - 1 by omega,
              show k + 2 * ((0 : Nat) : Int) = k by omega, hkept _ (by omega), hkept _ (by omega)]
            exact ⟨hcleared, hat, hextend ▸ hnot⟩
          | succ i =>
            have h := hextended i (by omega)
            rwa [show k + 2 - 1 + 2 * (i : Int) = k - 1 + 2 * ((i + 1 : Nat) : Int) by omega,
              show k + 2 + 2 * (i : Int) = k + 2 * ((i + 1 : Nat) : Int) by omega] at h

theorem atEnd_iff {n o : Nat} (hn : path.newPos + 1 = n) (hk : k = n - o) :
    atEnd newString oldString path (path.newPos - k) = true ↔
      newString.length ≤ n ∧ oldString.length ≤ o := by
  unfold atEnd
  simp
  omega

/-- A path that is at both ends is a script for the whole texts. -/
theorem Sound.whole (h : Sound equals newString oldString d k path)
    (hend : atEnd newString oldString path (path.newPos - k) = true) :
    cost (script path.components) = d ∧
      Script equals newString oldString (script path.components) 0 0 newString.length
        oldString.length := by
  obtain ⟨n, o, hn, hk, hcost, hwalk⟩ := h
  have hle := (atEnd_iff hn hk).mp hend
  have hn' := hwalk.new_le (Nat.zero_le _)
  have ho' := hwalk.old_le (Nat.zero_le _)
  obtain rfl : n = newString.length := by omega
  obtain rfl : o = oldString.length := by omega
  exact ⟨hcost, hwalk⟩

/-- Texts that are at their ends without an edit are the same all along. -/
theorem Sound.kept (h : Sound equals newString oldString 0 k path)
    (hend : atEnd newString oldString path (path.newPos - k) = true) :
    ∃ c, Script equals newString oldString (List.replicate c .keep) 0 0 newString.length
      oldString.length := by
  obtain ⟨hcost, hwalk⟩ := h.whole hend
  obtain ⟨c, hc⟩ := eq_keeps_of_cost hcost
  exact ⟨c, hc ▸ hwalk⟩

/-- A pass of `execEditLength` ends with a shortest script, or takes the frontier one edit
further. -/
theorem execEditLength_cases (h : Frontier equals newString oldString D d bestPath)
    (hleast : AtLeast (Same equals newString oldString) newString.length oldString.length D) :
    (∃ components, execEditLength equals newString oldString (d + 1) bestPath = .inl components ∧
      cost (script components) = d + 1 ∧
      Script equals newString oldString (script components) 0 0 newString.length
        oldString.length) ∨
    ∃ after, execEditLength equals newString oldString (d + 1) bestPath = .inr after ∧
      Frontier equals newString oldString D (d + 1) after ∧
      ¬OnScript (Same equals newString oldString) newString.length oldString.length D (d + 1)
        newString.length oldString.length := by
  unfold execEditLength
  rcases execDiagonals_cases equals newString oldString bestPath (d + 1 + 1)
    (-((d + 1 : Nat) : Int)) bestPath (fun _ _ => rfl) with
    ⟨j, path, oldPos, hpath, hend, hexec⟩ | ⟨after, hexec, hkept, hextended⟩
  · obtain ⟨hsound, rfl⟩ := extend_sound h.sound hpath
    obtain ⟨hcost, hwalk⟩ := hsound.whole hend
    exact Or.inl ⟨path.components, hexec, hcost, hwalk⟩
  · refine Or.inr ⟨after, hexec, ⟨?_, ?_⟩, ?_⟩
    · intro k path hpath
      by_cases hrange : k < -((d + 1 : Nat) : Int) - 1 ∨ ((d + 1 : Nat) : Int) < k
      · -- no path was there before
        rw [hkept k (by omega)] at hpath
        have hbounded := (h.sound k path hpath).bounded
        omega
      · by_cases hparity : (k + (d + 1 : Nat)) % 2 = 0
        · obtain ⟨i, hi⟩ : ∃ i : Nat, k = -((d + 1 : Nat) : Int) + 2 * i :=
            ⟨((k + (d + 1 : Nat)) / 2).toNat, by omega⟩
          have hat := (hextended i (by omega)).2.1
          rw [← hi, hpath] at hat
          obtain ⟨⟨path', oldPos⟩, hextend, hfst⟩ := Option.map_eq_some_iff.mp hat.symm
          cases hfst
          exact (extend_sound h.sound hextend).1
        · obtain ⟨i, hi⟩ : ∃ i : Nat, k = -((d + 1 : Nat) : Int) - 1 + 2 * i :=
            ⟨((k + (d + 1 : Nat) + 1) / 2).toNat, by omega⟩
          have hnone := (hextended i (by omega)).1
          rw [← hi, hpath] at hnone
          cases hnone
    · intro n o hon
      obtain ⟨path, hextend, hfar⟩ := h.extend_far hleast hon
      have hsound := (extend_sound h.sound hextend).1
      have hbounded := hsound.bounded
      have hparity := hsound.parity
      obtain ⟨i, hi⟩ : ∃ i : Nat, (n : Int) - o = -((d + 1 : Nat) : Int) + 2 * i :=
        ⟨(((n : Int) - o + (d + 1 : Nat)) / 2).toNat, by omega⟩
      have hat := (hextended i (by omega)).2.1
      rw [← hi, hextend] at hat
      exact ⟨path, hat, hfar⟩
    · intro hon
      obtain ⟨path, hextend, hfar⟩ := h.extend_far hleast hon
      have hsound := (extend_sound h.sound hextend).1
      have hbounded := hsound.bounded
      have hparity := hsound.parity
      obtain ⟨i, hi⟩ : ∃ i : Nat, (newString.length : Int) - oldString.length =
          -((d + 1 : Nat) : Int) + 2 * i :=
        ⟨(((newString.length : Int) - oldString.length + (d + 1 : Nat)) / 2).toNat, by omega⟩
      have hnot := (hextended i (by omega)).2.2
      rw [← hi] at hnot
      have hend := hnot _ _ hextend
      unfold atEnd at hend
      simp at hend
      omega

/-- The rounds that are allowed are enough, when the shortest script is within them. -/
theorem execFrom_least (hleast : AtLeast (Same equals newString oldString) newString.length
      oldString.length D)
    (hscript : ∃ es, cost es = D ∧
      Script equals newString oldString es 0 0 newString.length oldString.length) (rounds : Nat) :
    ∀ (d : Nat) (bestPath : Paths), Frontier equals newString oldString D d bestPath → d < D →
      D ≤ d + rounds →
      ∃ components, execFrom equals newString oldString rounds (d + 1) bestPath = some components ∧
        cost (script components) = D ∧
        Script equals newString oldString (script components) 0 0 newString.length
          oldString.length := by
  induction rounds with
  | zero =>
    intro d _ _ hlt hle
    omega
  | succ rounds ih =>
    intro d bestPath hfrontier hlt hle
    unfold execFrom
    rcases execEditLength_cases hfrontier hleast with
      ⟨components, hexec, hcost, hwalk⟩ | ⟨after, hexec, hafter, hnot⟩
    · rw [hexec]
      have hbound := hleast _ hwalk
      exact ⟨components, rfl, by omega, hwalk⟩
    · rw [hexec]
      -- the shortest script is not that short
      have hne : d + 1 ≠ D := by
        intro hd
        subst hd
        exact hnot ⟨hscript, [], rfl, .nil _ _⟩
      exact ih (d + 1) after hafter (by omega) (by omega)

variable (equals newString oldString) in
theorem seed_sound : ∃ path, seed equals newString oldString = (path, path.newPos - 0) ∧
    Sound equals newString oldString 0 0 path ∧
    ∀ n o c : Nat, Script equals newString oldString (List.replicate c .keep) 0 0 n o →
      c ≤ path.newPos + 1 := by
  have hstart : Sound equals newString oldString 0 0 ⟨-1, []⟩ := ⟨0, 0, rfl, rfl, rfl, .nil 0 0⟩
  obtain ⟨path, heq, hsound, hfar⟩ := extractCommon_sound hstart
  refine ⟨path, heq, hsound, ?_⟩
  intro n o c hkeeps
  obtain ⟨rfl, rfl⟩ := hkeeps.keeps_eq
  have h := hfar 0 0 c rfl (by simp) hkeeps
  simpa using h

/-- The frontier from which the search sets out. -/
theorem Frontier.start (hseed : seed equals newString oldString = (path, path.newPos - 0)) :
    Frontier equals newString oldString D 0 (Function.update (fun _ => none) 0 (some path)) := by
  obtain ⟨path', heq, hsound, hfar⟩ := seed_sound equals newString oldString
  rw [hseed] at heq
  cases heq
  constructor
  · intro k path' hpath
    by_cases hk : k = 0
    · subst hk
      rw [Function.update_self] at hpath
      cases hpath
      exact hsound
    · rw [Function.update_of_ne hk] at hpath
      cases hpath
  · intro n o hon
    obtain ⟨es, hcost, hwalk⟩ := hon.reached
    obtain ⟨c, rfl⟩ := eq_keeps_of_cost hcost
    have hc := hfar n o c hwalk
    obtain ⟨hn, ho⟩ := hwalk.keeps_eq
    rw [show (n : Int) - o = 0 by omega, Function.update_self]
    exact ⟨path, rfl, by omega⟩

/-- Unless the two texts are the same by the comparison, the search comes to an end, and with a
shortest script. -/
theorem search_least (hseed : seed equals newString oldString = (path, path.newPos - 0))
    (hend : atEnd newString oldString path (path.newPos - 0) = false) :
    ∃ components, search equals newString oldString path = some components ∧
      Script equals newString oldString (script components) 0 0 newString.length
        oldString.length ∧
      AtLeast (Same equals newString oldString) newString.length oldString.length
        (cost (script components)) := by
  obtain ⟨D, hscript, hleast, hle⟩ := exists_least (Same equals newString oldString)
    newString.length oldString.length
  have hpos : 0 < D := by
    by_contra hzero
    obtain ⟨es, hcost, hwalk⟩ := hscript
    have hnone : cost es = 0 := by omega
    obtain ⟨c, rfl⟩ := eq_keeps_of_cost hnone
    obtain ⟨hn, ho⟩ := hwalk.keeps_eq
    obtain ⟨path', heq, -, hfar⟩ := seed_sound equals newString oldString
    rw [hseed] at heq
    cases heq
    have hc := hfar _ _ c hwalk
    unfold atEnd at hend
    simp at hend
    omega
  obtain ⟨components, hexec, hcost, hwalk⟩ := execFrom_least hleast hscript
    (newString.length + oldString.length) 0 _ (Frontier.start hseed) hpos (by omega)
  exact ⟨components, hexec, hwalk, hcost ▸ hleast⟩

end Search

end HackerUnion.Diff.JsDiff
