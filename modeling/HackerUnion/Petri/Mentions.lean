import HackerUnion.Petri.Models
import HackerUnion.Sbin.Common

namespace HackerUnion.Petri

open Bash (Text text lower)
open Sbin (toLower_eq_iff)

variable {chapter : Chapter} {before : Option Char} {c : Char} {t u name : Text}

/-- Directly after a mention another name with its sign, which is no mention there. -/
def Chained (content : Text) : Prop :=
  ∃ front name rest, content = front ++ '@' :: (name ++ '@' :: rest) ∧
    mentionAt front.getLast? '@' (name ++ '@' :: rest) = some name ∧ (mention rest).isSome

/-- The name with its sign that a text begins with. -/
def signed : Text → List Text
  | c :: t => if c = '@' then (mention t).toList else []
  | [] => []

/-- The names with their signs that follow the mentions of a text. -/
def chained (before : Option Char) : Text → List Text
  | [] => []
  | c :: t =>
    (match mentionAt before c t with
      | some name => signed (t.drop name.length)
      | none => []) ++ chained (some c) t

section Mention

theorem mention_eq_some (h : mention t = some name) :
    name = t.takeWhile isWord ∧ name ≠ [] := by
  rw [mention] at h
  split_ifs at h with hname
  cases h
  refine ⟨rfl, ?_⟩
  intro hnil
  rw [hnil] at hname
  cases hname

theorem mentionAt_eq_some (h : mentionAt before c t = some name) :
    c = '@' ∧ before.any isHandle = false ∧ mention t = some name := by
  rw [mentionAt] at h
  split_ifs at h with hat
  rw [Bool.and_eq_true, decide_eq_true_eq, Bool.not_eq_true'] at hat
  exact ⟨hat.1, hat.2, h⟩

theorem mentionAt_of_ne (h : c ≠ '@') : mentionAt before c t = none := by
  simp [mentionAt, h]

theorem mentionAt_of_handle (h : before.any isHandle = true) : mentionAt before c t = none := by
  simp [mentionAt, h]

theorem mention_congr (h : t.takeWhile isWord = u.takeWhile isWord) : mention t = mention u := by
  rw [mention, mention, h]

/-- No mention begins within a run of word characters. -/
theorem mentionsAfter_append (hname : '@' ∉ name) :
    mentionsAfter before (name ++ t) = mentionsAfter (name.getLast?.or before) t := by
  induction name generalizing before with
  | nil => rfl
  | cons c name ih =>
    rw [List.mem_cons, not_or] at hname
    rw [List.cons_append, mentionsAfter, mentionAt_of_ne (Ne.symm hname.1), ih hname.2,
      List.getLast?_cons]
    cases name.getLast? <;> rfl

theorem chained_append (hname : '@' ∉ name) :
    chained before (name ++ t) = chained (name.getLast?.or before) t := by
  induction name generalizing before with
  | nil => rfl
  | cons c name ih =>
    rw [List.mem_cons, not_or] at hname
    rw [List.cons_append, chained, mentionAt_of_ne (Ne.symm hname.1), ih hname.2,
      List.getLast?_cons]
    cases name.getLast? <;> rfl

end Mention

section Linkify

theorem linkifyAfter_skip (name t : Text) :
    linkifyAfter chapter before name.length (name ++ t) =
      linkifyAfter chapter (name.getLast?.or before) 0 t := by
  induction name generalizing before with
  | nil => rfl
  | cons c name ih =>
    rw [List.cons_append, List.length_cons, linkifyAfter, ih, List.getLast?_cons]
    cases name.getLast? <;> rfl

theorem linkifyAfter_none (h : mentionAt before c t = none) :
    linkifyAfter chapter before 0 (c :: t) = c :: linkifyAfter chapter (some c) 0 t := by
  rw [linkifyAfter, h]

/-- A text without mentions stays as it is. -/
theorem linkifyAfter_eq_self (h : mentionsAfter before t = []) :
    linkifyAfter chapter before 0 t = t := by
  induction t generalizing before with
  | nil => rfl
  | cons c t ih =>
    rw [mentionsAfter, List.append_eq_nil_iff] at h
    have hnone : mentionAt before c t = none := by simpa using h.1
    rw [linkifyAfter_none hnone, ih h.2]

theorem link_eq (chapter : Chapter) (name : Text) : ∃ rest, link chapter name = '<' :: rest :=
  ⟨_, rfl⟩

/-- The word that a text begins with stays as it is. -/
theorem takeWhile_linkifyAfter (before : Option Char) (t : Text) :
    (linkifyAfter chapter before 0 t).takeWhile isWord = t.takeWhile isWord := by
  induction t generalizing before with
  | nil => rfl
  | cons c t ih =>
    cases hat : mentionAt before c t with
    | none => rw [linkifyAfter_none hat, List.takeWhile_cons, List.takeWhile_cons, ih]
    | some name =>
      obtain ⟨rfl, _, _⟩ := mentionAt_eq_some hat
      obtain ⟨rest, hlink⟩ := link_eq chapter name
      rw [linkifyAfter, hat]
      simp only [hlink]
      rw [List.cons_append, List.takeWhile_cons_of_neg (by decide),
        List.takeWhile_cons_of_neg (by decide)]

theorem link_getLast? (chapter : Chapter) (name : Text) :
    (link chapter name).getLast? = some '>' := by
  have hlast : (text "</a>").getLast? = some '>' := by decide
  unfold link
  rw [List.getLast?_append, hlast]
  rfl

theorem at_notMem_lower (hname : '@' ∉ name) : '@' ∉ lower name := by
  intro hmem
  obtain ⟨c, hc, heq⟩ := List.mem_map.mp hmem
  rw [toLower_eq_iff (by decide) (by decide)] at heq
  exact hname (heq ▸ hc)

/-- In a link there is no mention, where the chapter has no sign in its slug. -/
theorem at_notMem_link (hslug : '@' ∉ chapter.slug) (hname : '@' ∉ name) :
    '@' ∉ link chapter name := by
  have hlower := at_notMem_lower hname
  have hfront : '@' ∉ text "<a href=\"http://hackerunion.org/" := by decide
  have hmembers : '@' ∉ text "/members/?n=" := by decide
  have hmiddle : '@' ∉ text "\">" := by decide
  have hback : '@' ∉ text "</a>" := by decide
  unfold link
  simp only [List.mem_append, not_or]
  exact ⟨⟨⟨⟨⟨⟨hfront, hslug⟩, hmembers⟩, hlower⟩, hmiddle⟩, hlower⟩, hback⟩

end Linkify

theorem mention_linkifyAfter (before : Option Char) (t : Text) :
    mention (linkifyAfter chapter before 0 t) = mention t :=
  mention_congr (takeWhile_linkifyAfter before t)

theorem mentionAt_linkifyAfter (before after : Option Char) (c : Char) (t : Text) :
    mentionAt before c (linkifyAfter chapter after 0 t) = mentionAt before c t := by
  rw [mentionAt, mentionAt, mention_linkifyAfter]

/-- A name is a word, and what is left of the text comes after it. -/
theorem exists_append_of_mention (h : mention t = some name) :
    ∃ rest, t = name ++ rest ∧ name ≠ [] ∧ name.all isWord = true := by
  obtain ⟨rfl, hne⟩ := mention_eq_some h
  refine ⟨t.dropWhile isWord, (List.takeWhile_append_dropWhile).symm, hne, ?_⟩
  rw [List.all_eq_true]
  exact fun c hc => List.mem_takeWhile_imp hc

theorem at_notMem_word (hword : name.all isWord = true) : '@' ∉ name :=
  fun hmem => absurd (List.all_eq_true.mp hword '@' hmem) (by decide)

/-- A mention follows the end of a link, but not the end of a word. -/
theorem signed_eq (t : Text) :
    signed t = match t with
      | [] => []
      | c :: t => (mentionAt (some '>') c t).toList := by
  cases t with
  | nil => rfl
  | cons c t =>
    show (if c = '@' then (mention t).toList else []) = (mentionAt (some '>') c t).toList
    by_cases hc : c = '@'
    · subst hc
      rfl
    · rw [if_neg hc, mentionAt_of_ne hc]
      rfl

/-- After linkifying, the names that followed the mentions with their signs are the mentions. -/
theorem mentionsAfter_linkifyAfter (hslug : '@' ∉ chapter.slug) (before : Option Char) (t : Text) :
    mentionsAfter before (linkifyAfter chapter before 0 t) = chained before t := by
  induction hlength : t.length using Nat.strongRecOn generalizing before t with
  | ind n ih =>
    cases t with
    | nil => rfl
    | cons c t =>
      have hstep (before : Option Char) (u : Text) (hu : u.length ≤ t.length) :
          mentionsAfter before (linkifyAfter chapter before 0 u) = chained before u := by
        rw [List.length_cons] at hlength
        exact ih u.length (by omega) before u rfl
      cases hat : mentionAt before c t with
      | none =>
        rw [linkifyAfter_none hat, mentionsAfter, mentionAt_linkifyAfter, hat, chained, hat,
          hstep _ t le_rfl]
        rfl
      | some name =>
        obtain ⟨rfl, _, hmention⟩ := mentionAt_eq_some hat
        obtain ⟨rest, rfl, hne, hword⟩ := exists_append_of_mention hmention
        have hname := at_notMem_word hword
        have hlast := List.getLast?_eq_some_getLast hne
        have hhandle : isHandle (name.getLast hne) = true := by
          rw [isHandle, List.all_eq_true.mp hword _ (List.getLast_mem hne)]
          rfl
        rw [linkifyAfter, hat, chained, hat]
        simp only
        rw [linkifyAfter_skip, mentionsAfter_append (at_notMem_link hslug hname), link_getLast?,
          chained_append hname, List.drop_left, hlast, signed_eq]
        cases rest with
        | nil => rfl
        | cons d rest =>
          have hnone : mentionAt (some (name.getLast hne)) d rest = none :=
            mentionAt_of_handle hhandle
          have hrest : List.length rest ≤ List.length (name ++ d :: rest) := by
            rw [List.length_append, List.length_cons]
            omega
          rw [Option.some_or, Option.some_or, linkifyAfter_none hnone, mentionsAfter,
            mentionAt_linkifyAfter, chained, hnone, hstep _ rest hrest]
          rfl

section Chained

theorem signed_ne_nil_iff : signed t ≠ [] ↔ ∃ rest, t = '@' :: rest ∧ (mention rest).isSome := by
  cases t with
  | nil => simp [signed]
  | cons c t =>
    rw [signed]
    constructor
    · intro h
      split_ifs at h with hc
      · refine ⟨t, by rw [hc], ?_⟩
        rw [Option.isSome_iff_ne_none]
        intro hnone
        exact h (by rw [hnone]; rfl)
      · exact absurd rfl h
    · intro h
      obtain ⟨rest, heq, hsome⟩ := h
      obtain ⟨rfl, rfl⟩ := List.cons.inj heq
      obtain ⟨name, hname⟩ := Option.isSome_iff_exists.mp hsome
      simp [hname]

theorem getLast?_cons_or (c : Char) (t : Text) :
    (List.getLast? (c :: t)).or before = t.getLast?.or (some c) := by
  rw [List.getLast?_cons]
  cases t.getLast? <;> rfl

/-- What follows the mention with which a text begins. -/
theorem chained_head_iff :
    (match mentionAt before c t with
      | some name => signed (t.drop name.length)
      | none => []) ≠ [] ↔
    c = '@' ∧ ∃ name rest, t = name ++ '@' :: rest ∧ mentionAt before '@' t = some name ∧
      (mention rest).isSome := by
  constructor
  · intro h
    cases hat : mentionAt before c t with
    | none =>
      rw [hat] at h
      exact absurd rfl h
    | some name =>
      rw [hat] at h
      obtain ⟨rfl, _, hmention⟩ := mentionAt_eq_some hat
      obtain ⟨after, rfl, _, _⟩ := exists_append_of_mention hmention
      simp only [List.drop_left] at h
      obtain ⟨rest, rfl, hsome⟩ := signed_ne_nil_iff.mp h
      exact ⟨rfl, name, rest, rfl, hat, hsome⟩
  · intro h
    obtain ⟨rfl, name, rest, rfl, hat, hsome⟩ := h
    rw [hat]
    simp only [List.drop_left]
    exact signed_ne_nil_iff.mpr ⟨rest, rfl, hsome⟩

theorem chained_ne_nil_iff : chained before t ≠ [] ↔
    ∃ front name rest, t = front ++ '@' :: (name ++ '@' :: rest) ∧
      mentionAt (front.getLast?.or before) '@' (name ++ '@' :: rest) = some name ∧
      (mention rest).isSome := by
  induction t generalizing before with
  | nil => simp [chained]
  | cons c t ih =>
    rw [chained, ne_eq, List.append_eq_nil_iff, Decidable.not_and_iff_or_not, ← ne_eq,
      chained_head_iff, ← ne_eq, ih]
    constructor
    · intro h
      rcases h with ⟨rfl, name, rest, rfl, hat, hsome⟩ | ⟨front, name, rest, rfl, hat, hsome⟩
      · exact ⟨[], name, rest, rfl, hat, hsome⟩
      · exact ⟨c :: front, name, rest, rfl, by rwa [getLast?_cons_or], hsome⟩
    · intro h
      obtain ⟨front, name, rest, heq, hat, hsome⟩ := h
      cases front with
      | nil =>
        obtain ⟨rfl, rfl⟩ := List.cons.inj heq
        exact .inl ⟨rfl, name, rest, rfl, hat, hsome⟩
      | cons d front =>
        obtain ⟨rfl, rfl⟩ := List.cons.inj heq
        rw [getLast?_cons_or] at hat
        exact .inr ⟨front, name, rest, rfl, hat, hsome⟩

end Chained

theorem getMentions_linkifyMentions (hslug : '@' ∉ chapter.slug) (content : Text) :
    getMentions (linkifyMentions chapter content) = [] ↔ ¬Chained content := by
  rw [getMentions, linkifyMentions, mentionsAfter_linkifyAfter hslug, Chained]
  have hchained : chained none content ≠ [] ↔ _ := chained_ne_nil_iff
  simp only [Option.or_none] at hchained
  rw [← hchained, not_not]

/-- What is saved again stays as it is and mentions nobody, unless one mention directly follows
another: after the first one has become a link, the second one is a mention. -/
theorem linkifyMentions_stable_iff (chapter : Chapter) (hslug : '@' ∉ chapter.slug)
    (content : Text) :
    linkifyMentions chapter (linkifyMentions chapter content) = linkifyMentions chapter content ∧
      getMentions (linkifyMentions chapter content) = [] ↔ ¬Chained content := by
  rw [← getMentions_linkifyMentions hslug]
  constructor
  · exact fun h => h.2
  · exact fun h => ⟨linkifyAfter_eq_self h, h⟩

theorem linkifyMentions_stable_iff_two :
    linkifyMentions ⟨1, text "nyc"⟩ (linkifyMentions ⟨1, text "nyc"⟩ (text "@ann, @bob")) =
        linkifyMentions ⟨1, text "nyc"⟩ (text "@ann, @bob") ∧
      getMentions (linkifyMentions ⟨1, text "nyc"⟩ (text "@ann, @bob")) = [] ↔
    ¬Chained (text "@ann, @bob") :=
  linkifyMentions_stable_iff ⟨1, text "nyc"⟩ (by decide) (text "@ann, @bob")

theorem linkifyMentions_not_stable :
    ¬∀ (chapter : Chapter) (content : Text), '@' ∉ chapter.slug →
      linkifyMentions chapter (linkifyMentions chapter content) =
          linkifyMentions chapter content ∧
        getMentions (linkifyMentions chapter content) = [] := by
  intro hall
  have hslug : '@' ∉ (⟨1, text "nyc"⟩ : Chapter).slug := by decide
  have hchained : Chained (text "@ann@bob") :=
    ⟨[], text "ann", text "bob", by decide, by decide, by decide⟩
  have hnone := (hall ⟨1, text "nyc"⟩ (text "@ann@bob") hslug).2
  exact (getMentions_linkifyMentions hslug _).mp hnone hchained

end HackerUnion.Petri
