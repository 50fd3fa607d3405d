import Mathlib.Data.Bool.AllAny
import Mathlib.Data.List.TakeWhile
import HackerUnion.Announce.Request
import HackerUnion.Js.Tokens

namespace HackerUnion.Announce

open Js

/-- How topics are shown, one after the other. -/
def renderTopics (sep : String) (topics : List String) : String :=
  sep.intercalate (topics.map ("#" ++ ·))

/-- The box for settings has one in a line. -/
theorem renderPage_topics {F D : Type} [Number F] (scope : Scope F D) :
    (renderPage scope).2.topics = renderTopics "\n"
      ((topicsOf (getProfile scope scope.user) (getProfile scope scope.user).user).join.getD []) :=
  rfl

/-- The box of an announcement has them in one line. -/
theorem handleAnnounce_topics {F D : Type} [Number F] {req : Request} {scope scope' : Scope F D}
    {qs : Form} (h : handleAnnounce req scope qs = some scope') :
    ∃ text, qs.topics = .text text ∧
      scope'.compose.topics = renderTopics ", " ((getTopics text).getD []) := by
  simp only [handleAnnounce, Option.bind_eq_bind, Option.bind_eq_some_iff,
    Option.map_eq_some_iff] at h
  obtain ⟨topics, ⟨text, htext, rfl⟩, subject, -, message, -, h⟩ := h
  have hfield : qs.topics = .text text := by
    cases hq : qs.topics with
    | absent =>
      rw [hq] at htext
      cases htext
    | text s =>
      rw [hq] at htext
      obtain rfl := Option.some.inj htext
      rfl
    | many l =>
      rw [hq] at htext
      cases htext
  refine ⟨text, hfield, ?_⟩
  split at h
  · cases h
    rfl
  · cases h
    rfl

section Characters

variable {c : Char}

/-- What a topic is made of. -/
def isTopicChar (c : Char) : Bool := c.isLower || c.isDigit || c = '_'

theorem char_eq_iff (d : Char) : c = d ↔ c.toNat = d.toNat := Char.toNat_inj.symm

theorem isTopicChar_iff : isTopicChar c = true ↔
    97 ≤ c.toNat ∧ c.toNat ≤ 122 ∨ 48 ≤ c.toNat ∧ c.toNat ≤ 57 ∨ c.toNat = 95 := by
  delta isTopicChar Char.isLower Char.isDigit
  simp only [Bool.or_eq_true, Bool.and_eq_true, decide_eq_true_eq, char_eq_iff, ge_iff_le,
    UInt32.le_iff_toNat_le]
  exact or_assoc

theorem isWord_iff : isWord c = true ↔
    65 ≤ c.toNat ∧ c.toNat ≤ 90 ∨ isTopicChar c = true := by
  rw [isTopicChar_iff]
  delta isWord Char.isAlphanum Char.isAlpha Char.isUpper Char.isLower Char.isDigit
  simp only [Bool.or_eq_true, Bool.and_eq_true, decide_eq_true_eq, char_eq_iff, ge_iff_le,
    UInt32.le_iff_toNat_le]
  exact or_assoc.trans or_assoc

theorem toNat_toLower : c.toLower.toNat =
    if 65 ≤ c.toNat ∧ c.toNat ≤ 90 then c.toNat + 32 else c.toNat := by
  delta Char.toLower
  split
  · rename_i h
    have hle : 65 ≤ c.toNat ∧ c.toNat ≤ 90 :=
      ⟨UInt32.le_iff_toNat_le.mp h.1, UInt32.le_iff_toNat_le.mp h.2⟩
    have hsmall : c.toNat + 32 < 2 ^ 32 := by omega
    rw [if_pos hle, Char.toNat_mk, UInt32.toNat_add]
    exact Nat.mod_eq_of_lt hsmall
  · rename_i h
    rw [if_neg fun hle => h ⟨UInt32.le_iff_toNat_le.mpr hle.1, UInt32.le_iff_toNat_le.mpr hle.2⟩]

theorem toLower_of_not (h : ¬(65 ≤ c.toNat ∧ c.toNat ≤ 90)) : c.toLower = c := by
  rw [char_eq_iff, toNat_toLower, if_neg h]

theorem toNat_of_isSpace (h : isSpace c = true) :
    c.toNat ∈ [0x09, 0x0a, 0x0b, 0x0c, 0x0d, 0x20, 0xa0, 0x1680, 0x2028, 0x2029, 0x202f, 0x205f,
      0x3000, 0xfeff] ∨ 0x2000 ≤ c.toNat := by
  simp only [isSpace, Bool.or_eq_true, decide_eq_true_eq, Bool.and_eq_true,
    UInt32.le_iff_toNat_le] at h
  rcases h with h | h
  · left
    have hmap := List.mem_map_of_mem (f := UInt32.toNat) h
    simpa using hmap
  · exact Or.inr h.1

/-- White space is no letter. -/
theorem of_isSpace (h : isSpace c = true) :
    ¬(65 ≤ c.toNat ∧ c.toNat ≤ 90) ∧ isTopicChar c = false := by
  have hspace := toNat_of_isSpace h
  rw [Bool.eq_false_iff, ne_eq, isTopicChar_iff]
  simp only [List.mem_cons, List.not_mem_nil, or_false] at hspace
  omega

/-- What may stand in a text of topics, once it is in small letters and without hashes. -/
theorem isTopicChar_toLower (h : isSpace c = true ∨ isWord c = true ∨ c = '#' ∨ c = ',')
    (hash : c.toLower ≠ '#') (hsep : isTopicSeparator c.toLower = false) :
    isTopicChar c.toLower = true := by
  rcases h with h | h | rfl | rfl
  · rw [toLower_of_not (of_isSpace h).1, isTopicSeparator, h] at hsep
    cases hsep
  · rcases isWord_iff.mp h with hupper | h
    · rw [isTopicChar_iff, toNat_toLower, if_pos hupper]
      omega
    · have hsmall : ¬(65 ≤ c.toNat ∧ c.toNat ≤ 90) := by
        have htopic := isTopicChar_iff.mp h
        omega
      rw [toLower_of_not hsmall, h]
  · exact absurd rfl hash
  · cases hsep

variable (h : isTopicChar c = true)
include h

theorem toLower_topicChar : c.toLower = c := by
  have htopic := isTopicChar_iff.mp h
  exact toLower_of_not (by omega)

theorem ne_hash_topicChar : c ≠ '#' := by
  intro hash
  rw [hash] at h
  cases h

theorem not_separator_topicChar : isTopicSeparator c = false := by
  unfold isTopicSeparator
  rw [Bool.or_eq_false_iff]
  constructor
  · by_contra hspace
    rw [Bool.not_eq_false] at hspace
    rw [(of_isSpace hspace).2] at h
    cases h
  · rw [decide_eq_false_iff_not]
    intro hcomma
    rw [hcomma] at h
    cases h

end Characters

/-- Something that is no white space is left by `trim`. -/
theorem trim_ne_empty {s : String} {c : Char} (hc : c ∈ s.toList) (h : isSpace c = false) :
    trim s ≠ "" := by
  have hleft : c ∈ s.toList.dropWhile isSpace ∨ c ∈ s.toList.takeWhile isSpace := by
    rw [← List.takeWhile_append_dropWhile (p := isSpace) (l := s.toList), List.mem_append] at hc
    exact hc.symm
  have hdrop : c ∈ s.toList.dropWhile isSpace := by
    rcases hleft with hdrop | htake
    · exact hdrop
    · rw [List.mem_takeWhile_imp htake] at h
      cases h
  intro htrim
  have hnil : (s.toList.dropWhile isSpace).reverse.dropWhile isSpace = [] := by
    have hlist := congrArg String.toList htrim
    simpa [trim] using hlist
  have hall := List.dropWhile_eq_nil_iff.mp hnil c (List.mem_reverse.mpr hdrop)
  rw [hall] at h
  cases h

/-- The topics that a text is read as. -/
theorem getTopics_eq_some {text : String} {topics : List String}
    (h : getTopics text = some topics) :
    topics = (tokens isTopicSeparator ((text.toList.map Char.toLower).filter (· ≠ '#'))).map
        String.ofList ∧
      ∀ c ∈ text.toList, isSpace c = true ∨ isWord c = true ∨ c = '#' ∨ c = ',' := by
  unfold getTopics at h
  split at h
  · cases h
  · rename_i hno
    simp only [Bool.or_eq_true, not_or, List.any_eq_true, not_exists, not_and] at hno
    refine ⟨(Option.some.inj h).symm, ?_⟩
    intro c hc
    have hallowed := hno.1.2 c hc
    rw [Bool.not_eq_true', Bool.not_eq_false] at hallowed
    simpa [or_assoc] using hallowed

/-- Each topic is a word of small letters, digits and underscores. -/
theorem getTopics_word {text topic : String} {topics : List String}
    (h : getTopics text = some topics) (htopic : topic ∈ topics) :
    topic ≠ "" ∧ ∀ c ∈ topic.toList, isTopicChar c = true := by
  obtain ⟨rfl, hallowed⟩ := getTopics_eq_some h
  obtain ⟨w, hw, rfl⟩ := List.mem_map.mp htopic
  obtain ⟨hne, hchars⟩ := of_mem_tokens hw
  constructor
  · intro hempty
    exact hne (by simpa using congrArg String.toList hempty)
  · intro c hc
    rw [String.toList_ofList] at hc
    obtain ⟨hmem, hsep⟩ := hchars c hc
    obtain ⟨hmem, hhash⟩ := List.mem_filter.mp hmem
    obtain ⟨d, hd, rfl⟩ := List.mem_map.mp hmem
    exact isTopicChar_toLower (hallowed d hd) (of_decide_eq_true hhash) hsep

/-- Reading drops the hashes that showing puts. -/
theorem filter_renderTopics {sep : String} {topics : List String}
    (hsep : ∀ c ∈ sep.toList, c.toLower = c ∧ c ≠ '#')
    (htopics : ∀ topic ∈ topics, ∀ c ∈ topic.toList, isTopicChar c = true) :
    ((renderTopics sep topics).toList.map Char.toLower).filter (· ≠ '#') =
      sep.toList.intercalate (topics.map String.toList) := by
  have hplain {t : List Char} (ht : ∀ c ∈ t, c.toLower = c ∧ c ≠ '#') :
      (t.map Char.toLower).filter (· ≠ '#') = t := by
    rw [List.map_congr_left (g := id) fun c hc => (ht c hc).1, List.map_id]
    exact List.filter_eq_self.mpr fun c hc => decide_eq_true (ht c hc).2
  have htopic {topic : String} (ht : ∀ c ∈ topic.toList, isTopicChar c = true) :
      (("#" ++ topic).toList.map Char.toLower).filter (· ≠ '#') = topic.toList := by
    have hcons : ("#" ++ topic).toList = '#' :: topic.toList := by simp
    rw [hcons, List.map_cons, List.filter_cons_of_neg (by decide)]
    exact hplain fun c hc => ⟨toLower_topicChar (ht c hc), ne_hash_topicChar (ht c hc)⟩
  rw [renderTopics, String.toList_intercalate]
  induction topics with
  | nil => rfl
  | cons topic topics ih =>
    obtain ⟨hfirst, hrest⟩ := List.forall_mem_cons.mp htopics
    cases topics with
    | nil =>
      simp only [List.map_cons, List.map_nil, List.intercalate_singleton]
      exact htopic hfirst
    | cons next topics =>
      have ih := ih hrest
      simp only [List.map_cons, List.intercalate_cons_cons, List.map_append,
        List.filter_append] at ih ⊢
      rw [ih, htopic hfirst, hplain hsep]

theorem mem_renderTopics {sep : String} {topics : List String} {c : Char}
    (hc : c ∈ (renderTopics sep topics).toList) :
    c ∈ sep.toList ∨ c = '#' ∨ ∃ topic ∈ topics, c ∈ topic.toList := by
  rw [renderTopics, String.toList_intercalate, List.map_map] at hc
  induction topics with
  | nil => cases hc
  | cons topic topics ih =>
    have hfirst : c ∈ ("#" ++ topic).toList → c = '#' ∨ ∃ t ∈ topic :: topics, c ∈ t.toList := by
      intro hmem
      have hcons : ("#" ++ topic).toList = '#' :: topic.toList := by simp
      rw [hcons] at hmem
      rcases List.mem_cons.mp hmem with hash | hmem
      · exact Or.inl hash
      · exact Or.inr ⟨topic, List.mem_cons_self, hmem⟩
    cases topics with
    | nil =>
      rw [List.map_singleton, List.intercalate_singleton] at hc
      exact Or.inr (hfirst hc)
    | cons next topics =>
      rw [List.map_cons, List.map_cons, List.intercalate_cons_cons, List.append_assoc,
        List.mem_append, List.mem_append] at hc
      rcases hc with hc | hc | hc
      · exact Or.inr (hfirst hc)
      · exact Or.inl hc
      · rcases ih hc with hsep | hash | ⟨t, ht, hmem⟩
        · exact Or.inl hsep
        · exact Or.inr (Or.inl hash)
        · exact Or.inr (Or.inr ⟨t, List.mem_cons_of_mem topic ht, hmem⟩)

/-- Topics that are shown with separators between them are read as they are. -/
theorem getTopics_render {sep : String} {topics : List String} (hne : topics ≠ [])
    (hsep : ∀ c ∈ sep.toList, c.toLower = c ∧ c ≠ '#' ∧ isTopicSeparator c = true)
    (hsep' : sep ≠ "")
    (htopics : ∀ topic ∈ topics, topic ≠ "" ∧ ∀ c ∈ topic.toList, isTopicChar c = true)
    (hlength : length (renderTopics sep topics) ≤ 2000) :
    getTopics (renderTopics sep topics) = some topics := by
  have hread : (tokens isTopicSeparator
      (((renderTopics sep topics).toList.map Char.toLower).filter (· ≠ '#'))).map String.ofList =
      topics := by
    rw [filter_renderTopics (fun c hc => ⟨(hsep c hc).1, (hsep c hc).2.1⟩)
      fun topic ht => (htopics topic ht).2]
    rw [tokens_intercalate (fun c hc => (hsep c hc).2.2) (by simpa using hsep')]
    · simp
    · intro w hw
      obtain ⟨topic, ht, rfl⟩ := List.mem_map.mp hw
      exact ⟨by simpa using (htopics topic ht).1,
        fun c hc => not_separator_topicChar ((htopics topic ht).2 c hc)⟩
  have hshown : trim (renderTopics sep topics) ≠ "" := by
    obtain ⟨topic, topics, rfl⟩ := List.exists_cons_of_ne_nil hne
    refine trim_ne_empty (c := '#') ?_ (by decide)
    rw [renderTopics, String.toList_intercalate]
    cases topics <;> simp
  have hallowed : ∀ c ∈ (renderTopics sep topics).toList,
      ¬(!(isSpace c || isWord c || c = '#' || c = ',')) = true := by
    intro c hc
    rcases mem_renderTopics hc with hc | rfl | ⟨topic, ht, hc⟩
    · have hseparator := (hsep c hc).2.2
      rw [isTopicSeparator, Bool.or_eq_true, decide_eq_true_eq] at hseparator
      rcases hseparator with hspace | hcomma
      · simp [hspace]
      · simp [hcomma]
    · decide
    · have hword := isWord_iff.mpr (Or.inr ((htopics topic ht).2 c hc))
      simp [hword]
  unfold getTopics
  rw [if_neg]
  · exact congrArg some hread
  · simp only [Bool.or_eq_true, not_or, List.any_eq_true, not_exists, not_and, decide_eq_true_eq]
    exact ⟨⟨hshown, hallowed⟩, Nat.not_lt.mpr hlength⟩

/-- What is read from a text is read again from either way of showing it. -/
theorem getTopics_renderTopics (text : String) (topics : List String)
    (h : getTopics text = some topics) (hne : topics ≠ []) :
    (∀ sep ∈ ["\n", ", "], length (renderTopics sep topics) ≤ 2000 →
        getTopics (renderTopics sep topics) = some topics) ∧
      ∀ topic ∈ topics, topic ≠ "" ∧ ∀ c ∈ topic.toList, c.isLower || c.isDigit || c = '_' := by
  have hword : ∀ topic ∈ topics, topic ≠ "" ∧ ∀ c ∈ topic.toList, isTopicChar c = true :=
    fun topic ht => getTopics_word h ht
  refine ⟨?_, hword⟩
  intro sep hsep hlength
  rw [List.mem_cons, List.mem_singleton] at hsep
  rcases hsep with rfl | rfl
  · refine getTopics_render hne ?_ (by decide) hword hlength
    rw [← List.all_iff_forall_prop]
    decide
  · refine getTopics_render hne ?_ (by decide) hword hlength
    rw [← List.all_iff_forall_prop]
    decide

/-- Hashes, commas and capital letters as they come. -/
theorem getTopics_renderTopics_mixed :
    (∀ sep ∈ ["\n", ", "], length (renderTopics sep ["go", "art_2"]) ≤ 2000 →
        getTopics (renderTopics sep ["go", "art_2"]) = some ["go", "art_2"]) ∧
      ∀ topic ∈ ["go", "art_2"], topic ≠ "" ∧
        ∀ c ∈ topic.toList, c.isLower || c.isDigit || c = '_' :=
  getTopics_renderTopics " ,#Go#,, ##\n#a#rt_2" ["go", "art_2"] (by decide +kernel) (by decide)

end HackerUnion.Announce
