import Mathlib.Data.List.Nodup
import Mathlib.Logic.Relation
import HackerUnion.Sbin.Encryptfs

namespace HackerUnion.Sbin.Encryptfs

open Bash

variable {α : Type} (t : Tools α)

/-- What is not world-readable is what encryption has given. -/
def HaltPrivacy (root : Text) (order : List Text) (files : Files α) : Prop :=
  ∀ path ∈ order, excluded root path = false →
    ∀ f, files path = some f → f.worldReadable = false →
      ∃ secret call contents, f.contents = t.encrypt secret call contents

/-- Every file has the contents it had. -/
def BootRecovery (root : Text) (order : List Text) (before after : Files α) : Prop :=
  ∀ path ∈ order, excluded root path = false →
    (after path).map File.contents = (before path).map File.contents

/-- What is not world-readable after the halt. -/
def privateHalted (root : Text) (order order' : List Text) (files : Files α) : List Text :=
  order'.filter fun path => !excluded root path && (files path).any fun f =>
    !f.worldReadable || encrypts t (privateFiles root order files) path f.contents

/-- A name under which no file is decrypted. -/
def shut (name : Text) : Bool := isDashed name && (t.usage name).any (!isPGP ·)

/-- The names whose rounds find the contents that were there before the halt: all of them, or those
after the round that decrypts. -/
def remaining (encrypted : Bool) (ws : List Text) : List Text :=
  if encrypted then (ws.filter (!shut t ·)).tail else ws

/-- When the halt and the boot do what they are for, by the names that lead to each file: a file
that is not world-readable is encrypted by one of them or was so before, and of the names that find
its own contents each has something else said of it, or nothing that the secret decrypts. -/
structure Covered (root secret : Text) (order order' : List Text) (files : Files α) : Prop where
  encrypted : ∀ path ∈ order, excluded root path = false →
    ∀ f, files path = some f → f.worldReadable = false →
      encrypts t (privateFiles root order files) path f.contents = true ∨
        ∃ secret call contents, f.contents = t.encrypt secret call contents
  kept : ∀ path ∈ order, excluded root path = false →
    ∀ f, files path = some f →
      ∀ name ∈ remaining t (encrypts t (privateFiles root order files) path f.contents)
        (leading t (privateHalted t root order order' files) path),
        seesOther t name f.contents = true ∨ t.decrypt secret f.contents = none

/-- One decryption after the other never leads back to the same contents. -/
def Onward (secret : Text) : Prop :=
  ∀ contents, ¬Relation.TransGen (fun c d => t.decrypt secret c = some d) contents contents

section Opened

variable {t} {secret : Text} {contents : α} {ws : List Text}

theorem openContents_shut {name : Text} (h : shut t name = true) (contents : α) :
    openContents t secret name contents = contents := by
  obtain ⟨hdash, hany⟩ : isDashed name = true ∧ (t.usage name).any (!isPGP ·) = true := by
    simpa [shut] using h
  rw [openContents, seesOther, fileOutput, if_pos hdash, if_pos hany]

theorem openContents_encrypt (hs : Sound t) {name : Text} (h : shut t name = false) (call : Nat)
    (contents : α) : openContents t secret name (t.encrypt secret call contents) = contents := by
  have hsees : seesOther t name (t.encrypt secret call contents) = false := by
    unfold seesOther fileOutput
    cases hdash : isDashed name with
    | true => simpa [shut, hdash] using h
    | false => simp [hs.file_encrypt]
  simp [openContents, hsees, hs.decrypt_encrypt]

theorem opened_filter (ws : List Text) (contents : α) :
    opened t secret (ws.filter (!shut t ·)) contents = opened t secret ws contents := by
  unfold opened
  induction ws generalizing contents with
  | nil => rfl
  | cons w ws ih =>
    cases hw : shut t w with
    | true => simp [hw, ih, openContents_shut hw]
    | false => simp [hw, ih]

theorem openContents_of_left {name : Text}
    (h : seesOther t name contents = true ∨ t.decrypt secret contents = none) :
    openContents t secret name contents = contents := by
  rcases h with h | h <;> simp [openContents, h]

theorem opened_of_left
    (h : ∀ name ∈ ws, seesOther t name contents = true ∨ t.decrypt secret contents = none) :
    opened t secret ws contents = contents := by
  unfold opened
  induction ws with
  | nil => rfl
  | cons w ws ih =>
    obtain ⟨hw, hws⟩ := List.forall_mem_cons.mp h
    rw [List.foldl_cons, openContents_of_left hw, ih hws]

/-- A round leaves the contents or decrypts them. -/
theorem openContents_cases (t : Tools α) (secret name : Text) (contents : α) :
    (seesOther t name contents = true ∨ t.decrypt secret contents = none) ∨
      t.decrypt secret contents = some (openContents t secret name contents) := by
  cases hsees : seesOther t name contents with
  | true => exact .inl (.inl rfl)
  | false =>
    cases hd : t.decrypt secret contents with
    | none => exact .inl (.inr rfl)
    | some d => exact .inr (by simp [openContents, hsees, hd])

theorem opened_reaches (ws : List Text) (contents : α) :
    Relation.ReflTransGen (fun c d => t.decrypt secret c = some d) contents
      (opened t secret ws contents) := by
  unfold opened
  induction ws generalizing contents with
  | nil => exact .refl
  | cons w ws ih =>
    rw [List.foldl_cons]
    rcases openContents_cases t secret w contents with hleft | hdecrypt
    · rw [openContents_of_left hleft]
      exact ih contents
    · exact .head hdecrypt (ih _)

/-- Rounds that leave the contents as they are in the end do nothing at any of the names. -/
theorem opened_eq_self_iff (ho : Onward t secret) :
    opened t secret ws contents = contents ↔
      ∀ name ∈ ws, seesOther t name contents = true ∨ t.decrypt secret contents = none := by
  refine ⟨fun h => ?_, opened_of_left⟩
  induction ws with
  | nil => simp
  | cons w ws ih =>
    rw [opened, List.foldl_cons] at h
    rcases openContents_cases t secret w contents with hleft | hdecrypt
    · rw [openContents_of_left hleft] at h
      exact List.forall_mem_cons.mpr ⟨hleft, ih h⟩
    · have hback : Relation.ReflTransGen (fun c d => t.decrypt secret c = some d)
          (openContents t secret w contents) (opened t secret ws _) := opened_reaches ws _
      rw [opened, h] at hback
      exact absurd (.head' hdecrypt hback) (ho contents)

/-- The first name that is not shut gives back what was encrypted. -/
theorem opened_encrypt (hs : Sound t) (h : ∃ name ∈ ws, shut t name = false) (call : Nat) :
    opened t secret ws (t.encrypt secret call contents) =
      opened t secret (remaining t true ws) contents := by
  rw [← opened_filter, remaining, if_pos rfl]
  cases hws : ws.filter (!shut t ·) with
  | nil =>
    obtain ⟨name, hname, hshut⟩ := h
    have hmem : name ∈ ws.filter (!shut t ·) := List.mem_filter.mpr ⟨hname, by simp [hshut]⟩
    simp [hws] at hmem
  | cons w ws' =>
    have hw : w ∈ ws.filter (!shut t ·) := by simp [hws]
    have hshut : shut t w = false := by simpa using (List.mem_filter.mp hw).2
    rw [opened, List.foldl_cons, openContents_encrypt hs hshut]
    rfl

end Opened

section Halted

variable {t} {root secret secret' rotate path : Text} {order order' : List Text} {files : Files α}
  {f : File α}

/-- A name that encrypts is one that decryption does not pass over. -/
theorem exists_leading {listing listing' : List Text} (hsub : listing ⊆ listing') {contents : α}
    (h : encrypts t listing path contents = true) :
    ∃ name ∈ leading t listing' path, shut t name = false := by
  obtain ⟨name, hname, hseals⟩ := List.any_eq_true.mp h
  obtain ⟨hmem, hpath⟩ := List.mem_filter.mp hname
  obtain ⟨from', hfrom, hexpand⟩ := mem_names.mp hmem
  refine ⟨name, List.mem_filter.mpr ⟨mem_names.mpr ⟨from', hsub hfrom, hexpand⟩, hpath⟩, ?_⟩
  have hdash : isDashed name = false := by
    simp only [seals, Bool.and_eq_true, Bool.not_eq_true'] at hseals
    exact hseals.2
  simp [shut, hdash]

theorem privateFiles_subset (horder : order'.Perm order) :
    privateFiles root order files ⊆ privateHalted t root order order' files := by
  intro path hpath
  obtain ⟨hmem, hprivate⟩ := List.mem_filter.mp hpath
  refine List.mem_filter.mpr ⟨horder.mem_iff.mpr hmem, ?_⟩
  cases hf : files path with
  | none => simp [hf] at hprivate
  | some f =>
    simp only [hf, Option.any_some, Bool.and_eq_true, Bool.or_eq_true] at hprivate ⊢
    exact ⟨hprivate.1, .inl hprivate.2⟩

theorem encryptfs_none (h : files path = none) :
    encryptfs t root secret order files path = none := by
  unfold encryptfs
  split
  · exact h
  · rw [encryptFile_eq, Run.foldl_rewrite, h, Option.map_none]

theorem decryptfs_none (h : files path = none) :
    decryptfs t root secret rotate order files path = none := by
  unfold decryptfs
  split
  · exact h
  · rw [decryptFile_eq, Run.foldl_rewrite, h, Option.map_none]

/-- The second script comes upon what was not world-readable and what the first made so. -/
theorem privateFiles_encryptfs (hs : Sound t) (hsecret : secret ≠ []) :
    privateFiles root order' (encryptfs t root secret order files) =
      privateHalted t root order order' files := by
  unfold privateFiles privateHalted
  refine List.filter_congr fun path _ => ?_
  cases hf : files path with
  | none => simp [encryptfs_none hf]
  | some f =>
    cases he : encrypts t (privateFiles root order files) path f.contents with
    | false =>
      rw [encryptfs_of_not hsecret hf he]
      simp [he]
    | true =>
      obtain ⟨call, hcall⟩ := encryptfs_of_encrypts hs hsecret hf he
      rw [hcall]
      simp [he]

/-- What the two scripts leave of a file. -/
theorem decryptfs_encryptfs (hs : Sound t) (hsecret : secret ≠ []) (hsecret' : secret' ≠ [])
    (hsame : decryptionSecret secret' rotate = secret) (horder : order'.Perm order)
    (hf : files path = some f) :
    (decryptfs t root secret' rotate order' (encryptfs t root secret order files) path).map
      File.contents = some (opened t secret
        (remaining t (encrypts t (privateFiles root order files) path f.contents)
          (leading t (privateHalted t root order order' files) path)) f.contents) := by
  cases he : encrypts t (privateFiles root order files) path f.contents with
  | false =>
    rw [decryptfs_apply hsecret' (encryptfs_of_not hsecret hf he), hsame,
      privateFiles_encryptfs hs hsecret]
    rfl
  | true =>
    obtain ⟨call, hcall⟩ := encryptfs_of_encrypts hs hsecret hf he
    rw [decryptfs_apply hsecret' hcall, hsame, privateFiles_encryptfs hs hsecret, Option.map_some,
      opened_encrypt hs (exists_leading (privateFiles_subset horder) he)]

end Halted

section HaltAndBoot

variable {t} {root secret secret' rotate : Text} {order order' : List Text} {files : Files α}

theorem haltPrivacy_encryptfs_iff (hs : Sound t) (hsecret : secret ≠ []) :
    HaltPrivacy t root order (encryptfs t root secret order files) ↔
      ∀ path ∈ order, excluded root path = false →
        ∀ f, files path = some f → f.worldReadable = false →
          encrypts t (privateFiles root order files) path f.contents = true ∨
            ∃ secret call contents, f.contents = t.encrypt secret call contents := by
  unfold HaltPrivacy
  refine forall₃_congr fun path _ _ => ?_
  cases hf : files path with
  | none => simp [encryptfs_none hf]
  | some f =>
    cases he : encrypts t (privateFiles root order files) path f.contents with
    | false =>
      rw [encryptfs_of_not hsecret hf he]
      simp [he]
    | true =>
      obtain ⟨call, hcall⟩ := encryptfs_of_encrypts hs hsecret hf he
      rw [hcall]
      simp only [Option.some.injEq, forall_eq', he, true_or, implies_true, iff_true]
      exact fun _ => ⟨secret, call, f.contents, rfl⟩

theorem bootRecovery_iff (hs : Sound t) (hsecret : secret ≠ []) (hsecret' : secret' ≠ [])
    (hsame : decryptionSecret secret' rotate = secret) (horder : order'.Perm order) :
    BootRecovery root order files
        (decryptfs t root secret' rotate order' (encryptfs t root secret order files)) ↔
      ∀ path ∈ order, excluded root path = false →
        ∀ f, files path = some f →
          opened t secret (remaining t (encrypts t (privateFiles root order files) path f.contents)
            (leading t (privateHalted t root order order' files) path)) f.contents =
              f.contents := by
  unfold BootRecovery
  refine forall₃_congr fun path _ _ => ?_
  cases hf : files path with
  | none => simp [decryptfs_none (encryptfs_none hf)]
  | some f =>
    rw [decryptfs_encryptfs hs hsecret hsecret' hsame horder hf]
    simp

/-- Whatever decryption leads to, what is covered is kept. -/
theorem Covered.haltPrivacy_bootRecovery (hs : Sound t) (hsecret : secret ≠ [])
    (hsecret' : secret' ≠ []) (hsame : decryptionSecret secret' rotate = secret)
    (horder : order'.Perm order) (h : Covered t root secret order order' files) :
    HaltPrivacy t root order (encryptfs t root secret order files) ∧
      BootRecovery root order files
        (decryptfs t root secret' rotate order' (encryptfs t root secret order files)) := by
  rw [haltPrivacy_encryptfs_iff hs hsecret, bootRecovery_iff hs hsecret hsecret' hsame horder]
  exact ⟨h.encrypted, fun path hpath hin f hf => opened_of_left (h.kept path hpath hin f hf)⟩

/-- Halt and boot keep every secret and every file when the names of the private files lead to them
and `file` is not misled, and else they do not. -/
theorem haltPrivacy_bootRecovery_iff (hs : Sound t) (hsecret : secret ≠ [])
    (hsecret' : secret' ≠ []) (hsame : decryptionSecret secret' rotate = secret)
    (horder : order'.Perm order) (ho : Onward t secret) :
    HaltPrivacy t root order (encryptfs t root secret order files) ∧
        BootRecovery root order files
          (decryptfs t root secret' rotate order' (encryptfs t root secret order files)) ↔
      Covered t root secret order order' files := by
  refine ⟨fun h => ?_, fun h => h.haltPrivacy_bootRecovery hs hsecret hsecret' hsame horder⟩
  rw [haltPrivacy_encryptfs_iff hs hsecret, bootRecovery_iff hs hsecret hsecret' hsame horder] at h
  exact ⟨h.1, fun path hpath hin f hf => (opened_eq_self_iff ho).mp (h.2 path hpath hin f hf)⟩

end HaltAndBoot

section Plain

/-- A name of one word, no pattern and no option, that leads to its own path. -/
structure Plain (path : Text) : Prop where
  ne_nil : path ≠ []
  noBlank : ∀ c ∈ path, isBlank c = false
  noPattern : isPattern path = false
  noDash : isDashed path = false
  resolve : t.resolve path = some path

variable {t} {root secret path : Text} {order order' listing : List Text} {files : Files α}

theorem names_plain (h : ∀ path ∈ listing, Plain t path) : names t listing = listing := by
  induction listing with
  | nil => rfl
  | cons path listing ih =>
    obtain ⟨hpath, hrest⟩ := List.forall_mem_cons.mp h
    have hword : expand t.glob path = [path] := by
      simp [expand, words_word hpath.ne_nil hpath.noBlank, hpath.noPattern]
    rw [names_eq, List.flatMap_cons, hword, ← names_eq, ih hrest]
    rfl

theorem leading_plain (h : ∀ path ∈ listing, Plain t path) :
    leading t listing path = listing.filter (· = path) := by
  rw [leading, names_plain h]
  refine List.filter_congr fun name hname => ?_
  simp [(h name hname).resolve]

theorem mem_privateFiles : path ∈ privateFiles root order files ↔
    path ∈ order ∧ excluded root path = false ∧
      ∃ f, files path = some f ∧ f.worldReadable = false := by
  simp [privateFiles, Option.any_eq_true]

/-- Such names, of which `file` does not say the word, lead to every file once. -/
theorem covered_of_plain (hnodup : order.Nodup) (horder : order'.Perm order)
    (hname : ∀ path ∈ order, Plain t path)
    (hprivate : ∀ path ∈ order, ∀ f, files path = some f → f.worldReadable = false →
      isPGP (t.file path f.contents) = false) :
    Covered t root secret order order' files := by
  have hencrypts : ∀ path ∈ order, excluded root path = false →
      ∀ f, files path = some f → f.worldReadable = false →
        encrypts t (privateFiles root order files) path f.contents = true := by
    intro path hpath hin f hf hclosed
    have hlisted : path ∈ privateFiles root order files :=
      mem_privateFiles.mpr ⟨hpath, hin, f, hf, hclosed⟩
    have hlead : path ∈ leading t (privateFiles root order files) path := by
      rw [leading_plain fun name h => hname name (mem_privateFiles.mp h).1]
      simpa using hlisted
    refine List.any_eq_true.mpr ⟨path, hlead, ?_⟩
    simp [seals, seesPGP, fileOutput, (hname path hpath).noDash, hprivate path hpath f hf hclosed]
  refine ⟨fun path hpath hin f hf hclosed => .inl (hencrypts path hpath hin f hf hclosed),
    fun path hpath hin f hf => ?_⟩
  have hplain : ∀ name ∈ privateHalted t root order order' files, Plain t name := fun name h =>
    hname name (horder.mem_iff.mp (List.mem_filter.mp h).1)
  have hlisted : (privateHalted t root order order' files).Nodup :=
    (horder.nodup_iff.mpr hnodup).filter _
  rw [leading_plain hplain]
  cases he : encrypts t (privateFiles root order files) path f.contents with
  | true =>
    -- The one name has encrypted, and no other is left.
    have hcount := List.nodup_iff_count_le_one.mp hlisted path
    have hlength : ((privateHalted t root order order' files).filter (· = path)).length ≤ 1 := by
      simpa [List.count_eq_length_filter, Bool.beq_eq_decide_eq] using hcount
    have htail : remaining t true ((privateHalted t root order order' files).filter (· = path)) =
        [] := by
      have hfilter := List.length_filter_le (!shut t ·)
        ((privateHalted t root order order' files).filter (· = path))
      rw [remaining, if_pos rfl, ← List.length_eq_zero_iff, List.length_tail]
      omega
    rw [htail]
    simp
  | false =>
    have hopen : f.worldReadable = true := by
      by_contra hclosed
      exact Bool.eq_false_iff.mp he (hencrypts path hpath hin f hf (Bool.not_eq_true _ ▸ hclosed))
    have hnone : (privateHalted t root order order' files).filter (· = path) = [] := by
      refine List.filter_eq_nil_iff.mpr fun name h heq => ?_
      obtain rfl : name = path := by simpa using heq
      have hkept := (List.mem_filter.mp h).2
      simp [hf, hopen, he] at hkept
    rw [hnone]
    simp [remaining]

end Plain

section Sample

/-- Encryption that puts a header and the secret before the contents. -/
def armor (secret : Text) : Text := text "PGP " ++ secret ++ text ":"

def sampleTools : Tools Text where
  encrypt secret _ contents := armor secret ++ contents
  decrypt secret contents :=
    if (armor secret).isPrefixOf contents then some (contents.drop (armor secret).length) else none
  file name contents :=
    name ++ text ": " ++ text (if contents.head? = some 'P' then "PGP message" else "ASCII text")
  usage _ := []
  resolve name := if name.head? = some '/' then some name else none
  glob _ := []

theorem sampleTools_sound : Sound sampleTools where
  decrypt_encrypt secret call contents := by
    simp [sampleTools, List.isPrefixOf_iff_prefix]
  file_encrypt name secret call contents := by
    have hmessage : inOrder [text "pgp"] (lower (text "PGP message")) = true := by decide
    have happend := inOrder_append (lower (name ++ text ": ")) [] hmessage
    rw [List.append_nil, ← lower_append] at happend
    exact happend

/-- Every decryption takes the header away. -/
theorem sampleTools_onward (secret : Text) : Onward sampleTools secret := by
  have hshorter {c d : Text} (h : sampleTools.decrypt secret c = some d) : d.length < c.length := by
    obtain ⟨harmor, rfl⟩ : armor secret <+: c ∧ c.drop (armor secret).length = d := by
      simpa [sampleTools] using h
    have hle := harmor.length_le
    have hpos : 0 < (armor secret).length := by simp [armor, text]
    rw [List.length_drop]
    omega
  have hlt {c d : Text} (h : Relation.TransGen
      (fun c d => sampleTools.decrypt secret c = some d) c d) : d.length < c.length := by
    induction h with
    | single h => exact hshorter h
    | tail _ h ih => exact (hshorter h).trans ih
  exact fun contents hround => (hlt hround).false

def sampleFiles (path : Text) : Files Text := fun p =>
  if p = path then some ⟨text "secret", false⟩ else none

/-- A file whose name has a blank is not come upon. -/
theorem not_haltPrivacy_blank :
    Sound sampleTools ∧
      ¬HaltPrivacy sampleTools (text "/srv") [text "/srv/home/my key"]
        (encryptfs sampleTools (text "/srv") (text "key") [text "/srv/home/my key"]
          (sampleFiles (text "/srv/home/my key"))) := by
  refine ⟨sampleTools_sound, fun h => ?_⟩
  rw [haltPrivacy_encryptfs_iff sampleTools_sound (by decide)] at h
  obtain hencrypts | ⟨secret, call, contents, heq⟩ :=
    h _ List.mem_cons_self (by decide) ⟨text "secret", false⟩ rfl rfl
  · revert hencrypts
    decide +kernel
  · have hhead : some 's' = some 'P' := congrArg List.head? heq
    exact absurd hhead (by decide)

theorem haltPrivacy_bootRecovery_shadow :
    HaltPrivacy sampleTools (text "/srv") [text "/srv/etc/shadow"]
        (encryptfs sampleTools (text "/srv") (text "key") [text "/srv/etc/shadow"]
          (sampleFiles (text "/srv/etc/shadow"))) ∧
      BootRecovery (text "/srv") [text "/srv/etc/shadow"] (sampleFiles (text "/srv/etc/shadow"))
        (decryptfs sampleTools (text "/srv") (text "key") [] [text "/srv/etc/shadow"]
          (encryptfs sampleTools (text "/srv") (text "key") [text "/srv/etc/shadow"]
            (sampleFiles (text "/srv/etc/shadow")))) := by
  refine (haltPrivacy_bootRecovery_iff sampleTools_sound (by decide) (by decide) (by decide)
    (List.Perm.refl _) (sampleTools_onward _)).mpr
      (covered_of_plain (by decide) (List.Perm.refl _) ?_ ?_)
  · intro path hpath
    obtain rfl := List.mem_singleton.mp hpath
    exact ⟨by decide, by decide, by decide, by decide, by decide⟩
  · intro path hpath f hf _
    obtain rfl := List.mem_singleton.mp hpath
    obtain rfl : ⟨text "secret", false⟩ = f := Option.some.inj hf
    decide +kernel

end Sample

end HackerUnion.Sbin.Encryptfs
