import HackerUnion.Bash.Words
import HackerUnion.Run.InPlace

namespace HackerUnion.Sbin.Encryptfs

open Bash

/-- A regular file. -/
structure File (α : Type) where
  contents : α
  worldReadable : Bool

/-- The regular files by their paths. -/
abbrev Files (α : Type) := Text → Option (File α)

/-- What the scripts call and find. Encryption has something of its own at each call. `file` prints a
line of a name and what the file holds; of an option, how it is used. A name leads to the path of a
regular file, if it does: there are no links. A pattern leads to names. -/
structure Tools (α : Type) where
  encrypt (secret : Text) (call : Nat) (contents : α) : α
  decrypt (secret : Text) (contents : α) : Option α
  file (name : Text) (contents : α) : Text
  usage (option : Text) : List Text
  resolve (name : Text) : Option Text
  glob (pattern : Text) : List Text

variable {α : Type} (t : Tools α)

def isPGP (line : Text) : Bool := inOrderCI [text "PGP"] line

/-- A name that is an option to the tools. -/
def isDashed (name : Text) : Bool := name.head? = some '-'

def fileOutput (name : Text) (contents : α) : List Text :=
  if isDashed name then t.usage name else [t.file name contents]

/-- `file "$FILE" | grep -iq 'PGP'` -/
def seesPGP (name : Text) (contents : α) : Bool := (fileOutput t name contents).any isPGP

/-- `file "$FILE" | grep -ivq 'PGP'` -/
def seesOther (name : Text) (contents : α) : Bool := (fileOutput t name contents).any (!isPGP ·)

/-- What `-path` leaves out below the root. -/
def excluded (root path : Text) : Bool :=
  (root ++ text "/boot/").isPrefixOf path || (root ++ text "/usr/src/kernel/").isPrefixOf path

/-- `private`. `order` is the regular files below the root as `find` comes upon them. -/
def privateFiles (root : Text) (order : List Text) (files : Files α) : List Text :=
  order.filter fun path => !excluded root path && (files path).any fun f => !f.worldReadable

/-- The names of the loop: the expansion is not quoted. -/
def names (listing : List Text) : List Text := expand t.glob (capture (unlines listing))

/-- One round: a file that is not seen to be encrypted is replaced by its encryption, which only the
owner can read. -/
def encryptFile (secret : Text) (files : Files α) (name : Text × Nat) : Files α :=
  match t.resolve name.1 with
  | none => files
  | some path =>
    match files path with
    | none => files
    | some f =>
      if seesPGP t name.1 f.contents then files
      -- `mv` takes the name for an option and has no destination.
      else if isDashed name.1 then files
      else Function.update files path (some ⟨t.encrypt secret name.2 f.contents, false⟩)

def encryptfs (root secret : Text) (order : List Text) (files : Files α) : Files α :=
  if secret = [] then files
  else (names t (privateFiles root order files)).zipIdx.foldl (encryptFile t secret) files

/-- The secret that is taken where one is being rotated. -/
def decryptionSecret (secret rotate : Text) : Text :=
  if rotate ≠ [] ∧ secret ≠ rotate then rotate else secret

/-- One round: a file that is not seen to be anything else is overwritten with what it decrypts to,
if it does. -/
def decryptFile (secret : Text) (files : Files α) (name : Text) : Files α :=
  match t.resolve name with
  | none => files
  | some path =>
    match files path with
    | none => files
    | some f =>
      if seesOther t name f.contents then files
      else
        match t.decrypt secret f.contents with
        | some contents => Function.update files path (some { f with contents := contents })
        | none => files

def decryptfs (root secret rotate : Text) (order : List Text) (files : Files α) : Files α :=
  if secret = [] then files
  else
    (names t (privateFiles root order files)).foldl
      (decryptFile t (decryptionSecret secret rotate)) files

section Names

variable {t} {name : Text} {listing : List Text}

theorem words_capture_eq (s : Text) : words (capture s) = words s := by
  induction s using List.reverseRecOn with
  | nil => rfl
  | append_singleton s c ih =>
    by_cases hc : c = '\n'
    · subst hc
      have hnil : words [] = [] := rfl
      rw [capture_append_newline, ih, words_append (by decide), hnil, List.append_nil]
    · have hkeep : capture (s ++ [c]) = s ++ [c] := by
        unfold capture
        rw [List.rdropWhile_concat_neg]
        simpa using hc
      rw [hkeep]

theorem words_unlines (ls : List Text) : words (unlines ls) = ls.flatMap words := by
  induction ls with
  | nil => rfl
  | cons l ls ih => rw [unlines_cons, words_append (by decide), ih, List.flatMap_cons]

/-- The names are those of the paths, each by itself. -/
theorem names_eq : names t listing = listing.flatMap (expand t.glob) := by
  unfold names expand
  rw [words_capture_eq, words_unlines, List.flatMap_assoc]

theorem mem_names : name ∈ names t listing ↔ ∃ path ∈ listing, name ∈ expand t.glob path := by
  rw [names_eq, List.mem_flatMap]

end Names

/-- What is relied on: decryption inverts encryption, and `file` names what is encrypted. -/
structure Sound : Prop where
  decrypt_encrypt : ∀ secret call contents,
    t.decrypt secret (t.encrypt secret call contents) = some contents
  file_encrypt : ∀ name secret call contents,
    isPGP (t.file name (t.encrypt secret call contents)) = true

section Rounds

/-- Whether a round replaces what it finds. -/
def seals (contents : α) (name : Text) : Bool := !seesPGP t name contents && !isDashed name

def sealFile (secret : Text) (name : Text × Nat) (f : File α) : File α :=
  if seals t f.contents name.1 then ⟨t.encrypt secret name.2 f.contents, false⟩ else f

def openContents (secret : Text) (name : Text) (contents : α) : α :=
  if seesOther t name contents then contents else (t.decrypt secret contents).getD contents

def openFile (secret : Text) (name : Text) (f : File α) : File α :=
  { f with contents := openContents t secret name f.contents }

/-- The path that a round comes upon. -/
def place (name : Text × Nat) : Option Text := t.resolve name.1

theorem encryptFile_eq (secret : Text) :
    encryptFile t secret = Run.rewrite (place t) (sealFile t secret) := by
  funext files name
  cases hr : place t name with
  | none => simp only [encryptFile, show t.resolve name.1 = none from hr, Run.rewrite_of_none hr]
  | some path =>
    have hpath : t.resolve name.1 = some path := hr
    cases hf : files path with
    | none => simp only [encryptFile, hpath, hf, Run.rewrite_of_absent hr hf]
    | some f =>
      simp only [encryptFile, hpath, hf, Run.rewrite_of_some hr hf, sealFile, seals]
      by_cases hsees : seesPGP t name.1 f.contents = true
      · simp [hsees, ← hf]
      · by_cases hdash : isDashed name.1 = true <;> simp [hsees, hdash, ← hf]

theorem decryptFile_eq (secret : Text) :
    decryptFile t secret = Run.rewrite t.resolve (openFile t secret) := by
  funext files name
  cases hr : t.resolve name with
  | none => simp only [decryptFile, hr, Run.rewrite_of_none hr]
  | some path =>
    cases hf : files path with
    | none => simp only [decryptFile, hr, hf, Run.rewrite_of_absent hr hf]
    | some f =>
      simp only [decryptFile, hr, hf, Run.rewrite_of_some hr hf, openFile, openContents]
      cases hs : seesOther t name f.contents with
      | true => simp [← hf]
      | false => cases hd : t.decrypt secret f.contents <;> simp [← hf]

variable {t} {secret : Text} {f : File α} {contents : α}

theorem seals_encrypt (h : Sound t) (name secret : Text) (call : Nat) (contents : α) :
    seals t (t.encrypt secret call contents) name = false := by
  unfold seals seesPGP fileOutput
  cases isDashed name <;> simp [h.file_encrypt]

theorem sealFile_of_not {name : Text × Nat} (h : seals t f.contents name.1 = false) :
    sealFile t secret name f = f := by
  simp [sealFile, h]

theorem foldl_sealFile_of_not {ws : List (Text × Nat)}
    (h : ws.any (fun w => seals t f.contents w.1) = false) :
    ws.foldl (fun f name => sealFile t secret name f) f = f := by
  induction ws with
  | nil => rfl
  | cons w ws ih =>
    obtain ⟨hw, hws⟩ : seals t f.contents w.1 = false ∧
        ws.any (fun w => seals t f.contents w.1) = false := by
      simpa using h
    rw [List.foldl_cons, sealFile_of_not hw, ih hws]

variable (secret) in
/-- The first round to encrypt is the last. -/
theorem foldl_sealFile (hs : Sound t) {ws : List (Text × Nat)}
    (h : ws.any (fun w => seals t f.contents w.1) = true) :
    ∃ call, ws.foldl (fun f name => sealFile t secret name f) f =
      ⟨t.encrypt secret call f.contents, false⟩ := by
  induction ws with
  | nil => simp at h
  | cons w ws ih =>
    rw [List.foldl_cons]
    cases hw : seals t f.contents w.1 with
    | true =>
      refine ⟨w.2, ?_⟩
      rw [sealFile, if_pos hw]
      exact foldl_sealFile_of_not (by simp [seals_encrypt hs])
    | false =>
      rw [sealFile_of_not hw]
      exact ih (by simpa [hw] using h)

theorem foldl_openFile (ws : List Text) (f : File α) :
    ws.foldl (fun f name => openFile t secret name f) f =
      { f with contents := ws.foldl (fun c name => openContents t secret name c) f.contents } := by
  induction ws generalizing f with
  | nil => rfl
  | cons w ws ih => rw [List.foldl_cons, ih]; rfl

end Rounds

section Loops

/-- The names of the loop that lead to a path. -/
def leading (listing : List Text) (path : Text) : List Text :=
  (names t listing).filter fun name => t.resolve name = some path

def encrypts (listing : List Text) (path : Text) (contents : α) : Bool :=
  (leading t listing path).any (seals t contents)

/-- What is left in a file of these contents by rounds under these names. -/
def opened (secret : Text) (ws : List Text) (contents : α) : α :=
  ws.foldl (fun c name => openContents t secret name c) contents

variable {t} {root secret rotate path : Text} {order : List Text} {files : Files α} {f : File α}

/-- The rounds that come upon a path, each with its number. -/
theorem any_zipIdx {listing : List Text} (contents : α) :
    ((names t listing).zipIdx.filter fun w => place t w = some path).any
      (fun w => seals t contents w.1) = encrypts t listing path contents := by
  have hfst : (names t listing).zipIdx.map Prod.fst = names t listing := List.zipIdx_map_fst ..
  unfold encrypts leading
  conv_rhs => rw [← hfst, List.filter_map, List.any_map]
  rfl

theorem encryptfs_apply (hsecret : secret ≠ []) (hf : files path = some f) :
    encryptfs t root secret order files path =
      some ((((names t (privateFiles root order files)).zipIdx.filter
        fun w => place t w = some path)).foldl (fun f w => sealFile t secret w f) f) := by
  rw [encryptfs, if_neg hsecret, encryptFile_eq, Run.foldl_rewrite, hf, Option.map_some]

theorem encryptfs_of_not (hsecret : secret ≠ []) (hf : files path = some f)
    (h : encrypts t (privateFiles root order files) path f.contents = false) :
    encryptfs t root secret order files path = some f := by
  rw [encryptfs_apply hsecret hf, foldl_sealFile_of_not (by rw [any_zipIdx, h])]

theorem encryptfs_of_encrypts (hs : Sound t) (hsecret : secret ≠ []) (hf : files path = some f)
    (h : encrypts t (privateFiles root order files) path f.contents = true) :
    ∃ call, encryptfs t root secret order files path =
      some ⟨t.encrypt secret call f.contents, false⟩ := by
  obtain ⟨call, hcall⟩ := foldl_sealFile secret hs (by rw [any_zipIdx, h])
  exact ⟨call, by rw [encryptfs_apply hsecret hf, hcall]⟩

theorem decryptfs_apply (hsecret : secret ≠ []) (hf : files path = some f) :
    decryptfs t root secret rotate order files path =
      some ⟨opened t (decryptionSecret secret rotate)
        (leading t (privateFiles root order files) path) f.contents, f.worldReadable⟩ := by
  rw [decryptfs, if_neg hsecret, decryptFile_eq, Run.foldl_rewrite, hf, Option.map_some,
    foldl_openFile]
  rfl

end Loops

end HackerUnion.Sbin.Encryptfs
