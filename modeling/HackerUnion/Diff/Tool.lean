import Mathlib.Logic.Function.Basic
import HackerUnion.Js.Value

namespace HackerUnion.Diff

open Js

/-- The fields of a form that is posted, or of the query of an address. -/
structure Form where
  diff : Field
  url : Field
  pathname : Field
  timestamp : Field
  original : Field
  modified : Field
  next : Field

structure File (β : Type) where
  contents : β
  mtime : Int
  deriving DecidableEq

abbrev Disk (κ β : Type) := κ → Option (File β)

/-- Where a path leads, how bytes and strings become each other, and what is said of a write that is
not allowed. -/
structure Host (κ β : Type) where
  locate : String → Option κ
  urlToPathname : String → String
  decode : β → String
  encode : String → β
  decode_encode : ∀ s, decode (encode s) = s
  writeError : String

/-- What a user may do with each file. -/
structure Access (κ : Type) where
  read : κ → Bool
  write : κ → Bool

def fuzzyMatch (s1 s2 : String) : Bool :=
  (s1.toList.filter isWord).map Char.toLower = (s2.toList.filter isWord).map Char.toLower

/-- A number as a condition. -/
def truthy (n : Option Int) : Bool := n.any (· ≠ 0)

/-- `timestamp && stat.mtime.getTime() > timestamp` -/
def later (timestamp : Option Int) (mtime : Int) : Bool :=
  truthy timestamp && timestamp.any (· < mtime)

/-- What is found out of a file. -/
structure Metadata where
  timestamp : Option Int
  conflict : Bool
  pathname : Field
  data : Option String
  modified : Bool

structure Buffer (β : Type) where
  bytes : β
  conflict : Bool

section Request

variable {κ β : Type} (host : Host κ β) (access : Access κ)

/-- The file that is meant. The functions of the file system throw on what is no string. -/
def place (pathname : Field) : Option κ := pathname.string.bind host.locate

/-- The first half of `readWithMetadata`. -/
def statFile (disk : Disk κ β) (pathname : Field) (timestamp : Option Int) : Metadata :=
  match (place host pathname).bind disk with
  | some f => ⟨some f.mtime, later timestamp f.mtime, pathname, none, later timestamp f.mtime⟩
  | none => ⟨none, false, pathname, none, false⟩

/-- The second half of `readWithMetadata`. -/
def readData (disk : Disk κ β) (original : Field) (obj : Metadata) : Metadata :=
  match place host obj.pathname with
  | none => obj
  | some k =>
    match disk k with
    | none => obj
    | some f =>
      if access.read k then
        let data : Buffer β := ⟨f.contents, false⟩
        -- The comparison is noted on the buffer, and only its text goes on.
        let data : Buffer β :=
          if original ≠ .absent then
            { data with conflict := !fuzzyMatch original.joined (host.decode data.bytes) }
          else data
        { obj with data := some (host.decode data.bytes) }
      else obj

def readWithMetadata (disk : Disk κ β) (pathname : Field) (timestamp : Option Int)
    (original : Field) : Metadata :=
  readData host access disk original (statFile host disk pathname timestamp)

/-- The form that is sent back, as far as it is filled in here. -/
structure Page where
  original : String
  pathname : Field
  timestamp : Int
  next : Field
  message : Option String
  saved : Bool
  deriving DecidableEq

/-- A value as a template prints it. -/
def printed : Field → String
  | .absent => ""
  | field => field.joined

def respond (file : Option Metadata) (modified : Field) (timestamp : Int) (next : Field)
    (msg : Option String) (saved : Bool) : Option Page :=
  if saved && next.truthy then none
  else
    some
      { original := if saved then printed modified else (file.bind Metadata.data).getD ""
        pathname := (file.map Metadata.pathname).getD (.text "")
        timestamp, next, saved, message := msg }

/-- What is submitted from a page when the text has been edited. -/
def Page.form (page : Page) (edited : String) : Form where
  diff := .absent
  url := .absent
  pathname := page.pathname
  timestamp := .text (toString page.timestamp)
  original := .text page.original
  modified := .text edited
  next := page.next

def missing (form : Form) : Bool := !(form.timestamp.truthy && form.pathname.truthy)

def missingMessage : String := "Required parameters missing."
def modifiedMessage : String := "File has been modified. Please review and hit save again."
def savedMessage : String := "File saved!"
def pathMessage : String := "You must specify a path or a URL."

/-- The check of `doSave` and what it writes. -/
def saveFile (now : Int) (form : Form) (file : Metadata) : Except String (κ × File β) :=
  if file.conflict then .error modifiedMessage
  else
    match place host file.pathname with
    | none => .error host.writeError
    | some k =>
      if access.write k then .ok (k, ⟨host.encode form.modified.joined, now⟩)
      else .error host.writeError

/-- The time that the next form is sent with after a save. -/
def saveTimestamp (file : Metadata) (now : Int) : Int :=
  if file.modified then file.timestamp.getD now else now

structure Response (κ β : Type) where
  disk : Disk κ β
  saved : Bool
  page : Option Page

def doSave [DecidableEq κ] (disk : Disk κ β) (now : Int) (form : Form) : Response κ β :=
  if missing form then
    ⟨disk, false, respond none form.modified now form.next (some missingMessage) false⟩
  else
    let file := readWithMetadata host access disk form.pathname
      (parseInt form.timestamp.joined) form.original
    match saveFile host access now form file with
    | .error msg =>
      ⟨disk, false,
        respond (some file) form.modified (saveTimestamp file now) form.next (some msg) false⟩
    | .ok (k, f) =>
      ⟨Function.update disk k (some f), true,
        respond (some file) form.modified (saveTimestamp file now) form.next (some savedMessage)
          true⟩

/-- The path that is viewed, unless the parser of addresses throws. -/
def viewPathname (form : Form) : Option Field :=
  if form.url.truthy then form.url.string.map fun u => .text (host.urlToPathname u)
  else some form.pathname

def viewTimestamp (form : Form) : Option Int :=
  if form.timestamp.truthy then parseInt form.timestamp.joined else none

/-- `timestamp || getTimestamp()` -/
def stamped (timestamp : Option Int) (now : Int) : Int :=
  if truthy timestamp then timestamp.getD now else now

/-- The page of `doDiff`. -/
def viewPage (now : Int) (form : Form) (file : Metadata) : Option Page :=
  respond (some file) .absent (stamped (viewTimestamp form) now) form.next
    (if file.pathname.truthy then none else some pathMessage) false

end Request

section Read

variable {κ β : Type} {host : Host κ β} {access : Access κ} {disk : Disk κ β} {pathname : Field}
  {k : κ} {f : File β}

@[simp] theorem statFile_pathname (timestamp : Option Int) :
    (statFile host disk pathname timestamp).pathname = pathname := by
  unfold statFile
  split <;> rfl

@[simp] theorem statFile_data (timestamp : Option Int) :
    (statFile host disk pathname timestamp).data = none := by
  unfold statFile
  split <;> rfl

theorem statFile_timestamp (hk : place host pathname = some k) (hf : disk k = some f)
    (timestamp : Option Int) :
    (statFile host disk pathname timestamp).timestamp = some f.mtime := by
  simp [statFile, hk, hf]

theorem statFile_conflict (timestamp : Option Int) :
    ∀ t ∈ (statFile host disk pathname timestamp).timestamp,
      (statFile host disk pathname timestamp).conflict = later timestamp t := by
  unfold statFile
  split <;> simp

variable (host access disk) in
/-- Reading finds the text, or nothing, and leaves the rest. -/
theorem readData_cases (original : Field) (obj : Metadata) :
    readData host access disk original obj = obj ∨
      ∃ k f, place host obj.pathname = some k ∧ disk k = some f ∧
        readData host access disk original obj =
          { obj with data := some (host.decode f.contents) } := by
  unfold readData
  cases hk : place host obj.pathname with
  | none => simp
  | some k =>
    cases hf : disk k with
    | none => simp [hf]
    | some f =>
      cases hr : access.read k with
      | false => simp [hf, hr]
      | true =>
        refine .inr ⟨k, f, rfl, hf, ?_⟩
        by_cases ho : original = .absent <;> simp [hf, hr, ho]

@[simp] theorem readData_conflict (original : Field) (obj : Metadata) :
    (readData host access disk original obj).conflict = obj.conflict := by
  rcases readData_cases host access disk original obj with h | ⟨k, f, -, -, h⟩ <;> rw [h]

@[simp] theorem readData_timestamp (original : Field) (obj : Metadata) :
    (readData host access disk original obj).timestamp = obj.timestamp := by
  rcases readData_cases host access disk original obj with h | ⟨k, f, -, -, h⟩ <;> rw [h]

@[simp] theorem readData_pathname (original : Field) (obj : Metadata) :
    (readData host access disk original obj).pathname = obj.pathname := by
  rcases readData_cases host access disk original obj with h | ⟨k, f, -, -, h⟩ <;> rw [h]

/-- What is written is written at the place, by one who may, when no conflict is noted. -/
theorem saveFile_ok {now : Int} {form : Form} {file : Metadata}
    (h : saveFile host access now form file = .ok (k, f)) :
    file.conflict = false ∧ place host file.pathname = some k ∧ access.write k = true ∧
      f = ⟨host.encode form.modified.joined, now⟩ := by
  unfold saveFile at h
  split at h
  · simp at h
  · rename_i hconflict
    split at h
    · simp at h
    · rename_i k' hk
      split at h
      · rename_i hwrite
        obtain ⟨rfl, rfl⟩ := Prod.mk.inj (Except.ok.inj h)
        exact ⟨by simpa using hconflict, hk, hwrite, rfl⟩
      · simp at h

end Read

section Guarded

variable {κ β : Type} [DecidableEq κ] (host : Host κ β) (access : Access κ)

/-- The file has not been modified after the time that is submitted. -/
def Fresh (form : Form) (f : File β) : Prop := ∀ ts ∈ parseInt form.timestamp.joined, f.mtime ≤ ts

def Matches (form : Form) (f : File β) : Prop :=
  form.original = .absent ∨ fuzzyMatch form.original.joined (host.decode f.contents) = true

/-- A file is replaced only when nothing has changed, and else the save is rejected. -/
def Guarded (disk : Disk κ β) (now : Int) (form : Form) (k : κ) (f : File β) : Prop :=
  (Fresh form f ∧ Matches host form f) ∨
    (doSave host access disk now form).saved = false ∧
      (doSave host access disk now form).disk k = some f

/-- A save that could be done is of a file that was modified after a time other than zero, or
nothing has changed. -/
def GuardedWhen (form : Form) (k : κ) (f : File β) : Prop :=
  missing form = false → access.write k = true →
    later (parseInt form.timestamp.joined) f.mtime = true ∨ Fresh form f ∧ Matches host form f

instance decidableFresh (form : Form) (f : File β) : Decidable (Fresh form f) :=
  inferInstanceAs (Decidable (∀ ts ∈ parseInt form.timestamp.joined, _))

instance decidableMatches (form : Form) (f : File β) : Decidable (Matches host form f) :=
  inferInstanceAs (Decidable (_ ∨ _))

instance decidableGuardedWhen (form : Form) (k : κ) (f : File β) :
    Decidable (GuardedWhen host access form k f) :=
  inferInstanceAs (Decidable (_ → _ → _ ∨ _))

variable {host access} {disk : Disk κ β} {now : Int} {form : Form} {k : κ} {f : File β}

variable (access now) in
/-- The modification time alone decides on a save. -/
theorem doSave_eq (hk : place host form.pathname = some k) (hf : disk k = some f) :
    (doSave host access disk now form).saved =
        (!missing form && !later (parseInt form.timestamp.joined) f.mtime && access.write k) ∧
      (doSave host access disk now form).disk =
        if (doSave host access disk now form).saved then
          Function.update disk k (some ⟨host.encode form.modified.joined, now⟩)
        else disk := by
  have hconflict := statFile_conflict (parseInt form.timestamp.joined) f.mtime
    (statFile_timestamp hk hf _)
  cases hm : missing form with
  | true => simp [doSave, hm]
  | false =>
    cases hl : later (parseInt form.timestamp.joined) f.mtime with
    | true => simp [doSave, hm, readWithMetadata, saveFile, hconflict, hl]
    | false =>
      cases hw : access.write k <;>
        simp [doSave, hm, readWithMetadata, saveFile, hconflict, hl, hk, hw]

theorem guarded_iff (hk : place host form.pathname = some k) (hf : disk k = some f) :
    Guarded host access disk now form k f ↔ GuardedWhen host access form k f := by
  obtain ⟨hsaved, hdisk⟩ := doSave_eq access now hk hf
  unfold Guarded GuardedWhen
  rw [hdisk, hsaved]
  cases missing form <;> cases later (parseInt form.timestamp.joined) f.mtime <;>
    cases access.write k <;> simp [hf]

end Guarded

end HackerUnion.Diff
