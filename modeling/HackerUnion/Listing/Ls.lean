import HackerUnion.Bash.Words
import HackerUnion.Js.Json

namespace HackerUnion.Listing

open Bash Js.Json

/-- What `ls -F` appends to a name, and to what. -/
inductive Mark where
  | plain
  | directory
  | executable
  | link
  | fifo
  | socket
  deriving DecidableEq

def Mark.text : Mark → Text
  | .plain => []
  | .directory => ['/']
  | .executable => ['*']
  | .link => ['@']
  | .fifo => ['|']
  | .socket => ['=']

structure Row where
  name : Text
  mark : Mark
  deriving DecidableEq

/-- `ls -aLF` -/
def lsOutput (rows : List Row) : Text := unlines (rows.map fun r => r.name ++ r.mark.text)

/-- `sed`, with what the script does to a line. -/
def sed (f : Text → Text) (t : Text) : Text := unlines ((lines t).map f)

/-- `s/\*$/!/` -/
def bang (line : Text) : Text :=
  if line.getLast? = some '*' then line.dropLast ++ ['!'] else line

def listed (rows : List Row) : Text := capture (sed bang (lsOutput rows))

/-- `[\/\*@=%\|!]`, of which the backslash is one. -/
def isType (c : Char) : Bool :=
  c = '\\' || c = '/' || c = '*' || c = '@' || c = '=' || c = '%' || c = '|' || c = '!'

/-- `echo "$ITEM" | grep -q '[\/\*@=%\|!]$'` -/
def hasType (item : Text) : Bool := (lines (echo [item])).any fun l => l.getLast?.any isType

def itemName (item : Text) : Text := if hasType item then item.dropLast else item

def itemType (item : Text) : Text :=
  if hasType item then item.drop (item.length - 1) else text "-"

/-- `${TYPE/!/*}` -/
def printedType (type : Text) : Text := if type = text "!" then text "*" else type

def jsonEscape (t : Text) : Text := capture (quote (echo [text "-n", t]) ++ ['\n'])

/-- A member of the array. -/
def entry (item : Text) : Text :=
  text "\x7b \"path\": " ++ jsonEscape (itemName item) ++ text ", \"type\": \"" ++
    printedType (itemType item) ++ text "\" \x7d"

def record (item : Text) : Text := ' ' :: (entry item ++ [','])

/-- `s/,\?$/ ]/` -/
def close (line : Text) : Text :=
  if line.getLast? = some ',' then line.dropLast ++ text " ]" else line ++ text " ]"

def dataOf (items : List Text) : Text :=
  capture (sed close (echo [text "[" ++ items.flatMap record]))

structure Response where
  status : Nat
  body : Text

/-- The script for a path, which is one of a directory that may be entered or not, and what
`ls -aLF` prints of it. -/
def ls (glob : Text → List Text) (path : Text) (enters : Bool) (rows : List Row) : Response :=
  let data := if enters then dataOf (expand glob (listed rows)) else text "[]"
  ⟨if enters then 200 else 500,
    echo ((text "\x7b \"path\": \"" ++ path ++ text "\", \"value\": ") :: expand glob data ++
      [text " \x7d"])⟩

/-- What `echo -n` prints of a name. -/
def echoed (t : Text) : Text := if isOption t then [] else t

section Text

variable {c : Char} {t item : Text} {items : List Text}

theorem newline_set (t : Text) {o : EchoOptions} (h : o.newline = false) :
    (t.foldl EchoOptions.set o).newline = false := by
  induction t generalizing o with
  | nil => exact h
  | cons c t ih =>
    refine ih ?_
    unfold EchoOptions.set
    split <;> simp [h]

theorem echo_n (t : Text) : echo [text "-n", t] = echoed t := by
  have hoption : echo [text "-n", t] = echoWith ⟨false, false⟩ [t] := rfl
  unfold echoed
  cases ht : isOption t with
  | false => simp [hoption, echoWith, ht, echoRest]
  | true =>
    have hnewline := newline_set t.tail (o := ⟨false, false⟩) rfl
    rw [hoption, echoWith, if_pos ht, echoWith, if_pos rfl]
    cases ho : t.tail.foldl EchoOptions.set ⟨false, false⟩ with
    | mk newline escapes =>
      rw [ho] at hnewline
      obtain rfl : newline = false := hnewline
      cases escapes <;> rfl

theorem blank_quoteChar {d : Char} (h : d ∈ quoteChar c) (hd : isBlank d = true) :
    isBlank c = true := by
  have hhex : ∀ n : Fin 16, isBlank (hexChar n) = false := by decide
  have hmod (n : Nat) : isBlank (hexChar (n % 16)) = false :=
    hhex ⟨n % 16, Nat.mod_lt n (by decide)⟩
  have hescape (e : Char) (he : isBlank e = false) (hmem : d ∈ ['\\', e]) : isBlank c = true := by
    have hslash : isBlank '\\' = false := rfl
    rcases List.mem_cons.mp hmem with rfl | hmem
    · simp [hslash] at hd
    · simp [List.mem_singleton.mp hmem, he] at hd
  unfold quoteChar at h
  iterate 7
    split at h
    · exact hescape _ rfl h
  split at h
  · rwa [List.mem_singleton.mp h] at hd
  · obtain ⟨u, -, hu⟩ := List.mem_flatMap.mp h
    have hslash : isBlank '\\' = false := rfl
    have hu' : isBlank 'u' = false := rfl
    simp only [hex4, List.mem_cons, List.not_mem_nil, or_false] at hu
    rcases hu with rfl | rfl | rfl | rfl | rfl | rfl <;> simp_all

theorem blank_quote (h : ∀ c ∈ t, isBlank c = false) : ∀ c ∈ quote t, isBlank c = false := by
  intro c hc
  have hquote : isBlank '"' = false := rfl
  rcases List.mem_cons.mp hc with rfl | hc
  · exact hquote
  rcases List.mem_append.mp hc with hc | hc
  · obtain ⟨d, hd, hcd⟩ := List.mem_flatMap.mp hc
    by_contra hblank
    have := blank_quoteChar hcd (by simpa using hblank)
    simp [h d hd] at this
  · rw [List.mem_singleton.mp hc]
    exact hquote

theorem jsonEscape_eq (t : Text) : jsonEscape t = quote (echoed t) := by
  have hlast : capture (quote (echoed t)) = quote (echoed t) := by
    unfold capture quote
    rw [← List.cons_append, List.rdropWhile_concat_neg]
    decide
  rw [jsonEscape, echo_n, capture_append_newline, hlast]

theorem mem_echoed (h : c ∈ echoed t) : c ∈ t := by
  unfold echoed at h
  split at h
  · cases h
  · exact h

theorem mem_itemName (h : c ∈ itemName item) : c ∈ item := by
  unfold itemName at h
  split at h
  · exact List.mem_of_mem_dropLast h
  · exact h

theorem blank_itemType (h : ∀ c ∈ item, isBlank c = false) :
    ∀ c ∈ printedType (itemType item), isBlank c = false := by
  intro c hc
  unfold printedType at hc
  split at hc
  · rw [List.mem_singleton.mp hc]
    rfl
  · unfold itemType at hc
    split at hc
    · exact h c (List.mem_of_mem_drop hc)
    · rw [List.mem_singleton.mp hc]
      rfl

theorem spaced_entry (h : ∀ c ∈ item, isBlank c = false) (rest : Text)
    (hrest : ∀ c ∈ rest, isBlank c = false) : Spaced (entry item ++ rest) := by
  have hword (s : String) (hs : ∀ c ∈ text s, isBlank c = false) {t : Text}
      (ht : ∀ c ∈ t, isBlank c = false) (hne : text s ≠ []) : Spaced (text s ++ t) := by
    refine spaced_word (by simp [hne]) fun c hc => ?_
    exact (List.mem_append.mp hc).elim (hs c) (ht c)
  have hpath : Spaced (quote (echoed (itemName item)) ++ [',']) := by
    refine spaced_word (by simp [quote]) fun c hc => ?_
    rcases List.mem_append.mp hc with hc | hc
    · exact blank_quote (fun c hc => h c (mem_itemName (mem_echoed hc))) c hc
    · rw [List.mem_singleton.mp hc]
      rfl
  have htype : Spaced (text "\"" ++ (printedType (itemType item) ++ ['"'])) := by
    refine hword "\"" (by decide) (fun c hc => ?_) (by decide)
    rcases List.mem_append.mp hc with hc | hc
    · exact blank_itemType h c hc
    · rw [List.mem_singleton.mp hc]
      rfl
  have hopen : Spaced (text "\x7b") := spaced_word (by decide) (by decide)
  have hkey : Spaced (text "\"path\":") := spaced_word (by decide) (by decide)
  have hkey' : Spaced (text "\"type\":") := spaced_word (by decide) (by decide)
  have hclose : Spaced (text "\x7d" ++ rest) := hword "\x7d" (by decide) hrest (by decide)
  have hall := hopen.append (hkey.append (hpath.append (hkey'.append (htype.append hclose))))
  have hshape (o k j l q p z : Text) :
      o ++ ' ' :: (k ++ [' ']) ++ j ++ ',' :: ' ' :: (l ++ ' ' :: q) ++ p ++ '"' :: ' ' :: z ++
        rest = o ++ ' ' :: (k ++ ' ' :: ((j ++ [',']) ++ ' ' :: (l ++ ' ' ::
          ((q ++ (p ++ ['"'])) ++ ' ' :: (z ++ rest))))) := by
    simp
  have heq : entry item ++ rest = text "\x7b" ++ ' ' :: (text "\"path\":" ++ ' ' ::
      ((quote (echoed (itemName item)) ++ [',']) ++ ' ' :: (text "\"type\":" ++ ' ' ::
        ((text "\"" ++ (printedType (itemType item) ++ ['"'])) ++ ' ' ::
          (text "\x7d" ++ rest))))) := by
    rw [← jsonEscape_eq]
    exact hshape (text "\x7b") (text "\"path\":") (jsonEscape (itemName item)) (text "\"type\":")
      (text "\"") (printedType (itemType item)) (text "\x7d")
  rw [heq]
  exact hall

/-- No character of the items is a blank. -/
def Words (items : List Text) : Prop := ∀ item ∈ items, ∀ c ∈ item, isBlank c = false

theorem spaced_records (h : Words items) (ht : Spaced t) : Spaced (t ++ items.flatMap record) := by
  induction items generalizing t with
  | nil => simpa using ht
  | cons item items ih =>
    obtain ⟨hitem, hitems⟩ := List.forall_mem_cons.mp h
    have hcomma : ∀ c ∈ [','], isBlank c = false := by decide
    have hfirst : Spaced (t ++ record item) := ht.append (spaced_entry hitem [','] hcomma)
    rw [List.flatMap_cons, ← List.append_assoc]
    exact ih hitems hfirst

theorem close_comma (t : Text) : close (t ++ [',']) = t ++ text " ]" := by
  simp [close]

/-- The array: the members with commas between them. -/
theorem close_concat (init : List Text) (last : Text) :
    close (text "[" ++ (init ++ [last]).flatMap record) =
      text "[" ++ init.flatMap record ++ ' ' :: (entry last ++ ' ' :: [']']) := by
  have hshape (o a e : Text) : o ++ (a ++ ' ' :: (e ++ [','])) = (o ++ a ++ ' ' :: e) ++ [','] := by
    simp
  have hspace : text " ]" = ' ' :: [']'] := rfl
  rw [List.flatMap_append, List.flatMap_singleton, record, hshape, close_comma, hspace]
  simp only [List.append_assoc, List.cons_append]

theorem spaced_close (h : Words items) : Spaced (close (text "[" ++ items.flatMap record)) := by
  have hopen : Spaced (text "[") := spaced_word (by decide) (by decide)
  have hend : Spaced [']'] := spaced_word (by decide) (by decide)
  cases items using List.reverseRecOn with
  | nil => exact hopen.append hend
  | append_singleton init last =>
    obtain ⟨hinit, hlast⟩ := List.forall_mem_append.mp h
    have hentry : Spaced (entry last) := by
      simpa using spaced_entry (hlast last List.mem_cons_self) [] (by simp)
    rw [close_concat]
    exact (spaced_records hinit hopen).append (hentry.append hend)

theorem isOption_append {a : Text} (ha : a.head? = some c) (hc : c ≠ '-') (b : Text) :
    isOption (a ++ b) = false := by
  refine isOption_of_head ?_
  rw [List.head?_append, ha]
  simpa using hc

theorem dataOf_eq (h : Words items) :
    dataOf items = close (text "[" ++ items.flatMap record) := by
  have hopen : Spaced (text "[") := spaced_word (by decide) (by decide)
  have hline := (spaced_records h hopen).line
  have hhead : (text "[").head? = some '[' := rfl
  have hoption := isOption_append hhead (by decide) (items.flatMap record)
  rw [dataOf, sed, echo_quoted hoption, lines_ended hline, lines, List.map_singleton,
    capture_unlines_singleton (spaced_close h).line]

theorem echo_between {first last : Text} {ws : List Text} (h : isOption first = false)
    (hws : ws ≠ []) :
    echo (first :: ws ++ [last]) =
      first ++ ' ' :: (List.intercalate [' '] ws ++ ' ' :: (last ++ ['\n'])) := by
  have hrest : ws ++ [last] ≠ [] := by simp
  rw [echo, List.cons_append, echoWith, if_neg (by simp [h])]
  simp only [echoRest, List.intercalate_cons_of_ne_nil hrest,
    Lists.intercalate_append _ hws (List.cons_ne_nil last []), List.intercalate_singleton]
  simp

/-- What the script prints, when no file is meant by a word of it. -/
theorem ls_body {glob : Text → List Text} {rows : List Row} (path : Text)
    (h : Words (expand glob (listed rows)))
    (hglob : NoMatch glob (dataOf (expand glob (listed rows)))) :
    (ls glob path true rows).body =
      text "\x7b \"path\": \"" ++ path ++ text "\", \"value\": " ++
        ' ' :: (dataOf (expand glob (listed rows)) ++ ' ' :: (text " \x7d" ++ ['\n'])) := by
  have hspaced : Spaced (dataOf (expand glob (listed rows))) := dataOf_eq h ▸ spaced_close h
  have hhead : (text "\x7b \"path\": \"" ++ path).head? = some '\x7b' := rfl
  have hoption := isOption_append hhead (by decide) (text "\", \"value\": ")
  have hbody : (ls glob path true rows).body =
      echo ((text "\x7b \"path\": \"" ++ path ++ text "\", \"value\": ") ::
        expand glob (dataOf (expand glob (listed rows))) ++ [text " \x7d"]) := rfl
  have hjoined := hspaced.joined
  rw [joined] at hjoined
  rw [hbody, expand_noMatch hglob, echo_between hoption hspaced.words_ne_nil, hjoined]

end Text

end HackerUnion.Listing
