import EchoAi.Bytes
import EchoAi.Ctype

/-!
# The store of prompts

History and stash of the prompts are files with an object of JSON on every line, and every change
writes the whole file.

* `ObjectJson`: what the store uses of the JSON library, and `ObjectJson.Inverse` what it relies on.
* `entriesLoad`, `entriesWrite`: a file read into entries, and entries written through one buffer.
* `historyAppend`, `stashPush`, `stashPop`, `stashRemove`: the operations.

Texts are the bytes of C strings.  Files can be read and written, and memory does not run out.
-/

namespace EchoAi.PromptStore

/-! ## Entries and lines -/

/-- A JSON library on objects: the members of the object that a text stands for, each with its text
if it is a string, and the line for an object of strings. -/
structure ObjectJson where
  parse : List UInt8 → Option (List (List UInt8 × Option (List UInt8)))
  print : List (List UInt8 × List UInt8) → List UInt8

/-- Printed objects are parsed again, and stand on one line. -/
structure ObjectJson.Inverse (json : ObjectJson) : Prop where
  parse_print : ∀ members, (∀ m ∈ members, 0 ∉ m.1 ∧ 0 ∉ m.2) →
    json.parse (json.print members) = some (members.map fun m => (m.1, some m.2))
  notMem_print : ∀ members, (∀ m ∈ members, 0 ∉ m.1 ∧ 0 ∉ m.2) →
    10 ∉ json.print members ∧ 0 ∉ json.print members
  print_ne_nil : ∀ members, json.print members ≠ []

/-- `Entry` -/
structure Entry where
  input : List UInt8
  mode : Option (List UInt8)
  deriving DecidableEq, Repr

/-- `cJSON_GetStringValue` of `cJSON_GetObjectItem`. -/
def memberText (members : List (List UInt8 × Option (List UInt8))) (name : String) :
    Option (List UInt8) :=
  (members.find? fun m => sameIgnoringCase m.1 (ascii name)).bind (·.2)

section Json

variable (json : ObjectJson)

/-- `entry_parse` -/
def entryParse (line : List UInt8) : Option Entry :=
  match json.parse line with
  | none => none
  | some members =>
    (memberText members "input").map fun input => { input, mode := memberText members "mode" }

/-- `entries_load` of a file, which is empty when it is missing. -/
def entriesLoad (file : List UInt8) : List Entry :=
  (((cString file).splitOn 10).filter (· ≠ [])).filterMap (entryParse json)

/-- `entry_to_json` -/
def entryToJson (e : Entry) : List UInt8 :=
  json.print ((ascii "input", e.input) ::
    if e.mode.getD [] = [] then [] else [(ascii "mode", e.mode.getD [])])

/-! ## The buffer -/

/-- The text in the buffer, the place for the next line, and whether something was written behind
the end. -/
structure WriteBuf where
  text : List UInt8
  pos : Nat
  overrun : Bool
  deriving DecidableEq, Repr

/-- `snprintf` of a line into the rest of a buffer of `total` bytes.  With the place behind the end
the size that it is told wraps. -/
def WriteBuf.snprintf (total : Nat) (line : List UInt8) (buf : WriteBuf) : WriteBuf where
  text := if buf.pos < total then buf.text ++ line.take (total - buf.pos - 1) else buf.text
  pos := buf.pos + line.length
  overrun := buf.overrun || total < buf.pos

/-- The bytes that `entries_write` allocates. -/
def bufferSize (arr : List Entry) : Nat :=
  1 + (arr.map fun e => e.input.length + (e.mode.getD []).length + 64).sum

/-- The lines of the entries in a buffer. -/
def fillBuffer (total : Nat) (arr : List Entry) : WriteBuf :=
  arr.foldl (fun buf e => buf.snprintf total (entryToJson json e ++ [10]))
    { text := [], pos := 0, overrun := false }

/-- The file that `entries_write` leaves, and how its buffer was used. -/
structure Written where
  file : List UInt8
  total : Nat
  buf : WriteBuf
  deriving DecidableEq, Repr

/-- Nothing is written behind the end of the buffer, and the place stays within. -/
def Written.Safe (w : Written) : Prop := w.buf.overrun = false ∧ w.buf.pos ≤ w.total

instance (w : Written) : Decidable w.Safe := inferInstanceAs (Decidable (_ ∧ _))

/-- `entries_write` -/
def entriesWrite (arr : List Entry) : Written :=
  if arr = [] then { file := [], total := 0, buf := { text := [], pos := 0, overrun := false } }
  else
    let buf := fillBuffer json (bufferSize arr) arr
    { file := buf.text, total := bufferSize arr, buf }

/-! ## Operations -/

/-- What an operation returns, the text that it gives out, what it wrote, and the file behind it. -/
structure Outcome where
  rc : Int
  out : Option (List UInt8)
  written : Option Written
  file : List UInt8
  deriving DecidableEq, Repr

/-- An operation that writes the file anew. -/
def Outcome.ofWrite (out : Option (List UInt8)) (arr : List Entry) : Outcome where
  rc := 0
  out := out
  written := some (entriesWrite json arr)
  file := (entriesWrite json arr).file

variable (file : List UInt8)

/-- `tui_prompt_store_history_append` -/
def historyAppend (input : List UInt8) (mode : Option (List UInt8)) (maxEntries : Int) : Outcome :=
  let maxEntries := if maxEntries < 1 then 1 else maxEntries
  let arr := entriesLoad json file
  if arr.getLast?.any (·.input = input) then { rc := 0, out := none, written := none, file }
  else
    let arr := arr ++ [{ input, mode := if mode.getD [] = [] then none else mode }]
    let start := if maxEntries < arr.length then (arr.length - maxEntries).toNat else 0
    Outcome.ofWrite json none (arr.drop start)

/-- `tui_prompt_store_history_load` -/
def historyLoad : List (List UInt8) := (entriesLoad json file).map Entry.input

/-- `tui_prompt_store_stash_push` -/
def stashPush (input : List UInt8) (maxEntries : Int) : Outcome :=
  historyAppend json file input (some (ascii "stash")) maxEntries

/-- `tui_prompt_store_stash_pop` -/
def stashPop : Outcome :=
  match (entriesLoad json file).getLast? with
  | none => { rc := 0, out := none, written := none, file }
  | some last => Outcome.ofWrite json (some last.input) (entriesLoad json file).dropLast

/-- `tui_prompt_store_stash_list` -/
def stashList : List (List UInt8) := ((entriesLoad json file).map Entry.input).reverse

/-- `tui_prompt_store_stash_remove` -/
def stashRemove (index : Int) : Outcome :=
  let arr := entriesLoad json file
  let fileIdx : Int := arr.length - 1 - index
  if index < 0 ∨ fileIdx < 0 ∨ arr.length ≤ fileIdx then
    { rc := -1, out := none, written := none, file }
  else Outcome.ofWrite json none (arr.eraseIdx fileIdx.toNat)

end Json

end EchoAi.PromptStore
