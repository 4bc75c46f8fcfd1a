import EchoAi.Bytes
import EchoAi.Splicing
import EchoAi.Splitting

/-!
# Editing a file

An edit replaces texts of a file that occur in it once.  The texts are sought in a copy of the file
with uniform line endings, and the endings are put back before the file is written.

* `EditItem`, `EditMatch`: a replacement, and the place where it was found.
* `editDetectEnding`, `editNormalizeLf`, `editRestoreEndings`: the endings of lines.
* `editCountOccurrences`, `editMatches`, `sortMatches`, `overlap?`: finding the places.
* `editContent`: from the bytes of a file to the bytes that are written, or to the error.
* `Letter`, `letters`: a file in letters and line endings, with `editNormalizeLf_eq`.
* `editPieces`, `preserved`, `written_eq_preserved_iff`: what should be written, and when it is.

Reading the arguments, resolving the path and writing the file are left out, and so is the diff in
the result.  Memory does not run out.
-/

namespace EchoAi

/-! ## Line endings -/

/-- `edit_detect_ending`: the first newline decides. -/
def editDetectEnding (text : List UInt8) : Bool :=
  match firstInfix [10] text with
  | none => false
  | some lf =>
    match firstInfix [13, 10] text with
    | none => false
    | some crlf => decide (crlf < lf)

/-- `edit_normalize_lf_dup`. -/
def editNormalizeLf : List UInt8 → List UInt8
  | [] => []
  | 13 :: 10 :: text => 10 :: editNormalizeLf text
  | b :: text => (if b = 13 then 10 else b) :: editNormalizeLf text

/-- A byte with its line ending put back. -/
def restoreByte (crlf : Bool) (b : UInt8) : List UInt8 := if crlf ∧ b = 10 then [13, 10] else [b]

/-- `edit_restore_endings_dup`. -/
def editRestoreEndings (crlf : Bool) (text : List UInt8) : List UInt8 :=
  text.flatMap (restoreByte crlf)

/-! ## Places -/

/-- A replacement of one text by another. -/
structure EditItem where
  oldStr : CText
  newStr : CText
  deriving DecidableEq

/-- The place of a match in the normalized content, and the edit that it belongs to. -/
structure EditMatch extends Span where
  editIdx : Nat
  deriving DecidableEq, Repr

/-- `edit_count_occurrences` of a text that is not empty.  Each occurrence takes a byte at least, so
fuel for each byte is enough. -/
def editCountOccurrences (needle : List UInt8) : (fuel : Nat) → (haystack : List UInt8) → Nat
  | 0, _ => 0
  | fuel + 1, haystack =>
    match firstInfix needle haystack with
    | none => 0
    | some i => editCountOccurrences needle fuel (haystack.drop (i + needle.length)) + 1

/-- A text that was not found. -/
def notFoundText (n i : Nat) (path : String) : String :=
  let subject := if n = 1 then "the exact text" else "edits[" ++ toString i ++ "]"
  "Could not find " ++ subject ++ " in " ++ path ++ ". The old_string must match exactly " ++
    "including all whitespace and newlines."

/-- A text that was found more than once. -/
def notUniqueText (n i count : Nat) (path : String) : String :=
  let subject := if n = 1 then "the text" else "edits[" ++ toString i ++ "]"
  let which := if n = 1 then "The" else "Each"
  "Found " ++ toString count ++ " occurrences of " ++ subject ++ " in " ++ path ++ ". " ++ which ++
    " old_string must be unique; provide more context to make it unique."

/-- Two places that overlap. -/
def overlapText (i j : Nat) (path : String) : String :=
  "edits[" ++ toString i ++ "] and edits[" ++ toString j ++ "] overlap in " ++ path ++
    ". Merge them into one edit or target disjoint regions."

/-- The place of one text. -/
def editMatch (path : String) (norm : List UInt8) (n i : Nat) (item : EditItem) :
    Except String EditMatch :=
  let normOld := editNormalizeLf item.oldStr.bytes
  let count := editCountOccurrences normOld norm.length norm
  if count = 0 then .error (notFoundText n i path)
  else if 1 < count then .error (notUniqueText n i count path)
  else
    match firstInfix normOld norm with
    | none => .error (notFoundText n i path)
    | some index => .ok { index, length := normOld.length, editIdx := i }

/-- The places of the texts from the `i`-th on, in the order of the edits. -/
def matchesFrom (path : String) (norm : List UInt8) (n : Nat) :
    (i : Nat) → List EditItem → Except String (List EditMatch)
  | _, [] => .ok []
  | i, item :: items =>
    match editMatch path norm n i item with
    | .error text => .error text
    | .ok m =>
      match matchesFrom path norm n (i + 1) items with
      | .error text => .error text
      | .ok ms => .ok (m :: ms)

/-- A place among others that are sorted. -/
def insertMatch (m : EditMatch) : List EditMatch → List EditMatch
  | [] => [m]
  | a :: ms => if a.index ≤ m.index then a :: insertMatch m ms else m :: a :: ms

/-- The places in the order of the content. -/
def sortMatches (ms : List EditMatch) : List EditMatch :=
  ms.foldl (fun sorted m => insertMatch m sorted) []

/-- The first two neighbours that overlap. -/
def overlap? : List EditMatch → Option (EditMatch × EditMatch)
  | a :: b :: ms => if b.index < a.index + a.length then some (a, b) else overlap? (b :: ms)
  | _ => none

/-- The places of all texts, in the order of the content and apart from each other. -/
def editMatches (path : String) (norm : List UInt8) (items : List EditItem) :
    Except String (List EditMatch) :=
  match matchesFrom path norm items.length 0 items with
  | .error text => .error text
  | .ok ms =>
    match overlap? (sortMatches ms) with
    | some (a, b) => .error (overlapText a.editIdx b.editIdx path)
    | none => .ok (sortMatches ms)

/-! ## The edit -/

/-- The replacement for a place, normalized. -/
def newText (items : List EditItem) (m : EditMatch) : List UInt8 :=
  match items[m.editIdx]? with
  | some item => editNormalizeLf item.newStr.bytes
  | none => []

/-- The mark of UTF-8 at the front of a file. -/
def utf8Bom : List UInt8 := [0xEF, 0xBB, 0xBF]

/-- The length of the mark at the front of a file. -/
def bomLen (content : List UInt8) : Nat := if utf8Bom <+: content then 3 else 0

/-- The content of a file behind the mark, as C reads it. -/
def fileText (content : List UInt8) : List UInt8 := cString (content.drop (bomLen content))

/-- The first edit whose text is empty. -/
def emptyOld? (items : List EditItem) : Option Nat :=
  items.findIdx? fun item => item.oldStr.bytes == []

/-- The call without edits. -/
def noEditsText : String :=
  "missing required arguments: a non-empty edits array, or old_string and new_string"

/-- The bytes to write for accepted places. -/
def editedContent (content : List UInt8) (items : List EditItem) (ms : List EditMatch) :
    List UInt8 :=
  let text := fileText content
  let newNorm := applyFromRight (editNormalizeLf text)
    (ms.map fun m => (m.toSpan, newText items m))
  content.take (bomLen content) ++ editRestoreEndings (editDetectEnding text) newNorm

/-- `edit_execute` from the bytes of the file to the bytes that are written. -/
def editContent (maxFileSize : Nat) (path : String) (content : List UInt8)
    (items : List EditItem) : Except String (List UInt8) :=
  if items = [] then .error noEditsText
  else
    match emptyOld? items with
    | some i => .error ("edits[" ++ toString i ++ "].old_string must not be empty")
    | none =>
      if content = [] ∨ maxFileSize < content.length then .error "file empty or too large"
      else
        match editMatches path (editNormalizeLf (fileText content)) items with
        | .error text => .error text
        | .ok ms =>
          let final := editedContent content items ms
          if final = content then
            .error "No changes made: the replacement produced identical content."
          else .ok final

/-! ## A file in letters and line endings -/

/-- A letter of a file, or the two bytes of a line ending. -/
inductive Letter where
  | byte (b : UInt8)
  | crlf
  deriving DecidableEq, Repr

namespace Letter

/-- The bytes of a letter in the file. -/
def raw : Letter → List UInt8
  | .byte b => [b]
  | .crlf => [13, 10]

/-- The letter in the normalized content. -/
def norm : Letter → UInt8
  | .byte b => if b = 13 then 10 else b
  | .crlf => 10

/-- A letter that ends a line. -/
def IsEnding (t : Letter) : Prop := t.norm = 10

instance (t : Letter) : Decidable t.IsEnding := inferInstanceAs (Decidable (_ = _))

end Letter

/-- The letters of a text. -/
def letters : List UInt8 → List Letter
  | [] => []
  | 13 :: 10 :: text => .crlf :: letters text
  | b :: text => .byte b :: letters text

theorem flatMap_raw_letters (text : List UInt8) : (letters text).flatMap Letter.raw = text := by
  induction text using letters.induct with
  | case1 => rfl
  | case2 text ih => rw [letters, List.flatMap_cons, ih]; rfl
  | case3 b text hcrlf ih => rw [letters, List.flatMap_cons, ih]; rfl; exact hcrlf

/-- Normalizing takes the letters one by one. -/
theorem editNormalizeLf_eq (text : List UInt8) :
    editNormalizeLf text = (letters text).map Letter.norm := by
  induction text using letters.induct with
  | case1 => rfl
  | case2 text ih => rw [letters, editNormalizeLf, List.map_cons, ih]; rfl
  | case3 b text hcrlf ih =>
    rw [letters, editNormalizeLf, List.map_cons, ih]
    · rfl
    · exact hcrlf
    · exact hcrlf

/-! ## The places -/

/-- A match stands where the text of its edit first occurs. -/
def Matched (norm : List UInt8) (items : List EditItem) (m : EditMatch) : Prop :=
  ∃ item, items[m.editIdx]? = some item ∧ m.length = (editNormalizeLf item.oldStr.bytes).length ∧
    firstInfix (editNormalizeLf item.oldStr.bytes) norm = some m.index

theorem of_editMatch {path : String} {norm : List UInt8} {n i : Nat} {item : EditItem}
    {m : EditMatch} (h : editMatch path norm n i item = .ok m) :
    m.editIdx = i ∧ m.length = (editNormalizeLf item.oldStr.bytes).length ∧
      firstInfix (editNormalizeLf item.oldStr.bytes) norm = some m.index := by
  simp only [editMatch] at h
  split at h
  · exact absurd h (by simp)
  split at h
  · exact absurd h (by simp)
  split at h
  · exact absurd h (by simp)
  · next index hindex =>
    rw [← Except.ok.inj h]
    exact ⟨rfl, rfl, hindex⟩

theorem of_matchesFrom {path : String} {norm : List UInt8} {n i : Nat} {items : List EditItem}
    {ms : List EditMatch} (h : matchesFrom path norm n i items = .ok ms) :
    ∀ m ∈ ms, ∃ j item, items[j]? = some item ∧ m.editIdx = i + j ∧
      m.length = (editNormalizeLf item.oldStr.bytes).length ∧
        firstInfix (editNormalizeLf item.oldStr.bytes) norm = some m.index := by
  induction items generalizing i ms with
  | nil =>
    rw [← Except.ok.inj h]
    exact fun m hm => absurd hm List.not_mem_nil
  | cons item items ih =>
    rw [matchesFrom] at h
    split at h
    · exact absurd h (by simp)
    next m hm =>
    split at h
    · exact absurd h (by simp)
    next ms' hms' =>
    rw [← Except.ok.inj h]
    refine List.forall_mem_cons.2 ⟨⟨0, item, rfl, of_editMatch hm⟩, fun m' hm' => ?_⟩
    obtain ⟨j, item', hitem', hidx, hfound⟩ := ih hms' m' hm'
    exact ⟨j + 1, item', hitem', by omega, hfound⟩

theorem mem_insertMatch {m a : EditMatch} {ms : List EditMatch} (h : a ∈ insertMatch m ms) :
    a = m ∨ a ∈ ms := by
  induction ms with
  | nil => exact Or.inl (List.mem_singleton.1 h)
  | cons b ms ih =>
    rw [insertMatch] at h
    split at h
    · rcases List.mem_cons.1 h with rfl | h
      · exact Or.inr (List.mem_cons_self ..)
      · exact (ih h).imp_right (List.mem_cons_of_mem _)
    · exact (List.mem_cons.1 h)

theorem mem_foldl_insertMatch {a : EditMatch} {ms sorted : List EditMatch}
    (h : a ∈ ms.foldl (fun sorted m => insertMatch m sorted) sorted) : a ∈ sorted ∨ a ∈ ms := by
  induction ms generalizing sorted with
  | nil => exact Or.inl h
  | cons m ms ih =>
    rcases ih h with h | h
    · rcases mem_insertMatch h with rfl | h
      · exact Or.inr (List.mem_cons_self ..)
      · exact Or.inl h
    · exact Or.inr (List.mem_cons_of_mem _ h)

theorem mem_sortMatches {a : EditMatch} {ms : List EditMatch} (h : a ∈ sortMatches ms) :
    a ∈ ms :=
  (mem_foldl_insertMatch h).resolve_left List.not_mem_nil

/-- Neighbours that do not overlap stand one behind the other. -/
theorem ordered_of_overlap? {n pos : Nat} {ms : List EditMatch} (new : EditMatch → List UInt8)
    (hover : overlap? ms = none) (hfirst : ∀ m ∈ ms.head?, pos ≤ m.index)
    (hend : ∀ m ∈ ms, m.index + m.length ≤ n) :
    Ordered n pos (ms.map fun m => (m.toSpan, new m)) := by
  induction ms generalizing pos with
  | nil => trivial
  | cons a ms ih =>
    refine ⟨hfirst a rfl, hend a (List.mem_cons_self ..), ih ?_ ?_ fun m hm =>
      hend m (List.mem_cons_of_mem _ hm)⟩
    · cases ms with
      | nil => rfl
      | cons b ms =>
        rw [overlap?] at hover
        split at hover
        · exact absurd hover (by simp)
        · exact hover
    · cases ms with
      | nil => exact fun m hm => absurd hm (by simp)
      | cons b ms =>
        rw [overlap?] at hover
        split at hover
        · exact absurd hover (by simp)
        next hapart =>
        intro m hm
        obtain rfl := Option.some.inj hm
        show a.index + a.length ≤ b.index
        omega

/-- Accepted places are matches, one behind the other. -/
theorem of_editMatches {path : String} {norm : List UInt8} {items : List EditItem}
    {ms : List EditMatch} (h : editMatches path norm items = .ok ms) :
    (∀ m ∈ ms, Matched norm items m) ∧
      ∀ new : EditMatch → List UInt8,
        Ordered norm.length 0 (ms.map fun m => (m.toSpan, new m)) := by
  rw [editMatches] at h
  split at h
  · exact absurd h (by simp)
  next found hfound =>
  split at h
  · exact absurd h (by simp)
  next hover =>
  obtain rfl := Except.ok.inj h
  have hmatched : ∀ m ∈ sortMatches found, Matched norm items m := by
    intro m hm
    obtain ⟨j, item, hitem, hidx, hplace⟩ := of_matchesFrom hfound m (mem_sortMatches hm)
    rw [Nat.zero_add] at hidx
    exact ⟨item, hidx ▸ hitem, hplace⟩
  refine ⟨hmatched, fun new => ordered_of_overlap? new hover (fun m _ => Nat.zero_le _) ?_⟩
  intro m hm
  obtain ⟨item, _, hlen, hplace⟩ := hmatched m hm
  rw [hlen]
  exact firstInfix_le hplace

/-! ## What should be written -/

/-- The ending of the lines of a file. -/
def lineEnding (crlf : Bool) : List UInt8 := if crlf then [13, 10] else [10]

section Preserve

variable (content : List UInt8) (items : List EditItem) (ms : List EditMatch)

/-- A file in pieces: the letters outside of the places, and the replacements with the line endings
of the file. -/
def editPieces : List (Letter ⊕ List UInt8) :=
  segments 0 (letters (fileText content)) (ms.map fun m =>
    (m.toSpan, editRestoreEndings (editDetectEnding (fileText content)) (newText items m)))

/-- The bytes of a file behind the text that C reads. -/
def fileRest : List UInt8 := (content.drop (bomLen content)).drop (fileText content).length

/-- What an edit should write: the bytes of the file with the places replaced. -/
def preserved : List UInt8 :=
  content.take (bomLen content) ++
    (assemble Letter.raw (editPieces content items ms) ++ fileRest content)

end Preserve

theorem take_append_fileText (content : List UInt8) :
    content.take (bomLen content) ++ (fileText content ++ fileRest content) = content := by
  have htext : fileText content ++ fileRest content = content.drop (bomLen content) :=
    List.prefix_iff_eq_append.1 (cString_isPrefix_self _)
  rw [htext, List.take_append_drop]

theorem zero_notMem_take_bomLen (content : List UInt8) : 0 ∉ content.take (bomLen content) := by
  rw [bomLen]
  split
  · next hmark =>
    have htake : content.take 3 = utf8Bom := (List.prefix_iff_eq_take.1 hmark).symm
    rw [htake]
    decide
  · simp

/-- A NUL of the file stands behind the text that C reads. -/
theorem zero_mem_fileRest {content : List UInt8} (h : 0 ∈ content) : 0 ∈ fileRest content := by
  rw [← take_append_fileText content, List.mem_append, List.mem_append] at h
  rcases h with hmark | htext | hrest
  · exact absurd hmark (zero_notMem_take_bomLen content)
  · exact absurd htext (noNul_cString _)
  · exact hrest

theorem fileRest_eq_nil {content : List UInt8} (h : 0 ∉ content) : fileRest content = [] := by
  have hdrop : 0 ∉ content.drop (bomLen content) := fun hzero => h (List.mem_of_mem_drop hzero)
  rw [fileRest, fileText, cString_of_notMem hdrop]
  exact List.drop_length

/-! ## What is written -/

/-- A letter comes back as it was just when it ends no line, or ends it as the file does. -/
theorem restoreByte_norm_eq_raw_iff (crlf : Bool) (t : Letter) :
    restoreByte crlf t.norm = t.raw ↔ (t.IsEnding → t.raw = lineEnding crlf) := by
  by_cases hend : t.norm = 10
  · have hrestore : restoreByte crlf t.norm = lineEnding crlf := by
      rw [restoreByte, lineEnding, hend]
      cases crlf <;> rfl
    rw [hrestore]
    exact ⟨fun h _ => h.symm, fun h => (h hend).symm⟩
  · have hraw : t.raw = [t.norm] := by
      cases t with
      | crlf => exact absurd rfl hend
      | byte b =>
        rw [Letter.norm] at hend ⊢
        split at hend
        · exact absurd rfl hend
        next hcr => rw [if_neg hcr, Letter.raw]
    have hrestore : restoreByte crlf t.norm = [t.norm] := if_neg fun h => hend h.2
    rw [hrestore, hraw]
    exact ⟨fun _ h => absurd h hend, fun _ => rfl⟩

/-- With two byte endings no letter gets shorter. -/
theorem length_raw_le (t : Letter) : t.raw.length ≤ (restoreByte true t.norm).length := by
  cases t with
  | crlf => exact Nat.le_refl _
  | byte b =>
    show 1 ≤ (restoreByte true (Letter.byte b).norm).length
    rw [restoreByte]
    split <;> simp

/-- With one byte endings no letter gets longer. -/
theorem length_restoreByte_le (t : Letter) : (restoreByte false t.norm).length ≤ t.raw.length := by
  show 1 ≤ t.raw.length
  cases t <;> simp [Letter.raw]

/-- The text that is written: the pieces of the file, each letter with the ending of the file. -/
theorem editedContent_eq {content : List UInt8} {items : List EditItem} {ms : List EditMatch}
    (hms : ∀ new : EditMatch → List UInt8,
      Ordered (editNormalizeLf (fileText content)).length 0 (ms.map fun m => (m.toSpan, new m))) :
    editedContent content items ms = content.take (bomLen content) ++
      assemble (fun t => restoreByte (editDetectEnding (fileText content)) t.norm)
        (editPieces content items ms) := by
  let crlf := editDetectEnding (fileText content)
  have hnorm := applyFromRight_eq (Nat.zero_le _) (hms (newText items))
  rw [List.take_zero, List.nil_append, List.drop_zero, editNormalizeLf_eq] at hnorm
  have hids : (ms.map fun m => (m.toSpan, newText items m)) =
      (ms.map fun m => (m.toSpan, newText items m)).map fun m => (m.1, id m.2) := by
    rw [List.map_map]
    rfl
  have hpieces : editPieces content items ms =
      (segments 0 (letters (fileText content)) (ms.map fun m => (m.toSpan, newText items m))).map
        (Sum.map id (·.flatMap (restoreByte crlf))) := by
    rw [← segments_map, List.map_id, List.map_map]
    rfl
  rw [editedContent, editNormalizeLf_eq]
  refine congrArg (content.take (bomLen content) ++ ·) ?_
  rw [editRestoreEndings, hnorm, hids, segments_map, assemble_map, flatMap_assemble, hpieces]
  refine congrArg (fun f => assemble f _) (funext fun t => ?_)
  show [t.norm].flatMap (restoreByte crlf) = restoreByte crlf t.norm
  rw [List.flatMap_cons, List.flatMap_nil, List.append_nil]

theorem zero_notMem_editNormalizeLf {text : List UInt8} (h : 0 ∉ text) :
    0 ∉ editNormalizeLf text := by
  intro hzero
  rw [editNormalizeLf_eq] at hzero
  obtain ⟨t, ht, hnorm⟩ := List.mem_map.1 hzero
  have hbyte : t = .byte 0 := by
    cases t with
    | crlf => exact absurd hnorm (by decide)
    | byte b =>
      rw [Letter.norm] at hnorm
      split at hnorm
      · exact absurd hnorm (by decide)
      · rw [hnorm]
  refine h ?_
  rw [← flatMap_raw_letters text]
  exact List.mem_flatMap.2 ⟨t, ht, hbyte ▸ List.mem_singleton.2 rfl⟩

theorem zero_notMem_newText (items : List EditItem) (m : EditMatch) : 0 ∉ newText items m := by
  rw [newText]
  split
  · next item _ => exact zero_notMem_editNormalizeLf item.newStr.noNul
  · exact List.not_mem_nil

/-- What is written never has a NUL. -/
theorem zero_notMem_editedContent (content : List UInt8) (items : List EditItem)
    (ms : List EditMatch) : 0 ∉ editedContent content items ms := by
  intro hzero
  rw [editedContent] at hzero
  rcases List.mem_append.1 hzero with hmark | htext
  · exact zero_notMem_take_bomLen content hmark
  obtain ⟨b, hb, hrestore⟩ := List.mem_flatMap.1 htext
  have hb0 : b = 0 := by
    rw [restoreByte] at hrestore
    split at hrestore
    · exact absurd hrestore (by decide)
    · exact (List.mem_singleton.1 hrestore).symm
  rw [hb0] at hb
  rcases mem_applyFromRight hb with hkept | ⟨m, hm, hnew⟩
  · exact zero_notMem_editNormalizeLf (noNul_cString _) hkept
  · obtain ⟨place, _, rfl⟩ := List.mem_map.1 hm
    exact zero_notMem_newText items place hnew

/-- The letters that are kept come back as they were just when they end lines as the file does. -/
theorem assemble_restoreByte_eq_iff (crlf : Bool) (segs : List (Letter ⊕ List UInt8)) :
    assemble (fun t => restoreByte crlf t.norm) segs = assemble Letter.raw segs ↔
      ∀ t ∈ keptOf segs, t.IsEnding → t.raw = lineEnding crlf := by
  have heach : assemble (fun t => restoreByte crlf t.norm) segs = assemble Letter.raw segs ↔
      ∀ t ∈ keptOf segs, restoreByte crlf t.norm = t.raw := by
    cases crlf with
    | false => exact assemble_eq_iff_of_length_le fun t _ => length_restoreByte_le t
    | true =>
      rw [eq_comm, assemble_eq_iff_of_length_le fun t _ => length_raw_le t]
      exact forall₂_congr fun t _ => eq_comm
  rw [heach]
  exact forall₂_congr fun t _ => restoreByte_norm_eq_raw_iff crlf t

/-- For places one behind the other: the file is kept outside of them just when it has no NUL and
its lines outside of them end alike. -/
theorem editedContent_eq_preserved_iff {content : List UInt8} {items : List EditItem}
    {ms : List EditMatch} (hms : ∀ new : EditMatch → List UInt8,
      Ordered (editNormalizeLf (fileText content)).length 0 (ms.map fun m => (m.toSpan, new m))) :
    editedContent content items ms = preserved content items ms ↔
      0 ∉ content ∧ ∀ t ∈ keptOf (editPieces content items ms),
        t.IsEnding → t.raw = lineEnding (editDetectEnding (fileText content)) := by
  rw [← assemble_restoreByte_eq_iff]
  by_cases hzero : 0 ∈ content
  · have hpreserved : 0 ∈ preserved content items ms :=
      List.mem_append_right _ (List.mem_append_right _ (zero_mem_fileRest hzero))
    have hwritten := zero_notMem_editedContent content items ms
    exact iff_of_false (fun h => hwritten (h ▸ hpreserved)) fun h => h.1 hzero
  · rw [preserved, fileRest_eq_nil hzero, List.append_nil, editedContent_eq hms,
      List.append_cancel_left_eq]
    exact (and_iff_right hzero).symm

/-! ## Accepted edits -/

theorem of_editContent {maxFileSize : Nat} {path : String} {content : List UInt8}
    {items : List EditItem} {written : List UInt8}
    (h : editContent maxFileSize path content items = .ok written) :
    ∃ ms, editMatches path (editNormalizeLf (fileText content)) items = .ok ms ∧
      written = editedContent content items ms := by
  rw [editContent] at h
  split at h
  · exact absurd h (by simp)
  split at h
  · exact absurd h (by simp)
  split at h
  · exact absurd h (by simp)
  split at h
  · exact absurd h (by simp)
  next ms hms =>
  dsimp only at h
  split at h
  · exact absurd h (by simp)
  · exact ⟨ms, hms, (Except.ok.inj h).symm⟩

/-- An accepted edit writes the file with only the matched texts replaced just when the file has no
NUL and every line ending outside of the matches is the one that the first newline decides. -/
theorem written_eq_preserved_iff {maxFileSize : Nat} {path : String} {content : List UInt8}
    {items : List EditItem} {written : List UInt8}
    (h : editContent maxFileSize path content items = .ok written) :
    ∃ ms, editMatches path (editNormalizeLf (fileText content)) items = .ok ms ∧
      (∀ m ∈ ms, Matched (editNormalizeLf (fileText content)) items m) ∧
      (written = preserved content items ms ↔
        0 ∉ content ∧ ∀ t ∈ keptOf (editPieces content items ms),
          t.IsEnding → t.raw = lineEnding (editDetectEnding (fileText content))) := by
  obtain ⟨ms, hms, rfl⟩ := of_editContent h
  obtain ⟨hmatched, hordered⟩ := of_editMatches hms
  exact ⟨ms, hms, hmatched, editedContent_eq_preserved_iff hordered⟩

/-- Changing one letter. -/
def letterEdit (old new : UInt8) (h : old ≠ 0 ∧ new ≠ 0) : EditItem where
  oldStr := ⟨[old], by simpa using h.1.symm⟩
  newStr := ⟨[new], by simpa using h.2.symm⟩

/-- A change in a file whose lines end alike. -/
theorem written_eq_preserved_oneLine :
    ∃ ms, editMatches "f" (editNormalizeLf (fileText [97, 13, 10])) [letterEdit 97 98 (by decide)] =
        .ok ms ∧
      (∀ m ∈ ms, Matched (editNormalizeLf (fileText [97, 13, 10]))
        [letterEdit 97 98 (by decide)] m) ∧
      ([98, 13, 10] = preserved [97, 13, 10] [letterEdit 97 98 (by decide)] ms ↔
        0 ∉ ([97, 13, 10] : List UInt8) ∧
          ∀ t ∈ keptOf (editPieces [97, 13, 10] [letterEdit 97 98 (by decide)] ms),
            t.IsEnding → t.raw = lineEnding (editDetectEnding (fileText [97, 13, 10]))) :=
  @written_eq_preserved_iff 100 _ _ _ _ (by decide)

/-- In a file with both kinds of endings a change at the front changes an ending further behind. -/
theorem not_written_eq_preserved_mixed :
    ¬∀ (maxFileSize : Nat) (path : String) (content : List UInt8) (items : List EditItem)
      (written : List UInt8), editContent maxFileSize path content items = .ok written →
        ∃ ms, editMatches path (editNormalizeLf (fileText content)) items = .ok ms ∧
          written = preserved content items ms := by
  intro hall
  obtain ⟨ms, hms, hwritten⟩ := hall 100 "f" [97, 13, 10, 99, 10] [letterEdit 97 98 (by decide)]
    [98, 13, 10, 99, 13, 10] (by decide)
  have hplace : ms = [{ index := 0, length := 1, editIdx := 0 }] :=
    Except.ok.inj (hms.symm.trans rfl)
  rw [hplace] at hwritten
  exact absurd hwritten (by decide)

end EchoAi
