import EchoAi.Tools.GrepLines
import EchoAi.Tools.ReadFile

/-!
# Searching a directory

The tool searches the files of a directory and of those below it, and reports the lines that contain
a pattern.

* `Found`, `searchLines`, `searchFile`: the hits of a file, as long as the buffer has place.
* `Listing`, `searchDir`, `grepExecute`: the directories, with a budget of files.
* `filesOf`, `searchDir_eq`: a file is read unless the directories above it have too many files in
  front of it.
* `Lists`, `lists_iff`: exactly the lines with the pattern are listed just when the hits are read
  whole and the files that are read are few enough.

Files and names have no NUL.  A number of a line that does not fit into an `int` leaves no result.
-/

namespace EchoAi.Grep

open ReadFile (ToolError)

/-! ## The buffer -/

/-- The size of `buffer`. -/
def bufferSize : Nat := 32768

/-- `marker` -/
def marker : List UInt8 := ascii "... (truncated)"

/-- `"%s:%d:%s\n"` -/
def Hit.text (h : Hit) : List UInt8 :=
  h.path ++ ascii (":" ++ toString h.number ++ ":") ++ h.line ++ [10]

/-- The text of some hits. -/
def textOf (hits : List Hit) : List UInt8 := hits.flatMap Hit.text

/-- What a search has found: the files that were opened, the lines that were printed, also the last
one that is cut, and the text in the buffer. -/
structure Found where
  scanned : List (List UInt8 × List UInt8)
  printed : List Hit
  buffer : List UInt8
  pos : Nat

/-- Nothing is found. -/
def Found.start : Found where
  scanned := []
  printed := []
  buffer := []
  pos := 0

/-- A hit is printed; `false` when the file is left. -/
def Found.print (out : Found) (hit : Hit) : Bool × Found :=
  if bufferSize ≤ out.pos then (false, out)
  else if bufferSize - out.pos ≤ hit.text.length then
    (false, { out with
      printed := out.printed ++ [hit]
      buffer := (out.buffer ++ hit.text).take (bufferSize - marker.length - 1) ++ marker
      pos := bufferSize })
  else
    (true, { out with
      printed := out.printed ++ [hit]
      buffer := out.buffer ++ hit.text
      pos := out.pos + hit.text.length })

/-- The loop of `search_file`, behind `n` lines. -/
def searchLines (path pattern : List UInt8) (n : Nat) : List (List UInt8) → Found → Option Found
  | [], out => some out
  | line :: lines, out =>
    -- `line_num++` on the largest `int`
    if n + 1 = 2 ^ 31 then none
    else if pattern <:+: line then
      match out.print ⟨path, n + 1, line⟩ with
      | (true, out) => searchLines path pattern (n + 1) lines out
      | (false, out) => some out
    else searchLines path pattern (n + 1) lines out

/-- `search_file` -/
def searchFile (pattern path content : List UInt8) (out : Found) : Option Found :=
  searchLines path pattern 0 (pieces content)
    { out with scanned := out.scanned ++ [(path, content)] }

/-! ## Directories -/

/-- What `readdir` yields: files with their bytes, directories, and what is neither. -/
inductive Listing where
  | nil
  | file (name content : List UInt8) (rest : Listing)
  | dir (name : List UInt8) (entries rest : Listing)
  | other (name : List UInt8) (rest : Listing)

/-- The policy and the file system. -/
structure GrepWorld where
  /-- `safety_check_path` -/
  allowed : List UInt8 → Bool
  /-- `safety_resolve_path_alloc` -/
  resolve : List UInt8 → Option (List UInt8)
  /-- `safety_path_is_within_workspace` -/
  within : List UInt8 → Bool
  /-- `opendir` -/
  opendir : List UInt8 → Option Listing

/-- `full_path` -/
def fullPath (dir name : List UInt8) : List UInt8 := dir ++ 47 :: name

/-- Whether an entry is passed over. -/
def skips (w : GrepWorld) (dir name : List UInt8) : Bool :=
  name.head? == some 46 || decide (4096 ≤ (fullPath dir name).length) || !w.within (fullPath dir name)

/-- `binary_exts` -/
def binaryExts : List (List UInt8) :=
  [".o", ".so", ".a", ".dylib", ".exe", ".bin", ".jpg", ".png", ".gif", ".zip", ".tar", ".gz"].map ascii

/-- Whether the name ends in the extension of a binary file. -/
def isBinary (name : List UInt8) : Bool :=
  decide (46 ∈ name) && binaryExts.contains (46 :: name.rtakeWhile (· ≠ 46))

/-- `search_dir`, with the number of files that were scanned in the directory. -/
def searchDir (w : GrepWorld) (pattern dir : List UInt8) (maxFiles filesScanned : Nat) :
    Listing → Found → Option Found
  | .nil, out => some out
  | .other _ rest, out =>
    if maxFiles ≤ filesScanned then some out
    else searchDir w pattern dir maxFiles filesScanned rest out
  | .dir name entries rest, out =>
    if maxFiles ≤ filesScanned then some out
    else if skips w dir name then searchDir w pattern dir maxFiles filesScanned rest out
    else
      (searchDir w pattern (fullPath dir name) (maxFiles - filesScanned) 0 entries out).bind
        (searchDir w pattern dir maxFiles filesScanned rest)
  | .file name content rest, out =>
    if maxFiles ≤ filesScanned then some out
    else if skips w dir name || isBinary name then
      searchDir w pattern dir maxFiles filesScanned rest out
    else
      (searchFile pattern (fullPath dir name) content out).bind
        (searchDir w pattern dir maxFiles (filesScanned + 1) rest)

/-- The budget of files. -/
def fileBudget : Nat := 100

/-- The arguments that are strings. -/
structure GrepArgs where
  pattern : Option (List UInt8)
  path : Option (List UInt8)

/-- `grep_execute` -/
def grepExecute (w : GrepWorld) (args : Option GrepArgs) : Option (Except ToolError Found) :=
  match args with
  | none => some (.error ⟨"invalid arguments JSON", "validation_error"⟩)
  | some args =>
    match args.pattern with
    | none => some (.error ⟨"missing 'pattern' argument", "validation_error"⟩)
    | some pattern =>
      let searchPath := args.path.getD (ascii ".")
      if w.allowed searchPath then
        match w.resolve searchPath with
        | none => some (.error ⟨"path resolution failed", "validation_error"⟩)
        | some resolved =>
          match w.opendir resolved with
          | none => some (.ok .start)
          | some listing =>
            (searchDir w pattern resolved fileBudget 0 listing .start).map .ok
      else some (.error ⟨"path rejected by safety check", "validation_error"⟩)

/-- The content of the result. -/
def Found.content (out : Found) : List UInt8 :=
  if out.buffer = [] then ascii "(no matches)" else out.buffer

/-! ## The files that are read -/

/-- A file with its path, and the number of files in front of it in the directories of its path. -/
structure FileAt where
  path : List UInt8
  content : List UInt8
  before : Nat

/-- The files of a directory and of those below it that are not passed over. -/
def filesOf (w : GrepWorld) (dir : List UInt8) (before : Nat) : Listing → List FileAt
  | .nil => []
  | .other _ rest => filesOf w dir before rest
  | .dir name entries rest =>
    (if skips w dir name then [] else filesOf w (fullPath dir name) before entries) ++
      filesOf w dir before rest
  | .file name content rest =>
    if skips w dir name || isBinary name then filesOf w dir before rest
    else ⟨fullPath dir name, content, before⟩ :: filesOf w dir (before + 1) rest

/-- The files within the budget. -/
def filesRead (w : GrepWorld) (dir : List UInt8) (listing : Listing) : List FileAt :=
  (filesOf w dir 0 listing).filter fun f => f.before < fileBudget

section Directories

variable {w : GrepWorld} {pattern : List UInt8}

theorem le_before_of_mem {dir : List UInt8} {before : Nat} {l : Listing} {f : FileAt}
    (h : f ∈ filesOf w dir before l) : before ≤ f.before := by
  induction l generalizing dir before with
  | nil => exact absurd h List.not_mem_nil
  | other name rest ih => exact ih h
  | dir name entries rest ihEntries ihRest =>
    rw [filesOf, List.mem_append] at h
    rcases h with h | h
    · split at h
      · exact absurd h List.not_mem_nil
      · exact ihEntries h
    · exact ihRest h
  | file name content rest ih =>
    rw [filesOf] at h
    split at h
    · exact ih h
    · rcases List.mem_cons.1 h with rfl | h
      · exact Nat.le_refl before
      · exact Nat.le_of_succ_le (ih h)

/-- Behind as many files as the budget has, nothing is read. -/
theorem filter_filesOf_eq_nil {dir : List UInt8} {before n : Nat} (h : n ≤ before) (l : Listing) :
    ((filesOf w dir before l).filter fun f => decide (f.before < n)) = [] := by
  refine List.filter_eq_nil_iff.2 fun f hf => ?_
  have hle := le_before_of_mem hf
  rw [decide_eq_true_eq]
  omega

/-- **A directory is searched** by the files that the budget reaches, one after the other. -/
theorem searchDir_eq (dir : List UInt8) (maxFiles filesScanned above : Nat) (l : Listing)
    (out : Found) :
    searchDir w pattern dir maxFiles filesScanned l out =
      ((filesOf w dir (filesScanned + above) l).filter fun f => decide (f.before < maxFiles + above)).foldlM
        (fun out f => searchFile pattern f.path f.content out) out := by
  induction l generalizing dir maxFiles filesScanned above out with
  | nil => rfl
  | other name rest ih =>
    rw [searchDir, filesOf]
    split
    · next hfull =>
      rw [filter_filesOf_eq_nil (by omega)]
      rfl
    · exact ih dir maxFiles filesScanned above out
  | dir name entries rest ihEntries ihRest =>
    rw [searchDir]
    split
    · next hfull =>
      rw [filter_filesOf_eq_nil (by omega)]
      rfl
    rw [filesOf]
    split
    · rw [List.nil_append]
      exact ihRest dir maxFiles filesScanned above out
    · -- the budget of the directory is what is left of the one around it
      have hbudget : maxFiles - filesScanned + (filesScanned + above) = maxFiles + above := by omega
      have hentries := ihEntries (fullPath dir name) (maxFiles - filesScanned) 0 (filesScanned + above) out
      rw [Nat.zero_add, hbudget] at hentries
      rw [List.filter_append, List.foldlM_append, hentries]
      exact congrArg _ (funext fun out => ihRest dir maxFiles filesScanned above out)
  | file name content rest ih =>
    rw [searchDir]
    split
    · next hfull =>
      rw [filter_filesOf_eq_nil (by omega)]
      rfl
    rw [filesOf]
    split
    · exact ih dir maxFiles filesScanned above out
    · next hfull _ =>
      have hin : filesScanned + above < maxFiles + above := by omega
      rw [List.filter_cons_of_pos (by simpa using hin), List.foldlM_cons]
      refine congrArg _ (funext fun out => ?_)
      rw [ih dir maxFiles (filesScanned + 1) above out, Nat.add_right_comm]

end Directories

/-! ## What is printed -/

/-- The hits of the pieces of a file. -/
def pieceHits (pattern : List UInt8) (f : FileAt) : List Hit :=
  hitsFrom f.path pattern 1 (pieces f.content)

/-- The lines of a file that contain the pattern. -/
def lineHits (pattern : List UInt8) (f : FileAt) : List Hit :=
  hitsFrom f.path pattern 1 (textLines f.content)

/-- The buffer has the text of all hits, or it is full. -/
inductive Prints (out : Found) (hits : List Hit) : Prop where
  | all : out.pos < bufferSize → out.printed = hits → out.buffer = textOf hits →
      out.pos = (textOf hits).length → Prints out hits
  | full : bufferSize ≤ out.pos → out.printed <+: hits → bufferSize ≤ (textOf out.printed).length →
      Prints out hits

section Printing

variable {out out' : Found} {hits more : List Hit} {path pattern : List UInt8}

theorem textOf_append (xs ys : List Hit) : textOf (xs ++ ys) = textOf xs ++ textOf ys :=
  List.flatMap_append

theorem textOf_singleton (hit : Hit) : textOf [hit] = hit.text := List.flatMap_singleton _ _

theorem Prints.more_of_full (h : Prints out hits) (hfull : bufferSize ≤ out.pos) (more : List Hit) :
    Prints out (hits ++ more) := by
  cases h with
  | all hpos => exact absurd hpos (Nat.not_lt.2 hfull)
  | full _ hpre htext => exact .full hfull (hpre.trans (List.prefix_append hits more)) htext

/-- A hit is printed, or the buffer is full. -/
theorem Prints.print (h : Prints out hits) (hit : Hit) :
    Prints (out.print hit).2 (hits ++ [hit]) ∧
      ((out.print hit).1 = true → out.pos < bufferSize ∧ (out.print hit).2.pos < bufferSize) ∧
      ((out.print hit).1 = false → bufferSize ≤ (out.print hit).2.pos) := by
  rw [Found.print]
  split
  · next hfull => exact ⟨h.more_of_full hfull [hit], nofun, fun _ => hfull⟩
  next hroom =>
    cases h with
    | full hfull => exact absurd hfull hroom
    | all hpos hprinted hbuffer hlength =>
      split
      · next hcut =>
        refine ⟨.full (Nat.le_refl _) ?_ ?_, nofun, fun _ => Nat.le_refl _⟩
        · rw [hprinted]
        · show bufferSize ≤ (textOf (out.printed ++ [hit])).length
          rw [textOf_append, hprinted, List.length_append, ← hlength]
          rw [textOf_singleton]
          omega
      · next hfits =>
        refine ⟨.all ?_ ?_ ?_ ?_, fun _ => ⟨hpos, ?_⟩, nofun⟩
        · show out.pos + hit.text.length < bufferSize
          omega
        · rw [hprinted]
        · rw [textOf_append, hbuffer, textOf_singleton]
        · rw [textOf_append, List.length_append, hlength, textOf_singleton]
        · show out.pos + hit.text.length < bufferSize
          omega

theorem scanned_print (out : Found) (hit : Hit) : (out.print hit).2.scanned = out.scanned := by
  rw [Found.print]
  split
  · rfl
  · split <;> rfl

/-- The lines of a file are printed, as long as their numbers are. -/
theorem Prints.searchLines (h : Prints out hits) {n : Nat} (hn : n < 2 ^ 31) {lines : List (List UInt8)}
    (hsearch : searchLines path pattern n lines out = some out') :
    Prints out' (hits ++ hitsFrom path pattern (n + 1) lines) ∧ out'.scanned = out.scanned ∧
      (out'.pos < bufferSize → out.pos < bufferSize ∧ n + lines.length < 2 ^ 31) := by
  induction lines generalizing n out hits with
  | nil =>
    obtain rfl := Option.some.inj hsearch
    rw [hitsFrom, List.append_nil]
    exact ⟨h, rfl, fun hpos => ⟨hpos, hn⟩⟩
  | cons line lines ih =>
    rw [Grep.searchLines] at hsearch
    split at hsearch
    · exact absurd hsearch (by simp)
    next hnumber =>
      rw [hitsFrom]
      have hn' : n + 1 < 2 ^ 31 := by omega
      split at hsearch
      · next hmatch =>
        obtain ⟨hprints, hmore, hfull⟩ := h.print ⟨path, n + 1, line⟩
        have hscanned := scanned_print out ⟨path, n + 1, line⟩
        rw [if_pos hmatch, List.append_cons]
        cases hprint : out.print ⟨path, n + 1, line⟩ with
        | mk more next =>
          rw [hprint] at hsearch hprints hmore hfull hscanned
          cases more with
          | false =>
            obtain rfl := Option.some.inj hsearch
            have hle := hfull rfl
            exact ⟨hprints.more_of_full hle _, hscanned, fun hpos => absurd hpos (Nat.not_lt.2 hle)⟩
          | true =>
            obtain ⟨hout, hsame, hroom⟩ := ih hprints hn' hsearch
            refine ⟨hout, hsame.trans hscanned, fun hpos => ⟨(hmore rfl).1, ?_⟩⟩
            have hlines := (hroom hpos).2
            rw [List.length_cons]
            omega
      · next hmatch =>
        rw [if_neg hmatch]
        obtain ⟨hout, hsame, hroom⟩ := ih h hn' hsearch
        refine ⟨hout, hsame, fun hpos => ⟨(hroom hpos).1, ?_⟩⟩
        have hlines := (hroom hpos).2
        rw [List.length_cons]
        omega

/-- Lines whose numbers fit are searched. -/
theorem exists_searchLines {n : Nat} {lines : List (List UInt8)} (h : n + lines.length < 2 ^ 31)
    (out : Found) : ∃ out', searchLines path pattern n lines out = some out' := by
  induction lines generalizing n out with
  | nil => exact ⟨out, rfl⟩
  | cons line lines ih =>
    rw [List.length_cons] at h
    rw [Grep.searchLines, if_neg (by omega)]
    split
    · cases out.print ⟨path, n + 1, line⟩ with
      | mk more next =>
        cases more with
        | false => exact ⟨next, rfl⟩
        | true => exact ih (by omega) next
    · exact ih (by omega) out

/-- The files are searched one after the other. -/
theorem Prints.searchFiles (h : Prints out hits) {files : List FileAt}
    (hsearch : files.foldlM (fun out f => searchFile pattern f.path f.content out) out = some out') :
    Prints out' (hits ++ files.flatMap (pieceHits pattern)) ∧
      out'.scanned = out.scanned ++ files.map (fun f => (f.path, f.content)) ∧
      (out'.pos < bufferSize → out.pos < bufferSize ∧
        ∀ f ∈ files, (pieces f.content).length < 2 ^ 31) := by
  induction files generalizing out hits with
  | nil =>
    obtain rfl := Option.some.inj hsearch
    rw [List.flatMap_nil, List.append_nil, List.map_nil, List.append_nil]
    exact ⟨h, rfl, fun hpos => ⟨hpos, fun f hf => absurd hf List.not_mem_nil⟩⟩
  | cons f files ih =>
    rw [List.foldlM_cons] at hsearch
    obtain ⟨next, hfile, hrest⟩ := Option.bind_eq_some_iff.1 hsearch
    have hopened : Prints { out with scanned := out.scanned ++ [(f.path, f.content)] } hits := by
      cases h with
      | all hpos hprinted hbuffer hlength => exact .all hpos hprinted hbuffer hlength
      | full hfull hpre htext => exact .full hfull hpre htext
    obtain ⟨hnext, hscanned, hroom⟩ := hopened.searchLines (by decide) hfile
    obtain ⟨hout, hscanned', hroom'⟩ := ih hnext hrest
    refine ⟨?_, ?_, fun hpos => ?_⟩
    · rw [List.flatMap_cons, ← List.append_assoc]
      exact hout
    · rw [hscanned', hscanned, List.map_cons, List.append_assoc, List.singleton_append]
    · obtain ⟨hnextPos, hfiles⟩ := hroom' hpos
      obtain ⟨houtPos, hlines⟩ := hroom hnextPos
      refine ⟨houtPos, fun g hg => ?_⟩
      rcases List.mem_cons.1 hg with rfl | hg
      · rwa [Nat.zero_add] at hlines
      · exact hfiles g hg

theorem exists_searchFiles {files : List FileAt} (h : ∀ f ∈ files, (pieces f.content).length < 2 ^ 31)
    (out : Found) :
    ∃ out', files.foldlM (fun out f => searchFile pattern f.path f.content out) out = some out' := by
  induction files generalizing out with
  | nil => exact ⟨out, rfl⟩
  | cons f files ih =>
    have hlines : 0 + (pieces f.content).length < 2 ^ 31 := by
      rw [Nat.zero_add]
      exact h f List.mem_cons_self
    obtain ⟨next, hnext⟩ := @exists_searchLines f.path pattern 0 _ hlines
      { out with scanned := out.scanned ++ [(f.path, f.content)] }
    obtain ⟨out', hout⟩ := ih (fun g hg => h g (List.mem_cons_of_mem _ hg)) next
    refine ⟨out', ?_⟩
    rw [List.foldlM_cons, searchFile, hnext]
    exact hout

end Printing

/-! ## Files are told apart by their paths -/

/-- The names of a directory. -/
def Listing.names : Listing → List (List UInt8)
  | .nil => []
  | .file name _ rest => name :: rest.names
  | .dir name _ rest => name :: rest.names
  | .other name rest => name :: rest.names

/-- Every name of a directory occurs once, and is no path. -/
def Listing.WellNamed : Listing → Prop
  | .nil => True
  | .file name _ rest => 47 ∉ name ∧ name ∉ rest.names ∧ rest.WellNamed
  | .dir name entries rest => 47 ∉ name ∧ name ∉ rest.names ∧ entries.WellNamed ∧ rest.WellNamed
  | .other name rest => 47 ∉ name ∧ name ∉ rest.names ∧ rest.WellNamed

section Paths

variable {w : GrepWorld}

/-- The path `path` leads into the directory's entry `name`. -/
def Into (dir name path : List UInt8) : Prop :=
  path = fullPath dir name ∨ ∃ below, path = fullPath (fullPath dir name) below

/-- What leads into a directory of the directory leads into the directory. -/
theorem Into.up {dir name below path : List UInt8} (h : Into (fullPath dir name) below path) :
    Into dir name path := by
  rcases h with hpath | ⟨deeper, hpath⟩
  · exact Or.inr ⟨below, hpath⟩
  · refine Or.inr ⟨below ++ 47 :: deeper, hpath.trans ?_⟩
    simp only [fullPath, List.append_assoc, List.cons_append]

theorem eq_of_into {dir name name' path : List UInt8} (hname : 47 ∉ name) (hname' : 47 ∉ name')
    (h : Into dir name path) (h' : Into dir name' path) : name = name' := by
  have hfirst {name : List UInt8} (hname : 47 ∉ name) (h : Into dir name path) :
      (path.drop (dir.length + 1)).takeWhile (· ≠ 47) = name := by
    have hall : ∀ b ∈ name, decide (b ≠ 47) = true :=
      fun b hb => decide_eq_true fun heq => hname (heq ▸ hb)
    have hdrop (back : List UInt8) : (dir ++ 47 :: (name ++ back)).drop (dir.length + 1) = name ++ back := by
      rw [List.append_cons, List.drop_left' (by rw [List.length_append, List.length_singleton])]
    rcases h with rfl | ⟨below, rfl⟩
    · have hback := hdrop []
      rw [List.append_nil] at hback
      rw [fullPath, hback, List.takeWhile_eq_self_iff.2 hall]
    · rw [fullPath, fullPath, List.append_assoc, List.cons_append, hdrop,
        List.takeWhile_append_of_pos hall, List.takeWhile_cons_of_neg (by decide), List.append_nil]
  exact (hfirst hname h).symm.trans (hfirst hname' h')

theorem exists_into {dir : List UInt8} {before : Nat} {l : Listing} (hl : l.WellNamed) {f : FileAt}
    (h : f ∈ filesOf w dir before l) :
    ∃ name ∈ l.names, 47 ∉ name ∧ Into dir name f.path := by
  induction l generalizing dir before with
  | nil => exact absurd h List.not_mem_nil
  | other name rest ih =>
    obtain ⟨name', hmem, hslash, hinto⟩ := ih hl.2.2 h
    exact ⟨name', List.mem_cons_of_mem _ hmem, hslash, hinto⟩
  | dir name entries rest ihEntries ihRest =>
    rw [filesOf, List.mem_append] at h
    rcases h with h | h
    · split at h
      · exact absurd h List.not_mem_nil
      · obtain ⟨below, -, -, hinto⟩ := ihEntries hl.2.2.1 h
        exact ⟨name, List.mem_cons_self, hl.1, hinto.up⟩
    · obtain ⟨name', hmem, hslash, hinto⟩ := ihRest hl.2.2.2 h
      exact ⟨name', List.mem_cons_of_mem _ hmem, hslash, hinto⟩
  | file name content rest ih =>
    rw [filesOf] at h
    have hrest (h : f ∈ filesOf w dir before rest ∨ f ∈ filesOf w dir (before + 1) rest) :
        ∃ name' ∈ name :: rest.names, 47 ∉ name' ∧ Into dir name' f.path := by
      rcases h with h | h <;>
      · obtain ⟨name', hmem, hslash, hinto⟩ := ih hl.2.2 h
        exact ⟨name', List.mem_cons_of_mem _ hmem, hslash, hinto⟩
    split at h
    · exact hrest (Or.inl h)
    · rcases List.mem_cons.1 h with rfl | h
      · exact ⟨name, List.mem_cons_self, hl.1, Or.inl rfl⟩
      · exact hrest (Or.inr h)

/-- **Two files** have two paths. -/
theorem nodup_paths {l : Listing} (hl : l.WellNamed) (dir : List UInt8) (before : Nat) :
    ((filesOf w dir before l).map FileAt.path).Nodup := by
  induction l generalizing dir before with
  | nil => exact List.nodup_nil
  | other name rest ih => exact ih hl.2.2 dir before
  | dir name entries rest ihEntries ihRest =>
    rw [filesOf, List.map_append]
    refine List.nodup_append.2 ⟨?_, ihRest hl.2.2.2 dir before, ?_⟩
    · split
      · exact List.nodup_nil
      · exact ihEntries hl.2.2.1 _ _
    · intro path hpath path' hpath' heq
      obtain ⟨f, hf, rfl⟩ := List.mem_map.1 hpath
      obtain ⟨g, hg, rfl⟩ := List.mem_map.1 hpath'
      split at hf
      · exact absurd hf List.not_mem_nil
      · obtain ⟨below, -, -, hinto⟩ := exists_into hl.2.2.1 hf
        have hname := hinto.up
        obtain ⟨name', hmem, hslash, hinto'⟩ := exists_into hl.2.2.2 hg
        rw [heq] at hname
        exact hl.2.1 (eq_of_into hl.1 hslash hname hinto' ▸ hmem)
  | file name content rest ih =>
    rw [filesOf]
    split
    · exact ih hl.2.2 dir before
    · rw [List.map_cons]
      refine List.nodup_cons.2 ⟨fun hmem => ?_, ih hl.2.2 dir (before + 1)⟩
      obtain ⟨f, hf, hpath⟩ := List.mem_map.1 hmem
      obtain ⟨name', hmem', hslash, hinto⟩ := exists_into hl.2.2 hf
      rw [hpath] at hinto
      exact hl.2.1 (eq_of_into hl.1 hslash (Or.inl rfl) hinto ▸ hmem')

/-- Hits of different files are told apart by their paths. -/
theorem eq_of_flatMap_eq {files : List FileAt} (hpaths : (files.map FileAt.path).Nodup)
    {xs ys : FileAt → List Hit} (hx : ∀ f, ∀ hit ∈ xs f, hit.path = f.path)
    (hy : ∀ f, ∀ hit ∈ ys f, hit.path = f.path) (h : files.flatMap xs = files.flatMap ys) :
    ∀ f ∈ files, xs f = ys f := by
  intro f hf
  have hone (zs : FileAt → List Hit) (hz : ∀ f, ∀ hit ∈ zs f, hit.path = f.path) :
      (files.flatMap zs).filter (fun hit => decide (hit.path = f.path)) = zs f := by
    clear h
    induction files with
    | nil => exact absurd hf List.not_mem_nil
    | cons g files ih =>
      rw [List.map_cons, List.nodup_cons] at hpaths
      rw [List.flatMap_cons, List.filter_append]
      rcases List.mem_cons.1 hf with rfl | hf
      · have hself : (zs f).filter (fun hit => decide (hit.path = f.path)) = zs f :=
          List.filter_eq_self.2 fun hit hhit => decide_eq_true (hz f hit hhit)
        have hnil : (files.flatMap zs).filter (fun hit => decide (hit.path = f.path)) = [] := by
          refine List.filter_eq_nil_iff.2 fun hit hhit => ?_
          obtain ⟨g, hg, hmem⟩ := List.mem_flatMap.1 hhit
          rw [hz g hit hmem, decide_eq_true_eq]
          exact fun heq => hpaths.1 (heq ▸ List.mem_map_of_mem hg)
        rw [hself, hnil, List.append_nil]
      · have hnil : (zs g).filter (fun hit => decide (hit.path = f.path)) = [] := by
          refine List.filter_eq_nil_iff.2 fun hit hhit => ?_
          rw [hz g hit hhit, decide_eq_true_eq]
          exact fun heq => hpaths.1 (heq ▸ List.mem_map_of_mem hf)
        rw [hnil, List.nil_append]
        exact ih hpaths.2 hf
  rw [← hone xs hx, ← hone ys hy, h]

end Paths

/-! ## Exactly the lines -/

/-- Exactly the lines of the scanned files that contain the pattern are listed, and the files are
few enough. -/
structure Lists (pattern : List UInt8) (out : Found) : Prop where
  printed : out.printed =
    out.scanned.flatMap fun f => hitsFrom f.1 pattern 1 (textLines f.2)
  content : out.content =
    if out.printed = [] then ascii "(no matches)" else textOf out.printed
  budget : out.scanned.length ≤ fileBudget

/-- A tool that searches the directory `resolved`. -/
structure Searches (w : GrepWorld) (path resolved : List UInt8) (listing : Listing) : Prop where
  allowed : w.allowed path = true
  resolve : w.resolve path = some resolved
  opendir : w.opendir resolved = some listing
  named : listing.WellNamed

section Tool

variable {w : GrepWorld} {pattern path resolved : List UInt8} {listing : Listing}

theorem grepExecute_eq (h : Searches w path resolved listing) :
    grepExecute w (some ⟨some pattern, some path⟩) =
      ((filesRead w resolved listing).foldlM (fun out f => searchFile pattern f.path f.content out)
        .start).map .ok := by
  have hsearch := @searchDir_eq w pattern resolved fileBudget 0 0 listing .start
  rw [Nat.zero_add, Nat.add_zero] at hsearch
  rw [grepExecute]
  simp only [Option.getD_some, h.allowed, if_true, h.resolve, h.opendir]
  rw [hsearch, filesRead]

theorem text_ne_nil (hit : Hit) : hit.text ≠ [] := by
  rw [Hit.text]
  exact List.append_ne_nil_of_right_ne_nil _ (List.cons_ne_nil 10 [])

theorem textOf_eq_nil_iff (hits : List Hit) : textOf hits = [] ↔ hits = [] := by
  rw [textOf, List.flatMap_eq_nil_iff]
  constructor
  · intro h
    cases hits with
    | nil => rfl
    | cons hit hits => exact absurd (h hit List.mem_cons_self) (text_ne_nil hit)
  · rintro rfl hit hhit
    exact absurd hhit List.not_mem_nil

/-- The files that are read, with the hits that they have. -/
theorem flatMap_scanned (files : List FileAt) :
    (files.map fun f => (f.path, f.content)).flatMap (fun f => hitsFrom f.1 pattern 1 (textLines f.2)) =
      files.flatMap (lineHits pattern) := List.flatMap_map _ _ _

/-- What a search leaves when its hits fill no buffer. -/
theorem exists_found (h : Searches w path resolved listing)
    (hroom : (textOf ((filesRead w resolved listing).flatMap (lineHits pattern))).length < bufferSize)
    {out : Found} (hrun : grepExecute w (some ⟨some pattern, some path⟩) = some (.ok out))
    (hlists : Lists pattern out) :
    (∀ f ∈ filesRead w resolved listing,
      pieceHits pattern f = lineHits pattern f ∧ (pieces f.content).length < 2 ^ 31) ∧
      (filesRead w resolved listing).length ≤ fileBudget := by
  rw [grepExecute_eq h] at hrun
  obtain ⟨out', hsearch, hout⟩ := Option.map_eq_some_iff.1 hrun
  obtain rfl := Except.ok.inj hout
  have hstart : Prints .start [] := .all (by decide) rfl rfl rfl
  obtain ⟨hprints, hscanned, hlines⟩ := hstart.searchFiles hsearch
  rw [List.nil_append] at hprints
  have hscanned' : out'.scanned = (filesRead w resolved listing).map fun f => (f.path, f.content) :=
    hscanned
  have hprinted := hlists.printed
  rw [hscanned', flatMap_scanned] at hprinted
  have hnodup : ((filesRead w resolved listing).map FileAt.path).Nodup :=
    (nodup_paths h.named resolved 0).sublist (List.filter_sublist.map _)
  cases hprints with
  | full _ _ htext =>
    rw [hprinted] at htext
    exact absurd hroom (Nat.not_lt.2 htext)
  | all hpos hall =>
    have heq := eq_of_flatMap_eq hnodup (fun f hit hhit => (le_number_of_mem hhit).2.1)
      (fun f hit hhit => (le_number_of_mem hhit).2.1) (hall.symm.trans hprinted)
    refine ⟨fun f hf => ⟨heq f hf, (hlines hpos).2 f hf⟩, ?_⟩
    have hbudget := hlists.budget
    rwa [hscanned', List.length_map] at hbudget

/-- **grep lists exactly the lines with the pattern** just when the hits of every file that is read
are read whole, the file is read in fewer pieces than an `int` counts, and at most `fileBudget`
files have fewer than that many files in front of them in the directories of their paths. -/
theorem lists_iff (h : Searches w path resolved listing)
    (hroom : (textOf ((filesRead w resolved listing).flatMap (lineHits pattern))).length < bufferSize) :
    (∃ out, grepExecute w (some ⟨some pattern, some path⟩) = some (.ok out) ∧ Lists pattern out) ↔
      (∀ f ∈ filesRead w resolved listing,
        ReadWhole pattern f.content ∧ (pieces f.content).length < 2 ^ 31) ∧
      (filesRead w resolved listing).length ≤ fileBudget := by
  constructor
  · rintro ⟨out, hrun, hlists⟩
    obtain ⟨hfiles, hbudget⟩ := exists_found h hroom hrun hlists
    exact ⟨fun f hf => ⟨(hits_eq_iff f.content).1 (hfiles f hf).1, (hfiles f hf).2⟩, hbudget⟩
  · rintro ⟨hfiles, hbudget⟩
    obtain ⟨out, hsearch⟩ := @exists_searchFiles pattern _ (fun f hf => (hfiles f hf).2) .start
    have hstart : Prints .start [] := .all (by decide) rfl rfl rfl
    obtain ⟨hprints, hscanned, -⟩ := hstart.searchFiles hsearch
    have hhits : (filesRead w resolved listing).flatMap (pieceHits pattern) =
        (filesRead w resolved listing).flatMap (lineHits pattern) :=
      List.flatMap_congr fun f hf => (hits_eq_iff f.content).2 (hfiles f hf).1
    have hscanned' : out.scanned = (filesRead w resolved listing).map fun f => (f.path, f.content) :=
      hscanned
    rw [List.nil_append, hhits] at hprints
    refine ⟨out, by rw [grepExecute_eq h, hsearch, Option.map_some], ?_⟩
    cases hprints with
    | full _ hpre htext =>
      have hle : (textOf out.printed).length ≤
          (textOf ((filesRead w resolved listing).flatMap (lineHits pattern))).length := by
        obtain ⟨back, hback⟩ := hpre
        rw [← hback, textOf_append, List.length_append]
        exact Nat.le_add_right _ _
      exact absurd hroom (Nat.not_lt.2 (htext.trans hle))
    | all hpos hprinted hbuffer hlength =>
      refine ⟨?_, ?_, ?_⟩
      · rw [hprinted, hscanned', flatMap_scanned]
      · rw [Found.content, hbuffer, ← hprinted]
        simp only [textOf_eq_nil_iff]
      · rw [hscanned', List.length_map]
        exact hbudget

end Tool

/-- A directory with one file. -/
def smallWorld (content : List UInt8) : GrepWorld where
  allowed _ := true
  resolve := some
  within _ := true
  opendir _ := some (.file [97] content .nil)

theorem searches_smallWorld (content : List UInt8) :
    Searches (smallWorld content) [46] [46] (.file [97] content .nil) where
  allowed := rfl
  resolve := rfl
  opendir := rfl
  named := ⟨by decide, List.not_mem_nil, trivial⟩

theorem filesRead_smallWorld (content : List UInt8) :
    filesRead (smallWorld content) [46] (.file [97] content .nil) = [⟨[46, 47, 97], content, 0⟩] := rfl

/-- One line in one file. -/
theorem lists_iff_one :
    (∃ out, grepExecute (smallWorld [98, 10]) (some ⟨some [98], some [46]⟩) = some (.ok out) ∧
      Lists [98] out) ↔
      (∀ f ∈ filesRead (smallWorld [98, 10]) [46] (.file [97] [98, 10] .nil),
        ReadWhole [98] f.content ∧ (pieces f.content).length < 2 ^ 31) ∧
      (filesRead (smallWorld [98, 10]) [46] (.file [97] [98, 10] .nil)).length ≤ fileBudget :=
  lists_iff (searches_smallWorld [98, 10]) (by decide +kernel)

/-- Behind a line that fills the buffer the numbers are wrong. -/
theorem not_lists_long : ¬∀ (w : GrepWorld) (pattern path resolved : List UInt8) (listing : Listing),
    Searches w path resolved listing →
    (textOf ((filesRead w resolved listing).flatMap (lineHits pattern))).length < bufferSize →
    ∃ out, grepExecute w (some ⟨some pattern, some path⟩) = some (.ok out) ∧ Lists pattern out := by
  intro h
  have hfirst : (10 : UInt8) ∉ List.replicate 4095 97 :=
    fun hmem => absurd (List.eq_of_mem_replicate hmem) (by decide)
  have hmatch : ¬[98] <:+: List.replicate 4095 (97 : UInt8) :=
    fun hinside => absurd (List.eq_of_mem_replicate (hinside.subset List.mem_cons_self)) (by decide)
  have hlines : textLines (List.replicate 4095 97 ++ [10, 98]) = [List.replicate 4095 97, [98]] := by
    rw [textLines_cut hfirst, textLines_last (by decide) (by decide)]
  have hroom : (textOf ((filesRead (smallWorld (List.replicate 4095 97 ++ [10, 98])) [46]
      (.file [97] (List.replicate 4095 97 ++ [10, 98]) .nil)).flatMap (lineHits [98]))).length <
        bufferSize := by
    rw [filesRead_smallWorld, List.flatMap_singleton, lineHits, hlines, hitsFrom, if_neg hmatch]
    decide +kernel
  have hsearches := searches_smallWorld (List.replicate 4095 97 ++ [10, 98])
  obtain ⟨out, hrun, hlists⟩ := h _ [98] _ _ _ hsearches hroom
  obtain ⟨hfiles, -⟩ := exists_found hsearches hroom hrun hlists
  rw [filesRead_smallWorld] at hfiles
  have hwhole := (hits_eq_iff _).1 (hfiles _ List.mem_cons_self).1
  have hshort := hwhole.behind [List.replicate 4095 97] [98] [] hlines List.infix_rfl _ List.mem_cons_self
  rw [List.length_replicate] at hshort
  exact absurd hshort (by decide)

end EchoAi.Grep
