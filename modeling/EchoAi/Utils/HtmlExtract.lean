import EchoAi.Ledger
import EchoAi.Utils.HtmlWriter

/-!
# The readable text of a page

A page is read once from its beginning to its end.  Blocks are frames: when one is closed it is scored,
and what it has written is taken back when the score is too low.  Behind the text of an anchor stands a
marker with the place of its link in a table.

* `TagId`, `tagLookup`: the tags.
* `scanAttrs`, `copyAttrVal`: the attributes of a tag.
* `Extract`: what is known so far; `emitText`, `frameClose`, `handleOpenTag`, `handleCloseTag`: what a
  part of the page does.
* `parse`: the whole page.

A page is a list of bytes.  The score of a frame is a floating point number; `low` says whether it is
below the threshold.  Allocations succeed, and the numbers of frames and bytes fit their types.
-/

namespace EchoAi.Html

/-! ## Tags -/

/-- The tags that open a frame. -/
inductive FrameTag where
  | article | section | main | div | p | ul | ol | li | dl | dt | dd | blockquote | pre
  | table | thead | tbody | tfoot | tr | td | th | figure | figcaption | details | summary | address
  | h1 | h2 | h3 | h4 | h5 | h6
  deriving DecidableEq, Repr

/-- `TagId`; the excluded tags apart from `script` and `style` are alike, and so are the tags that do
nothing. -/
inductive TagId where
  | frame (tag : FrameTag)
  | exclScript
  | exclStyle
  | excl
  | specialA
  | specialTitle
  | voidNl
  | unknown
  deriving DecidableEq, Repr

/-- `TAG_TABLE`, without the tags that do nothing. -/
def tagTable : List (String × TagId) :=
  [("a", .specialA), ("address", .frame .address),
    ("article", .frame .article),
    ("aside", .excl),
    ("blockquote", .frame .blockquote),
    ("br", .voidNl),
    ("dd", .frame .dd), ("details", .frame .details),
    ("div", .frame .div), ("dl", .frame .dl),
    ("dt", .frame .dt),
    ("figcaption", .frame .figcaption), ("figure", .frame .figure),
    ("footer", .excl), ("form", .excl),
    ("h1", .frame .h1), ("h2", .frame .h2),
    ("h3", .frame .h3), ("h4", .frame .h4),
    ("h5", .frame .h5), ("h6", .frame .h6),
    ("header", .excl),
    ("hr", .voidNl),
    ("iframe", .excl),
    ("li", .frame .li),
    ("main", .frame .main),
    ("nav", .excl),
    ("noscript", .excl), ("ol", .frame .ol),
    ("p", .frame .p), ("pre", .frame .pre),
    ("script", .exclScript), ("section", .frame .section),
    ("style", .exclStyle), ("summary", .frame .summary),
    ("svg", .excl), ("table", .frame .table),
    ("tbody", .frame .tbody), ("td", .frame .td),
    ("template", .excl), ("tfoot", .frame .tfoot),
    ("th", .frame .th), ("thead", .frame .thead),
    ("title", .specialTitle), ("tr", .frame .tr),
    ("ul", .frame .ul)]

/-- `tag_lookup` -/
def tagLookup (name : List UInt8) : TagId :=
  if name.length = 0 ∨ 32 ≤ name.length then .unknown
  else
    let buf := cString (name.map toLower)
    ((tagTable.find? fun entry => ascii entry.1 = buf).map Prod.snd).getD .unknown

/-- `is_header_tag` -/
def FrameTag.isHeader : FrameTag → Bool
  | .h1 | .h2 | .h3 | .h4 | .h5 | .h6 => true
  | _ => false

/-- `is_excluded_tag` -/
def TagId.isExcluded : TagId → Bool
  | .exclScript | .exclStyle | .excl => true
  | _ => false

/-- `NEG_PATTERNS` -/
def negPatterns : List String :=
  ["nav", "footer", "header", "sidebar", "ads", "comment", "promo", "advert", "social", "share"]

/-- `has_neg_pattern` -/
def hasNegPattern (s : List UInt8) : Bool :=
  negPatterns.any fun pattern => (firstInfix (ascii pattern) (s.map toLower)).isSome

/-! ## Attributes -/

/-- `find_tag_end`: where the tag ends whose bytes these are. -/
def findTagEnd (quote : Option UInt8) : List UInt8 → Option Nat
  | [] => none
  | c :: s =>
    match quote with
    | some q => (findTagEnd (if c = q then none else some q) s).map (· + 1)
    | none =>
      if c = 34 ∨ c = 39 then (findTagEnd (some c) s).map (· + 1)
      else if c = 62 then some 0
      else (findTagEnd none s).map (· + 1)

/-- The loop of `scan_attrs` over the attributes that have a value; each takes at least one of the
`fuel`. -/
def scanAttrsFrom : (fuel : Nat) → List UInt8 → List (List UInt8 × List UInt8)
  | 0, _ => []
  | fuel + 1, s =>
    let s := s.dropWhile fun c => isSpace c ∨ c = 47
    if s = [] then []
    else
      let inName := fun c => !isSpace c && c ≠ 61 && c ≠ 47
      let aname := s.takeWhile inName
      match (s.dropWhile inName).dropWhile isSpace with
      | 61 :: s =>
        let s := s.dropWhile isSpace
        match s with
        | quote :: s' =>
          if quote = 34 ∨ quote = 39 then
            (aname, s'.takeWhile (· ≠ quote)) ::
              scanAttrsFrom fuel ((s'.dropWhile (· ≠ quote)).drop 1)
          else
            (aname, s.takeWhile fun c => !isSpace c && c ≠ 47) ::
              scanAttrsFrom fuel (s.dropWhile fun c => !isSpace c && c ≠ 47)
        | [] => [(aname, [])]
      | s => scanAttrsFrom fuel s

/-- `scan_attrs`, behind the name of the tag. -/
def scanAttrs (s : List UInt8) : List (List UInt8 × List UInt8) :=
  scanAttrsFrom (s.length + 1) (s.dropWhile fun c => !isSpace c && c ≠ 47)

/-- `copy_attr_val` -/
def copyAttrVal (cap : Nat) (val : List UInt8) : List UInt8 := val.take (cap - 1)

/-- What `scan_attrs` leaves for an attribute: the last one of its name. -/
def attrOf (name : String) (cap : Nat) (s : List UInt8) : List UInt8 :=
  (((scanAttrs s).filter fun attr => sameIgnoringCase attr.1 (ascii name)).getLast?.map
    fun attr => copyAttrVal cap attr.2).getD []

/-- `MAX_HREF_LEN` -/
def maxHrefLen : Nat := 2048

/-- `MAX_ATTR_LEN` -/
def maxAttrLen : Nat := 256

/-- The link of an anchor. -/
def linkUrlOf (tag : List UInt8) : List UInt8 := attrOf "href" maxHrefLen tag

/-- Its whole `href`. -/
def hrefOf (tag : List UInt8) : List UInt8 :=
  (((scanAttrs tag).filter fun attr => sameIgnoringCase attr.1 (ascii "href")).getLast?.map
    Prod.snd).getD []

/-- The link is cut to the size of its buffer. -/
theorem linkUrlOf_eq (tag : List UInt8) : linkUrlOf tag = (hrefOf tag).take 2047 := by
  rw [linkUrlOf, attrOf, hrefOf]
  cases ((scanAttrs tag).filter fun attr => sameIgnoringCase attr.1 (ascii "href")).getLast? <;> rfl

/-- More fuel changes nothing for the attributes. -/
theorem scanAttrsFrom_succ {fuel : Nat} {s : List UInt8} (h : s.length < fuel) :
    scanAttrsFrom (fuel + 1) s = scanAttrsFrom fuel s := by
  induction fuel generalizing s with
  | zero => exact absurd h (Nat.not_lt_zero _)
  | succ fuel ih =>
    rw [scanAttrsFrom, scanAttrsFrom]
    have hle := length_dropWhile_le (fun c => decide (isSpace c = true ∨ c = 47)) s
    dsimp only
    generalize hs : s.dropWhile (fun c => decide (isSpace c = true ∨ c = 47)) = s' at hle
    split
    · rfl
    next hne =>
    have hname := length_dropWhile_le (fun c => !isSpace c && decide (c ≠ 61) && decide (c ≠ 47)) s'
    have hblank := length_dropWhile_le isSpace
      (s'.dropWhile fun c => !isSpace c && decide (c ≠ 61) && decide (c ≠ 47))
    split
    · next t ht =>
      rw [ht, List.length_cons] at hblank
      have hvalue := length_dropWhile_le isSpace t
      split
      · next quote t' ht' =>
        rw [ht', List.length_cons] at hvalue
        split
        · refine congrArg _ (ih ?_)
          have hquoted := length_dropWhile_le (fun c => decide (c ≠ quote)) t'
          rw [List.length_drop]
          omega
        · refine congrArg _ (ih ?_)
          have hplain := length_dropWhile_le (fun c => !isSpace c && decide (c ≠ 47)) (quote :: t')
          rw [List.length_cons] at hplain
          rw [ht']
          omega
      · rfl
    · next hequal =>
      refine ih ?_
      cases s' with
      | nil => exact absurd rfl hne
      | cons c rest =>
        have hc : isSpace c = false ∧ c ≠ 47 := by
          have hc := eq_false_of_dropWhile_eq_cons hs
          rw [decide_eq_false_iff_not, not_or] at hc
          exact ⟨Bool.eq_false_iff.2 hc.1, hc.2⟩
        by_cases heq : c = 61
        · -- the value of an attribute without a name
          subst heq
          exact (hequal rest rfl).elim
        · have hin : (!isSpace c && decide (c ≠ 61) && decide (c ≠ 47)) = true := by
            simp [hc, heq]
          have hdrop : (c :: rest).dropWhile
                (fun c => !isSpace c && decide (c ≠ 61) && decide (c ≠ 47)) =
              rest.dropWhile fun c => !isSpace c && decide (c ≠ 61) && decide (c ≠ 47) :=
            List.dropWhile_cons_of_pos hin
          have hrest := length_dropWhile_le
            (fun c => !isSpace c && decide (c ≠ 61) && decide (c ≠ 47)) rest
          rw [List.length_cons] at hle
          rw [hdrop] at hblank ⊢
          omega

/-! ## The extraction -/

/-- `Frame`; the root has no tag. -/
structure Frame where
  tagId : Option FrameTag := none
  startPos : Nat := 0
  endPos : Nat := 0
  textLen : Nat := 0
  linkTextLen : Nat := 0
  wordCount : Nat := 0
  outStart : Nat := 0
  linkAtOpen : Nat := 0
  classNeg : Bool := false
  isPre : Bool := false
  isHeader : Bool := false
  deriving DecidableEq, Repr

/-- `MAX_FRAME_DEPTH` -/
def maxFrameDepth : Nat := 64

/-- `MAX_LINKS` -/
def maxLinks : Nat := 20

/-- `MIN_CONTENT_WORDS` -/
def minContentWords : Nat := 4

/-- `Extract`.  `top` is the innermost frame and `below` are the others, the root last.  Nothing reads
`linkTag`, the text of the tag of the anchor, nor `cites`, the markers that are in the output. -/
structure Extract where
  w : Writer := {}
  top : Frame := {}
  below : List Frame := []
  skipDepth : Nat := 0
  rawTag : List UInt8 := []
  title : List UInt8 := []
  titleActive : Bool := false
  linkUrl : List UInt8 := []
  linkActive : Bool := false
  linkHasText : Bool := false
  links : List (List UInt8) := []
  linkTag : List UInt8 := []
  cites : List (Mark (List UInt8)) := []
  deriving DecidableEq, Repr

namespace Extract

/-- What `emit_text` does with a run of text. -/
def emitRun (x : Extract) (run : List UInt8) : Extract :=
  if run = [] then x
  else
    { x with
      w := emitTextRun x.w run x.top.isPre
      top := { x.top with
        textLen := x.top.textLen + run.length
        linkTextLen := if x.linkActive then x.top.linkTextLen + run.length else x.top.linkTextLen }
      linkHasText := x.linkHasText || x.linkActive && runHasNonws run }

/-- What `emit_text` does with a character reference, or with an ampersand that begins none. -/
def emitChar (x : Extract) (ebuf : List UInt8) : Extract :=
  { x with
    w := emitTextRun x.w ebuf x.top.isPre
    top := { x.top with
      textLen := x.top.textLen + 1
      linkTextLen := if x.linkActive then x.top.linkTextLen + 1 else x.top.linkTextLen }
    linkHasText := x.linkHasText || x.linkActive && runHasNonws ebuf }

/-- The loop of `emit_text`; each part takes at least one of the `fuel`. -/
def emitTextFrom : (fuel : Nat) → Extract → List UInt8 → Extract
  | 0, x, _ => x
  | fuel + 1, x, s =>
    let inRun := fun (c : UInt8) => c ≠ 38 && c ≠ 60
    let x := x.emitRun (s.takeWhile inRun)
    match s.dropWhile inRun with
    | [] => x
    | c :: rest =>
      if c = 38 then
        match decodeEntity (c :: rest) with
        | some (ebuf, consumed) => emitTextFrom fuel (x.emitChar ebuf) ((c :: rest).drop consumed)
        | none => emitTextFrom fuel (x.emitChar [38]) rest
      else emitTextFrom fuel x rest

/-- `emit_text` -/
def emitText (x : Extract) (s : List UInt8) : Extract :=
  if s = [] then x
  else if x.titleActive then { x with title := appendTitleText x.title s }
  else
    emitTextFrom (s.length + 1)
      { x with
        top := { x.top with wordCount := x.top.wordCount + countWords s }
        w := if x.top.isPre then writerPreflush x.w else x.w } s

/-- What `frame_close` adds to the frame around. -/
def addTo (f parent : Frame) : Frame :=
  { parent with
    textLen := parent.textLen + f.textLen
    linkTextLen := parent.linkTextLen + f.linkTextLen
    wordCount := parent.wordCount + f.wordCount }

/-- Whether `frame_close` takes back what a frame has written. -/
def dropsFrame (low : Frame → Bool) (f : Frame) : Bool :=
  low f || f.wordCount < (if f.isHeader then 0 else minContentWords)

/-- `frame_close` -/
def frameClose (low : Frame → Bool) (x : Extract) (pos : Nat) : Extract :=
  match x.below with
  | [] => x
  | parent :: below =>
    let f := { x.top with endPos := pos }
    let x := { x with top := addTo f parent, below }
    if dropsFrame low f then
      { x with
        w := writerTruncate x.w f.outStart
        links := x.links.take f.linkAtOpen
        cites := x.cites.filter fun m => m.stop ≤ f.outStart }
    else x

/-- The place of a URL in the table, when it is there. -/
def findLink (x : Extract) (url : List UInt8) : Option Nat :=
  x.links.findIdx? fun link => cString link = url

/-- Whether `link_resolve_index` refuses a URL. -/
def refusesLink (url : List UInt8) : Bool :=
  url.length = 0 || url.head? = some 35 || (ascii "javascript:").isPrefixOf url

/-- `link_resolve_index`: the place of a URL and the table, which it may have come to. -/
def linkResolveIndex (x : Extract) (url : List UInt8) : Option (Nat × List (List UInt8)) :=
  if refusesLink url then none
  else
    match x.findLink url with
    | some i => some (i, x.links)
    | none => if maxLinks ≤ x.links.length then none else some (x.links.length, x.links ++ [url])

/-- The marker of a link. -/
def marker (idx : Nat) : List UInt8 := 91 :: (ascii (toString (idx + 1)) ++ [93])

/-- What `handle_close_tag` does at the end of an anchor. -/
def closeAnchor (x : Extract) : Extract :=
  if x.linkActive then
    let x := { x with linkActive := false }
    if x.linkHasText then
      match x.linkResolveIndex x.linkUrl with
      | none => x
      | some (idx, links) =>
        let w := writerText x.w (32 :: marker idx)
        { x with
          w
          links
          cites := x.cites ++
            [{ start := w.out.length - (marker idx).length, stop := w.out.length, row := idx,
               tag := x.linkTag }] }
    else x
  else x

/-- The name of a tag; that of a closing tag may have a slash. -/
def tagName (s : List UInt8) (closing : Bool) : List UInt8 :=
  s.takeWhile fun c => !isSpace c && (closing || c ≠ 47) && c ≠ 62

/-- `handle_open_tag` on the text of a tag that ends at `tagEnd`. -/
def handleOpenTag (x : Extract) (s : List UInt8) (tagEnd : Nat) : Extract :=
  let name := tagName s false
  let tid := tagLookup name
  let selfClosing := s.getLast? = some 47
  if tid.isExcluded then
    { x with
      skipDepth := x.skipDepth + 1
      rawTag := if tid = .exclScript ∨ tid = .exclStyle then name else x.rawTag }
  else if tid = .specialTitle then
    if x.skipDepth = 0 then { x with titleActive := true } else x
  else if x.skipDepth > 0 then x
  else
    match tid with
    | .voidNl => { x with w := writerNewline x.w }
    | .specialA =>
      if selfClosing then x
      else { x with linkUrl := linkUrlOf s, linkActive := true, linkHasText := false, linkTag := s }
    | .frame tag =>
      if selfClosing ∨ maxFrameDepth ≤ x.below.length + 1 then x
      else
        { x with
          top :=
            { tagId := some tag
              startPos := tagEnd + 1
              outStart := x.w.out.length
              linkAtOpen := x.links.length
              isPre := tag = .pre
              isHeader := tag.isHeader
              classNeg := hasNegPattern (attrOf "class" maxAttrLen s) ||
                hasNegPattern (attrOf "id" maxAttrLen s) }
          below := x.top :: x.below
          w := writerNewline x.w }
    | _ => x

/-- `handle_close_tag` on the text of a tag behind its slash; it begins at `tagStart`. -/
def handleCloseTag (low : Frame → Bool) (x : Extract) (s : List UInt8) (tagStart : Nat) : Extract :=
  match tagLookup (tagName s true) with
  | .specialA => x.closeAnchor
  | .specialTitle => { x with titleActive := false }
  | .exclScript | .exclStyle | .excl => { x with skipDepth := x.skipDepth - 1 }
  | .frame tag =>
    match (x.top :: x.below).findIdx? fun f => f.tagId = some tag with
    | none => x
    | some inner => (fun x => x.frameClose low tagStart)^[inner + 1] x
  | _ => x

/-- How far a declaration goes: to the end of its `pat`, which is looked for behind `start` bytes. -/
def skipTo (rest pat : List UInt8) (start : Nat) : Nat :=
  match firstInfix pat (rest.drop start) with
  | some k => start + k + pat.length
  | none => rest.length

/-- One round of the loop of `parse`: what is read at `i` with `rest` ahead, and how many bytes that
takes. -/
def parseStep (low : Frame → Bool) (x : Extract) (i : Nat) (rest : List UInt8) : Extract × Nat :=
  if rest.head? = some 60 then
    if x.skipDepth > 0 ∧ x.rawTag ≠ [] then
      match firstInfix (60 :: 47 :: x.rawTag) rest with
      | none => ({ x with skipDepth := 0, rawTag := [] }, rest.length)
      | some k =>
        ({ x with skipDepth := x.skipDepth - 1, rawTag := [] },
          match findTagEnd none (rest.drop (k + 1)) with
          | none => rest.length
          | some e => k + 1 + e + 1)
    else if rest[1]? = some 33 then
      (x,
        if rest[2]? = some 45 ∧ rest[3]? = some 45 then skipTo rest (ascii "-->") 4
        else if 8 < rest.length ∧ (rest.drop 2).take 7 = ascii "[CDATA[" then
          skipTo rest (ascii "]]>") 9
        else skipTo rest (ascii ">") 2)
    else if rest[1]? = some 63 then (x, skipTo rest (ascii ">") 2)
    else
      match findTagEnd none (rest.drop 1) with
      | none => (if x.skipDepth = 0 then x.emitText [60] else x, 1)
      | some e =>
        let tag := (rest.drop 1).take e
        (if tag.head? = some 47 then x.handleCloseTag low (tag.drop 1) i
          else x.handleOpenTag tag (i + 1 + e), e + 2)
  else
    let run := rest.takeWhile (· ≠ 60)
    (if x.skipDepth = 0 then x.emitText run else x, run.length)

/-- The loop of `parse`. -/
def parseFrom (low : Frame → Bool) : (fuel : Nat) → Extract → (i : Nat) → List UInt8 → Extract
  | 0, x, _, _ => x
  | fuel + 1, x, i, rest =>
    if rest = [] then x
    else
      let (x, n) := x.parseStep low i rest
      parseFrom low fuel x (i + n) (rest.drop n)

/-- `parse` on a page. -/
def parse (low : Frame → Bool) (raw : List UInt8) : Extract :=
  let x := parseFrom low raw.length {} 0 raw
  (fun x => x.frameClose low raw.length)^[x.below.length] x

/-! ## The loops end by themselves -/

/-- More fuel changes nothing for a text. -/
theorem emitTextFrom_succ {fuel : Nat} {s : List UInt8} (h : s.length < fuel) (x : Extract) :
    emitTextFrom (fuel + 1) x s = emitTextFrom fuel x s := by
  induction fuel generalizing x s with
  | zero => exact absurd h (Nat.not_lt_zero _)
  | succ fuel ih =>
    rw [emitTextFrom, emitTextFrom]
    split
    · rfl
    next c rest hrest =>
    have hle := length_dropWhile_le (fun c : UInt8 => c ≠ 38 && c ≠ 60) s
    rw [hrest, List.length_cons] at hle
    split
    · split
      · next ebuf consumed hentity =>
        refine ih ?_ _
        have hpos := pos_of_decodeEntity hentity
        rw [List.length_drop, List.length_cons]
        omega
      · exact ih (by omega) _
    · exact ih (by omega) _

/-- Every round takes a part of the page. -/
theorem pos_parseStep (low : Frame → Bool) (x : Extract) (i : Nat) {rest : List UInt8}
    (h : rest ≠ []) : 0 < (x.parseStep low i rest).2 := by
  have hpos := List.length_pos_iff.2 h
  have hskip : ∀ pat start, 0 < start → 0 < skipTo rest pat start := by
    intro pat start hstart
    rw [skipTo]
    split
    · omega
    · exact hpos
  rw [parseStep]
  split
  · split
    · split
      · exact hpos
      · dsimp only
        split
        · exact hpos
        · omega
    split
    · dsimp only
      split
      · exact hskip _ 4 (by decide)
      split
      · exact hskip _ 9 (by decide)
      · exact hskip _ 2 (by decide)
    split
    · exact hskip _ 2 (by decide)
    split
    · exact Nat.zero_lt_one
    · exact Nat.succ_pos _
  · next hhead =>
    cases rest with
    | nil => exact absurd rfl h
    | cons c rest =>
      have hc : c ≠ 60 := fun hc => hhead (congrArg some hc)
      have htake : (c :: rest).takeWhile (· ≠ 60) = c :: rest.takeWhile (· ≠ 60) :=
        List.takeWhile_cons_of_pos (decide_eq_true hc)
      show 0 < ((c :: rest).takeWhile (· ≠ 60)).length
      rw [htake]
      exact Nat.succ_pos _

/-- More fuel changes nothing for a page. -/
theorem parseFrom_succ (low : Frame → Bool) {fuel : Nat} {rest : List UInt8} (h : rest.length ≤ fuel)
    (x : Extract) (i : Nat) : parseFrom low (fuel + 1) x i rest = parseFrom low fuel x i rest := by
  induction fuel generalizing x i rest with
  | zero =>
    obtain rfl := List.length_eq_zero_iff.1 (Nat.le_zero.1 h)
    rfl
  | succ fuel ih =>
    rw [parseFrom, parseFrom]
    split
    · rfl
    · next hne =>
      have hpos := pos_parseStep low x i hne
      generalize x.parseStep low i rest = next at hpos
      refine ih ?_ _ _
      rw [List.length_drop]
      omega

end Extract

end EchoAi.Html
