import EchoAi.Utils.HtmlExtract

/-!
# The citations of a page

The output of the extraction, its links, the markers in it and its open frames are a ledger, and what
the extraction does to them are steps of it.

* `Extract.ledger`: that ledger; `Goes`: from one state to another by its steps.
* `goes_emitText`, `goes_frameClose`, `goes_closeAnchor`, `goes_handleOpenTag`, `goes_handleCloseTag`:
  every part of the page.
* `goes_parse`: the whole page.
* `cited_parse`: every marker stands for the link of its anchor, and every link has a marker.
-/

namespace EchoAi.Html

namespace Extract

/-- The output with the links, the markers and the frames inside the root. -/
def ledger (x : Extract) : Ledger UInt8 (List UInt8) (List UInt8) where
  text := x.w.out
  table := x.links
  marks := x.cites
  frames := (x.top :: x.below).dropLast.map fun f => (f.outStart, f.linkAtOpen)

/-- Whether a link is that of an anchor with this tag, as C reads it. -/
def Fits (link tag : List UInt8) : Prop := cString link = cString (linkUrlOf tag)

/-- Whether the URL at hand is that of the anchor. -/
def Linked (x : Extract) : Prop := x.linkActive = true → x.linkUrl = linkUrlOf x.linkTag

/-- From one state to another by steps of the ledger, with more text of the title. -/
def Goes (x x' : Extract) : Prop :=
  Writes x.title x'.title ∧
    (x.Linked → x'.Linked ∧ Ledger.Steps Utf8 marker Fits x.ledger x'.ledger)

theorem Goes.refl (x : Extract) : Goes x x :=
  ⟨Writes.refl _, fun h => ⟨h, Relation.ReflTransGen.refl⟩⟩

theorem Goes.trans {x y z : Extract} (hxy : Goes x y) (hyz : Goes y z) : Goes x z := by
  refine ⟨hxy.1.trans hyz.1, fun h => ?_⟩
  obtain ⟨hy, hsteps⟩ := hxy.2 h
  obtain ⟨hz, hmore⟩ := hyz.2 hy
  exact ⟨hz, hsteps.trans hmore⟩

/-- What only writes. -/
structure Emits (x x' : Extract) : Prop where
  writes : Writes x.w.out x'.w.out
  title : Writes x.title x'.title
  links : x'.links = x.links
  cites : x'.cites = x.cites
  below : x'.below = x.below
  outStart : x'.top.outStart = x.top.outStart
  linkAtOpen : x'.top.linkAtOpen = x.top.linkAtOpen
  linkActive : x'.linkActive = true → x.linkActive = true
  linkUrl : x'.linkUrl = x.linkUrl
  linkTag : x'.linkTag = x.linkTag

theorem Emits.trans {x y z : Extract} (hxy : Emits x y) (hyz : Emits y z) : Emits x z where
  writes := hxy.writes.trans hyz.writes
  title := hxy.title.trans hyz.title
  links := hyz.links.trans hxy.links
  cites := hyz.cites.trans hxy.cites
  below := hyz.below.trans hxy.below
  outStart := hyz.outStart.trans hxy.outStart
  linkAtOpen := hyz.linkAtOpen.trans hxy.linkAtOpen
  linkActive h := hxy.linkActive (hyz.linkActive h)
  linkUrl := hyz.linkUrl.trans hxy.linkUrl
  linkTag := hyz.linkTag.trans hxy.linkTag

/-- What leaves the output as it is. -/
theorem Emits.of_eq {x x' : Extract} (hw : x'.w.out = x.w.out) (htitle : x'.title = x.title)
    (hlinks : x'.links = x.links)
    (hcites : x'.cites = x.cites) (htop : x'.top = x.top) (hbelow : x'.below = x.below)
    (hactive : x'.linkActive = x.linkActive) (hurl : x'.linkUrl = x.linkUrl)
    (htag : x'.linkTag = x.linkTag) : Emits x x' where
  writes := hw ▸ Writes.refl _
  title := htitle ▸ Writes.refl _
  links := hlinks
  cites := hcites
  below := hbelow
  outStart := congrArg Frame.outStart htop
  linkAtOpen := congrArg Frame.linkAtOpen htop
  linkActive h := hactive ▸ h
  linkUrl := hurl
  linkTag := htag

theorem Emits.goes {x x' : Extract} (h : Emits x x') : Goes x x' := by
  refine ⟨h.title, fun hlinked => ⟨fun hactive => ?_, ?_⟩⟩
  · rw [h.linkUrl, h.linkTag]
    exact hlinked (h.linkActive hactive)
  obtain ⟨piece, hpiece, hout⟩ := h.writes
  have hframes : x'.ledger.frames = x.ledger.frames := by
    show (x'.top :: x'.below).dropLast.map _ = (x.top :: x.below).dropLast.map _
    rw [h.below]
    cases x.below with
    | nil => rfl
    | cons parent below =>
      rw [List.dropLast_cons_cons, List.dropLast_cons_cons, List.map_cons, List.map_cons, h.outStart,
        h.linkAtOpen]
  have hledger : x'.ledger = { x.ledger with text := x.ledger.text ++ piece } := by
    rw [ledger, ledger, hout, h.links, h.cites]
    exact congrArg (Ledger.mk _ _ _) hframes
  rw [hledger]
  exact Relation.ReflTransGen.single (Ledger.Step.write hpiece)

/-! ## Text -/

theorem emits_emitRun (x : Extract) (run : List UInt8) : Emits x (x.emitRun run) := by
  rw [emitRun]
  split
  · exact Emits.of_eq rfl rfl rfl rfl rfl rfl rfl rfl rfl
  · exact ⟨writes_emitTextRun _ _ _, Writes.refl _, rfl, rfl, rfl, rfl, rfl, id, rfl, rfl⟩

theorem emits_emitChar (x : Extract) (ebuf : List UInt8) : Emits x (x.emitChar ebuf) :=
  ⟨writes_emitTextRun _ _ _, Writes.refl _, rfl, rfl, rfl, rfl, rfl, id, rfl, rfl⟩

theorem emits_emitTextFrom (fuel : Nat) (x : Extract) (s : List UInt8) :
    Emits x (emitTextFrom fuel x s) := by
  induction fuel generalizing x s with
  | zero => exact Emits.of_eq rfl rfl rfl rfl rfl rfl rfl rfl rfl
  | succ fuel ih =>
    rw [emitTextFrom]
    refine (emits_emitRun x (s.takeWhile fun c => c ≠ 38 && c ≠ 60)).trans ?_
    split
    · exact Emits.of_eq rfl rfl rfl rfl rfl rfl rfl rfl rfl
    split
    · split
      · exact (emits_emitChar _ _).trans (ih _ _)
      · exact (emits_emitChar _ _).trans (ih _ _)
    · exact ih _ _

theorem emits_emitText (x : Extract) (s : List UInt8) : Emits x (x.emitText s) := by
  rw [emitText]
  split
  · exact Emits.of_eq rfl rfl rfl rfl rfl rfl rfl rfl rfl
  split
  · exact ⟨Writes.refl _, writes_appendTitleText x.title s, rfl, rfl, rfl, rfl, rfl, id, rfl, rfl⟩
  · have hflush : Writes x.w.out (if x.top.isPre then writerPreflush x.w else x.w).out := by
      split
      · exact writes_writerPreflush x.w
      · exact Writes.refl _
    have hfirst : Emits x
        { x with
          top := { x.top with wordCount := x.top.wordCount + countWords s }
          w := if x.top.isPre then writerPreflush x.w else x.w } :=
      ⟨hflush, Writes.refl _, rfl, rfl, rfl, rfl, rfl, id, rfl, rfl⟩
    exact hfirst.trans (emits_emitTextFrom _ _ s)

/-! ## Frames -/

/-- The frames that are left when one is closed. -/
theorem frames_close {x : Extract} {parent : Frame} {below : List Frame}
    (h : x.below = parent :: below) (f : Frame) :
    x.ledger.frames = (x.top.outStart, x.top.linkAtOpen) ::
      (addTo f parent :: below).dropLast.map fun f => (f.outStart, f.linkAtOpen) := by
  show (x.top :: x.below).dropLast.map _ = _
  rw [h, List.dropLast_cons_cons, List.map_cons]
  cases below with
  | nil => rfl
  | cons next below => rfl

theorem goes_frameClose (low : Frame → Bool) (x : Extract) (pos : Nat) :
    Goes x (x.frameClose low pos) := by
  rw [frameClose]
  split
  · exact Goes.refl x
  next parent below hbelow =>
  have hframes := frames_close hbelow { x.top with endPos := pos }
  dsimp only
  split
  · exact ⟨Writes.refl _, fun hlinked =>
      ⟨hlinked, Relation.ReflTransGen.single (Ledger.Step.drop hframes)⟩⟩
  · exact ⟨Writes.refl _, fun hlinked =>
      ⟨hlinked, Relation.ReflTransGen.single (Ledger.Step.keep hframes)⟩⟩

theorem goes_iterate_frameClose (low : Frame → Bool) (n : Nat) (x : Extract) (pos : Nat) :
    Goes x ((fun x => x.frameClose low pos)^[n] x) := by
  induction n generalizing x with
  | zero => exact Goes.refl x
  | succ n ih => exact (goes_frameClose low x pos).trans (ih _)

/-! ## Anchors -/

theorem marker_ne_nil (idx : Nat) : marker idx ≠ [] := List.cons_ne_nil _ _

/-- The bytes of a marker are ASCII, and none of them is blank. -/
theorem of_mem_marker {idx : Nat} {c : UInt8} (h : c ∈ marker idx) :
    c < 0x80 ∧ isSpace c = false := by
  rcases List.mem_cons.1 h with rfl | h
  · exact ⟨by decide, rfl⟩
  rcases List.mem_append.1 h with h | h
  · have hdigit := digit_of_mem_ascii_toString h
    grind [isSpace]
  · rw [List.mem_singleton.1 h]
    exact ⟨by decide, rfl⟩

theorem utf8_marker (idx : Nat) : Utf8 (marker idx) :=
  utf8_of_ascii fun _ hc => (of_mem_marker hc).1

theorem exists_findLink {x : Extract} {url : List UInt8} {i : Nat} (h : x.findLink url = some i) :
    ∃ link, x.links[i]? = some link ∧ cString link = url := by
  obtain ⟨hlt, hlink, -⟩ := List.findIdx?_eq_some_iff_getElem.1 h
  exact ⟨x.links[i], List.getElem?_eq_getElem hlt, of_decide_eq_true hlink⟩

theorem goes_closeAnchor (x : Extract) : Goes x x.closeAnchor := by
  have hoff : Emits x { x with linkActive := false } :=
    ⟨Writes.refl _, Writes.refl _, rfl, rfl, rfl, rfl, rfl, nofun, rfl, rfl⟩
  rw [closeAnchor]
  split
  case isFalse => exact Goes.refl x
  next hactive =>
  dsimp only
  split
  case isFalse => exact hoff.goes
  split
  · exact hoff.goes
  next idx links hresolve =>
  refine ⟨Writes.refl _, fun hlinked => ⟨nofun, ?_⟩⟩
  have hurl : x.linkUrl = linkUrlOf x.linkTag := hlinked hactive
  obtain ⟨gap, hgap, hout⟩ : ∃ gap, IsGap gap ∧
      (writerText x.w (32 :: marker idx)).out = x.w.out ++ gap ++ marker idx := by
    have hblank : (writerByte x.w 32).out = x.w.out := writerByte_of_isSpace rfl
    obtain ⟨gap, hgap, hout⟩ := exists_gap_writerText (w := writerByte x.w 32) (c := 91)
      (s := ascii (toString (idx + 1)) ++ [93]) rfl fun c hc =>
        (of_mem_marker (List.mem_cons_of_mem _ hc)).2
    rw [hblank] at hout
    exact ⟨gap, hgap, hout⟩
  have hwrite : Ledger.Step Utf8 marker Fits x.ledger
      { x.ledger with text := x.w.out ++ gap } := Ledger.Step.write hgap.utf8
  refine (Relation.ReflTransGen.single hwrite).tail ?_
  have hmark : Mark.mk ((writerText x.w (32 :: marker idx)).out.length - (marker idx).length)
      (writerText x.w (32 :: marker idx)).out.length idx x.linkTag =
        Ledger.markAt marker (x.w.out ++ gap) idx x.linkTag := by
    rw [hout, List.length_append, Nat.add_sub_cancel, Ledger.markAt]
  unfold ledger
  dsimp only
  rw [hmark, hout]
  rw [linkResolveIndex] at hresolve
  split at hresolve
  · exact absurd hresolve nofun
  split at hresolve
  · next i hfind =>
    obtain ⟨rfl, rfl⟩ := Prod.mk.inj (Option.some.inj hresolve)
    obtain ⟨link, hlink, hsame⟩ := exists_findLink hfind
    refine Ledger.Step.cite (b := link) hlink ?_
    show cString link = cString (linkUrlOf x.linkTag)
    rw [← hurl, ← hsame, cString_of_notMem (noNul_cString link)]
  · split at hresolve
    · exact absurd hresolve nofun
    · obtain ⟨rfl, rfl⟩ := Prod.mk.inj (Option.some.inj hresolve)
      exact Ledger.Step.note (b := x.linkUrl) (congrArg cString hurl)

/-! ## Tags -/

theorem goes_handleOpenTag (x : Extract) (s : List UInt8) (tagEnd : Nat) :
    Goes x (x.handleOpenTag s tagEnd) := by
  rw [handleOpenTag]
  split
  · exact (Emits.of_eq rfl rfl rfl rfl rfl rfl rfl rfl rfl).goes
  split
  · split
    · exact (Emits.of_eq rfl rfl rfl rfl rfl rfl rfl rfl rfl).goes
    · exact Goes.refl x
  split
  · exact Goes.refl x
  split
  · exact (Emits.of_eq rfl rfl rfl rfl rfl rfl rfl rfl rfl).goes
  · split
    · exact Goes.refl x
    · exact ⟨Writes.refl _, fun _ => ⟨fun _ => rfl, Relation.ReflTransGen.refl⟩⟩
  · split
    · exact Goes.refl x
    · exact ⟨Writes.refl _, fun hlinked =>
        ⟨hlinked, Relation.ReflTransGen.single Ledger.Step.enter⟩⟩
  · exact Goes.refl x

theorem goes_handleCloseTag (low : Frame → Bool) (x : Extract) (s : List UInt8) (tagStart : Nat) :
    Goes x (x.handleCloseTag low s tagStart) := by
  rw [handleCloseTag]
  split
  · exact goes_closeAnchor x
  · exact (Emits.of_eq rfl rfl rfl rfl rfl rfl rfl rfl rfl).goes
  · exact (Emits.of_eq rfl rfl rfl rfl rfl rfl rfl rfl rfl).goes
  · exact (Emits.of_eq rfl rfl rfl rfl rfl rfl rfl rfl rfl).goes
  · exact (Emits.of_eq rfl rfl rfl rfl rfl rfl rfl rfl rfl).goes
  · split
    · exact Goes.refl x
    · exact goes_iterate_frameClose low _ x tagStart
  · exact Goes.refl x

/-! ## The page -/

theorem goes_parseStep (low : Frame → Bool) (x : Extract) (i : Nat) (rest : List UInt8) :
    Goes x (x.parseStep low i rest).1 := by
  rw [parseStep]
  split
  · split
    · split
      · exact (Emits.of_eq rfl rfl rfl rfl rfl rfl rfl rfl rfl).goes
      · exact (Emits.of_eq rfl rfl rfl rfl rfl rfl rfl rfl rfl).goes
    split
    · exact Goes.refl x
    split
    · exact Goes.refl x
    split
    · dsimp only
      split
      · exact (emits_emitText x _).goes
      · exact Goes.refl x
    · dsimp only
      split
      · exact goes_handleCloseTag low x _ i
      · exact goes_handleOpenTag x _ _
  · dsimp only
    split
    · exact (emits_emitText x _).goes
    · exact Goes.refl x

theorem goes_parseFrom (low : Frame → Bool) (fuel : Nat) (x : Extract) (i : Nat)
    (rest : List UInt8) : Goes x (parseFrom low fuel x i rest) := by
  induction fuel generalizing x i rest with
  | zero => exact Goes.refl x
  | succ fuel ih =>
    rw [parseFrom]
    split
    · exact Goes.refl x
    · exact (goes_parseStep low x i rest).trans (ih _ _ _)

theorem goes_parse (low : Frame → Bool) (raw : List UInt8) : Goes {} (parse low raw) :=
  (goes_parseFrom low raw.length {} 0 raw).trans (goes_iterate_frameClose low _ _ raw.length)

/-- The whole page is read by steps of the ledger. -/
theorem steps_parse (low : Frame → Bool) (raw : List UInt8) :
    Ledger.Steps Utf8 marker Fits {} (parse low raw).ledger :=
  ((goes_parse low raw).2 nofun).2

/-- The output is a text of UTF-8. -/
theorem utf8_out_parse (low : Frame → Bool) (raw : List UInt8) : Utf8 (parse low raw).w.out :=
  (Ledger.made_of_steps (fun _ _ => Utf8.append) (fun _ row h => h.append (utf8_marker row))
    (Ledger.made_empty Utf8.nil) (steps_parse low raw)).text

/-- So is the title. -/
theorem utf8_title_parse (low : Frame → Bool) (raw : List UInt8) :
    Utf8 (parse low raw).title := by
  obtain ⟨piece, hpiece, htitle⟩ := (goes_parse low raw).1
  rw [htitle]
  exact hpiece

/-- Marks and rows of the page belong together. -/
theorem sound_parse (low : Frame → Bool) (raw : List UInt8) :
    (parse low raw).ledger.Sound marker Fits :=
  Ledger.sound_of_steps marker_ne_nil Ledger.sound_empty (steps_parse low raw)

/-- The link of a marker. -/
theorem exists_link_of_mem_cites {low : Frame → Bool} {raw : List UInt8} {m : Mark (List UInt8)}
    (hm : m ∈ (parse low raw).cites) : ∃ link, (parse low raw).links[m.row]? = some link ∧
      cString link = cString ((hrefOf m.tag).take 2047) := by
  obtain ⟨link, hlink, hfits⟩ := (sound_parse low raw).fits m hm
  refine ⟨link, hlink, ?_⟩
  rw [← linkUrlOf_eq]
  exact hfits

/-- A marker of a link. -/
theorem exists_mem_cites {low : Frame → Bool} {raw : List UInt8} {row : Nat}
    (hrow : row < (parse low raw).links.length) : ∃ m ∈ (parse low raw).cites, m.row = row := by
  obtain ⟨m, hm, hmrow, -⟩ := (sound_parse low raw).cited row hrow
  exact ⟨m, hm, hmrow⟩

/-- What holds of all links holds of the anchors that are cited. -/
theorem forall_links_iff (low : Frame → Bool) (raw : List UInt8) {p : List UInt8 → Prop} :
    (∀ link ∈ (parse low raw).links, p (cString link)) ↔
      ∀ m ∈ (parse low raw).cites, p (cString ((hrefOf m.tag).take 2047)) := by
  constructor
  · intro h m hm
    obtain ⟨link, hlink, hsame⟩ := exists_link_of_mem_cites hm
    rw [← hsame]
    exact h link (List.mem_of_getElem? hlink)
  · intro h link hlink
    obtain ⟨row, hlt, rfl⟩ := List.getElem_of_mem hlink
    obtain ⟨m, hm, rfl⟩ := exists_mem_cites hlt
    obtain ⟨link, hlink, hsame⟩ := exists_link_of_mem_cites hm
    rw [List.getElem?_eq_getElem hlt] at hlink
    rw [Option.some.inj hlink, hsame]
    exact h m hm

/-- **Every citation points at its own link.**  Behind a page every marker in the text stands for a
link of the table, that of the anchor it was written for, cut to the size of its buffer and as C reads
it; and every link of the table has a marker in the text. -/
theorem cited_parse (low : Frame → Bool) (raw : List UInt8) :
    (∀ m ∈ (parse low raw).cites, marker m.row <+: (parse low raw).w.out.drop m.start ∧
      ∃ link, (parse low raw).links[m.row]? = some link ∧
        cString link = cString ((hrefOf m.tag).take 2047)) ∧
      ∀ row < (parse low raw).links.length, ∃ m ∈ (parse low raw).cites, m.row = row := by
  refine ⟨fun m hm => ⟨((sound_parse low raw).label m hm).2, exists_link_of_mem_cites hm⟩, ?_⟩
  exact fun row hrow => exists_mem_cites hrow

/-- A tag without quotes ends at its first `>`. -/
theorem findTagEnd_plain {s : List UInt8} (h : ∀ c ∈ s, c ≠ 34 ∧ c ≠ 39 ∧ c ≠ 62)
    (rest : List UInt8) : findTagEnd none (s ++ 62 :: rest) = some s.length := by
  induction s with
  | nil => rfl
  | cons c s ih =>
    obtain ⟨hdouble, hsingle, hend⟩ := h c List.mem_cons_self
    rw [List.cons_append, findTagEnd, if_neg (not_or.2 ⟨hdouble, hsingle⟩), if_neg hend,
      ih fun c hc => h c (List.mem_cons_of_mem _ hc)]
    rfl

/-- The text of a tag with a long `href`. -/
def longHrefTag (n : Nat) : List UInt8 := [97, 32, 104, 114, 101, 102, 61] ++ List.replicate n 97

theorem scanAttrs_longHrefTag (n : Nat) :
    scanAttrs (longHrefTag (n + 1)) = [([104, 114, 101, 102], List.replicate (n + 1) 97)] := by
  have htake : (List.replicate (n + 1) (97 : UInt8)).takeWhile (fun c => !isSpace c && c ≠ 47) =
      List.replicate (n + 1) 97 :=
    List.takeWhile_eq_self_iff.2 fun c hc => (List.eq_of_mem_replicate hc) ▸ rfl
  have hdrop : (List.replicate (n + 1) (97 : UInt8)).dropWhile (fun c => !isSpace c && c ≠ 47) =
      [] :=
    List.dropWhile_eq_nil_iff.2 fun c hc => (List.eq_of_mem_replicate hc) ▸ rfl
  have hrest : ∀ fuel, scanAttrsFrom fuel [] = [] := fun fuel => by cases fuel <;> rfl
  have hstep : scanAttrs (longHrefTag (n + 1)) =
      ([104, 114, 101, 102],
        (List.replicate (n + 1) (97 : UInt8)).takeWhile (fun c => !isSpace c && c ≠ 47)) ::
      scanAttrsFrom (longHrefTag (n + 1)).length
        ((List.replicate (n + 1) (97 : UInt8)).dropWhile (fun c => !isSpace c && c ≠ 47)) := rfl
  rw [hstep, htake, hdrop, hrest]

theorem hrefOf_longHrefTag (n : Nat) :
    hrefOf (longHrefTag (n + 1)) = List.replicate (n + 1) 97 := by
  have hname : sameIgnoringCase [104, 114, 101, 102] (ascii "href") = true := by
    rw [ascii_ofList]
    decide
  rw [hrefOf, scanAttrs_longHrefTag, List.filter_cons, if_pos hname]
  rfl

/-- The rest of the page, once the anchor is open. -/
theorem cites_parseFrom_close (low : Frame → Bool) (fuel i : Nat) (url tag : List UInt8) :
    (parseFrom low (fuel + 3) { linkUrl := 97 :: url, linkActive := true, linkTag := tag } i
      [120, 60, 47, 97, 62]).cites.map Mark.tag = [tag] ∧
    (parseFrom low (fuel + 3) { linkUrl := 97 :: url, linkActive := true, linkTag := tag } i
      [120, 60, 47, 97, 62]).below = [] := by
  constructor
  · rfl
  · rfl

/-- The tag opens an anchor. -/
theorem parseStep_longHrefTag (low : Frame → Bool) (n : Nat) :
    parseStep low {} 0 (60 :: (longHrefTag (n + 1) ++ [62, 120, 60, 47, 97, 62])) =
      ({ linkUrl := linkUrlOf (longHrefTag (n + 1)), linkActive := true,
         linkTag := longHrefTag (n + 1) }, (longHrefTag (n + 1)).length + 2) := by
  have hplain : ∀ c ∈ longHrefTag (n + 1), c ≠ 34 ∧ c ≠ 39 ∧ c ≠ 62 := by
    intro c hc
    rcases List.mem_append.1 hc with hc | hc
    · have hall : ([97, 32, 104, 114, 101, 102, 61] : List UInt8).all
          (fun c => decide (c ≠ 34 ∧ c ≠ 39 ∧ c ≠ 62)) = true := by decide
      exact of_decide_eq_true (List.all_eq_true.1 hall c hc)
    · exact (List.eq_of_mem_replicate hc) ▸ (by decide)
  have hend := findTagEnd_plain hplain [120, 60, 47, 97, 62]
  have hlast : (longHrefTag (n + 1)).getLast? ≠ some 47 := by
    rw [longHrefTag, List.replicate_succ', ← List.append_assoc, List.getLast?_concat]
    decide
  have hsecond : (60 :: (longHrefTag (n + 1) ++ [62, 120, 60, 47, 97, 62]))[1]? = some 97 := rfl
  have htake : (longHrefTag (n + 1) ++ [62, 120, 60, 47, 97, 62]).take
      (longHrefTag (n + 1)).length = longHrefTag (n + 1) := List.take_left
  have hname : tagName (longHrefTag (n + 1)) false = [97] := rfl
  have hlookup : tagLookup [97] = .specialA := by decide +kernel
  have hhead : (60 :: (longHrefTag (n + 1) ++ [62, 120, 60, 47, 97, 62])).head? = some 60 := rfl
  have hraw : ¬(({} : Extract).skipDepth > 0 ∧ ({} : Extract).rawTag ≠ []) :=
    fun h => absurd h.1 (Nat.lt_irrefl 0)
  have hopen : ¬(longHrefTag (n + 1)).head? = some 47 := fun h =>
    absurd (Option.some.inj h) (by decide)
  rw [parseStep, if_pos hhead, if_neg hraw, hsecond, if_neg (by decide), if_neg (by decide),
    List.drop_one, List.tail_cons, hend]
  dsimp only
  rw [htake, if_neg hopen, handleOpenTag, hname, hlookup]
  dsimp only
  rw [if_neg (by decide), if_neg (by decide), if_neg (by decide), if_neg hlast]

/-- The only link of the page is that of its first tag. -/
theorem tags_longHref (low : Frame → Bool) (n : Nat) :
    (parse low (60 :: (longHrefTag (n + 1) ++ [62, 120, 60, 47, 97, 62]))).cites.map Mark.tag =
      [longHrefTag (n + 1)] := by
  have hurl : linkUrlOf (longHrefTag (n + 1)) = 97 :: (List.replicate n 97).take 2046 := by
    rw [linkUrlOf_eq, hrefOf_longHrefTag]
    rfl
  have hlength : (60 :: (longHrefTag (n + 1) ++ [62, 120, 60, 47, 97, 62])).length =
      n + 11 + 3 + 1 := by
    simp [longHrefTag]
  have hdrop : (60 :: (longHrefTag (n + 1) ++ [62, 120, 60, 47, 97, 62])).drop
      ((longHrefTag (n + 1)).length + 2) = [120, 60, 47, 97, 62] := by
    rw [List.drop_succ_cons, List.drop_append, List.drop_of_length_le (Nat.le_succ _),
      Nat.add_sub_cancel_left]
    rfl
  obtain ⟨hcites, hbelow⟩ := cites_parseFrom_close low (n + 11)
    (0 + ((longHrefTag (n + 1)).length + 2)) ((List.replicate n 97).take 2046)
    (longHrefTag (n + 1))
  rw [parse, hlength, parseFrom, if_neg (List.cons_ne_nil _ _), parseStep_longHrefTag, hurl]
  dsimp only
  rw [hdrop, hbelow, List.length_nil, Function.iterate_zero, id_eq]
  exact hcites

/-- A page with a link that is longer than its buffer. -/
def longHrefPage : List UInt8 := ascii "<a href=" ++ List.replicate 2048 97 ++ ascii ">x</a>"

/-- The link of such an anchor is not its `href`. -/
theorem not_cited_longHref : ¬∀ (low : Frame → Bool) (raw : List UInt8),
    (∀ m ∈ (parse low raw).cites, ∃ link, (parse low raw).links[m.row]? = some link ∧
      cString link = cString (hrefOf m.tag)) ∧
      ∀ row < (parse low raw).links.length, ∃ m ∈ (parse low raw).cites, m.row = row := by
  intro h
  have hlengths : ((parse (fun _ => false) longHrefPage).cites.map fun m =>
      (cString (hrefOf m.tag)).length) = [2048] := by
    have hpage : longHrefPage = 60 :: (longHrefTag (2047 + 1) ++ [62, 120, 60, 47, 97, 62]) := by
      have hopen : ascii "<a href=" = 60 :: [97, 32, 104, 114, 101, 102, 61] := ascii_ofList _
      have hclose : ascii ">x</a>" = [62, 120, 60, 47, 97, 62] := ascii_ofList _
      rw [longHrefPage, hopen, hclose, longHrefTag]
      rfl
    have hlength : (cString (List.replicate (2047 + 1) 97)).length = 2048 := by
      rw [cString, List.takeWhile_eq_self_iff.2 fun c hc => (List.eq_of_mem_replicate hc) ▸ rfl,
        List.length_replicate]
    have htags := tags_longHref (fun _ => false) 2047
    rw [← hpage] at htags
    have hmap := congrArg (List.map fun tag => (cString (hrefOf tag)).length) htags
    rw [List.map_map, List.map_singleton, hrefOf_longHrefTag, hlength] at hmap
    exact hmap
  obtain ⟨m, hm, hlength⟩ := List.mem_map.1 (hlengths ▸ List.mem_singleton_self 2048)
  obtain ⟨link, hlink, hsame⟩ := (h (fun _ => false) longHrefPage).1 m hm
  obtain ⟨link', hlink', hcut⟩ := exists_link_of_mem_cites hm
  obtain rfl := Option.some.inj (hlink.symm.trans hlink')
  -- the link is cut to the size of its buffer
  have hshort : (cString ((hrefOf m.tag).take 2047)).length ≤ 2047 :=
    Nat.le_trans (List.takeWhile_prefix _).length_le (List.length_take_le _ _)
  rw [← hcut, hsame, hlength] at hshort
  exact absurd hshort (by decide)

end Extract

end EchoAi.Html
