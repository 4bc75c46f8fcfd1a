import EchoAi.Utils.HtmlExtract
import Mathlib.Data.List.Forall2

/-!
# Scripts and style sheets in a page

The content of a `script` or a `style` element is skipped up to its closing tag.  A page with such an
element and the page without it are read in lockstep; only the positions behind the element differ.

* `ReadsTo`: a part of a page that is read alike whatever follows.
* `RawElement`: the element; `RawElement.ReadToEnd`: one whose closing tag is found.
* `SameBut`: two states that differ in the positions of their frames; `sameBut_parseStep`: a round of
  the parser keeps that.
* `shown_rawElement`: what is left of the element is its length, in the scores of the frames around.
-/

namespace EchoAi.Html

namespace Extract

/-! ## Parts of a page -/

/-- `parse` from a position on, up to the open frames. -/
def parseRest (low : Frame → Bool) (x : Extract) (i : Nat) (rest : List UInt8) : Extract :=
  parseFrom low rest.length x i rest

theorem parseFrom_of_le (low : Frame → Bool) {fuel : Nat} {rest : List UInt8}
    (h : rest.length ≤ fuel) (x : Extract) (i : Nat) :
    parseFrom low fuel x i rest = parseRest low x i rest := by
  induction fuel, h using Nat.le_induction with
  | base => rfl
  | succ fuel h ih => rw [parseFrom_succ low h, ih]

/-- One round, and then the rest. -/
theorem parseRest_step (low : Frame → Bool) (x : Extract) (i : Nat) {rest : List UInt8}
    (h : rest ≠ []) :
    parseRest low x i rest = parseRest low (x.parseStep low i rest).1
      (i + (x.parseStep low i rest).2) (rest.drop (x.parseStep low i rest).2) := by
  have hpos := pos_parseStep low x i h
  obtain ⟨fuel, hfuel⟩ := Nat.exists_eq_succ_of_ne_zero (List.length_pos_iff.2 h).ne'
  rw [parseRest, hfuel, parseFrom, if_neg h]
  generalize x.parseStep low i rest = next at hpos
  refine parseFrom_of_le low ?_ _ _
  rw [List.length_drop]
  omega

/-- A part of a page at a position, which takes the parser from one state to another in rounds that do
not depend on what follows the part. -/
inductive ReadsTo (low : Frame → Bool) : Extract → Nat → List UInt8 → Extract → Prop
  | done (x : Extract) (i : Nat) : ReadsTo low x i [] x
  | round {x y z : Extract} {i : Nat} {part rest : List UInt8} (hpart : part ≠ [])
      (hstep : ∀ more, x.parseStep low i (part ++ (rest ++ more)) = (y, part.length))
      (hrest : ReadsTo low y (i + part.length) rest z) : ReadsTo low x i (part ++ rest) z

theorem parseRest_of_readsTo {low : Frame → Bool} {x y : Extract} {i : Nat} {part : List UInt8}
    (h : ReadsTo low x i part y) (more : List UInt8) :
    parseRest low x i (part ++ more) = parseRest low y (i + part.length) more := by
  induction h with
  | done x i => rfl
  | @round x y z i part rest hpart hstep _ ih =>
    have hne : part ++ (rest ++ more) ≠ [] := fun h => hpart (List.append_eq_nil_iff.1 h).1
    rw [List.append_assoc, parseRest_step low x i hne, hstep more, List.drop_left, ih,
      List.length_append, Nat.add_assoc]

/-! ## The element -/

/-- A tag whose text is these bytes ends with the next `>`. -/
def Quoted (attrs : List UInt8) : Prop := findTagEnd none (attrs ++ [62]) = some attrs.length

/-- What may stand behind the name of a tag. -/
def BehindName (attrs : List UInt8) : Prop := ∀ c ∈ attrs.head?, isSpace c = true ∨ c = 47

end Extract

/-- An element whose content is not read: the name and the attributes of its opening tag, its content,
and the name in its closing tag with what stands behind it. -/
structure RawElement where
  name : List UInt8
  attrs : List UInt8 := []
  content : List UInt8 := []
  closeName : List UInt8
  tail : List UInt8 := []

namespace RawElement

/-- The text of the element. -/
def bytes (E : RawElement) : List UInt8 :=
  60 :: (E.name ++ E.attrs) ++ 62 :: E.content ++ 60 :: 47 :: (E.closeName ++ E.tail) ++ [62]

/-- The parts of a `script` or a `style` element, in any case. -/
structure WellFormed (E : RawElement) : Prop where
  kind : E.name.map toLower = ascii "script" ∨ E.name.map toLower = ascii "style"
  closes : E.closeName.map toLower = E.name.map toLower
  quoted : Extract.Quoted E.attrs
  behind : Extract.BehindName E.attrs
  quotedTail : Extract.Quoted E.tail
  behindTail : Extract.BehindName E.tail
  content : ¬60 :: 47 :: E.name.map toLower <:+: E.content.map toLower

/-- The closing tag is spelled like the opening one, and is the first one that is. -/
structure ReadToEnd (E : RawElement) : Prop where
  kind : E.name.map toLower = ascii "script" ∨ E.name.map toLower = ascii "style"
  closes : E.closeName = E.name
  quoted : Extract.Quoted E.attrs
  behind : Extract.BehindName E.attrs
  quotedTail : Extract.Quoted E.tail
  content : ¬60 :: 47 :: E.name <:+: E.content

theorem WellFormed.readToEnd {E : RawElement} (h : E.WellFormed) (hname : E.closeName = E.name) :
    E.ReadToEnd where
  kind := h.kind
  closes := hname
  quoted := h.quoted
  behind := h.behind
  quotedTail := h.quotedTail
  content hin := h.content (hin.map toLower)

end RawElement

/-! ## The element is skipped -/

section Skipped

variable {name attrs : List UInt8}

/-- A letter. -/
def Letter (c : UInt8) : Prop := (65 ≤ c ∧ c ≤ 90) ∨ (97 ≤ c ∧ c ≤ 122)

theorem Letter.ne {c d : UInt8} (h : Letter c) (hd : d < 65) : c ≠ d := by
  rintro rfl
  rw [Letter] at h
  grind

theorem Letter.isSpace {c : UInt8} (h : Letter c) : isSpace c = false := by
  rw [Letter] at h
  rw [EchoAi.isSpace]
  grind

theorem letter_of_mem_name
    (h : name.map toLower = ascii "script" ∨ name.map toLower = ascii "style") :
    ∀ c ∈ name, Letter c := by
  intro c hc
  have hmem := List.mem_map_of_mem (f := toLower) hc
  have hscript : ∀ c ∈ ascii "script", 97 ≤ c ∧ c ≤ 122 := forall_mem_ascii (by decide)
  have hstyle : ∀ c ∈ ascii "style", 97 ≤ c ∧ c ≤ 122 := forall_mem_ascii (by decide)
  have hlower : 97 ≤ toLower c ∧ toLower c ≤ 122 := by
    rcases h with h | h
    · exact hscript _ (h ▸ hmem)
    · exact hstyle _ (h ▸ hmem)
  rw [toLower] at hlower
  rw [Letter]
  grind

theorem findTagEnd_append {quote : Option UInt8} {s : List UInt8} {e : Nat}
    (h : findTagEnd quote s = some e) (t : List UInt8) : findTagEnd quote (s ++ t) = some e := by
  induction s generalizing quote e with
  | nil =>
    rw [findTagEnd] at h
    exact absurd h (Option.some_ne_none e).symm
  | cons c s ih =>
    rw [List.cons_append]
    cases quote with
    | some q =>
      rw [findTagEnd] at h ⊢
      obtain ⟨e', he', rfl⟩ := Option.map_eq_some_iff.1 h
      exact Option.map_eq_some_iff.2 ⟨e', ih he', rfl⟩
    | none =>
      rw [findTagEnd] at h ⊢
      split at h
      · next hquote =>
        obtain ⟨e', he', rfl⟩ := Option.map_eq_some_iff.1 h
        rw [if_pos hquote]
        exact Option.map_eq_some_iff.2 ⟨e', ih he', rfl⟩
      next hquote =>
      rw [if_neg hquote]
      split at h
      · next hend =>
        rw [if_pos hend]
        exact h
      · next hend =>
        obtain ⟨e', he', rfl⟩ := Option.map_eq_some_iff.1 h
        rw [if_neg hend]
        exact Option.map_eq_some_iff.2 ⟨e', ih he', rfl⟩

/-- Letters do not end a tag. -/
theorem findTagEnd_letters (h : ∀ c ∈ name, Letter c) (s : List UInt8) :
    findTagEnd none (name ++ s) = (findTagEnd none s).map (· + name.length) := by
  induction name with
  | nil =>
    show findTagEnd none s = (findTagEnd none s).map id
    rw [Option.map_id, id]
  | cons c name ih =>
    have hletter := h c List.mem_cons_self
    have hquote : ¬(c = 34 ∨ c = 39) :=
      not_or.2 ⟨hletter.ne (by decide), hletter.ne (by decide)⟩
    rw [List.cons_append, findTagEnd, if_neg hquote, if_neg (hletter.ne (by decide)),
      ih fun c hc => h c (List.mem_cons_of_mem _ hc), Option.map_map]
    rfl

theorem ne_nil_of_raw (h : name.map toLower = ascii "script" ∨ name.map toLower = ascii "style") :
    name ≠ [] := by
  rintro rfl
  rcases h with h | h
  · rw [ascii_ofList] at h
    exact absurd h (by decide)
  · rw [ascii_ofList] at h
    exact absurd h (by decide)

theorem tagLookup_raw (h : name.map toLower = ascii "script" ∨ name.map toLower = ascii "style") :
    tagLookup name = .exclScript ∨ tagLookup name = .exclStyle := by
  have hlength : name.length = (name.map toLower).length := (List.length_map toLower).symm
  rw [tagLookup, hlength]
  rcases h with h | h
  · rw [h]
    exact Or.inl (by decide +kernel)
  · rw [h]
    exact Or.inr (by decide +kernel)

/-- The name of a tag ends where its attributes begin. -/
theorem tagName_append (hname : ∀ c ∈ name, Letter c)
    (hattrs : Extract.BehindName attrs) : Extract.tagName (name ++ attrs) false = name := by
  rw [Extract.tagName, List.takeWhile_append_of_pos fun c hc => ?_]
  · have hstop : attrs.takeWhile (fun c => !isSpace c && (false || decide (c ≠ 47)) &&
        decide (c ≠ 62)) = [] := by
      cases attrs with
      | nil => rfl
      | cons c attrs =>
        refine List.takeWhile_cons_of_neg ?_
        rcases hattrs c rfl with hspace | rfl
        · simp [hspace]
        · simp
    rw [hstop, List.append_nil]
  · have hletter := hname c hc
    rw [hletter.isSpace, decide_eq_true (hletter.ne (by decide) : c ≠ 47),
      decide_eq_true (hletter.ne (by decide) : c ≠ 62)]
    rfl

namespace Extract

variable {low : Frame → Bool} {x : Extract}

/-- A tag is read to its end, whatever follows. -/
theorem parseStep_tag (hraw : ¬(x.skipDepth > 0 ∧ x.rawTag ≠ [])) {c : UInt8} {s : List UInt8}
    (hc : c ≠ 33 ∧ c ≠ 63) (hquoted : Quoted (c :: s)) (i : Nat) (more : List UInt8) :
    x.parseStep low i (60 :: (c :: s) ++ [62] ++ more) =
      (if (c :: s).head? = some 47 then x.handleCloseTag low s i
        else x.handleOpenTag (c :: s) (i + 1 + (c :: s).length),
        (60 :: (c :: s) ++ [62]).length) := by
  have hhead : (60 :: (c :: s) ++ [62] ++ more).head? = some 60 := rfl
  have hsecond : ((60 :: (c :: s) ++ [62] ++ more)[1]?) = some c := rfl
  have hother : ∀ d, c ≠ d → ¬some c = some d := fun d hd h => hd (Option.some.inj h)
  have hdrop : (60 :: (c :: s) ++ [62] ++ more).drop 1 = c :: s ++ [62] ++ more := rfl
  have htake : (c :: s ++ [62] ++ more).take (c :: s).length = c :: s := by
    rw [List.append_assoc _ [62], List.take_left]
  have hlength : (60 :: (c :: s) ++ [62]).length = (c :: s).length + 2 := by
    rw [List.length_append, List.length_cons, List.length_singleton]
  rw [parseStep, if_pos hhead, if_neg hraw, hsecond, if_neg (hother 33 hc.1),
    if_neg (hother 63 hc.2), hdrop, findTagEnd_append hquoted more]
  dsimp only
  rw [htake, hlength]
  rfl

/-- The opening tag is remembered. -/
theorem parseStep_openRaw (hskip : x.skipDepth = 0)
    (hkind : name.map toLower = ascii "script" ∨ name.map toLower = ascii "style")
    (hquoted : Quoted attrs) (hbehind : BehindName attrs) (i : Nat) (more : List UInt8) :
    x.parseStep low i (60 :: (name ++ attrs) ++ [62] ++ more) =
      ({ x with skipDepth := 1, rawTag := name }, (60 :: (name ++ attrs) ++ [62]).length) := by
  have hletters := letter_of_mem_name hkind
  have hend : Quoted (name ++ attrs) := by
    rw [Quoted, List.append_assoc, findTagEnd_letters hletters, hquoted, Option.map_some,
      List.length_append, Nat.add_comm]
  have hexcluded : (tagLookup name).isExcluded = true := by
    rcases tagLookup_raw hkind with h | h <;> rw [h] <;> rfl
  have hopen : x.handleOpenTag (name ++ attrs) (i + 1 + (name ++ attrs).length) =
      { x with skipDepth := 1, rawTag := name } := by
    rw [handleOpenTag, tagName_append hletters hbehind, if_pos hexcluded,
      if_pos (tagLookup_raw hkind), hskip]
  have hne := ne_nil_of_raw hkind
  obtain ⟨c, letters, rfl⟩ := List.exists_cons_of_ne_nil hne
  have hletter := hletters c List.mem_cons_self
  have hopening : ¬(c :: (letters ++ attrs)).head? = some 47 := fun h =>
    hletter.ne (by decide) (Option.some.inj h)
  rw [List.cons_append] at hend hopen
  show x.parseStep low i (60 :: (c :: (letters ++ attrs)) ++ [62] ++ more) =
    (_, (60 :: (c :: (letters ++ attrs)) ++ [62]).length)
  rw [parseStep_tag (by omega) ⟨hletter.ne (by decide), hletter.ne (by decide)⟩ hend,
    if_neg hopening, hopen]

/-- A text is read up to the next `<`. -/
theorem parseStep_text {run : List UInt8} (hrun : run ≠ []) (hnone : 60 ∉ run) (i : Nat)
    (more : List UInt8) :
    x.parseStep low i (run ++ 60 :: more) =
      (if x.skipDepth = 0 then x.emitText run else x, run.length) := by
  have htake : (run ++ 60 :: more).takeWhile (· ≠ 60) = run := by
    have hin : ∀ c ∈ run, decide (c ≠ 60) = true := fun c hc =>
      decide_eq_true fun heq => hnone (heq ▸ hc)
    rw [List.takeWhile_append_of_pos hin, List.takeWhile_cons_of_neg (by decide), List.append_nil]
  have hhead : ¬(run ++ 60 :: more).head? = some 60 := by
    obtain ⟨c, run, rfl⟩ := List.exists_cons_of_ne_nil hrun
    exact fun h => hnone (Option.some.inj h ▸ List.mem_cons_self)
  rw [parseStep, if_neg hhead]
  dsimp only
  rw [htake]

/-- From a `<` in the content the closing tag is looked for. -/
theorem parseStep_closeRaw {front tail : List UInt8} (hskip : x.skipDepth = 1) (hraw : x.rawTag = name)
    (hletters : ∀ c ∈ name, Letter c) (hne : name ≠ [])
    (hfront : ∀ c ∈ front.head?, c = 60) (hcontent : ¬60 :: 47 :: name <:+: front)
    (htail : Quoted tail) (i : Nat) (more : List UInt8) :
    x.parseStep low i (front ++ 60 :: 47 :: (name ++ tail) ++ [62] ++ more) =
      ({ x with skipDepth := 0, rawTag := [] },
        (front ++ 60 :: 47 :: (name ++ tail) ++ [62]).length) := by
  have hhead : (front ++ 60 :: 47 :: (name ++ tail) ++ [62] ++ more).head? = some 60 := by
    cases front with
    | nil => rfl
    | cons c front => exact congrArg some (hfront c rfl)
  have hnotMem : (60 : UInt8) ∉ 47 :: name := by
    intro hmem
    rcases List.mem_cons.1 hmem with h | h
    · exact absurd h (by decide)
    · exact (hletters _ h).ne (by decide) rfl
  have hsplit : front ++ 60 :: 47 :: (name ++ tail) ++ [62] ++ more =
      front ++ 60 :: 47 :: name ++ (tail ++ [62] ++ more) := by
    simp only [List.append_assoc, List.cons_append]
  have hfound := firstInfix_append_cons_append hnotMem hcontent (tail ++ [62] ++ more)
  have hdrop : (front ++ 60 :: 47 :: name ++ (tail ++ [62] ++ more)).drop (front.length + 1) =
      47 :: name ++ (tail ++ [62] ++ more) := by
    rw [List.append_assoc, ← List.drop_drop, List.drop_left]
    rfl
  have hend : findTagEnd none (47 :: name ++ (tail ++ [62] ++ more)) =
      some (tail.length + (47 :: name).length) := by
    have hslash : findTagEnd none (47 :: (name ++ (tail ++ [62] ++ more))) =
      (findTagEnd none (name ++ (tail ++ [62] ++ more))).map (· + 1) := rfl
    rw [List.cons_append, hslash, findTagEnd_letters hletters, findTagEnd_append htail more]
    rfl
  rw [parseStep, if_pos hhead, hraw, if_pos ⟨by omega, hne⟩, hsplit, hfound]
  dsimp only
  rw [hdrop, hend, hskip]
  refine congrArg _ ?_
  simp only [List.length_append, List.length_cons, List.length_nil]
  omega

/-- The element is read up to its end, and leaves no trace but its length. -/
theorem readsTo_rawElement {E : RawElement} (hE : E.ReadToEnd) (hskip : x.skipDepth = 0)
    (hraw : x.rawTag = []) (i : Nat) : ReadsTo low x i E.bytes x := by
  have hletters := letter_of_mem_name hE.kind
  have hne := ne_nil_of_raw hE.kind
  have hfront : ∀ c ∈ (E.content.dropWhile (· ≠ 60)).head?, c = 60 := by
    intro c hc
    cases hdrop : E.content.dropWhile (· ≠ 60) with
    | nil =>
      rw [hdrop] at hc
      exact absurd hc (Option.not_mem_none c)
    | cons d front =>
      have hd := eq_false_of_dropWhile_eq_cons hdrop
      rw [hdrop] at hc
      have heq : d = c := Option.some.inj hc
      rw [heq, decide_eq_false_iff_not, not_not] at hd
      exact hd
  have hnone : (60 : UInt8) ∉ E.content.takeWhile (· ≠ 60) := by
    intro hmem
    have h60 := @List.mem_takeWhile_imp _ (fun c : UInt8 => decide (c ≠ 60)) _ _ hmem
    exact absurd h60 (by decide)
  have hcontent : ¬60 :: 47 :: E.name <:+: E.content.dropWhile (· ≠ 60) := fun hin =>
    hE.content (hin.trans (List.dropWhile_suffix _).isInfix)
  have hsplit : E.content = E.content.takeWhile (· ≠ 60) ++ E.content.dropWhile (· ≠ 60) :=
    List.takeWhile_append_dropWhile.symm
  generalize E.content.takeWhile (· ≠ 60) = run at hnone hsplit
  generalize E.content.dropWhile (· ≠ 60) = front at hfront hcontent hsplit
  have hbytes : E.bytes = (60 :: (E.name ++ E.attrs) ++ [62]) ++
      (run ++ (front ++ 60 :: 47 :: (E.name ++ E.tail) ++ [62])) := by
    rw [RawElement.bytes, hE.closes, hsplit]
    simp only [List.append_assoc, List.cons_append, List.nil_append]
  have hclose : ReadsTo low { x with skipDepth := 1, rawTag := E.name }
      (i + (60 :: (E.name ++ E.attrs) ++ [62]).length + run.length)
      (front ++ 60 :: 47 :: (E.name ++ E.tail) ++ [62]) x := by
    rw [← List.append_nil (front ++ 60 :: 47 :: (E.name ++ E.tail) ++ [62])]
    refine ReadsTo.round (by simp) (fun more => ?_) (ReadsTo.done x _)
    rw [List.nil_append, parseStep_closeRaw rfl rfl hletters hne hfront hcontent hE.quotedTail]
    refine congrArg (·, _) ?_
    rw [← hskip, ← hraw]
  rw [hbytes]
  refine ReadsTo.round (List.cons_ne_nil _ _) (fun more => parseStep_openRaw hskip hE.kind hE.quoted
    hE.behind i _) ?_
  by_cases hrun : run = []
  · rw [hrun, List.length_nil, Nat.add_zero] at hclose
    rw [hrun, List.nil_append]
    exact hclose
  · refine ReadsTo.round hrun (fun more => ?_) hclose
    obtain ⟨t, ht⟩ : ∃ t, front ++ 60 :: 47 :: (E.name ++ E.tail) ++ [62] ++ more = 60 :: t := by
      cases front with
      | nil => exact ⟨_, rfl⟩
      | cons c front =>
        rw [hfront c rfl]
        exact ⟨_, rfl⟩
    rw [ht, parseStep_text hrun hnone]
    rfl

end Extract

end Skipped

namespace Extract

/-! ## The positions of the frames -/

section Positions

variable {R : Nat → Nat → Prop} {low low' : Frame → Bool} {x y : Extract}

/-- The state with other positions of the innermost frame and other frames around. -/
def setFrames (x : Extract) (p : Nat) (below : List Frame) : Extract :=
  { x with top := { x.top with startPos := p }, below }

/-- Two frames that begin at related positions. -/
def SameFrame (R : Nat → Nat → Prop) (f g : Frame) : Prop :=
  ∃ p, g = { f with startPos := p } ∧ R f.startPos p

/-- Two states that are alike up to the positions of their frames. -/
def SameBut (R : Nat → Nat → Prop) (x y : Extract) : Prop :=
  ∃ p below, y = x.setFrames p below ∧ R x.top.startPos p ∧ List.Forall₂ (SameFrame R) x.below below

/-- What neither reads nor changes the positions and the frames around. -/
def Keeps (F : Extract → Extract) : Prop :=
  ∀ x p below, F (x.setFrames p below) = (F x).setFrames p below

theorem Keeps.comp {F G : Extract → Extract} (hF : Keeps F) (hG : Keeps G) : Keeps (F ∘ G) := by
  intro x p below
  show F (G (x.setFrames p below)) = (F (G x)).setFrames p below
  rw [hG, hF]

theorem Keeps.sameBut {F : Extract → Extract} (hF : Keeps F) (h : SameBut R x y) :
    SameBut R (F x) (F y) := by
  obtain ⟨p, below, rfl, hp, hbelow⟩ := h
  -- the state itself is one of those that it is set to
  have hself := hF x x.top.startPos x.below
  have hstart : (F x).top.startPos = x.top.startPos := congrArg (·.top.startPos) hself
  have hframes : (F x).below = x.below := congrArg (·.below) hself
  exact ⟨p, below, hF x p below, hstart ▸ hp, hframes ▸ hbelow⟩

theorem emitRun_setFrames (x : Extract) (p : Nat) (below : List Frame) (run : List UInt8) :
    (x.setFrames p below).emitRun run = (x.emitRun run).setFrames p below := by
  rw [emitRun, emitRun]
  split <;> rfl

theorem emitChar_setFrames (x : Extract) (p : Nat) (below : List Frame) (ebuf : List UInt8) :
    (x.setFrames p below).emitChar ebuf = (x.emitChar ebuf).setFrames p below := rfl

theorem emitTextFrom_setFrames (fuel : Nat) (x : Extract) (p : Nat) (below : List Frame)
    (s : List UInt8) :
    emitTextFrom fuel (x.setFrames p below) s = (emitTextFrom fuel x s).setFrames p below := by
  induction fuel generalizing x s with
  | zero => rfl
  | succ fuel ih =>
    rw [emitTextFrom, emitTextFrom, emitRun_setFrames]
    split
    · rfl
    split
    · split
      · rw [emitChar_setFrames, ih]
      · rw [emitChar_setFrames, ih]
    · exact ih _ _

theorem keeps_emitText (s : List UInt8) : Keeps (emitText · s) := by
  intro x p below
  dsimp only
  rw [emitText, emitText]
  split
  · rfl
  by_cases htitle : x.titleActive = true
  · rw [if_pos htitle, if_pos (show (x.setFrames p below).titleActive = true from htitle)]
    rfl
  · rw [if_neg htitle, if_neg (show ¬(x.setFrames p below).titleActive = true from htitle)]
    exact emitTextFrom_setFrames (s.length + 1)
      { x with
        top := { x.top with wordCount := x.top.wordCount + countWords s }
        w := if x.top.isPre then writerPreflush x.w else x.w } p below s

theorem keeps_closeAnchor : Keeps closeAnchor := by
  intro x p below
  rw [closeAnchor, closeAnchor]
  by_cases hactive : x.linkActive = true
  · rw [if_pos hactive, if_pos (show (x.setFrames p below).linkActive = true from hactive)]
    by_cases htext : x.linkHasText = true
    · dsimp only
      rw [if_pos htext, if_pos (show (x.setFrames p below).linkHasText = true from htext)]
      have hsame : linkResolveIndex { x.setFrames p below with linkActive := false }
          (x.setFrames p below).linkUrl = linkResolveIndex { x with linkActive := false } x.linkUrl :=
        rfl
      rw [hsame]
      split <;> rfl
    · dsimp only
      rw [if_neg htext, if_neg (show ¬(x.setFrames p below).linkHasText = true from htext)]
      rfl
  · rw [if_neg hactive, if_neg (show ¬(x.setFrames p below).linkActive = true from hactive)]

/-- Two scores that agree on frames which begin at related positions and are closed at `pos` and at
`pos'`. -/
def Scores (R : Nat → Nat → Prop) (low low' : Frame → Bool) (pos pos' : Nat) : Prop :=
  ∀ f g, SameFrame R f g → low { f with endPos := pos } = low' { g with endPos := pos' }

variable {pos pos' : Nat}

theorem frameClose_root (low : Frame → Bool) (h : x.below = []) : x.frameClose low pos = x := by
  rw [frameClose, h]

theorem sameBut_frameClose (hscores : Scores R low low' pos pos') (h : SameBut R x y) :
    SameBut R (x.frameClose low pos) (y.frameClose low' pos') := by
  obtain ⟨p, below, rfl, hp, hbelow⟩ := h
  cases hx : x.below with
  | nil =>
    have hnil : below = [] := List.forall₂_nil_left_iff.1 (hx ▸ hbelow)
    rw [frameClose_root low hx, frameClose_root low' (x := x.setFrames p below) hnil]
    exact ⟨p, below, rfl, hp, hbelow⟩
  | cons parent rest =>
    rw [hx] at hbelow
    obtain ⟨_, rest', ⟨q, rfl, hq⟩, hrest, rfl⟩ := List.forall₂_cons_left_iff.1 hbelow
    have hlow := hscores x.top _ ⟨p, rfl, hp⟩
    have hdrops : dropsFrame low' { x.top with startPos := p, endPos := pos' } =
        dropsFrame low { x.top with endPos := pos } := by
      rw [dropsFrame, dropsFrame, hlow]
    rw [frameClose, frameClose, hx]
    dsimp only [setFrames]
    rw [hdrops]
    split
    · exact ⟨q, rest', rfl, hq, hrest⟩
    · exact ⟨q, rest', rfl, hq, hrest⟩

theorem sameBut_iterate_frameClose (hscores : Scores R low low' pos pos') (h : SameBut R x y)
    (n : Nat) : SameBut R ((fun x => x.frameClose low pos)^[n] x)
      ((fun x => x.frameClose low' pos')^[n] y) := by
  induction n with
  | zero => exact h
  | succ n ih =>
    rw [Function.iterate_succ_apply', Function.iterate_succ_apply']
    exact sameBut_frameClose hscores ih

/-- The innermost frame of a tag is at the same depth. -/
theorem findIdx_tagId_of_sameFrame {fs gs : List Frame} (h : List.Forall₂ (SameFrame R) fs gs)
    (tag : FrameTag) : (gs.findIdx? fun f => f.tagId = some tag) =
      fs.findIdx? fun f => f.tagId = some tag := by
  induction h with
  | nil => rfl
  | @cons f g fs gs hfg _ ih =>
    obtain ⟨q, rfl, -⟩ := hfg
    rw [List.findIdx?_cons, List.findIdx?_cons, ih]

theorem sameBut_handleCloseTag (hscores : Scores R low low' pos pos') (h : SameBut R x y)
    (s : List UInt8) : SameBut R (x.handleCloseTag low s pos) (y.handleCloseTag low' s pos') := by
  rw [handleCloseTag, handleCloseTag]
  split
  · exact keeps_closeAnchor.sameBut h
  · exact Keeps.sameBut (F := fun x => { x with titleActive := false }) (fun _ _ _ => rfl) h
  · exact Keeps.sameBut (F := fun x => { x with skipDepth := x.skipDepth - 1 }) (fun _ _ _ => rfl) h
  · exact Keeps.sameBut (F := fun x => { x with skipDepth := x.skipDepth - 1 }) (fun _ _ _ => rfl) h
  · exact Keeps.sameBut (F := fun x => { x with skipDepth := x.skipDepth - 1 }) (fun _ _ _ => rfl) h
  · next tag _ =>
    have hfind : ((y.top :: y.below).findIdx? fun f => f.tagId = some tag) =
        (x.top :: x.below).findIdx? fun f => f.tagId = some tag := by
      obtain ⟨p, below, rfl, hp, hbelow⟩ := h
      exact findIdx_tagId_of_sameFrame (List.Forall₂.cons ⟨p, rfl, hp⟩ hbelow) tag
    rw [hfind]
    split
    · exact h
    · exact sameBut_iterate_frameClose hscores h _
  · exact h

theorem SameBut.skipDepth (h : SameBut R x y) : y.skipDepth = x.skipDepth := by
  obtain ⟨p, below, rfl, -⟩ := h
  rfl

theorem SameBut.rawTag (h : SameBut R x y) : y.rawTag = x.rawTag := by
  obtain ⟨p, below, rfl, -⟩ := h
  rfl

theorem SameBut.length_below (h : SameBut R x y) : y.below.length = x.below.length := by
  obtain ⟨p, below, rfl, -, hbelow⟩ := h
  exact hbelow.length_eq.symm

/-- A frame is opened. -/
theorem sameBut_enter (h : SameBut R x y) (f : Frame) {p : Nat} (hp : R f.startPos p) :
    SameBut R
      { x with
        top := { f with outStart := x.w.out.length, linkAtOpen := x.links.length }
        below := x.top :: x.below
        w := writerNewline x.w }
      { y with
        top := { f with startPos := p, outStart := y.w.out.length, linkAtOpen := y.links.length }
        below := y.top :: y.below
        w := writerNewline y.w } := by
  obtain ⟨q, below, rfl, hq, hbelow⟩ := h
  exact ⟨p, _, rfl, hp, List.Forall₂.cons ⟨q, rfl, hq⟩ hbelow⟩

theorem sameBut_handleOpenTag (h : SameBut R x y) (s : List UInt8)
    (hpos : R (pos + 1) (pos' + 1)) :
    SameBut R (x.handleOpenTag s pos) (y.handleOpenTag s pos') := by
  have hzero : (y.skipDepth = 0) = (x.skipDepth = 0) := by rw [h.skipDepth]
  have hdeep : (y.skipDepth > 0) = (x.skipDepth > 0) := by rw [h.skipDepth]
  rw [handleOpenTag, handleOpenTag, h.length_below]
  simp only [hzero, hdeep]
  generalize tagLookup (tagName s false) = tid
  by_cases hexcluded : tid.isExcluded = true
  · rw [if_pos hexcluded, if_pos hexcluded]
    exact Keeps.sameBut (F := fun x => { x with
      skipDepth := x.skipDepth + 1
      rawTag := if tid = .exclScript ∨ tid = .exclStyle then tagName s false else x.rawTag })
      (fun _ _ _ => rfl) h
  rw [if_neg hexcluded, if_neg hexcluded]
  by_cases htitle : tid = .specialTitle
  · rw [if_pos htitle, if_pos htitle]
    split
    · exact Keeps.sameBut (F := fun x => { x with titleActive := true }) (fun _ _ _ => rfl) h
    · exact h
  rw [if_neg htitle, if_neg htitle]
  split
  · exact h
  split
  · exact Keeps.sameBut (F := fun x => { x with w := writerNewline x.w }) (fun _ _ _ => rfl) h
  · split
    · exact h
    · exact Keeps.sameBut (F := fun x => { x with
        linkUrl := linkUrlOf s, linkActive := true, linkHasText := false, linkTag := s })
        (fun _ _ _ => rfl) h
  · next tag =>
    split
    · exact h
    · exact sameBut_enter h
        { tagId := some tag
          startPos := pos + 1
          isPre := tag = .pre
          isHeader := tag.isHeader
          classNeg := hasNegPattern (attrOf "class" maxAttrLen s) ||
            hasNegPattern (attrOf "id" maxAttrLen s) } hpos
  · exact h

/-- A round of the parser at two places of two pages, with the same text ahead. -/
theorem sameBut_parseStep {i i' : Nat} {rest : List UInt8} (hscores : Scores R low low' i i')
    (h : SameBut R x y)
    (hpos : R (i + (x.parseStep low i rest).2) (i' + (x.parseStep low i rest).2)) :
    SameBut R (x.parseStep low i rest).1 (y.parseStep low' i' rest).1 ∧
      (y.parseStep low' i' rest).2 = (x.parseStep low i rest).2 := by
  revert hpos
  rw [parseStep, parseStep, h.skipDepth, h.rawTag]
  split
  · split
    · split
      · exact fun _ => ⟨Keeps.sameBut (F := fun x => { x with skipDepth := 0, rawTag := [] })
          (fun _ _ _ => rfl) h, rfl⟩
      · exact fun _ => ⟨Keeps.sameBut
          (F := fun y => { y with skipDepth := x.skipDepth - 1, rawTag := [] })
          (fun _ _ _ => rfl) h, rfl⟩
    split
    · exact fun _ => ⟨h, rfl⟩
    split
    · exact fun _ => ⟨h, rfl⟩
    split
    · refine fun _ => ⟨?_, rfl⟩
      dsimp only
      split
      · exact (keeps_emitText [60]).sameBut h
      · exact h
    · next e _ =>
      intro hpos
      refine ⟨?_, rfl⟩
      dsimp only
      split
      · exact sameBut_handleCloseTag hscores h _
      · have hsum : ∀ k, k + 1 + e + 1 = k + (e + 2) := fun k => by omega
        refine sameBut_handleOpenTag h _ ?_
        rw [hsum, hsum]
        exact hpos
  · refine fun _ => ⟨?_, rfl⟩
    dsimp only
    split
    · exact (keeps_emitText _).sameBut h
    · exact h

theorem SameBut.eq (hR : ∀ p q, R p q → p = q) (h : SameBut R x y) : x = y := by
  obtain ⟨p, below, rfl, hp, hbelow⟩ := h
  have hsame : List.Forall₂ (· = ·) x.below below := by
    refine hbelow.imp fun f g hfg => ?_
    obtain ⟨q, rfl, hq⟩ := hfg
    rw [← hR _ _ hq]
  rw [List.forall₂_eq_eq_eq] at hsame
  rw [← hR _ _ hp, ← hsame]
  rfl

theorem SameBut.mono {R' : Nat → Nat → Prop} (hR : ∀ p q, R p q → R' p q) (h : SameBut R x y) :
    SameBut R' x y := by
  obtain ⟨p, below, rfl, hp, hbelow⟩ := h
  refine ⟨p, below, rfl, hR _ _ hp, hbelow.imp fun f g hfg => ?_⟩
  obtain ⟨q, rfl, hq⟩ := hfg
  exact ⟨q, rfl, hR _ _ hq⟩

end Positions

/-! ## The element on the page -/

section Page

variable {low low' : Frame → Bool} {x y : Extract} {start len : Nat}

/-- A frame of the page without the element, at the positions that it has on the page with it: behind
`start` they are greater by the length of the element. -/
def around (start len : Nat) (f : Frame) : Frame :=
  { f with
    startPos := if f.startPos ≤ start then f.startPos else f.startPos + len
    endPos := if f.endPos < start then f.endPos else f.endPos + len }

/-- A position in front of the element, on both pages. -/
def Before (start : Nat) (p q : Nat) : Prop := p = q ∧ p ≤ start

/-- A position on the page without the element and the one on the page with it. -/
def Shifted (start len : Nat) (p q : Nat) : Prop := q = if p ≤ start then p else p + len

theorem scores_before (low : Frame → Bool) {pos : Nat} (h : pos < start) :
    Scores (Before start) low (low ∘ around start len) pos pos := by
  rintro f _ ⟨q, rfl, rfl, hle⟩
  show low _ = low _
  rw [around, if_pos hle, if_pos h]

theorem scores_shifted (low : Frame → Bool) {pos : Nat} (h : start ≤ pos) :
    Scores (Shifted start len) (low ∘ around start len) low pos (pos + len) := by
  rintro f _ ⟨q, rfl, hq⟩
  show low _ = low _
  rw [around, hq, if_neg (Nat.not_lt.2 h)]

/-- In front of the element the pages are read alike. -/
theorem ReadsTo.before {i : Nat} {part : List UInt8} (h : ReadsTo low x i part y)
    (hx : SameBut (Before start) x x) (hle : i + part.length ≤ start) :
    ReadsTo (low ∘ around start len) x i part y ∧ SameBut (Before start) y y := by
  induction h with
  | done x i => exact ⟨ReadsTo.done x i, hx⟩
  | @round x y z i part rest hpart hstep _ ih =>
    rw [List.length_append, ← Nat.add_assoc] at hle
    have hpos := List.length_pos_iff.2 hpart
    have hround : ∀ more, SameBut (Before start) y
        (x.parseStep (low ∘ around start len) i (part ++ (rest ++ more))).1 ∧
        (x.parseStep (low ∘ around start len) i (part ++ (rest ++ more))).2 = part.length := by
      intro more
      have hboth := @sameBut_parseStep (Before start) low (low ∘ around start len) x x i i
        (part ++ (rest ++ more)) (scores_before low (by omega)) hx (by
          rw [hstep more]
          exact ⟨rfl, by omega⟩)
      rwa [hstep more] at hboth
    have heq : ∀ {y'}, SameBut (Before start) y y' → y = y' := SameBut.eq fun _ _ h => h.1
    have hy : SameBut (Before start) y y := by
      have h := (hround []).1
      rwa [← heq h] at h
    obtain ⟨hrest, hz⟩ := ih hy (by omega)
    refine ⟨ReadsTo.round hpart (fun more => ?_) hrest, hz⟩
    obtain ⟨hsame, hlength⟩ := hround more
    exact Prod.ext (heq hsame).symm hlength

/-- Behind the element the page without it stays in step with the page with it. -/
theorem sameBut_parseRest (low : Frame → Bool) (n : Nat) {rest : List UInt8} (hn : rest.length ≤ n)
    {i : Nat} (hi : start ≤ i) (h : SameBut (Shifted start len) x y) :
    SameBut (Shifted start len) (parseRest (low ∘ around start len) x i rest)
      (parseRest low y (i + len) rest) := by
  induction n generalizing x y i rest with
  | zero =>
    obtain rfl := List.length_eq_zero_iff.1 (Nat.le_zero.1 hn)
    exact h
  | succ n ih =>
    by_cases hne : rest = []
    · rw [hne]
      exact h
    have hpos := pos_parseStep (low ∘ around start len) x i hne
    obtain ⟨hstep, hsame⟩ := @sameBut_parseStep (Shifted start len) (low ∘ around start len) low x y i
      (i + len) rest (scores_shifted low hi) h (by
        rw [Shifted, if_neg (by omega)]
        omega)
    rw [parseRest_step _ x i hne, parseRest_step low y (i + len) hne, hsame,
      Nat.add_right_comm i len]
    refine ih ?_ (by omega) hstep
    rw [List.length_drop]
    omega

/-- What is left to be skipped, and up to which tag. -/
def raw (x : Extract) : Nat × List UInt8 := (x.skipDepth, x.rawTag)

theorem raw_emitRun (x : Extract) (run : List UInt8) : (x.emitRun run).raw = x.raw := by
  rw [emitRun]
  split <;> rfl

theorem raw_emitTextFrom (fuel : Nat) (x : Extract) (s : List UInt8) :
    (emitTextFrom fuel x s).raw = x.raw := by
  induction fuel generalizing x s with
  | zero => rfl
  | succ fuel ih =>
    rw [emitTextFrom]
    split
    · exact raw_emitRun _ _
    split
    · split
      · exact (ih _ _).trans (raw_emitRun _ _)
      · exact (ih _ _).trans (raw_emitRun _ _)
    · exact (ih _ _).trans (raw_emitRun _ _)

theorem raw_emitText (x : Extract) (s : List UInt8) : (x.emitText s).raw = x.raw := by
  rw [emitText]
  split
  · rfl
  split
  · rfl
  · exact raw_emitTextFrom _ _ _

theorem raw_frameClose (low : Frame → Bool) (x : Extract) (pos : Nat) :
    (x.frameClose low pos).raw = x.raw := by
  rw [frameClose]
  split
  · rfl
  · dsimp only
    split <;> rfl

theorem raw_iterate_frameClose (low : Frame → Bool) (n : Nat) (x : Extract) (pos : Nat) :
    ((fun x => x.frameClose low pos)^[n] x).raw = x.raw := by
  induction n with
  | zero => rfl
  | succ n ih => rw [Function.iterate_succ_apply', raw_frameClose, ih]

theorem raw_closeAnchor (x : Extract) : x.closeAnchor.raw = x.raw := by
  rw [closeAnchor]
  split
  · dsimp only
    split
    · split <;> rfl
    · rfl
  · rfl

/-- A tag is remembered only while something is skipped. -/
def RawInside (x : Extract) : Prop := x.skipDepth = 0 → x.rawTag = []

theorem rawInside_parseStep (h : x.RawInside) (i : Nat) (rest : List UInt8) :
    (x.parseStep low i rest).1.RawInside := by
  have hsame : ∀ {y : Extract}, y.raw = x.raw → y.RawInside := by
    intro y hy
    rw [raw, raw, Prod.mk.injEq] at hy
    rw [RawInside, hy.1, hy.2]
    exact h
  rw [parseStep]
  split
  · split
    · split
      · exact fun _ => rfl
      · exact fun _ => rfl
    next hnot =>
    have hempty : x.rawTag = [] := by
      by_contra hne
      rcases Nat.eq_zero_or_pos x.skipDepth with hzero | hpos
      · exact hne (h hzero)
      · exact hnot ⟨hpos, hne⟩
    split
    · exact h
    split
    · exact h
    split
    · dsimp only
      split
      · exact hsame (raw_emitText x _)
      · exact h
    · dsimp only
      split
      · rw [handleCloseTag]
        split
        · exact hsame (raw_closeAnchor x)
        · exact h
        · exact fun _ => hempty
        · exact fun _ => hempty
        · exact fun _ => hempty
        · split
          · exact h
          · exact hsame (raw_iterate_frameClose low _ x i)
        · exact h
      · rw [handleOpenTag]
        split
        · exact fun hzero => absurd hzero (Nat.succ_ne_zero _)
        split
        · split
          · exact h
          · exact h
        split
        · exact h
        split
        · exact h
        · split
          · exact h
          · exact h
        · split
          · exact h
          · exact h
        · exact h
  · dsimp only
    split
    · exact hsame (raw_emitText x _)
    · exact h

theorem ReadsTo.rawInside {i : Nat} {part : List UInt8} (h : ReadsTo low x i part y)
    (hx : x.RawInside) : y.RawInside := by
  induction h with
  | done x i => exact hx
  | @round x y z i part rest hpart hstep _ ih =>
    refine ih ?_
    have hy := @rawInside_parseStep low x hx i (part ++ (rest ++ []))
    rwa [hstep []] at hy

/-- What a page shows: the writer with its output, the title and the table of links. -/
def shown (x : Extract) : Writer × List UInt8 × List (List UInt8) := (x.w, x.title, x.links)

theorem parse_eq (low : Frame → Bool) (page : List UInt8) :
    parse low page = (fun x => x.frameClose low page.length)^[(parseRest low {} 0 page).below.length]
      (parseRest low {} 0 page) := rfl

/-- **Scripts and style sheets leave nothing behind but their length.**  A page with such an element,
behind a part that is read to its end, shows what the page without it does when the frames around the
element are scored at the length that they have with it. -/
theorem shown_rawElement {a b : List UInt8} {E : RawElement} (ha : ReadsTo low {} 0 a x)
    (hskip : x.skipDepth = 0) (hE : E.ReadToEnd) :
    (parse low (a ++ E.bytes ++ b)).shown =
      (parse (low ∘ around a.length E.bytes.length) (a ++ b)).shown := by
  have hstart : SameBut (Before a.length) {} {} :=
    ⟨0, [], rfl, ⟨rfl, Nat.zero_le _⟩, List.Forall₂.nil⟩
  obtain ⟨ha', hx⟩ := @ReadsTo.before low {} x a.length E.bytes.length 0 a ha hstart
    (Nat.le_of_eq (Nat.zero_add _))
  have hraw : x.rawTag = [] := ha.rawInside (fun _ => rfl) hskip
  have hwith : parseRest low {} 0 (a ++ E.bytes ++ b) =
      parseRest low x (a.length + E.bytes.length) b := by
    rw [List.append_assoc, parseRest_of_readsTo ha, Nat.zero_add,
      parseRest_of_readsTo (readsTo_rawElement hE hskip hraw a.length)]
  have hwithout : parseRest (low ∘ around a.length E.bytes.length) {} 0 (a ++ b) =
      parseRest (low ∘ around a.length E.bytes.length) x a.length b := by
    rw [parseRest_of_readsTo ha', Nat.zero_add]
  have hmoved : SameBut (Shifted a.length E.bytes.length) x x :=
    hx.mono fun p q hpq => by
      rw [Shifted, if_pos hpq.2]
      exact hpq.1.symm
  have hrest := @sameBut_parseRest x x a.length E.bytes.length low b.length b (Nat.le_refl _)
    a.length (Nat.le_refl _) hmoved
  have hlength : (a ++ E.bytes ++ b).length = (a ++ b).length + E.bytes.length := by
    simp only [List.length_append]
    omega
  have hclosed := sameBut_iterate_frameClose
    (@scores_shifted a.length E.bytes.length low (a ++ b).length (by
      rw [List.length_append]
      omega)) hrest (parseRest (low ∘ around a.length E.bytes.length) x a.length b).below.length
  rw [parse_eq, parse_eq, hwith, hwithout, hrest.length_below, hlength]
  obtain ⟨p, below, heq, -⟩ := hclosed
  rw [heq]
  rfl

end Page

end Extract

/-! ## The score -/

/-- `tag_weight_of` -/
def tagWeightOf : Option FrameTag → Rat
  | some .article => 3 / 2
  | some .section | some .p => 1
  | some .h1 => 6 / 5
  | some .h2 => 11 / 10
  | some .h3 => 1
  | some .h4 => 9 / 10
  | some .h5 => 4 / 5
  | some .h6 => 7 / 10
  | _ => 1 / 2

/-- `frame_score`, in exact arithmetic with some logarithm. -/
def frameScore (log : Nat → Rat) (f : Frame) : Rat :=
  let tagLen := f.endPos - f.startPos
  let density : Rat := if tagLen > 0 then f.textLen / tagLen else 0
  let linkDensity : Rat := if f.textLen > 0 then 1 - f.linkTextLen / f.textLen else 0
  let linkDensity := if linkDensity < 0 then 0 else linkDensity
  let classScore : Rat := if f.classNeg then -1 / 2 else 0
  let textLength := log (f.textLen + 1)
  2 / 5 * density + 1 / 5 * linkDensity + 1 / 5 * tagWeightOf f.tagId + 1 / 10 * classScore +
    1 / 10 * textLength

/-- `SCORE_THRESHOLD` -/
def scoreThreshold : Rat := 12 / 25

namespace Extract

/-- Raw-text elements of a kind are invisible: a page shows the same without them. -/
def Invisible (low : Frame → Bool) (kind : RawElement → Prop) : Prop :=
  ∀ (a b : List UInt8) (x : Extract) (E : RawElement), ReadsTo low {} 0 a x → x.skipDepth = 0 →
    kind E → (parse low (a ++ E.bytes ++ b)).shown = (parse low (a ++ b)).shown

/-- The frames below the threshold, where only the logarithm of three is taken. -/
def lowOfThree (f : Frame) : Bool := frameScore (fun _ => 10986 / 10000) f < scoreThreshold

/-- A script whose name is spelled alike in both tags. -/
def callScript : RawElement where
  name := ascii "script"
  content := ascii "f(1, 2, 3)"
  closeName := ascii "script"

/-- A script whose name is in upper case in the opening tag only. -/
def upperScript : RawElement where
  name := ascii "SCRIPT"
  closeName := ascii "script"

/-- Behind the tag of a heading. -/
theorem readsTo_heading (low : Frame → Bool) :
    ReadsTo low {} 0 (ascii "<h6>") (handleOpenTag {} (ascii "h6") 3) := by
  have hbytes : ascii "<h6>" = (60 :: [104, 54] ++ [62]) ++ [] := ascii_ofList _
  have hname : ascii "h6" = [104, 54] := ascii_ofList _
  have hquoted : Quoted [104, 54] := rfl
  rw [hbytes, hname]
  exact ReadsTo.round (List.cons_ne_nil _ _)
    (fun more => parseStep_tag (by decide) (by decide) hquoted 0 _) (ReadsTo.done _ _)

theorem skipDepth_heading : (handleOpenTag {} (ascii "h6") 3).skipDepth = 0 := by decide +kernel

theorem wellFormed_callScript : callScript.WellFormed where
  kind := Or.inl (by rw [callScript, ascii_ofList]; rfl)
  closes := rfl
  quoted := rfl
  behind := nofun
  quotedTail := rfl
  behindTail := nofun
  content := by
    rw [callScript, ascii_ofList, ascii_ofList]
    decide +kernel

theorem wellFormed_upperScript : upperScript.WellFormed where
  kind := Or.inl (by rw [upperScript, ascii_ofList, ascii_ofList]; rfl)
  closes := by rw [upperScript, ascii_ofList, ascii_ofList]; rfl
  quoted := rfl
  behind := nofun
  quotedTail := rfl
  behindTail := nofun
  content := fun h => absurd (List.infix_nil.1 h) nofun

/-- A short heading is dropped for the length of the script in it.  And behind a script whose name is
spelled in two ways nothing of the page is read. -/
theorem not_invisible :
    ¬Invisible lowOfThree (fun E => E.WellFormed ∧ E.closeName = E.name) ∧
      ¬Invisible lowOfThree (fun E => E.WellFormed ∧ E.closeName ≠ E.name) := by
  have hheading : (parse lowOfThree (ascii "<h6>" ++ ascii "Hi</h6>")).shown.1.out = ascii "Hi" := by
    decide +kernel
  have hcall : (parse lowOfThree (ascii "<h6>" ++ callScript.bytes ++ ascii "Hi</h6>")).shown.1.out =
      [] := by
    decide +kernel
  have hupper : (parse lowOfThree (ascii "<h6>" ++ upperScript.bytes ++
      ascii "Hi</h6>")).shown.1.out = [] := by
    decide +kernel
  constructor
  · intro h
    have hsame := h _ (ascii "Hi</h6>") _ callScript (readsTo_heading lowOfThree) skipDepth_heading
      ⟨wellFormed_callScript, rfl⟩
    rw [hsame, hheading] at hcall
    exact absurd hcall (by decide +kernel)
  · intro h
    have hsame := h _ (ascii "Hi</h6>") _ upperScript (readsTo_heading lowOfThree) skipDepth_heading
      ⟨wellFormed_upperScript, by decide +kernel⟩
    rw [hsame, hheading] at hupper
    exact absurd hupper (by decide +kernel)

/-- The heading with the script, scored at its whole length. -/
theorem shown_rawElement_call :
    (parse lowOfThree (ascii "<h6>" ++ callScript.bytes ++ ascii "Hi</h6>")).shown =
      (parse (lowOfThree ∘ around 4 callScript.bytes.length) (ascii "<h6>" ++ ascii "Hi</h6>")).shown :=
  shown_rawElement (readsTo_heading lowOfThree) skipDepth_heading
    (wellFormed_callScript.readToEnd rfl)

end Extract

end EchoAi.Html
