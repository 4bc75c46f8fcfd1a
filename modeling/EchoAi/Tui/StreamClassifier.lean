import EchoAi.Bytes
import EchoAi.Marks
import EchoAi.Splitting

/-!
# Thinking and answer

A reply comes in chunks, and the markers `<think>` and `</think>` in it say what is thinking.  A
marker may be cut anywhere.

* `tuiStreamClassifierFeed`, `tuiStreamClassifierFlush`: the classifier.
* `thinkMarks`: what the whole text says, by its markers.
* `shown_classify`: what one feed emits and keeps back.
* `shown_emitted`: the classifier emits what the whole text says, however the text is sliced.

Texts are the bytes of C strings.  The classifier, the chunks and the arrays of parts are not absent.
-/

namespace EchoAi.Tui

/-- `OPEN_MARKER` and `CLOSE_MARKER` -/
def marker (opens : Bool) : List UInt8 := if opens then ascii "<think>" else ascii "</think>"

/-- `TuiStreamPartKind` -/
inductive TuiStreamPartKind where
  | content
  | think
  deriving DecidableEq, Repr

/-- `TuiStreamPart` -/
structure TuiStreamPart where
  kind : TuiStreamPartKind
  bytes : List UInt8
  deriving DecidableEq, Repr

/-- `TuiStreamClassifier`, with the size of its scratch buffer. -/
structure TuiStreamClassifier where
  scratchCap : Nat
  carry : List UInt8
  inThink : Bool
  deriving DecidableEq, Repr

/-- `tui_stream_classifier_create` -/
def tuiStreamClassifierCreate : TuiStreamClassifier where
  scratchCap := 0
  carry := []
  inThink := false

/-- The kind of the text in a state. -/
def partKind (inThink : Bool) : TuiStreamPartKind := if inThink then .think else .content

/-- A byte that separates a marker from the text around it. -/
def isSeparator (c : UInt8) : Bool := c = 10 || c = 32

/-- The loop of `carry_prefix_len` for one marker: the longest end of `s` of at most `k` bytes, and
more than `best`, that the marker begins with. -/
def longerEnd (mark s : List UInt8) (best : Nat) : (k : Nat) → Nat
  | 0 => best
  | k + 1 =>
    if best < k + 1 then
      if s.drop (s.length - (k + 1)) = mark.take (k + 1) then k + 1 else longerEnd mark s best k
    else best

/-- `carry_prefix_len` -/
def carryPrefixLen (s : List UInt8) : Nat :=
  let best := longerEnd (marker true) s 0 (min s.length ((marker true).length - 1))
  longerEnd (marker false) s best (min s.length ((marker false).length - 1))

/-- `trim_trailing` -/
def trimTrailing (s : List UInt8) : List UInt8 := s.rdropWhile isSeparator

/-- `skip_leading` -/
def skipLeading (s : List UInt8) : List UInt8 := s.dropWhile isSeparator

/-- `add_part` -/
def addPart (cap : Nat) (parts : List TuiStreamPart) (kind : TuiStreamPartKind)
    (bytes : List UInt8) : List TuiStreamPart :=
  if bytes = [] then parts
  else if cap ≤ parts.length then parts
  else parts ++ [⟨kind, bytes⟩]

/-- The marker that the loop of `tui_stream_classifier_feed` finds: where it stands, and whether it
opens a block. -/
def nextMarker (buf : List UInt8) : Option (Nat × Bool) :=
  match firstInfix (marker true) buf, firstInfix (marker false) buf with
  | some opening, none => some (opening, true)
  | some opening, some closing =>
    if opening ≤ closing then some (opening, true) else some (closing, false)
  | none, some closing => some (closing, false)
  | none, none => none

theorem nextMarker_stands {buf : List UInt8} {pre : Nat} {opens : Bool}
    (h : nextMarker buf = some (pre, opens)) : marker opens <+: buf.drop pre := by
  rw [nextMarker] at h
  split at h
  · next hopen _ =>
    obtain ⟨rfl, rfl⟩ := Prod.mk.inj (Option.some.inj h)
    exact isPrefix_of_firstInfix hopen
  · next hopen hclose =>
    split at h
    · obtain ⟨rfl, rfl⟩ := Prod.mk.inj (Option.some.inj h)
      exact isPrefix_of_firstInfix hopen
    · obtain ⟨rfl, rfl⟩ := Prod.mk.inj (Option.some.inj h)
      exact isPrefix_of_firstInfix hclose
  · next hclose =>
    obtain ⟨rfl, rfl⟩ := Prod.mk.inj (Option.some.inj h)
    exact isPrefix_of_firstInfix hclose
  · exact absurd h (by simp)

theorem length_marker_pos (opens : Bool) : 0 < (marker opens).length := by cases opens <;> decide

/-- A marker that was found ends within the buffer. -/
theorem nextMarker_le {buf : List UInt8} {pre : Nat} {opens : Bool}
    (h : nextMarker buf = some (pre, opens)) : pre + (marker opens).length ≤ buf.length := by
  have hle := (nextMarker_stands h).length_le
  have hpos := length_marker_pos opens
  rw [List.length_drop] at hle
  omega

/-- The loop of `tui_stream_classifier_feed` on the bytes from `pos` on: the parts, the state, and
what is carried. -/
def classify (cap : Nat) (state : Bool) (buf : List UInt8) (parts : List TuiStreamPart) :
    List TuiStreamPart × Bool × List UInt8 :=
  if buf = [] then (parts, state, [])
  else
    match _ : nextMarker buf with
    | none =>
      let rest := buf.length - carryPrefixLen buf
      (addPart cap parts (partKind state) (buf.take rest), state, buf.drop rest)
    | some (pre, opens) =>
      classify cap opens (skipLeading (buf.drop (pre + (marker opens).length)))
        (addPart cap parts (partKind state) (trimTrailing (buf.take pre)))
termination_by buf.length
decreasing_by
  next h =>
  have hle := nextMarker_le h
  have hpos := length_marker_pos opens
  have hskip := length_dropWhile_le isSeparator (buf.drop (pre + (marker opens).length))
  rw [List.length_drop] at hskip
  rw [skipLeading]
  omega

/-- `tui_stream_classifier_feed`, where the growth of the scratch buffer may fail. -/
def tuiStreamClassifierFeed (fails : Bool) (cls : TuiStreamClassifier) (chunk : List UInt8)
    (cap : Nat) : List TuiStreamPart × TuiStreamClassifier :=
  if cap < 1 then ([], cls)
  else if chunk = [] then ([], cls)
  else
    let need := cls.carry.length + chunk.length + 1
    if cls.scratchCap < need ∧ fails then
      let parts := addPart cap [] (partKind cls.inThink) cls.carry
      (addPart cap parts .content chunk, { cls with carry := [] })
    else
      let scratchCap :=
        if cls.scratchCap < need then
          grownCap (if cls.scratchCap = 0 then 256 else cls.scratchCap) need
        else cls.scratchCap
      let (parts, inThink, carry) := classify cap cls.inThink (cls.carry ++ chunk) []
      (parts, { scratchCap, carry, inThink })

/-- `tui_stream_classifier_flush` -/
def tuiStreamClassifierFlush (cls : TuiStreamClassifier) :
    List TuiStreamPart × TuiStreamClassifier :=
  if cls.carry = [] then ([], cls)
  else ([⟨partKind cls.inThink, cls.carry⟩], { cls with carry := [] })

/-- A chunk, the array for its parts, and whether the scratch buffer fails to grow. -/
structure Feed where
  chunk : List UInt8
  cap : Nat
  fails : Bool

/-- One feed. -/
def TuiStreamClassifier.feed (cls : TuiStreamClassifier) (f : Feed) :
    List TuiStreamPart × TuiStreamClassifier :=
  tuiStreamClassifierFeed f.fails cls f.chunk f.cap

/-- The parts that come out of some feeds and a flush. -/
def emitted (cls : TuiStreamClassifier) : (feeds : List Feed) → List TuiStreamPart
  | [] => (tuiStreamClassifierFlush cls).1
  | f :: feeds => (cls.feed f).1 ++ emitted (cls.feed f).2 feeds

/-- The array has a slot for every part: with one more slot no more of them are used. -/
def HasRoom (cls : TuiStreamClassifier) (f : Feed) : Prop :=
  0 < f.cap ∧ (cls.feed { f with cap := f.cap + 1 }).1.length ≤ f.cap

/-- Every array has a slot for every part, and the scratch buffer always grows. -/
def Roomy (cls : TuiStreamClassifier) : (feeds : List Feed) → Prop
  | [] => True
  | f :: feeds => f.fails = false ∧ HasRoom cls f ∧ Roomy (cls.feed f).2 feeds

/-! ## What the whole text says -/

/-- The markers, and the kind of the text behind each. -/
def thinkMarks : Marks UInt8 TuiStreamPartKind where
  entries := [(marker true, .think), (marker false, .content)]
  sign := 60
  begins := by
    intro m hm
    rcases List.mem_pair.1 hm with rfl | rfl
    · exact ⟨ascii "think>", by decide, by decide⟩
    · exact ⟨ascii "/think>", by decide, by decide⟩
  apart := by decide

/-- The bytes of a text that separate nothing. -/
def visible (text : List (TuiStreamPartKind × UInt8)) : List (TuiStreamPartKind × UInt8) :=
  text.filter fun c => !isSeparator c.2

/-- The bytes of some parts, each with its kind. -/
def classified (parts : List TuiStreamPart) : List (TuiStreamPartKind × UInt8) :=
  parts.flatMap fun part => part.bytes.map (part.kind, ·)

/-! ## What one feed keeps back -/

/-- A text that begins a marker and does not complete it. -/
def Unfinished (carry : List UInt8) : Prop := ∃ opens, carry <+: (marker opens).dropLast

theorem unfinished_nil : Unfinished [] := ⟨true, List.nil_prefix⟩

theorem isPrefix_dropLast_iff {mark s : List UInt8} (hmark : mark ≠ []) :
    s <+: mark.dropLast ↔ s <+: mark ∧ s.length < mark.length := by
  have hlen : mark.dropLast.length + 1 = mark.length := by
    have hpos := List.length_pos_iff.2 hmark
    rw [List.length_dropLast]
    omega
  constructor
  · intro h
    have hle := h.length_le
    exact ⟨h.trans (List.dropLast_prefix mark), by omega⟩
  · rintro ⟨h, hlt⟩
    exact List.prefix_of_prefix_length_le h (List.dropLast_prefix mark) (by omega)

section LongerEnd

variable {mark s : List UInt8} {best k : Nat}

theorem le_longerEnd : best ≤ longerEnd mark s best k := by
  induction k with
  | zero => exact Nat.le_refl best
  | succ k ih =>
    rw [longerEnd]
    split
    · split <;> omega
    · exact Nat.le_refl best

/-- The result is the length of an end of the text that begins the marker, or what it was. -/
theorem longerEnd_stands : longerEnd mark s best k = best ∨ longerEnd mark s best k ≤ k ∧
    s.drop (s.length - longerEnd mark s best k) = mark.take (longerEnd mark s best k) := by
  induction k with
  | zero => exact Or.inl rfl
  | succ k ih =>
    rw [longerEnd]
    split
    · split
      · next h => exact Or.inr ⟨Nat.le_refl _, h⟩
      · exact ih.imp_right fun h => ⟨Nat.le_succ_of_le h.1, h.2⟩
    · exact Or.inl rfl

/-- No end that begins the marker is longer. -/
theorem le_longerEnd_of_stands {j : Nat} (hj : j ≤ k) (h : s.drop (s.length - j) = mark.take j) :
    j ≤ longerEnd mark s best k := by
  induction k with
  | zero => omega
  | succ k ih =>
    rw [longerEnd]
    split
    · split
      · exact hj
      · next hnot =>
        have hne : j ≠ k + 1 := by
          rintro rfl
          exact hnot h
        exact ih (by omega)
    · omega

end LongerEnd

/-- What is kept back begins a marker. -/
theorem unfinished_carry (s : List UInt8) : Unfinished (s.drop (s.length - carryPrefixLen s)) := by
  have hend : ∀ (opens : Bool) (n : Nat), n ≤ min s.length ((marker opens).length - 1) →
      s.drop (s.length - n) = (marker opens).take n → Unfinished (s.drop (s.length - n)) := by
    intro opens n hn h
    refine ⟨opens, ?_⟩
    rw [h, isPrefix_dropLast_iff (List.length_pos_iff.1 (length_marker_pos opens))]
    refine ⟨List.take_prefix _ _, ?_⟩
    have hpos := length_marker_pos opens
    rw [List.length_take]
    omega
  rw [carryPrefixLen]
  rcases @longerEnd_stands (marker false) s
    (longerEnd (marker true) s 0 (min s.length ((marker true).length - 1)))
    (min s.length ((marker false).length - 1)) with h | ⟨hle, h⟩
  · rw [h]
    rcases @longerEnd_stands (marker true) s 0 (min s.length ((marker true).length - 1)) with
      h | ⟨hle, h⟩
    · rw [h, Nat.sub_zero, List.drop_length]
      exact unfinished_nil
    · exact hend true _ hle h
  · exact hend false _ hle h

/-- An end of the text that begins a marker is kept back. -/
theorem le_carryPrefixLen {s : List UInt8} {opens : Bool} {j : Nat} (hj : j ≤ s.length)
    (h : s.drop (s.length - j) <+: (marker opens).dropLast) : j ≤ carryPrefixLen s := by
  rw [isPrefix_dropLast_iff (List.length_pos_iff.1 (length_marker_pos opens))] at h
  have hlen : (s.drop (s.length - j)).length = j := by
    rw [List.length_drop]
    omega
  have htake : s.drop (s.length - j) = (marker opens).take j := by
    have heq := List.prefix_iff_eq_take.1 h.1
    rwa [hlen] at heq
  rw [hlen] at h
  rw [carryPrefixLen]
  cases opens with
  | true =>
    exact (@le_longerEnd_of_stands (marker true) s 0 _ j (by omega) htake).trans le_longerEnd
  | false => exact le_longerEnd_of_stands (by omega) htake

/-! ## The next marker -/

/-- The marker that is found stands before every other one. -/
theorem nextMarker_of_stands {buf : List UInt8} {i : Nat} {opens : Bool}
    (h : marker opens <+: buf.drop i) : ∃ pre ≤ i, ∃ first, nextMarker buf = some (pre, first) := by
  obtain ⟨j, hj, hfound⟩ := exists_firstInfix h
  rw [nextMarker]
  cases opens with
  | true =>
    rw [hfound]
    cases firstInfix (marker false) buf with
    | none => exact ⟨j, hj, true, rfl⟩
    | some closing =>
      dsimp only
      split
      · exact ⟨j, hj, true, rfl⟩
      · exact ⟨closing, by omega, false, rfl⟩
  | false =>
    rw [hfound]
    cases firstInfix (marker true) buf with
    | none => exact ⟨j, hj, false, rfl⟩
    | some opening =>
      dsimp only
      split
      · exact ⟨opening, by omega, true, rfl⟩
      · exact ⟨j, hj, false, rfl⟩

theorem exists_of_mem_thinkMarks {m : List UInt8 × TuiStreamPartKind}
    (hm : m ∈ thinkMarks.entries) : ∃ opens, m = (marker opens, partKind opens) := by
  rcases List.mem_pair.1 hm with rfl | rfl
  · exact ⟨true, rfl⟩
  · exact ⟨false, rfl⟩

theorem mem_thinkMarks (opens : Bool) : (marker opens, partKind opens) ∈ thinkMarks.entries := by
  cases opens <;> decide

/-- Without a marker in the buffer, none begins in front of what is kept back, whatever comes. -/
theorem free_of_nextMarker_none {buf : List UInt8} (h : nextMarker buf = none)
    (more : List UInt8) :
    thinkMarks.Free (buf.take (buf.length - carryPrefixLen buf))
      (buf.drop (buf.length - carryPrefixLen buf) ++ more) := by
  refine Marks.free_of_unfinished (fun m hm hin => ?_) (fun i hi m hm hend => ?_) more
  · obtain ⟨opens, rfl⟩ := exists_of_mem_thinkMarks hm
    rw [List.take_append_drop] at hin
    obtain ⟨l, r, rfl⟩ := hin
    obtain ⟨pre, -, first, hfound⟩ := @nextMarker_of_stands (l ++ marker opens ++ r) l.length opens
      (by rw [List.append_assoc, List.drop_left]; exact List.prefix_append _ _)
    rw [h] at hfound
    exact absurd hfound (by simp)
  · obtain ⟨opens, rfl⟩ := exists_of_mem_thinkMarks hm
    rw [List.take_append_drop] at hend
    rw [List.length_take] at hi
    -- such an end would be kept back
    have hproper : buf.drop i ≠ marker opens := by
      intro heq
      obtain ⟨pre, -, first, hfound⟩ := @nextMarker_of_stands buf i opens (heq ▸ List.prefix_rfl)
      rw [h] at hfound
      exact absurd hfound (by simp)
    have hshort : (buf.drop i).length < (marker opens).length :=
      Nat.lt_of_le_of_ne hend.length_le fun heq => hproper (hend.eq_of_length heq)
    have hkept := @le_carryPrefixLen buf opens (buf.length - i) (Nat.sub_le _ _) (by
      rw [Nat.sub_sub_self (by omega),
        isPrefix_dropLast_iff (List.length_pos_iff.1 (length_marker_pos opens))]
      exact ⟨hend, hshort⟩)
    omega

/-- In front of the marker that is found none begins, whatever comes. -/
theorem scan_of_nextMarker {buf : List UInt8} {pre : Nat} {opens : Bool}
    (h : nextMarker buf = some (pre, opens)) (kind : TuiStreamPartKind) (more : List UInt8) :
    thinkMarks.scan kind (buf ++ more) = (buf.take pre).map (kind, ·) ++
      thinkMarks.scan (partKind opens) (buf.drop (pre + (marker opens).length) ++ more) := by
  obtain ⟨rest, hrest⟩ := nextMarker_stands h
  have hle := nextMarker_le h
  have hfront : (buf.take pre).length = pre := by
    rw [List.length_take]
    omega
  have hbuf : buf = buf.take pre ++ (marker opens ++ rest) := by
    rw [hrest, List.take_append_drop]
  have hbehind : buf.drop (pre + (marker opens).length) = rest := by
    rw [← List.drop_drop, ← hrest, List.drop_left]
  have hfirst : thinkMarks.Free (buf.take pre) (marker opens ++ rest) := by
    intro i hi m hm hstand
    obtain ⟨opens', rfl⟩ := exists_of_mem_thinkMarks hm
    rw [← hbuf] at hstand
    obtain ⟨pre', hpre', first, hfound⟩ := nextMarker_of_stands hstand
    rw [h] at hfound
    have heq := congrArg Prod.fst (Option.some.inj hfound)
    dsimp only at heq
    omega
  have hfree := Marks.free_of_first (mem_thinkMarks opens) hfirst more
  have hmark : thinkMarks.scan kind (marker opens ++ (rest ++ more)) =
      thinkMarks.scan (partKind opens) (rest ++ more) := Marks.scan_mark (mem_thinkMarks opens) _
  calc thinkMarks.scan kind (buf ++ more)
      = thinkMarks.scan kind (buf.take pre ++ (marker opens ++ (rest ++ more))) := by
        conv_lhs => rw [hbuf]
        rw [List.append_assoc, List.append_assoc]
    _ = (buf.take pre).map (kind, ·) ++ thinkMarks.scan (partKind opens) (rest ++ more) := by
        rw [Marks.scan_append_of_free hfree, hmark]
    _ = _ := by rw [hbehind]

/-! ## What is shown -/

theorem visible_append (front rest : List (TuiStreamPartKind × UInt8)) :
    visible (front ++ rest) = visible front ++ visible rest :=
  List.filter_append _ _

theorem classified_append (front rest : List TuiStreamPart) :
    classified (front ++ rest) = classified front ++ classified rest :=
  List.flatMap_append

theorem visible_map (kind : TuiStreamPartKind) (s : List UInt8) :
    visible (s.map (kind, ·)) = (s.filter fun c => !isSeparator c).map (kind, ·) :=
  List.filter_map

/-- What is skipped is not shown. -/
theorem filter_skipLeading (s : List UInt8) :
    (skipLeading s).filter (fun c => !isSeparator c) = s.filter fun c => !isSeparator c := by
  have hskipped : (s.takeWhile isSeparator).filter (fun c => !isSeparator c) = [] := by
    refine List.filter_eq_nil_iff.2 fun c hc => ?_
    rw [List.mem_takeWhile_imp hc]
    decide
  conv_rhs => rw [← @List.takeWhile_append_dropWhile _ isSeparator s, List.filter_append, hskipped]
  rfl

theorem filter_trimTrailing (s : List UInt8) :
    (trimTrailing s).filter (fun c => !isSeparator c) = s.filter fun c => !isSeparator c := by
  rw [trimTrailing, List.rdropWhile, List.filter_reverse, ← List.reverse_inj, List.reverse_reverse,
    ← List.filter_reverse]
  exact filter_skipLeading s.reverse

/-- Separators behind a marker are not shown, and they begin none. -/
theorem visible_scan_skipLeading (kind : TuiStreamPartKind) (s more : List UInt8) :
    visible (thinkMarks.scan kind (skipLeading s ++ more)) =
      visible (thinkMarks.scan kind (s ++ more)) := by
  have hsign : thinkMarks.sign ∉ s.takeWhile isSeparator := by
    intro hmem
    exact absurd (List.mem_takeWhile_imp hmem) (by decide)
  have hskipped : visible ((s.takeWhile isSeparator).map (kind, ·)) = [] := by
    rw [visible_map, List.map_eq_nil_iff, List.filter_eq_nil_iff]
    intro c hc
    rw [List.mem_takeWhile_imp hc]
    decide
  conv_rhs => rw [← @List.takeWhile_append_dropWhile _ isSeparator s, List.append_assoc,
    Marks.scan_append_of_free (Marks.free_of_sign_notMem hsign _), visible_append, hskipped]
  rfl

section AddPart

variable {cap : Nat} {parts : List TuiStreamPart} {kind : TuiStreamPartKind} {bytes : List UInt8}

theorem length_le_addPart : parts.length ≤ (addPart cap parts kind bytes).length := by
  rw [addPart]
  split
  · exact Nat.le_refl _
  · split
    · exact Nat.le_refl _
    · rw [List.length_append]
      exact Nat.le_add_right _ _

/-- As long as there is a slot left the bytes are kept. -/
theorem classified_addPart (h : (addPart cap parts kind bytes).length < cap) :
    classified (addPart cap parts kind bytes) = classified parts ++ bytes.map (kind, ·) := by
  have hle := length_le_addPart.trans_lt h
  rw [addPart]
  split
  · next hnil => rw [hnil, List.map_nil, List.append_nil]
  · rw [if_neg (by omega), classified_append]
    rw [show classified [⟨kind, bytes⟩] = bytes.map (kind, ·) ++ [] from rfl, List.append_nil]

/-- More slots than are used change nothing. -/
theorem addPart_of_length_le {cap' : Nat} (hcap : cap ≤ cap')
    (h : (addPart cap' parts kind bytes).length ≤ cap) :
    addPart cap parts kind bytes = addPart cap' parts kind bytes := by
  rw [addPart, addPart]
  rw [addPart] at h
  split
  · rfl
  · next hne =>
    rw [if_neg hne] at h
    split at h
    · next hfull => rw [if_pos hfull, if_pos (hcap.trans hfull)]
    · next hroom =>
      rw [List.length_append, List.length_singleton] at h
      rw [if_neg hroom, if_neg (by omega)]

end AddPart

section Classify

variable {cap : Nat} {state : Bool} {buf : List UInt8} {parts : List TuiStreamPart}

theorem length_le_classify : parts.length ≤ (classify cap state buf parts).1.length := by
  fun_induction classify cap state buf parts with
  | case1 => exact Nat.le_refl _
  | case2 => exact length_le_addPart
  | case3 state buf parts hne pre opens h ih => exact length_le_addPart.trans ih

theorem unfinished_classify : Unfinished (classify cap state buf parts).2.2 := by
  fun_induction classify cap state buf parts with
  | case1 => exact unfinished_nil
  | case2 => exact unfinished_carry _
  | case3 state buf parts hne pre opens h ih => exact ih

theorem classify_of_length_le {cap' : Nat} (hcap : cap ≤ cap')
    (h : (classify cap' state buf parts).1.length ≤ cap) :
    classify cap state buf parts = classify cap' state buf parts := by
  fun_induction classify cap' state buf parts with
  | case1 => rw [classify, if_pos rfl]
  | case2 state buf parts hne hnone rest =>
    rw [classify, if_neg hne]
    split
    · rw [← addPart_of_length_le hcap h]
    · next hsome => exact absurd (hnone.symm.trans hsome) (by simp)
  | case3 state buf parts hne pre opens hsome ih =>
    rw [classify, if_neg hne]
    split
    · next hnone => exact absurd (hnone.symm.trans hsome) (by simp)
    · next heq =>
      obtain ⟨rfl, rfl⟩ := Prod.mk.inj (Option.some.inj (heq.symm.trans hsome))
      rw [addPart_of_length_le hcap (length_le_classify.trans h)]
      exact ih h

/-- What one feed emits and keeps back says, with any text behind it, what the buffer says. -/
theorem shown_classify (h : (classify cap state buf parts).1.length < cap) (more : List UInt8) :
    visible (classified (classify cap state buf parts).1) ++
        visible (thinkMarks.scan (partKind (classify cap state buf parts).2.1)
          ((classify cap state buf parts).2.2 ++ more)) =
      visible (classified parts) ++
        visible (thinkMarks.scan (partKind state) (buf ++ more)) := by
  fun_induction classify cap state buf parts with
  | case1 => rfl
  | case2 state buf parts hne hnone rest =>
    have hscan : thinkMarks.scan (partKind state) (buf ++ more) =
        (buf.take rest).map (partKind state, ·) ++
          thinkMarks.scan (partKind state) (buf.drop rest ++ more) := by
      conv_lhs => rw [← List.take_append_drop rest buf, List.append_assoc]
      exact Marks.scan_append_of_free (free_of_nextMarker_none hnone more)
    rw [classified_addPart h, hscan, visible_append, visible_append, List.append_assoc]
  | case3 state buf parts hne pre opens hsome ih =>
    have hadd := classified_addPart (length_le_classify.trans_lt h)
    have htrim : visible ((trimTrailing (buf.take pre)).map (partKind state, ·)) =
        visible ((buf.take pre).map (partKind state, ·)) := by
      rw [visible_map, visible_map, filter_trimTrailing]
    rw [ih h, hadd, visible_append, htrim, visible_scan_skipLeading, scan_of_nextMarker hsome,
      visible_append, List.append_assoc]

end Classify

/-! ## However the text is sliced -/

/-- A text that completes no marker is shown. -/
theorem scan_of_unfinished {carry : List UInt8} (h : Unfinished carry) (kind : TuiStreamPartKind) :
    thinkMarks.scan kind carry = carry.map (kind, ·) := by
  have hall : ∀ opens : Bool, ∀ c ∈ (marker opens).dropLast.inits,
      thinkMarks.scan .think c = c.map (.think, ·) ∧
        thinkMarks.scan .content c = c.map (.content, ·) := by decide +kernel
  obtain ⟨opens, hcarry⟩ := h
  obtain ⟨hthink, hcontent⟩ := hall opens carry (List.mem_inits _ _ |>.2 hcarry)
  cases kind with
  | content => exact hcontent
  | think => exact hthink

/-- What is kept back fits its array. -/
theorem length_le_of_unfinished {carry : List UInt8} (h : Unfinished carry) : carry.length < 8 := by
  obtain ⟨opens, hcarry⟩ := h
  have hle := hcarry.length_le
  have hmarker : (marker opens).dropLast.length < 8 := by cases opens <;> decide
  omega

section Feed

variable {cls : TuiStreamClassifier} {f : Feed}

theorem unfinished_feed (h : Unfinished cls.carry) : Unfinished (cls.feed f).2.carry := by
  rw [TuiStreamClassifier.feed, tuiStreamClassifierFeed]
  split
  · exact h
  · split
    · exact h
    · dsimp only
      split
      · exact unfinished_nil
      · exact unfinished_classify

/-- A feed into an array, without a failure. -/
theorem feed_eq (hgrows : f.fails = false) (hcap : 0 < f.cap) (hchunk : f.chunk ≠ []) :
    ∃ scratchCap, cls.feed f =
      let (parts, inThink, carry) := classify f.cap cls.inThink (cls.carry ++ f.chunk) []
      (parts, { scratchCap, carry, inThink }) := by
  rw [TuiStreamClassifier.feed, tuiStreamClassifierFeed, if_neg (by omega), if_neg hchunk]
  dsimp only
  rw [hgrows, if_neg (by simp)]
  exact ⟨_, rfl⟩

/-- What a feed emits and keeps back says what the text up to its end says. -/
theorem shown_feed (hgrows : f.fails = false) (hroom : HasRoom cls f) (more : List UInt8) :
    visible (classified (cls.feed f).1) ++
        visible (thinkMarks.scan (partKind (cls.feed f).2.inThink)
          ((cls.feed f).2.carry ++ more)) =
      visible (thinkMarks.scan (partKind cls.inThink) (cls.carry ++ (f.chunk ++ more))) := by
  obtain ⟨hcap, hfits⟩ := hroom
  by_cases hchunk : f.chunk = []
  · have hsame : cls.feed f = ([], cls) := by
      rw [TuiStreamClassifier.feed, tuiStreamClassifierFeed, if_neg (by omega), if_pos hchunk]
    rw [hsame, hchunk]
    rfl
  · obtain ⟨_, hmore⟩ := @feed_eq cls { f with cap := f.cap + 1 } hgrows (Nat.succ_pos _) hchunk
    obtain ⟨_, hfeed⟩ := @feed_eq cls f hgrows hcap hchunk
    rw [hmore] at hfits
    have hlast := shown_classify (Nat.lt_succ_of_le hfits) more
    rw [← classify_of_length_le (Nat.le_succ f.cap) hfits] at hlast
    rw [hfeed]
    refine hlast.trans ?_
    rw [List.append_assoc]
    rfl

end Feed

/-- From any state on, the classifier emits what it keeps back and the text behind say. -/
theorem shown_emitted_from {cls : TuiStreamClassifier} (hcls : Unfinished cls.carry)
    {feeds : List Feed} (hroomy : Roomy cls feeds) :
    visible (classified (emitted cls feeds)) =
      visible (thinkMarks.scan (partKind cls.inThink)
        (cls.carry ++ (feeds.map Feed.chunk).flatten)) := by
  induction feeds generalizing cls with
  | nil =>
    show _ = visible (thinkMarks.scan (partKind cls.inThink) (cls.carry ++ []))
    rw [List.append_nil, scan_of_unfinished hcls, emitted, tuiStreamClassifierFlush]
    split
    · next hnil =>
      rw [hnil]
      rfl
    · show visible (cls.carry.map (partKind cls.inThink, ·) ++ []) = _
      rw [List.append_nil]
  | cons f feeds ih =>
    obtain ⟨hgrows, hroom, hrest⟩ := hroomy
    rw [emitted, classified_append, visible_append, ih (unfinished_feed hcls) hrest,
      shown_feed hgrows hroom, List.map_cons, List.flatten_cons]

/-- The classifier emits what the whole text says, however the text is sliced. -/
theorem shown_emitted (feeds : List Feed) (hroomy : Roomy tuiStreamClassifierCreate feeds) :
    visible (classified (emitted tuiStreamClassifierCreate feeds)) =
      visible (thinkMarks.scan .content (feeds.map Feed.chunk).flatten) :=
  shown_emitted_from unfinished_nil hroomy

/-- A marker cut into three chunks, with a marker that is not finished at the end. -/
theorem shown_emitted_sliced :
    let feeds : List Feed :=
      [⟨ascii "a <th", 4, false⟩, ⟨ascii "ink", 4, false⟩, ⟨ascii ">b</think>c</thi", 4, false⟩]
    Roomy tuiStreamClassifierCreate feeds ∧
      visible (classified (emitted tuiStreamClassifierCreate feeds)) =
        visible (thinkMarks.scan .content (feeds.map Feed.chunk).flatten) := by
  intro feeds
  have hroomy : Roomy tuiStreamClassifierCreate feeds := by
    refine ⟨rfl, ⟨by decide, ?_⟩, rfl, ⟨by decide, ?_⟩, rfl, ⟨by decide, ?_⟩, trivial⟩ <;>
      decide +kernel
  exact ⟨hroomy, shown_emitted feeds hroomy⟩

end EchoAi.Tui
