import EchoAi.Server.HttpParse

/-!
# The framing of a request

The length of the body is taken from the header just when the framing is safe.

* `HeaderBlock`: the lines of a header, each with its end, and the blank line.
* `IsHeader`, `Denotes`: a line with a name, and a value that is a number between blanks.
* `Framed`: no transfer encoding, and at most one length, which is a number within the limit.
* `parseSize_digits`: reading digits stops before the number gets too large for a `size_t`.
* `parseContentLength_iff`: a header is accepted just when it is framed.
-/

namespace EchoAi

/-! ## Headers -/

/-- The lines of a header. -/
structure HeaderBlock where
  lines : List (List UInt8)
  noEnd : ∀ line ∈ lines, ¬crlf <:+: line

/-- A header as it is received, with the blank line behind it. -/
def HeaderBlock.bytes (block : HeaderBlock) : List UInt8 :=
  (block.lines ++ [[]]).flatMap (· ++ crlf)

/-- A line with this name in front of its first colon, in any case of letters, and this value. -/
def HasValue (name : String) (line value : List UInt8) : Prop :=
  ∃ front, line = front ++ ':'.toUInt8 :: value ∧ ':'.toUInt8 ∉ front ∧
    front.map lowerByte = (ascii name).map lowerByte

/-- A line with this name. -/
def IsHeader (name : String) (line : List UInt8) : Prop := ∃ value, HasValue name line value

/-- The number that digits stand for. -/
def decimalValue (digits : List UInt8) : Nat :=
  digits.foldl (fun n b => n * 10 + (b.toNat - 48)) 0

/-- A value that is a number: blanks, digits and blanks. -/
def Denotes (value : List UInt8) (n : Nat) : Prop :=
  ∃ before digits after, value = before ++ digits ++ after ∧
    (∀ b ∈ before, isBlankOrTab b = true) ∧ (∀ b ∈ after, isBlankOrTab b = true) ∧
    digits ≠ [] ∧ (∀ b ∈ digits, isDigitByte b = true) ∧ decimalValue digits = n

/-- Lines of which just one has this name, with this value. -/
def HasOnlyValue (name : String) (lines : List (List UInt8)) (value : List UInt8) : Prop :=
  ∃ before line after, lines = before ++ line :: after ∧ HasValue name line value ∧
    ∀ other ∈ before ++ after, ¬IsHeader name other

/-- Lines that frame a body of this length: none is about a transfer encoding, and at most one is
about the length, with a number within the limit as its value. -/
structure Framed (lines : List (List UInt8)) (v : Nat) : Prop where
  noTransferEncoding : ∀ line ∈ lines, ¬IsHeader "Transfer-Encoding" line
  contentLength :
    ((∀ line ∈ lines, ¬IsHeader "Content-Length" line) ∧ v = 0) ∨
      ∃ value, HasOnlyValue "Content-Length" lines value ∧ Denotes value v ∧ v ≤ maxHttpBodySize

/-! ## The digits of a value -/

/-- The number so far and the digits behind it. -/
def decimalFrom (parsed : Nat) (digits : List UInt8) : Nat :=
  digits.foldl (fun n b => n * 10 + (b.toNat - 48)) parsed

theorem le_decimalFrom (parsed : Nat) (digits : List UInt8) : parsed ≤ decimalFrom parsed digits := by
  induction digits generalizing parsed with
  | nil => exact Nat.le_refl parsed
  | cons b digits ih =>
    have hrest := ih (parsed * 10 + (b.toNat - 48))
    rw [decimalFrom, List.foldl_cons]
    exact Nat.le_trans (by omega) hrest

theorem digit_le {b : UInt8} (h : isDigitByte b = true) : b.toNat - 48 ≤ 9 := by
  rw [isDigitByte, decide_eq_true_eq] at h
  have hle : b.toNat ≤ 57 := UInt8.le_iff_toNat_le.mp h.2
  omega

/-- Reading digits stops before the number gets too large. -/
theorem parseSize_digits {digits rest : List UInt8} (hdigits : ∀ b ∈ digits, isDigitByte b = true)
    (hrest : ∀ b ∈ rest.head?, isDigitByte b = false) {parsed : Nat} (hparsed : parsed ≤ maxSizeT) :
    parseSize parsed (digits ++ rest) =
      if decimalFrom parsed digits ≤ maxSizeT then some (decimalFrom parsed digits, rest)
      else none := by
  induction digits generalizing parsed with
  | nil =>
    have hsame : decimalFrom parsed [] = parsed := rfl
    rw [hsame, if_pos hparsed]
    cases rest with
    | nil => rfl
    | cons b rest =>
      have hb := hrest b rfl
      rw [List.nil_append, parseSize, hb]
      rfl
  | cons b digits ih =>
    obtain ⟨hb, hdigits⟩ := List.forall_mem_cons.mp hdigits
    have hdigit := digit_le hb
    have hle := le_decimalFrom (parsed * 10 + (b.toNat - 48)) digits
    have hstep : decimalFrom parsed (b :: digits) =
        decimalFrom (parsed * 10 + (b.toNat - 48)) digits := rfl
    -- the guard stops just where the next number would not fit
    have hguard : (maxSizeT - (b.toNat - 48)) / 10 < parsed ↔
        maxSizeT < parsed * 10 + (b.toNat - 48) := by
      have hmax : 9 ≤ maxSizeT := by decide
      omega
    rw [List.cons_append, parseSize, if_pos hb, hstep]
    dsimp only
    by_cases hover : maxSizeT < parsed * 10 + (b.toNat - 48)
    · rw [if_pos (hguard.mpr hover), if_neg (by omega)]
    · rw [if_neg fun h => hover (hguard.mp h)]
      exact ih hdigits (by omega)

/-! ## The arithmetic of the machine -/

/-- The digits at the front of a value as they are read with a `size_t`. -/
def parseSizeT (parsed : UInt64) : List UInt8 → Option (UInt64 × List UInt8)
  | [] => some (parsed, [])
  | b :: bs =>
    if isDigitByte b then
      let digit := (b - 48).toUInt64
      if (0xFFFFFFFFFFFFFFFF - digit) / 10 < parsed then none else parseSizeT (parsed * 10 + digit) bs
    else some (parsed, b :: bs)

/-- **The number never wraps**, however many digits there are. -/
theorem parseSizeT_eq (parsed : UInt64) (bs : List UInt8) :
    (parseSizeT parsed bs).map (fun found => (found.1.toNat, found.2)) =
      parseSize parsed.toNat bs := by
  induction bs generalizing parsed with
  | nil => rfl
  | cons b bs ih =>
    rw [parseSizeT, parseSize]
    by_cases hb : isDigitByte b = true
    · have hle : 48 ≤ b := by
        rw [isDigitByte, decide_eq_true_eq] at hb
        exact hb.1
      have hdigit : (b - 48).toUInt64.toNat = b.toNat - 48 := by
        rw [UInt8.toNat_toUInt64, UInt8.toNat_sub_of_le _ _ hle]
        rfl
      have hsmall := digit_le hb
      have hmax : (0xFFFFFFFFFFFFFFFF : UInt64).toNat = 2 ^ 64 - 1 := rfl
      have hsub : (0xFFFFFFFFFFFFFFFF - (b - 48).toUInt64).toNat =
          2 ^ 64 - 1 - (b.toNat - 48) := by
        rw [UInt64.toNat_sub_of_le, hdigit, hmax]
        rw [UInt64.le_iff_toNat_le, hdigit, hmax]
        omega
      have hguard : (0xFFFFFFFFFFFFFFFF - (b - 48).toUInt64) / 10 < parsed ↔
          (maxSizeT - (b.toNat - 48)) / 10 < parsed.toNat := by
        rw [UInt64.lt_iff_toNat_lt, UInt64.toNat_div, hsub]
        rfl
      rw [if_pos hb, if_pos hb]
      dsimp only
      by_cases hover : (maxSizeT - (b.toNat - 48)) / 10 < parsed.toNat
      · rw [if_pos (hguard.mpr hover), if_pos hover, Option.map_none]
      · have hnext : (parsed * 10 + (b - 48).toUInt64).toNat =
            parsed.toNat * 10 + (b.toNat - 48) := by
          rw [UInt64.toNat_add, UInt64.toNat_mul, hdigit]
          have hten : (10 : UInt64).toNat = 10 := rfl
          rw [maxSizeT] at hover
          rw [hten]
          omega
        rw [if_neg fun h => hover (hguard.mp h), if_neg hover, ih, hnext]
    · rw [if_neg hb, if_neg hb]
      rfl

/-! ## A value -/

theorem not_digit_of_blank {b : UInt8} (h : isBlankOrTab b = true) : isDigitByte b = false := by
  rw [isBlankOrTab, Bool.or_eq_true, decide_eq_true_eq, decide_eq_true_eq] at h
  rcases h with rfl | rfl <;> decide

theorem not_blank_of_digit {b : UInt8} (h : isDigitByte b = true) : isBlankOrTab b = false := by
  by_contra hblank
  rw [not_digit_of_blank (Bool.eq_true_of_not_eq_false hblank)] at h
  exact Bool.false_ne_true h

theorem of_denotes {value : List UInt8} {v : Nat} (h : Denotes value v) (hv : v ≤ maxHttpBodySize) :
    contentLengthValue value = some v := by
  obtain ⟨before, digits, after, rfl, hbefore, hafter, hne, hdigits, hvalue⟩ := h
  obtain ⟨b, digits, rfl⟩ := List.exists_cons_of_ne_nil hne
  have hb := not_blank_of_digit (hdigits b List.mem_cons_self)
  have hdrop : (before ++ b :: digits ++ after).dropWhile isBlankOrTab = b :: (digits ++ after) := by
    rw [List.append_assoc, List.dropWhile_append_of_pos hbefore, List.cons_append,
      List.dropWhile_cons_of_neg (by rw [hb]; exact Bool.false_ne_true)]
  have hhead : ∀ b ∈ after.head?, isDigitByte b = false :=
    fun b hb => not_digit_of_blank (hafter b (List.mem_of_mem_head? hb))
  have hsame : decimalFrom 0 (b :: digits) = v := hvalue
  have hsize : decimalFrom 0 (b :: digits) ≤ maxSizeT := by
    have hlimit : maxHttpBodySize ≤ maxSizeT := by decide
    rw [hsame]
    exact Nat.le_trans hv hlimit
  have hparse := parseSize_digits hdigits hhead (Nat.zero_le maxSizeT)
  rw [if_pos hsize, List.cons_append] at hparse
  have hrest : after.dropWhile isBlankOrTab = [] := List.dropWhile_eq_nil_iff.mpr hafter
  simp only [contentLengthValue, hdrop, hparse, hrest, hsame]
  rw [if_neg (by simpa using hv)]

theorem denotes_of_contentLengthValue {value : List UInt8} {v : Nat}
    (h : contentLengthValue value = some v) : Denotes value v ∧ v ≤ maxHttpBodySize := by
  rw [contentLengthValue] at h
  split at h
  · exact absurd h (by simp)
  next p ps hcore =>
  -- the digits at the front of what stands behind the blanks
  have hsplit := List.takeWhile_append_dropWhile (p := isDigitByte) (l := p :: ps)
  have hdigits : ∀ b ∈ (p :: ps).takeWhile isDigitByte, isDigitByte b = true :=
    fun b hb => List.mem_takeWhile_imp hb
  have hhead : ∀ b ∈ ((p :: ps).dropWhile isDigitByte).head?, isDigitByte b = false := by
    intro b hb
    obtain ⟨rest, hrest⟩ := List.head?_eq_some_iff.mp hb
    exact eq_false_of_dropWhile_eq_cons hrest
  have hparse := parseSize_digits hdigits hhead (Nat.zero_le maxSizeT)
  rw [hsplit] at hparse
  rw [hparse] at h
  split at h
  · exact absurd h (by simp)
  next parsed rest hfound =>
  split at hfound
  · obtain ⟨rfl, rfl⟩ := Prod.mk.inj (Option.some.inj hfound)
    split at h
    · exact absurd h (by simp)
    next hgood =>
    obtain ⟨hblank, hlimit⟩ := not_or.mp hgood
    rw [← Option.some.inj h]
    refine ⟨⟨value.takeWhile isBlankOrTab, (p :: ps).takeWhile isDigitByte,
      (p :: ps).dropWhile isDigitByte, ?_, fun b hb => List.mem_takeWhile_imp hb,
      List.dropWhile_eq_nil_iff.mp (not_not.mp hblank), ?_, hdigits, rfl⟩, not_lt.mp hlimit⟩
    · rw [List.append_assoc, hsplit, ← hcore, List.takeWhile_append_dropWhile]
    · -- without a digit the first character would be a blank, and those are gone
      intro hnone
      rw [hnone, List.nil_append] at hsplit
      rw [hsplit] at hblank
      have hp := List.dropWhile_eq_nil_iff.mp (not_not.mp hblank) p List.mem_cons_self
      rw [eq_false_of_dropWhile_eq_cons hcore] at hp
      exact Bool.false_ne_true hp
  · exact absurd hfound (by simp)

/-! ## A line -/

theorem hasValue_iff {name : String} {line value : List UInt8} :
    HasValue name line value ↔
      ∃ front, splitFirst ':'.toUInt8 line = some (front, value) ∧
        sameHeaderName front name = true := by
  simp only [HasValue, splitFirst_eq_some_iff, sameHeaderName, beq_iff_eq, and_assoc]

theorem length_of_sameHeaderName {front : List UInt8} {name : String}
    (h : sameHeaderName front name = true) : front.length = (ascii name).length := by
  rw [sameHeaderName, beq_iff_eq] at h
  have hlength := congrArg List.length h
  rwa [List.length_map, List.length_map] at hlength

/-- What a line does to the length found so far. -/
theorem contentLengthLine_cases (found : Option Nat) (line : List UInt8) :
    (∃ value, HasValue "Content-Length" line value ∧ ¬IsHeader "Transfer-Encoding" line ∧
      contentLengthLine found line =
        if found.isSome then none else (contentLengthValue value).map some) ∨
    (¬IsHeader "Content-Length" line ∧ IsHeader "Transfer-Encoding" line ∧
      contentLengthLine found line = none) ∨
    (¬IsHeader "Content-Length" line ∧ ¬IsHeader "Transfer-Encoding" line ∧
      contentLengthLine found line = some found) := by
  cases hsplit : splitFirst ':'.toUInt8 line with
  | none =>
    have hnone : ∀ name, ¬IsHeader name line := by
      rintro name ⟨value, hvalue⟩
      obtain ⟨front, hfront, -⟩ := hasValue_iff.mp hvalue
      exact absurd (hsplit.symm.trans hfront) (by simp)
    refine Or.inr (Or.inr ⟨hnone _, hnone _, ?_⟩)
    rw [contentLengthLine, hsplit]
  | some parts =>
    obtain ⟨front, value⟩ := parts
    have hname : ∀ name, IsHeader name line ↔ sameHeaderName front name = true := by
      intro name
      constructor
      · rintro ⟨value', hvalue⟩
        obtain ⟨front', hfront, hsame⟩ := hasValue_iff.mp hvalue
        obtain ⟨rfl, -⟩ := Prod.mk.inj (Option.some.inj (hsplit.symm.trans hfront))
        exact hsame
      · exact fun hsame => ⟨value, hasValue_iff.mpr ⟨front, hsplit, hsame⟩⟩
    have hcl : (front.length = 14 ∧ sameHeaderName front "Content-Length" = true) ↔
        IsHeader "Content-Length" line :=
      ⟨fun h => (hname _).mpr h.2, fun h =>
        ⟨length_of_sameHeaderName ((hname _).mp h), (hname _).mp h⟩⟩
    have hte : (front.length = 17 ∧ sameHeaderName front "Transfer-Encoding" = true) ↔
        IsHeader "Transfer-Encoding" line :=
      ⟨fun h => (hname _).mpr h.2, fun h =>
        ⟨length_of_sameHeaderName ((hname _).mp h), (hname _).mp h⟩⟩
    have hline : contentLengthLine found line =
        if front.length = 14 ∧ sameHeaderName front "Content-Length" then
          if found.isSome then none else (contentLengthValue value).map some
        else if front.length = 17 ∧ sameHeaderName front "Transfer-Encoding" then none
        else some found := by
      rw [contentLengthLine, hsplit]
    by_cases hlength : IsHeader "Content-Length" line
    · refine Or.inl ⟨value, hasValue_iff.mpr ⟨front, hsplit, (hname _).mp hlength⟩, ?_, ?_⟩
      · intro hencoding
        have hfourteen := (hcl.mpr hlength).1
        rw [(hte.mpr hencoding).1] at hfourteen
        exact absurd hfourteen (by decide)
      · rw [hline, if_pos (hcl.mpr hlength)]
    · rw [if_neg fun h => hlength (hcl.mp h)] at hline
      by_cases hencoding : IsHeader "Transfer-Encoding" line
      · exact Or.inr (Or.inl ⟨hlength, hencoding, by rw [hline, if_pos (hte.mpr hencoding)]⟩)
      · refine Or.inr (Or.inr ⟨hlength, hencoding, ?_⟩)
        rw [hline, if_neg fun h => hencoding (hte.mp h)]

/-! ## All lines -/

/-- The lines one after the other. -/
def contentLengthLines (found : Option Nat) (lines : List (List UInt8)) : Option (Option Nat) :=
  lines.foldlM contentLengthLine found

/-- The line up to its end. -/
theorem headerLine_append {line : List UInt8} (hline : ¬crlf <:+: line) (rest : List UInt8) :
    headerLine (line ++ crlf ++ rest) = (line, crlf ++ rest) := by
  induction line with
  | nil => rfl
  | cons b line ih =>
    have htail : ¬crlf <:+: line := fun h => hline (h.trans (List.infix_cons_iff.mpr (Or.inr
      List.infix_rfl)))
    have hrest := ih htail
    obtain ⟨c, bs, hcons, hgo⟩ : ∃ c bs, line ++ crlf ++ rest = c :: bs ∧ ¬(b = 13 ∧ c = 10) := by
      cases line with
      | nil => exact ⟨13, 10 :: rest, rfl, fun h => absurd h.2 (by decide)⟩
      | cons c line =>
        refine ⟨c, line ++ crlf ++ rest, rfl, ?_⟩
        rintro ⟨rfl, rfl⟩
        exact hline (List.IsPrefix.isInfix ⟨line, rfl⟩)
    rw [List.cons_append, List.cons_append, hcons, headerLine, if_neg hgo, ← hcons, hrest]

theorem contentLengthLoop_eq {lines : List (List UInt8)} (hlines : ∀ line ∈ lines, ¬crlf <:+: line)
    {fuel : Nat} (hfuel : (lines.flatMap (· ++ crlf)).length ≤ fuel) (found : Option Nat) :
    contentLengthLoop fuel found (lines.flatMap (· ++ crlf)) = contentLengthLines found lines := by
  induction lines generalizing fuel found with
  | nil =>
    cases fuel with
    | zero => rfl
    | succ fuel => rfl
  | cons line lines ih =>
    obtain ⟨hline, hlines⟩ := List.forall_mem_cons.mp hlines
    rw [List.flatMap_cons] at hfuel ⊢
    rw [List.length_append, List.length_append] at hfuel
    have htwo : crlf.length = 2 := rfl
    cases fuel with
    | zero => omega
    | succ fuel =>
      have hne : line ++ crlf ++ lines.flatMap (· ++ crlf) ≠ [] := by simp [crlf]
      rw [contentLengthLoop, if_neg hne, headerLine_append hline, contentLengthLines,
        List.foldlM_cons]
      cases hfound : contentLengthLine found line with
      | none => rfl
      | some found' => exact ih hlines (by omega) found'

theorem HasValue.unique {name : String} {line value value' : List UInt8} (h : HasValue name line value)
    (h' : HasValue name line value') : value' = value := by
  obtain ⟨front, hfront, -⟩ := hasValue_iff.mp h
  obtain ⟨front', hfront', -⟩ := hasValue_iff.mp h'
  exact (Prod.mk.inj (Option.some.inj (hfront'.symm.trans hfront))).2

theorem hasOnlyValue_cons {name : String} {line value : List UInt8} (h : HasValue name line value)
    {lines : List (List UInt8)} {value' : List UInt8} :
    HasOnlyValue name (line :: lines) value' ↔
      (∀ other ∈ lines, ¬IsHeader name other) ∧ value' = value := by
  constructor
  · rintro ⟨before, line', after, hlines, hvalue, hothers⟩
    cases before with
    | nil =>
      obtain ⟨rfl, rfl⟩ := List.cons.inj hlines
      exact ⟨hothers, h.unique hvalue⟩
    | cons first before =>
      obtain ⟨rfl, -⟩ := List.cons.inj hlines
      exact absurd ⟨value, h⟩ (hothers line List.mem_cons_self)
  · rintro ⟨hothers, rfl⟩
    exact ⟨[], line, lines, rfl, h, hothers⟩

theorem hasOnlyValue_cons_of_not {name : String} {line : List UInt8} (h : ¬IsHeader name line)
    {lines : List (List UInt8)} {value : List UInt8} :
    HasOnlyValue name (line :: lines) value ↔ HasOnlyValue name lines value := by
  constructor
  · rintro ⟨before, line', after, hlines, hvalue, hothers⟩
    cases before with
    | nil =>
      obtain ⟨rfl, rfl⟩ := List.cons.inj hlines
      exact absurd ⟨value, hvalue⟩ h
    | cons first before =>
      obtain ⟨rfl, rfl⟩ := List.cons.inj hlines
      exact ⟨before, line', after, rfl, hvalue, (List.forall_mem_cons.mp hothers).2⟩
  · rintro ⟨before, line', after, rfl, hvalue, hothers⟩
    exact ⟨line :: before, line', after, rfl, hvalue, List.forall_mem_cons.mpr ⟨h, hothers⟩⟩

theorem not_hasOnlyValue_nil {name : String} {value : List UInt8} : ¬HasOnlyValue name [] value := by
  rintro ⟨before, line, after, hlines, -⟩
  exact List.append_ne_nil_of_right_ne_nil before (List.cons_ne_nil line after) hlines.symm

/-- What the lines come to: nothing is about a transfer encoding, and the length is the one found
before or that of the only line that is about it. -/
theorem contentLengthLines_eq_some_iff {lines : List (List UInt8)} {found found' : Option Nat} :
    contentLengthLines found lines = some found' ↔
      (∀ line ∈ lines, ¬IsHeader "Transfer-Encoding" line) ∧
      (((∀ line ∈ lines, ¬IsHeader "Content-Length" line) ∧ found' = found) ∨
        found = none ∧ ∃ value v, HasOnlyValue "Content-Length" lines value ∧
          contentLengthValue value = some v ∧ found' = some v) := by
  induction lines generalizing found with
  | nil =>
    have hnil : contentLengthLines found [] = some found := rfl
    rw [hnil]
    constructor
    · intro h
      exact ⟨by simp, Or.inl ⟨by simp, (Option.some.inj h).symm⟩⟩
    · rintro ⟨-, ⟨-, rfl⟩ | ⟨-, value, v, honly, -⟩⟩
      · rfl
      · exact absurd honly not_hasOnlyValue_nil
  | cons line lines ih =>
    have hcons : contentLengthLines found (line :: lines) =
        (contentLengthLine found line).bind fun found => contentLengthLines found lines :=
      List.foldlM_cons
    rw [hcons]
    rcases contentLengthLine_cases found line with ⟨value, hvalue, hnot, heq⟩ | ⟨hnot, hte, heq⟩ |
      ⟨hnotLength, hnot, heq⟩
    · have hheader : ¬∀ other ∈ line :: lines, ¬IsHeader "Content-Length" other :=
        fun h => h line List.mem_cons_self ⟨value, hvalue⟩
      have hte : (∀ other ∈ line :: lines, ¬IsHeader "Transfer-Encoding" other) ↔
          ∀ other ∈ lines, ¬IsHeader "Transfer-Encoding" other := by
        rw [List.forall_mem_cons, and_iff_right hnot]
      simp only [hte, hheader, false_and, false_or, hasOnlyValue_cons hvalue]
      rw [heq]
      cases found with
      | some found =>
        rw [Option.isSome_some, if_pos rfl, Option.bind_none]
        refine iff_of_false (Option.some_ne_none found').symm ?_
        rintro ⟨-, hnone, -⟩
        exact Option.some_ne_none found hnone
      | none =>
        rw [Option.isSome_none, if_neg Bool.false_ne_true]
        cases hv : contentLengthValue value with
        | none =>
          rw [Option.map_none, Option.bind_none]
          refine iff_of_false (Option.some_ne_none found').symm ?_
          rintro ⟨-, -, value', v, ⟨-, rfl⟩, hv', -⟩
          exact Option.some_ne_none v (hv'.symm.trans hv)
        | some v =>
          -- behind the line, another one with a length is refused
          rw [Option.map_some, Option.bind_some, ih]
          constructor
          · rintro ⟨hte, ⟨hothers, rfl⟩ | ⟨hnone, -⟩⟩
            · exact ⟨hte, rfl, value, v, ⟨hothers, rfl⟩, hv, rfl⟩
            · exact absurd hnone (Option.some_ne_none v)
          · rintro ⟨hte, -, value', v', ⟨hothers, rfl⟩, hv', rfl⟩
            exact ⟨hte, Or.inl ⟨hothers, hv'.symm.trans hv⟩⟩
    · rw [heq, Option.bind_none]
      refine iff_of_false (Option.some_ne_none found').symm fun h => ?_
      exact h.1 line List.mem_cons_self hte
    · rw [heq, Option.bind_some, ih]
      simp only [List.forall_mem_cons, hnot, hnotLength, not_false_eq_true, true_and,
        hasOnlyValue_cons_of_not hnotLength]

/-! ## The header -/

theorem exists_lines (bs : List UInt8) :
    ∃ lines : List (List UInt8), (∀ line ∈ lines, ¬crlf <:+: line) ∧
      lines.flatMap (· ++ crlf) = bs ++ crlf := by
  obtain ⟨n, hn⟩ : ∃ n, bs.length = n := ⟨_, rfl⟩
  induction n using Nat.strong_induction_on generalizing bs with
  | _ n ih =>
    by_cases hend : crlf <:+: bs
    · obtain ⟨before, after, rfl⟩ := hend
      have htwo : crlf.length = 2 := rfl
      rw [List.length_append, List.length_append] at hn
      obtain ⟨front, hfront, hbefore⟩ := ih before.length (by omega) before rfl
      obtain ⟨back, hback, hafter⟩ := ih after.length (by omega) after rfl
      refine ⟨front ++ back, List.forall_mem_append.mpr ⟨hfront, hback⟩, ?_⟩
      rw [List.flatMap_append, hbefore, hafter, List.append_assoc, List.append_assoc,
        List.append_assoc]
    · exact ⟨[bs], List.forall_mem_singleton.mpr hend, by simp⟩

/-- Every text that ends in a blank line is a header. -/
theorem exists_headerBlock (bs : List UInt8) : ∃ block : HeaderBlock, block.bytes = bs ++ crlfcrlf := by
  obtain ⟨lines, hlines, heq⟩ := exists_lines bs
  refine ⟨⟨lines, hlines⟩, ?_⟩
  have hend : crlfcrlf = crlf ++ crlf := rfl
  have hlast : ([[]] : List (List UInt8)).flatMap (· ++ crlf) = crlf := rfl
  rw [HeaderBlock.bytes, List.flatMap_append, heq, hend, hlast, List.append_assoc]

/-- The part of a request that is searched for a length is a header. -/
theorem exists_headerBlock_of_headerEnd? {data : List UInt8} {i : Nat} (h : headerEnd? data = some i) :
    ∃ block : HeaderBlock, block.bytes = data.take (i + 4) := by
  obtain ⟨block, hblock⟩ := exists_headerBlock (data.take i)
  have hprefix : crlfcrlf <+: data.drop i :=
    (isPrefix_of_firstInfix h).trans ((cString_isPrefix_self data).drop i)
  have hend : crlfcrlf = (data.drop i).take 4 := List.prefix_iff_eq_take.mp hprefix
  refine ⟨block, ?_⟩
  rw [hblock, hend, List.take_add]

theorem not_isHeader_nil (name : String) : ¬IsHeader name [] := by
  rintro ⟨value, front, hline, -⟩
  exact List.append_ne_nil_of_right_ne_nil front (List.cons_ne_nil _ value) hline.symm

theorem forall_append_blank {P : List UInt8 → Prop} {lines : List (List UInt8)} (hblank : P []) :
    (∀ line ∈ lines ++ [[]], P line) ↔ ∀ line ∈ lines, P line := by
  rw [List.forall_mem_append, List.forall_mem_singleton, and_iff_left hblank]

theorem hasOnlyValue_append_blank {name : String} {lines : List (List UInt8)} {value : List UInt8} :
    HasOnlyValue name (lines ++ [[]]) value ↔ HasOnlyValue name lines value := by
  induction lines with
  | nil =>
    rw [List.nil_append, hasOnlyValue_cons_of_not (not_isHeader_nil name)]
  | cons line lines ih =>
    rw [List.cons_append]
    by_cases hline : IsHeader name line
    · obtain ⟨value', hvalue⟩ := hline
      rw [hasOnlyValue_cons hvalue, hasOnlyValue_cons hvalue,
        forall_append_blank (P := fun other => ¬IsHeader name other) (not_isHeader_nil name)]
    · rw [hasOnlyValue_cons_of_not hline, hasOnlyValue_cons_of_not hline, ih]

/-- **A header is accepted just when it is framed**, and the number in it never wraps. -/
theorem parseContentLength_iff (block : HeaderBlock) (v : Nat) :
    (parseContentLength block.bytes = some v ↔ Framed block.lines v) ∧
      ∀ (parsed : UInt64) (bs : List UInt8),
        (parseSizeT parsed bs).map (fun found => (found.1.toNat, found.2)) =
          parseSize parsed.toNat bs := by
  refine ⟨?_, parseSizeT_eq⟩
  have hlines : ∀ line ∈ block.lines ++ [[]], ¬crlf <:+: line :=
    List.forall_mem_append.mpr ⟨block.noEnd, List.forall_mem_singleton.mpr (by decide)⟩
  have hloop : contentLengthLoop block.bytes.length none block.bytes =
      contentLengthLines none (block.lines ++ [[]]) :=
    contentLengthLoop_eq hlines (Nat.le_refl _) none
  have hheader : ∀ name, (∀ line ∈ block.lines ++ [[]], ¬IsHeader name line) ↔
      ∀ line ∈ block.lines, ¬IsHeader name line :=
    fun name => forall_append_blank (P := fun line => ¬IsHeader name line) (not_isHeader_nil name)
  rw [parseContentLength, hloop, Option.map_eq_some_iff]
  simp only [contentLengthLines_eq_some_iff, hasOnlyValue_append_blank, hheader, true_and]
  constructor
  · rintro ⟨found, ⟨hte, ⟨hcl, rfl⟩ | ⟨value, n, honly, hn, rfl⟩⟩, rfl⟩
    · exact ⟨hte, Or.inl ⟨hcl, rfl⟩⟩
    · exact ⟨hte, Or.inr ⟨value, honly, denotes_of_contentLengthValue hn⟩⟩
  · rintro ⟨hte, ⟨hcl, rfl⟩ | ⟨value, honly, hdenotes, hv⟩⟩
    · exact ⟨none, ⟨hte, Or.inl ⟨hcl, rfl⟩⟩, rfl⟩
    · exact ⟨some v, ⟨hte, Or.inr ⟨value, v, honly, of_denotes hdenotes hv, rfl⟩⟩, rfl⟩

end EchoAi
