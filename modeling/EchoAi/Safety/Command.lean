import EchoAi.Ctype
import EchoAi.Safety.Config
import EchoAi.Splitting

/-!
# The check of a command

A command is cut at its separators, and each piece is searched for dangerous patterns.

* `strTrim`, `strSplit`: the helpers on strings.
* `dangerousPatterns`, `checkSegment`, `safetyCheckCommand`: the check.
* `Searched`, `safetyCheckCommand_eq_false_iff`: the pieces that are searched.
* `Caught`, `patterns_caught_iff`: when every pattern that occurs is caught.

Two patterns do not come through the cutting: `forkBomb` contains separators, and `unlinkBlank` ends
in a blank that is lost at the end of a piece.  A command is a list of bytes.
-/

namespace EchoAi

/-! ## Helpers on strings -/

/-- `str_trim`. -/
def strTrim (str : List UInt8) : List UInt8 := strip isSpace str

/-- `str_split`. -/
def strSplit (str : List UInt8) (delimiter : UInt8) : List (List UInt8) := str.splitOn delimiter

/-! ## The check -/

/-- The classic fork bomb. -/
def forkBomb : List UInt8 := ascii ":()\x7b :|:& \x7d;:"

/-- The command that removes a file, up to the blank behind it. -/
def unlinkBlank : List UInt8 := ascii "unlink "

/-- `dangerous_patterns`. -/
def dangerousPatterns : List (List UInt8) :=
  [ascii "rm -rf /", ascii "rm -rf /*",
    forkBomb, ascii "fork()",
    ascii "mkfs.", ascii "mkswap",
    ascii "dd if=", ascii "dd if=/dev/zero", ascii "dd if=/dev/urandom",
    ascii "shred",
    ascii "> /dev/sda", ascii "> /dev/sdb", ascii "> /dev/nvme",
    ascii "pv < /dev/sda", ascii "pv < /dev/sdb",
    ascii "debugfs", ascii "hdparm",
    ascii "mount -o loop", ascii "losetup",
    ascii "parted", ascii "fdisk", ascii "cfdisk", ascii "sfdisk",
    ascii "chmod 777", ascii "chmod -R 777",
    ascii "sudo rm", ascii "sudo rm -rf",
    ascii "\\rm", ascii "/bin/rm", ascii "/usr/bin/rm",
    ascii "unlink(", unlinkBlank,
    ascii "shutil.rmtree", ascii "os.remove", ascii "os.unlink"]

/-- One of the patterns occurs. -/
def hasPattern (st : List UInt8) : Bool := dangerousPatterns.any fun p => decide (p <:+: st)

/-- `check_segment`. -/
def checkSegment (segment : List UInt8) : Bool :=
  ((strSplit segment '|'.toUInt8).all fun item =>
      let st := strTrim item
      st.isEmpty || !hasPattern st) &&
    (strSplit segment '&'.toUInt8).all fun item =>
      item.head? == some '&'.toUInt8 ||
        let st := strTrim item
        st.isEmpty || !hasPattern st

/-- `safety_check_command`. -/
def safetyCheckCommand (cfg : SafetyConfig) : (command : Option (List UInt8)) → Bool
  | none => true
  | some command =>
    decide (cfg.mode = .unrestricted) ||
      (strSplit command ';'.toUInt8).all fun item =>
        let sem := strTrim item
        sem.isEmpty || (strSplit sem '\n'.toUInt8).all fun item =>
          let nl := strTrim item
          nl.isEmpty || checkSegment nl

/-! ## The pieces that are searched -/

/-- A piece of a segment: it lies between bars, or between ampersands. -/
def SegmentPiece (segment st : List UInt8) : Prop :=
  (∃ item ∈ segment.splitOn '|'.toUInt8, st = strTrim item) ∨
    ∃ item ∈ segment.splitOn '&'.toUInt8, st = strTrim item

/-- A piece of a command that is searched. -/
def Searched (command st : List UInt8) : Prop :=
  ∃ item ∈ command.splitOn ';'.toUInt8, ∃ line ∈ (strTrim item).splitOn '\n'.toUInt8,
    SegmentPiece (strTrim line) st

theorem hasPattern_iff (st : List UInt8) :
    hasPattern st = true ↔ ∃ p ∈ dangerousPatterns, p <:+: st := by
  simp only [hasPattern, List.any_eq_true, decide_eq_true_eq]

theorem dangerousPatterns_ne_nil : ∀ p ∈ dangerousPatterns, p ≠ [] := by
  rw [dangerousPatterns]
  repeat rw [ascii_ofList]
  decide

theorem hasPattern_nil : hasPattern [] = false := by
  rw [hasPattern, dangerousPatterns]
  repeat rw [ascii_ofList]
  decide

/-- An empty piece may be left out. -/
theorem skip_empty (st : List UInt8) : (st.isEmpty || !hasPattern st) = !hasPattern st := by
  cases st with
  | nil => rw [hasPattern_nil, Bool.not_false, Bool.or_true]
  | cons c st => rfl

theorem checkSegment_eq_false_iff (segment : List UInt8) :
    checkSegment segment = false ↔ ∃ st, SegmentPiece segment st ∧ hasPattern st = true := by
  have hamp : ∀ item ∈ segment.splitOn '&'.toUInt8, (item.head? == some '&'.toUInt8) = false := by
    intro item hitem
    refine beq_eq_false_iff_ne.2 fun hhead => notMem_of_mem_splitOn hitem ?_
    exact List.mem_of_mem_head? hhead
  rw [checkSegment, Bool.and_eq_false_iff]
  simp only [skip_empty, strSplit, List.all_eq_false, SegmentPiece]
  constructor
  · rintro (⟨item, hitem, hst⟩ | ⟨item, hitem, hst⟩)
    · exact ⟨strTrim item, Or.inl ⟨item, hitem, rfl⟩, by simpa using hst⟩
    · refine ⟨strTrim item, Or.inr ⟨item, hitem, rfl⟩, ?_⟩
      rw [hamp item hitem, Bool.false_or] at hst
      simpa using hst
  · rintro ⟨_, ⟨item, hitem, rfl⟩ | ⟨item, hitem, rfl⟩, hst⟩
    · exact Or.inl ⟨item, hitem, by simpa using hst⟩
    · refine Or.inr ⟨item, hitem, ?_⟩
      rw [hamp item hitem, Bool.false_or]
      simpa using hst

/-- An empty segment is not refused. -/
theorem checkSegment_nil : checkSegment [] = true := by decide

/-- A command is refused just when a piece of it has a pattern. -/
theorem safetyCheckCommand_eq_false_iff {cfg : SafetyConfig} (hmode : cfg.mode ≠ .unrestricted)
    (command : List UInt8) :
    safetyCheckCommand cfg (some command) = false ↔
      ∃ st, Searched command st ∧ hasPattern st = true := by
  have hline : ∀ nl : List UInt8, (nl.isEmpty || checkSegment nl) = checkSegment nl := by
    intro nl
    cases nl with
    | nil => rw [checkSegment_nil, Bool.or_true]
    | cons c nl => rfl
  have hempty : (([] : List UInt8).splitOn '\n'.toUInt8).all
      (fun item => checkSegment (strTrim item)) = true := by decide
  have hitem : ∀ sem : List UInt8,
      (sem.isEmpty || (sem.splitOn '\n'.toUInt8).all fun item => checkSegment (strTrim item)) =
        (sem.splitOn '\n'.toUInt8).all fun item => checkSegment (strTrim item) := by
    intro sem
    cases sem with
    | nil => rw [hempty, Bool.or_true]
    | cons c sem => rfl
  rw [safetyCheckCommand, decide_eq_false hmode, Bool.false_or]
  simp only [hline, strSplit, hitem, List.all_eq_false, Bool.not_eq_true, Searched,
    checkSegment_eq_false_iff]
  constructor
  · rintro ⟨item, hitem, line, hline, st, hst, hhas⟩
    exact ⟨st, ⟨item, hitem, line, hline, hst⟩, hhas⟩
  · rintro ⟨st, ⟨item, hitem, line, hline, hst⟩, hhas⟩
    exact ⟨item, hitem, line, hline, st, hst, hhas⟩

/-- Where a piece of a command lies. -/
theorem Searched.within {command st : List UInt8} (h : Searched command st) :
    ∃ item ∈ command.splitOn ';'.toUInt8, ∃ line, '\n'.toUInt8 ∉ line ∧ st <:+: line ∧
      line <:+: item := by
  obtain ⟨item, hitem, line, hline, hst⟩ := h
  have hseg : st <:+: strTrim line := by
    rcases hst with ⟨piece, hpiece, rfl⟩ | ⟨piece, hpiece, rfl⟩
    · exact (isInfix_strip piece).trans (infix_of_mem_splitOn hpiece)
    · exact (isInfix_strip piece).trans (infix_of_mem_splitOn hpiece)
  exact ⟨item, hitem, line, notMem_of_mem_splitOn hline, hseg.trans (isInfix_strip line),
    (infix_of_mem_splitOn hline).trans (isInfix_strip item)⟩

/-- A piece is a part of the command without semicolons and newlines. -/
theorem Searched.isInfix {command st : List UInt8} (h : Searched command st) :
    st <:+: command ∧ ';'.toUInt8 ∉ st ∧ '\n'.toUInt8 ∉ st := by
  obtain ⟨item, hitem, line, hline, hst, hin⟩ := h.within
  exact ⟨(hst.trans hin).trans (infix_of_mem_splitOn hitem),
    fun hmem => notMem_of_mem_splitOn hitem ((hst.trans hin).mem hmem),
    fun hmem => hline (hst.mem hmem)⟩

/-- A piece does not end in a blank. -/
theorem Searched.last {command st : List UInt8} (h : Searched command st) {x : UInt8}
    (hx : st.getLast? = some x) : isSpace x = false := by
  obtain ⟨item, _, line, _, hst⟩ := h
  rcases hst with ⟨piece, _, rfl⟩ | ⟨piece, _, rfl⟩
  · exact getLast?_strip hx
  · exact getLast?_strip hx

/-- A part of a command that comes through the cutting and the stripping: without blanks at its
ends, without semicolons and newlines, and without bars or without ampersands. -/
theorem exists_searched {command pat : List UInt8} (htight : Tight isSpace pat)
    (hsemi : ';'.toUInt8 ∉ pat) (hline : '\n'.toUInt8 ∉ pat)
    (hbar : '|'.toUInt8 ∉ pat ∨ '&'.toUInt8 ∉ pat) (h : pat <:+: command) :
    ∃ st, Searched command st ∧ pat <:+: st := by
  obtain ⟨item, hitem, hin⟩ := exists_infix_splitOn hsemi h
  obtain ⟨line, hmem, hin⟩ := exists_infix_splitOn hline (htight.infix_strip hin)
  have hseg : pat <:+: strTrim line := htight.infix_strip hin
  rcases hbar with hbar | hamp
  · obtain ⟨piece, hpiece, hin⟩ := exists_infix_splitOn hbar hseg
    exact ⟨strTrim piece, ⟨item, hitem, line, hmem, Or.inl ⟨piece, hpiece, rfl⟩⟩,
      htight.infix_strip hin⟩
  · obtain ⟨piece, hpiece, hin⟩ := exists_infix_splitOn hamp hseg
    exact ⟨strTrim piece, ⟨item, hitem, line, hmem, Or.inr ⟨piece, hpiece, rfl⟩⟩,
      htight.infix_strip hin⟩

/-! ## When every pattern is caught -/

/-- Behind an `unlink` and its blank stands something on the same line, before any semicolon. -/
def UnlinksSomething (command : List UInt8) : Prop :=
  ∃ blanks x, (∀ b ∈ blanks, isSpace b = true ∧ b ≠ '\n'.toUInt8) ∧ isSpace x = false ∧
    x ≠ ';'.toUInt8 ∧ unlinkBlank ++ (blanks ++ [x]) <:+: command

/-- No pattern occurs, or one of those that come through the cutting, or an `unlink` of something.
-/
def Caught (command : List UInt8) : Prop :=
  (∀ p ∈ dangerousPatterns, ¬p <:+: command) ∨
    (∃ p ∈ dangerousPatterns, p ≠ forkBomb ∧ p ≠ unlinkBlank ∧ p <:+: command) ∨
      UnlinksSomething command

/-- All patterns but two come through the cutting. -/
theorem dangerousPatterns_tight : ∀ p ∈ dangerousPatterns, p ≠ forkBomb → p ≠ unlinkBlank →
    Tight isSpace p ∧ ';'.toUInt8 ∉ p ∧ '\n'.toUInt8 ∉ p ∧ '|'.toUInt8 ∉ p := by
  rw [dangerousPatterns, forkBomb, unlinkBlank]
  repeat rw [ascii_ofList]
  decide

theorem semicolon_mem_forkBomb : ';'.toUInt8 ∈ forkBomb := by decide

/-- An `unlink` of something comes through the cutting. -/
theorem exists_searched_of_unlinks {command : List UInt8} (h : UnlinksSomething command) :
    ∃ st, Searched command st ∧ unlinkBlank <:+: st := by
  obtain ⟨blanks, x, hblanks, hx, hsemi, hin⟩ := h
  have hmem : ∀ c : UInt8, isSpace c = false → c ∉ unlinkBlank → c ≠ x →
      c ∉ unlinkBlank ++ (blanks ++ [x]) := by
    intro c hc hunlink hcx hmem
    rcases List.mem_append.1 hmem with hmem | hmem
    · exact hunlink hmem
    rcases List.mem_append.1 hmem with hmem | hmem
    · have hblank := (hblanks c hmem).1
      rw [hc] at hblank
      exact absurd hblank (by decide)
    · exact hcx (List.mem_singleton.1 hmem)
  have htight : Tight isSpace (unlinkBlank ++ (blanks ++ [x])) := by
    refine ⟨by simp, ?_, ?_⟩
    · intro c hc
      have hc : c = 'u'.toUInt8 := (Option.mem_some.1 hc).symm
      rw [hc]
      decide
    · rw [← List.append_assoc, List.getLast?_concat]
      intro c hc
      rwa [← Option.mem_some.1 hc]
  have hline : '\n'.toUInt8 ∉ unlinkBlank ++ (blanks ++ [x]) := by
    intro hmem
    rcases List.mem_append.1 hmem with hmem | hmem
    · exact absurd hmem (by decide)
    rcases List.mem_append.1 hmem with hmem | hmem
    · exact (hblanks _ hmem).2 rfl
    · rw [← List.mem_singleton.1 hmem] at hx
      exact absurd hx (by decide)
  have hbar : '|'.toUInt8 ∉ unlinkBlank ++ (blanks ++ [x]) ∨
      '&'.toUInt8 ∉ unlinkBlank ++ (blanks ++ [x]) := by
    by_cases hxbar : '|'.toUInt8 = x
    · exact Or.inr (hmem _ (by decide) (by decide) (by rw [← hxbar]; decide))
    · exact Or.inl (hmem _ (by decide) (by decide) hxbar)
  obtain ⟨st, hst, hpat⟩ := exists_searched htight (hmem _ (by decide) (by decide) hsemi.symm)
    hline hbar hin
  exact ⟨st, hst, (List.prefix_append unlinkBlank _).isInfix.trans hpat⟩

/-- A piece with an `unlink` and its blank is an `unlink` of something. -/
theorem unlinks_of_searched {command st : List UInt8} (hst : Searched command st)
    (h : unlinkBlank <:+: st) : UnlinksSomething command := by
  obtain ⟨before, behind, rfl⟩ := h
  obtain ⟨hin, hsemi, hline⟩ := hst.isInfix
  -- the piece does not end in a blank, so something stands behind the one of the pattern
  cases hrest : behind.dropWhile isSpace with
  | nil =>
    have hall : ∀ c ∈ behind, isSpace c = true := List.dropWhile_eq_nil_iff.1 hrest
    have hblank : ∀ c, (before ++ unlinkBlank ++ behind).getLast? = some c → isSpace c = true := by
      intro c hc
      rw [List.getLast?_append] at hc
      cases hlast : behind.getLast? with
      | none =>
        rw [hlast, Option.none_or, List.getLast?_append] at hc
        have hc : c = ' '.toUInt8 := (Option.some.inj hc).symm
        rw [hc]
        decide
      | some d =>
        rw [hlast, Option.some_or] at hc
        rw [← Option.some.inj hc]
        exact hall d (List.mem_of_mem_getLast? hlast)
    have hne : before ++ unlinkBlank ++ behind ≠ [] := by simp [unlinkBlank, ascii]
    have hlast := List.getLast?_eq_some_getLast hne
    have hfalse := hst.last hlast
    rw [hblank _ hlast] at hfalse
    exact absurd hfalse (by decide)
  | cons x rest =>
    have hbehind : behind = behind.takeWhile isSpace ++ x :: rest := by
      rw [← hrest, List.takeWhile_append_dropWhile]
    have hx : isSpace x = false := by
      have hhead := List.head?_dropWhile_not isSpace behind
      rw [hrest] at hhead
      simpa using hhead
    have hpart : unlinkBlank ++ (behind.takeWhile isSpace ++ [x]) <:+:
        before ++ unlinkBlank ++ behind := by
      refine ⟨before, rest, ?_⟩
      conv_rhs => rw [hbehind]
      simp
    refine ⟨behind.takeWhile isSpace, x, fun b hb => ⟨List.mem_takeWhile_imp hb, ?_⟩, hx, ?_,
      hpart.trans hin⟩
    · rintro rfl
      exact hline (List.mem_append_right _ (List.takeWhile_subset _ hb))
    · rintro rfl
      exact hsemi (hpart.mem (by simp))

/-- Every pattern that occurs is caught just when no pattern occurs, or one that is neither the fork
bomb nor the `unlink` with a blank, or an `unlink` of something. -/
theorem patterns_caught_iff {cfg : SafetyConfig} (hmode : cfg.mode ≠ .unrestricted)
    (command : List UInt8) :
    (∀ p ∈ dangerousPatterns, p <:+: command → safetyCheckCommand cfg (some command) = false) ↔
      Caught command := by
  have hrefused : ∀ {p st : List UInt8}, p ∈ dangerousPatterns → Searched command st → p <:+: st →
      safetyCheckCommand cfg (some command) = false := fun hp hst hin =>
    (safetyCheckCommand_eq_false_iff hmode command).2 ⟨_, hst, (hasPattern_iff _).2 ⟨_, hp, hin⟩⟩
  constructor
  · intro hcaught
    by_cases hnone : ∀ p ∈ dangerousPatterns, ¬p <:+: command
    · exact Or.inl hnone
    push Not at hnone
    obtain ⟨p, hp, hin⟩ := hnone
    obtain ⟨st, hst, hhas⟩ :=
      (safetyCheckCommand_eq_false_iff hmode command).1 (hcaught p hp hin)
    obtain ⟨q, hq, hqin⟩ := (hasPattern_iff st).1 hhas
    by_cases hfork : q = forkBomb
    · exact absurd (hqin.mem (hfork ▸ semicolon_mem_forkBomb)) hst.isInfix.2.1
    by_cases hunlink : q = unlinkBlank
    · exact Or.inr (Or.inr (unlinks_of_searched hst (hunlink ▸ hqin)))
    · exact Or.inr (Or.inl ⟨q, hq, hfork, hunlink, hqin.trans hst.isInfix.1⟩)
  · rintro (hnone | ⟨q, hq, hfork, hunlink, hqin⟩ | hunlinks) p hp hin
    · exact absurd hin (hnone p hp)
    · obtain ⟨htight, hsemi, hline, hbar⟩ := dangerousPatterns_tight q hq hfork hunlink
      obtain ⟨st, hst, hpat⟩ := exists_searched htight hsemi hline (Or.inl hbar) hqin
      exact hrefused hq hst hpat
    · obtain ⟨st, hst, hpat⟩ := exists_searched_of_unlinks hunlinks
      exact hrefused (show unlinkBlank ∈ dangerousPatterns by decide) hst hpat

/-- `sudo rm x` is caught. -/
theorem patterns_caught_sudo_rm :
    (∀ p ∈ dangerousPatterns, p <:+: ascii "sudo rm x" →
        safetyCheckCommand ({} : SafetyConfig) (some (ascii "sudo rm x")) = false) ∧
      ascii "sudo rm" <:+: ascii "sudo rm x" :=
  ⟨(patterns_caught_iff (by decide) _).2
      (Or.inr (Or.inl ⟨ascii "sudo rm", by decide, by decide, by decide, by decide⟩)),
    by decide⟩

/-- The fork bomb itself is let through. -/
theorem forkBomb_not_caught : forkBomb ∈ dangerousPatterns ∧ forkBomb <:+: forkBomb ∧
    safetyCheckCommand ({} : SafetyConfig) (some forkBomb) = true := by
  decide

end EchoAi
