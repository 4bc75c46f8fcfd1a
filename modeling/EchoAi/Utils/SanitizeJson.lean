import EchoAi.Json.Tokens
import EchoAi.Safety.Command

/-!
# The clean-up of a JSON text

White space between tokens is left out, and a comma in front of a closing bracket or brace.  A quote
is taken for the end of a string unless a backslash stands before it.

* `scanJson`, `sanitizeJsonDup`: the pass over a text.
* `repair`: what the pass makes of the tokens of a text; `lexFrom_mended`: it does so.
* `parses_sanitizeJsonDup_iff`: a text keeps its value just when no string with a comma in front of a
  closing bracket or brace stands behind an odd number of strings that end in a backslash.
-/

namespace EchoAi.Sanitize

open JsonTokens

/-! ## The pass -/

/-- The text behind the line of a fence. -/
def skipFence (p : List UInt8) : List UInt8 :=
  if [96, 96, 96] <+: p then ((p.drop 3).dropWhile (· ≠ 10)).drop 1 else p

/-- What follows a comma, from the closing bracket or brace on. -/
def closeBehind (s : List UInt8) : Option (List UInt8) :=
  match s.dropWhile isBlank with
  | [] => none
  | c :: rest => if c = 93 ∨ c = 125 then some (c :: rest) else none

/-- `in_string` behind a byte. -/
def toggle (previous : Option UInt8) (inString : Bool) (c : UInt8) : Bool :=
  if c = 34 ∧ previous ≠ some 92 then !inString else inString

/-- `result` without the commas at its end. -/
def dropCommas (result : List UInt8) : List UInt8 := result.rdropWhile (· = 44)

/-- The loop of `sanitize_json_dup` over the rest of a text of `len` bytes. -/
def scanJson (len : Nat) (result : List UInt8) (previous : Option UInt8) (inString : Bool) :
    List UInt8 → List UInt8
  | [] => result
  | c :: s =>
    let inString := toggle previous inString c
    if inString = false ∧ (c = 10 ∨ c = 13 ∨ c = 9) then scanJson len result (some c) inString s
    else
      match if inString = false ∧ c = 44 then closeBehind s else none with
      | some rest =>
        let result := dropCommas (result ++ [c])
        if 0 < result.length ∧ result.length + rest.length < len then result ++ rest else result
      | none => scanJson len (result ++ [c]) (some c) inString s

/-- `sanitize_json_dup` -/
def sanitizeJsonDup (str : List UInt8) : List UInt8 :=
  let p := skipFence (str.dropWhile isBlank)
  strTrim ((scanJson p.length [] none false p).rdropWhile isBlank)

/-! ## What goes wrong -/

/-- A string that ends in a backslash, escaped as it has to be. -/
def endsInBackslash : Lexeme (List UInt8) → Bool
  | .string raw => raw.getLast? = some 92
  | _ => false

/-- What stands between quotes has a comma with a closing bracket or brace behind it. -/
def HoldsTrailingComma (raw : List UInt8) : Prop :=
  ∃ front rest, raw = front ++ 44 :: rest ∧ closeBehind rest ≠ none

/-- No string with such a comma stands behind an odd number of strings that end in a backslash. -/
def Safe (ts : List (Lexeme (List UInt8))) : Prop :=
  ∀ front raw behind, ts = front ++ .string raw :: behind → Odd (front.countP endsInBackslash) →
    ¬HoldsTrailingComma raw

/-! ## The tokens behind the pass -/

/-- What stands between quotes up to the first such comma, and what follows it. -/
def cut : List UInt8 → Option (List UInt8 × List UInt8)
  | [] => none
  | c :: s =>
    match if c = 44 then closeBehind s else none with
    | some rest => some ([c], rest)
    | none => (cut s).map fun p => (c :: p.1, p.2)

/-- What becomes of the tokens when strings are taken for what is between them. -/
def repair : (flipped : Bool) → List (Lexeme (List UInt8)) → List (Lexeme (List UInt8))
  | _, [] => []
  | flipped, .string raw :: ts =>
    match if flipped then cut raw else none with
    | some (front, rest) => .string (dropCommas front ++ rest) :: ts
    | none => .string raw :: repair (flipped ^^ endsInBackslash (.string raw)) ts
  | flipped, t :: ts => t :: repair flipped ts

/-- What a pass copies before it removes a comma, that comma included, and what follows then. -/
def passed (previous : Option UInt8) (inString : Bool) :
    List UInt8 → List UInt8 × Option (List UInt8)
  | [] => ([], none)
  | c :: s =>
    let inString := toggle previous inString c
    if inString = false ∧ (c = 10 ∨ c = 13 ∨ c = 9) then passed (some c) inString s
    else
      match if inString = false ∧ c = 44 then closeBehind s else none with
      | some rest => ([c], some rest)
      | none => (c :: (passed (some c) inString s).1, (passed (some c) inString s).2)

/-- The outcome of a pass. -/
def mended (p : List UInt8 × Option (List UInt8)) : List UInt8 :=
  match p.2 with
  | none => p.1
  | some rest => dropCommas p.1 ++ rest

/-- A byte in front of what a pass copies. -/
def copyByte (c : UInt8) (p : List UInt8 × Option (List UInt8)) : List UInt8 × Option (List UInt8) :=
  (c :: p.1, p.2)

/-- A comma is removed behind a quote only. -/
def BehindQuote (p : List UInt8 × Option (List UInt8)) : Prop := p.2 ≠ none → 34 ∈ p.1

section Passed

variable {previous : Option UInt8} {inString : Bool} {c : UInt8} {s : List UInt8}

theorem toggle_of_ne (h : c ≠ 34) : toggle previous inString c = inString :=
  if_neg fun hc => h hc.1

theorem toggle_of_escaped : toggle (some 92) inString c = inString := if_neg fun hc => hc.2 rfl

theorem passed_copy (htoggle : toggle previous inString c = inString)
    (hcontrol : c ≠ 10 ∧ c ≠ 13 ∧ c ≠ 9) (hcomma : c ≠ 44) :
    passed previous inString (c :: s) = copyByte c (passed (some c) inString s) := by
  have hdrop : ¬(inString = false ∧ (c = 10 ∨ c = 13 ∨ c = 9)) := by
    rintro ⟨-, h⟩
    rcases h with h | h | h
    · exact hcontrol.1 h
    · exact hcontrol.2.1 h
    · exact hcontrol.2.2 h
  rw [passed, htoggle, if_neg hdrop, if_neg fun h => hcomma h.2]
  rfl

/-- A comma outside of strings with nothing to close behind it, or one inside of a string. -/
theorem passed_comma (h : inString = false → closeBehind s = none) :
    passed previous inString (44 :: s) = copyByte 44 (passed (some 44) inString s) := by
  rw [passed, toggle_of_ne (by decide), if_neg fun hc => absurd hc.2 (by decide)]
  have hnone : (if inString = false ∧ (44 : UInt8) = 44 then closeBehind s else none) = none := by
    split
    · next hin => exact h hin.1
    · rfl
  rw [hnone]
  rfl

theorem passed_cut {rest : List UInt8} (h : closeBehind s = some rest) :
    passed previous false (44 :: s) = ([44], some rest) := by
  rw [passed, toggle_of_ne (by decide), if_neg fun hc => absurd hc.2 (by decide), if_pos ⟨rfl, rfl⟩,
    h]

theorem passed_dropped (h : c = 10 ∨ c = 13 ∨ c = 9) :
    passed previous false (c :: s) = passed (some c) false s := by
  have hquote : c ≠ 34 := by
    rintro rfl
    exact absurd h (by decide)
  rw [passed, toggle_of_ne hquote, if_pos ⟨rfl, h⟩]

theorem passed_control (h : c = 10 ∨ c = 13 ∨ c = 9) :
    passed previous true (c :: s) = copyByte c (passed (some c) true s) := by
  have hquote : c ≠ 34 := by
    rintro rfl
    exact absurd h (by decide)
  rw [passed, toggle_of_ne hquote, if_neg fun hin => Bool.false_ne_true hin.1.symm,
    if_neg fun hin => Bool.false_ne_true hin.1.symm]
  rfl

theorem passed_quote (h : previous ≠ some 92) :
    passed previous inString (34 :: s) = copyByte 34 (passed (some 34) (!inString) s) := by
  have htoggle : toggle previous inString 34 = !inString := if_pos ⟨rfl, h⟩
  rw [passed, htoggle, if_neg fun hc => absurd hc.2 (by decide),
    if_neg fun hc => absurd hc.2 (by decide)]
  rfl

theorem passed_escapedQuote :
    passed (some 92) inString (34 :: s) = copyByte 34 (passed (some 34) inString s) :=
  passed_copy toggle_of_escaped (by decide) (by decide)

theorem dropCommas_comma (k : List UInt8) : dropCommas (k ++ [44]) = dropCommas k :=
  List.rdropWhile_concat_pos _ _ _ (decide_eq_true rfl)

theorem dropCommas_other (h : c ≠ 44) (k : List UInt8) : dropCommas (k ++ [c]) = k ++ [c] :=
  List.rdropWhile_concat_neg _ _ _ (by rw [decide_eq_true_eq]; exact h)

theorem dropCommas_append (h : c ≠ 44) (front k : List UInt8) :
    dropCommas (front ++ c :: k) = front ++ c :: dropCommas k := by
  induction k using List.reverseRecOn with
  | nil => exact dropCommas_other h front
  | append_singleton k x ih =>
    rw [← List.cons_append, ← List.append_assoc]
    by_cases hx : x = 44
    · rw [hx, dropCommas_comma, dropCommas_comma, ih]
    · rw [dropCommas_other hx, dropCommas_other hx, List.append_assoc, List.cons_append]

theorem dropCommas_cons {k : List UInt8} (h : 34 ∈ k) : dropCommas (c :: k) = c :: dropCommas k := by
  obtain ⟨front, behind, rfl⟩ := List.append_of_mem h
  rw [← List.cons_append, dropCommas_append (by decide), dropCommas_append (by decide),
    List.cons_append]

theorem mended_copy {p : List UInt8 × Option (List UInt8)} (h : BehindQuote p) :
    mended (copyByte c p) = c :: mended p := by
  obtain ⟨k, rest⟩ := p
  cases rest with
  | none => rfl
  | some rest =>
    have hmem : 34 ∈ k := h (Option.some_ne_none rest)
    exact congrArg (· ++ rest) (dropCommas_cons hmem)

theorem BehindQuote.copy {p : List UInt8 × Option (List UInt8)} (h : BehindQuote p) :
    BehindQuote (copyByte c p) :=
  fun hp => List.mem_cons_of_mem c (h hp)

end Passed

/-! ## Strings in a pass -/

/-- Bytes in front of what a pass copies. -/
def copyAll (front : List UInt8) (p : List UInt8 × Option (List UInt8)) :
    List UInt8 × Option (List UInt8) :=
  (front ++ p.1, p.2)

theorem mended_copyAll {p : List UInt8 × Option (List UInt8)} (h : BehindQuote p)
    (front : List UInt8) :
    mended (copyAll front p) = front ++ mended p ∧ BehindQuote (copyAll front p) := by
  induction front with
  | nil => exact ⟨rfl, h⟩
  | cons c front ih =>
    exact ⟨(mended_copy ih.2).trans (congrArg (c :: ·) ih.1), ih.2.copy⟩

theorem closeBehind_blank {c : UInt8} (h : isBlank c = true) (s : List UInt8) :
    closeBehind (c :: s) = closeBehind s := by
  rw [closeBehind, List.dropWhile_cons_of_pos h, closeBehind]

theorem closeBehind_other {c : UInt8} (h : ¬isBlank c = true) (s : List UInt8) :
    closeBehind (c :: s) = if c = 93 ∨ c = 125 then some (c :: s) else none := by
  rw [closeBehind, List.dropWhile_cons_of_neg h]

/-- What closes behind a comma between quotes stands there too. -/
theorem closeBehind_append (raw rest : List UInt8) :
    closeBehind (raw ++ 34 :: rest) = (closeBehind raw).map (· ++ 34 :: rest) := by
  induction raw with
  | nil => rfl
  | cons c raw ih =>
    by_cases hblank : isBlank c = true
    · rw [List.cons_append, closeBehind_blank hblank, closeBehind_blank hblank, ih]
    · rw [List.cons_append, closeBehind_other hblank, closeBehind_other hblank]
      split <;> rfl

/-- The last byte of a text, or of what stands before it. -/
def lastByte (previous : Option UInt8) (raw : List UInt8) : Option UInt8 :=
  raw.foldl (fun _ c => some c) previous

theorem lastByte_eq_getLast? (previous : Option UInt8) {raw : List UInt8} (h : raw ≠ []) :
    lastByte previous raw = raw.getLast? := by
  induction raw using List.reverseRecOn with
  | nil => exact absurd rfl h
  | append_singleton raw c _ => rw [lastByte, List.foldl_concat, List.getLast?_concat]

/-- Where a pass that is `inString` between quotes removes a comma. -/
def cutIn (inString : Bool) (raw : List UInt8) : Option (List UInt8 × List UInt8) :=
  if inString then none else cut raw

/-- What a pass makes of a text that starts between quotes; `p` is what it makes of the rest. -/
def resume (raw rest : List UInt8) (p : List UInt8 × Option (List UInt8)) :
    Option (List UInt8 × List UInt8) → List UInt8 × Option (List UInt8)
  | some (front, close) => (front, some (close ++ 34 :: rest))
  | none => copyAll raw p

theorem copy_resume (c : UInt8) (raw rest : List UInt8) (p : List UInt8 × Option (List UInt8))
    (place : Option (List UInt8 × List UInt8)) :
    copyByte c (resume raw rest p place) =
      resume (c :: raw) rest p (place.map fun q => (c :: q.1, q.2)) := by
  cases place <;> rfl

theorem cutIn_cons {inString : Bool} {c : UInt8} {s : List UInt8} (h : c ≠ 44) :
    cutIn inString (c :: s) = (cutIn inString s).map fun q => (c :: q.1, q.2) := by
  cases inString with
  | true => rfl
  | false => rw [cutIn, if_neg Bool.false_ne_true, cut, if_neg h]; rfl

theorem cutIn_comma {inString : Bool} {s : List UInt8}
    (h : inString = false → closeBehind s = none) :
    cutIn inString (44 :: s) = (cutIn inString s).map fun q => (44 :: q.1, q.2) := by
  cases inString with
  | true => rfl
  | false => rw [cutIn, if_neg Bool.false_ne_true, cut, if_pos rfl, h rfl]; rfl

section Reads

variable {previous : Option UInt8} {inString : Bool} {c : UInt8} {s rest : List UInt8}

/-- A byte between quotes that is neither a comma nor a quote that is taken for one. -/
theorem passed_copy_resume (htoggle : toggle previous inString c = inString)
    (hcontrol : c ≠ 10 ∧ c ≠ 13 ∧ c ≠ 9) (hcomma : c ≠ 44)
    (h : passed (some c) inString (s ++ 34 :: rest) =
      resume s rest (passed (lastByte (some c) s) inString (34 :: rest)) (cutIn inString s)) :
    passed previous inString (c :: s ++ 34 :: rest) =
      resume (c :: s) rest (passed (lastByte previous (c :: s)) inString (34 :: rest))
        (cutIn inString (c :: s)) := by
  rw [List.cons_append, passed_copy htoggle hcontrol hcomma, h, copy_resume, cutIn_cons hcomma]
  rfl

theorem isPlain_not_control (h : isPlain c = true) : c ≠ 10 ∧ c ≠ 13 ∧ c ≠ 9 := by
  refine ⟨?_, ?_, ?_⟩ <;>
  · rintro rfl
    exact absurd h (by decide)

theorem hexValue_ne_comma (h : hexValue c ≠ none) : c ≠ 44 := by
  rintro rfl
  exact h (by decide)

/-- A byte of four digits. -/
theorem passed_hex_resume (hc : hexValue c ≠ none)
    (h : passed (some c) inString (s ++ 34 :: rest) =
      resume s rest (passed (lastByte (some c) s) inString (34 :: rest)) (cutIn inString s)) :
    passed previous inString (c :: s ++ 34 :: rest) =
      resume (c :: s) rest (passed (lastByte previous (c :: s)) inString (34 :: rest))
        (cutIn inString (c :: s)) :=
  passed_copy_resume (toggle_of_ne (isPlain_ne (isPlain_of_hexValue hc)).1)
    (isPlain_not_control (isPlain_of_hexValue hc)) (hexValue_ne_comma hc) h

/-- A pass over what stands between quotes. -/
theorem passed_reads {raw : List UInt8} {ps : List Piece} (h : Reads raw ps)
    (previous : Option UInt8) (inString : Bool) (rest : List UInt8) :
    passed previous inString (raw ++ 34 :: rest) =
      resume raw rest (passed (lastByte previous raw) inString (34 :: rest))
        (cutIn inString raw) := by
  induction h generalizing previous with
  | nil => cases inString <;> rfl
  | @plain b s ps hb h ih =>
    by_cases hcomma : b = 44
    · subst hcomma
      by_cases hcut : inString = false → closeBehind s = none
      · have hcut' : inString = false → closeBehind (s ++ 34 :: rest) = none := fun hin => by
          rw [closeBehind_append, hcut hin, Option.map_none]
        rw [List.cons_append, passed_comma hcut', ih, copy_resume, cutIn_comma hcut]
        rfl
      · push Not at hcut
        obtain ⟨rfl, hclose⟩ := hcut
        obtain ⟨close, hclose⟩ := Option.ne_none_iff_exists'.1 hclose
        have hclose' : closeBehind (s ++ 34 :: rest) = some (close ++ 34 :: rest) := by
          rw [closeBehind_append, hclose, Option.map_some]
        rw [List.cons_append, passed_cut hclose', cutIn, if_neg Bool.false_ne_true, cut, if_pos rfl,
          hclose]
        rfl
    · exact passed_copy_resume (toggle_of_ne (isPlain_ne hb).1) (isPlain_not_control hb) hcomma
        (ih _)
  | @escape e b s ps he h ih =>
    have hcontrol : e ≠ 10 ∧ e ≠ 13 ∧ e ≠ 9 := by
      refine ⟨?_, ?_, ?_⟩ <;>
      · rintro rfl
        exact Option.some_ne_none b he.symm
    have hcomma : e ≠ 44 := by
      rintro rfl
      exact Option.some_ne_none b he.symm
    exact passed_copy_resume (toggle_of_ne (by decide)) (by decide) (by decide)
      (passed_copy_resume toggle_of_escaped hcontrol hcomma (ih _))
  | @code a b c d n s ps hn h ih =>
    obtain ⟨ha, hb, hc, hd⟩ := hexValues_isSome hn
    exact passed_copy_resume (toggle_of_ne (by decide)) (by decide) (by decide)
      (passed_copy_resume toggle_of_escaped (by decide) (by decide)
        (passed_hex_resume ha (passed_hex_resume hb (passed_hex_resume hc
          (passed_hex_resume hd (ih _))))))

end Reads

/-- A quote that ends a string is taken for the start of one when a backslash stands before it. -/
theorem passed_close (raw : List UInt8) (flipped : Bool) (rest : List UInt8) :
    passed (lastByte (some 34) raw) (!flipped) (34 :: rest) =
      copyByte 34 (passed (some 34) (flipped ^^ endsInBackslash (.string raw)) rest) := by
  by_cases hlast : raw.getLast? = some 92
  · have hraw : raw ≠ [] := by
      rintro rfl
      exact absurd hlast (by decide)
    have hends : endsInBackslash (.string raw) = true := decide_eq_true hlast
    rw [lastByte_eq_getLast? _ hraw, hlast, passed_escapedQuote, hends, Bool.xor_true]
  · have hends : endsInBackslash (.string raw) = false := decide_eq_false hlast
    have hprevious : lastByte (some 34) raw ≠ some 92 := by
      by_cases hraw : raw = []
      · rw [hraw]
        decide
      · rw [lastByte_eq_getLast? _ hraw]
        exact hlast
    rw [passed_quote hprevious, hends, Bool.not_not, Bool.xor_false]

/-! ## A pass over a whole text -/

/-- Tokens of a text that spells a value. -/
structure Tidy (ts : List (Lexeme (List UInt8))) : Prop where
  spaced : ts.IsChain Spaced
  words : WordsOk ts
  reads : ∀ raw, .string raw ∈ ts → ∃ ps, Reads raw ps

theorem tidy_of_spells {ts : List (Lexeme (List UInt8))} {v : Json} (h : Spells ts v) : Tidy ts :=
  ⟨h.isChain, h.wordsOk, fun _ => h.exists_reads⟩

theorem Tidy.tail {t : Lexeme (List UInt8)} {ts : List (Lexeme (List UInt8))} (h : Tidy (t :: ts)) :
    Tidy ts :=
  ⟨(List.isChain_cons.1 h.spaced).2, wordsOk_of_cons h.words,
    fun raw hraw => h.reads raw (List.mem_cons_of_mem t hraw)⟩

theorem Tidy.of_endWord {m : Mode} {ts : List (Lexeme (List UInt8))} (h : Tidy (endWord m ts)) :
    Tidy ts := by
  rw [endWord] at h
  split at h
  · exact h.tail
  · exact h

/-- A word without its first byte. -/
theorem Tidy.of_word {b : UInt8} {w : List UInt8} {ts : List (Lexeme (List UInt8))}
    (h : Tidy (.word (b :: w) :: ts)) : Tidy (.word w :: ts) := by
  obtain ⟨hhead, hrest⟩ := List.isChain_cons.1 h.spaced
  refine ⟨List.isChain_cons.2 ⟨fun u hu => ?_, hrest⟩, fun w' hw' => ?_, fun raw hraw => ?_⟩
  · exact ⟨fun _ w' _ => (hhead u hu).1 (b :: w) w' rfl, fun hmark => absurd hmark (word_ne_mark w 44)⟩
  · rcases List.mem_cons.1 hw' with heq | hw'
    · obtain rfl := Lexeme.word.inj heq
      exact fun c hc => h.words (b :: w') List.mem_cons_self c (List.mem_cons_of_mem b hc)
    · exact h.words w' (List.mem_cons_of_mem _ hw')
  · rcases List.mem_cons.1 hraw with heq | hraw
    · exact absurd heq (by simp)
    · exact h.reads raw (List.mem_cons_of_mem _ hraw)

theorem repair_endWord (m : Mode) (flipped : Bool) (ts : List (Lexeme (List UInt8))) :
    repair flipped (endWord m ts) = endWord m (repair flipped ts) := by
  rw [endWord, endWord]
  split <;> rfl

theorem repair_string_none {flipped : Bool} {raw : List UInt8} {ts : List (Lexeme (List UInt8))}
    (h : cutIn (!flipped) raw = none) : repair flipped (.string raw :: ts) =
      .string raw :: repair (flipped ^^ endsInBackslash (.string raw)) ts := by
  cases flipped with
  | false => rfl
  | true =>
    have hcut : cut raw = none := h
    rw [repair, if_pos rfl, hcut]

theorem repair_string_some {flipped : Bool} {raw front close : List UInt8}
    {ts : List (Lexeme (List UInt8))} (h : cutIn (!flipped) raw = some (front, close)) :
    repair flipped (.string raw :: ts) =
      .string (dropCommas front ++ close) :: ts := by
  cases flipped with
  | false => exact absurd h (by simp [cutIn])
  | true =>
    have hcut : cut raw = some (front, close) := h
    rw [repair, if_pos rfl, hcut]

/-- The bytes that close behind a comma are the next token. -/
theorem head_of_closeBehind {s : List UInt8} {ts : List (Lexeme (List UInt8))}
    (h : lexFrom .between s = some ts) (hclose : closeBehind s ≠ none) :
    ts.head? = some (.mark 93) ∨ ts.head? = some (.mark 125) := by
  induction s generalizing ts with
  | nil => exact absurd rfl hclose
  | cons c s ih =>
    by_cases hblank : isBlank c = true
    · rw [lexFrom_blank (Or.inl rfl) hblank, Option.map_eq_some_iff] at h
      obtain ⟨ts', hs, rfl⟩ := h
      rw [closeBehind_blank hblank] at hclose
      exact ih hs hclose
    · rw [closeBehind_other hblank] at hclose
      split at hclose
      · next hc =>
        have hmark : isMark c = true := by rcases hc with rfl | rfl <;> decide
        rw [lexFrom_mark (Or.inl rfl) hmark, Option.map_eq_some_iff] at h
        obtain ⟨ts', -, rfl⟩ := h
        rcases hc with rfl | rfl
        · exact Or.inl rfl
        · exact Or.inr rfl
      · exact absurd rfl hclose

/-- A word ends where no other word starts. -/
theorem lexFrom_word_of_between {s : List UInt8} {ts : List (Lexeme (List UInt8))}
    (h : lexFrom .between s = some ts) (hhead : ∀ w, ts.head? ≠ some (.word w)) :
    lexFrom .word s = some (.word [] :: ts) := by
  cases s with
  | nil =>
    obtain rfl := Option.some.inj h
    rfl
  | cons c s =>
    by_cases hblank : isBlank c = true
    · rw [lexFrom_blank (Or.inl rfl) hblank, Option.map_eq_some_iff] at h
      obtain ⟨us, hs, rfl⟩ := h
      rw [lexFrom_blank (Or.inr rfl) hblank, hs]
      rfl
    · by_cases hquote : c = 34
      · rw [hquote, lexFrom_open (Or.inl rfl), Option.map_eq_some_iff] at h
        obtain ⟨us, hs, rfl⟩ := h
        rw [hquote, lexFrom_open (Or.inr rfl), hs]
        rfl
      · by_cases hmark : isMark c = true
        · rw [lexFrom_mark (Or.inl rfl) hmark, Option.map_eq_some_iff] at h
          obtain ⟨us, hs, rfl⟩ := h
          rw [lexFrom_mark (Or.inr rfl) hmark, hs]
          rfl
        · rw [lexFrom_letter (Or.inl rfl) (Bool.eq_false_of_not_eq_true hblank) hquote
            (Bool.eq_false_of_not_eq_true hmark), Option.map_eq_some_iff] at h
          obtain ⟨us, hs, rfl⟩ := h
          obtain ⟨w, us', rfl⟩ := exists_of_lexFrom_word hs
          exact absurd rfl (hhead (c :: w))

theorem head_repair {flipped : Bool} {ts : List (Lexeme (List UInt8))} {w : List UInt8}
    (h : (repair flipped ts).head? = some (.word w)) : ts.head? = some (.word w) := by
  match ts, h with
  | [], h => exact h
  | .mark _ :: _, h => exact h
  | .word _ :: _, h => exact h
  | .string raw :: ts, h =>
    cases hcut : cutIn (!flipped) raw with
    | none =>
      rw [repair_string_none hcut, List.head?_cons] at h
      exact absurd h (by simp)
    | some place =>
      rw [repair_string_some hcut, List.head?_cons] at h
      exact absurd h (by simp)

/-! ## A comma is removed -/

theorem exists_of_closeBehind {s close : List UInt8} (h : closeBehind s = some close) :
    ∃ blanks c rest, s = blanks ++ close ∧ close = c :: rest ∧ (c = 93 ∨ c = 125) := by
  induction s with
  | nil => exact absurd h.symm (Option.some_ne_none close)
  | cons c s ih =>
    by_cases hblank : isBlank c = true
    · rw [closeBehind_blank hblank] at h
      obtain ⟨blanks, d, rest, rfl, hclose⟩ := ih h
      exact ⟨c :: blanks, d, rest, rfl, hclose⟩
    · rw [closeBehind_other hblank] at h
      split at h
      · next hc =>
        obtain rfl := Option.some.inj h
        exact ⟨[], c, s, rfl, rfl, hc⟩
      · exact absurd h.symm (Option.some_ne_none close)

theorem exists_of_cut {raw front close : List UInt8} (h : cut raw = some (front, close)) :
    ∃ front' s, raw = front' ++ 44 :: s ∧ front = front' ++ [44] ∧ closeBehind s = some close := by
  induction raw generalizing front with
  | nil => exact absurd h (by simp [cut])
  | cons c s ih =>
    rw [cut] at h
    split at h
    · next rest hrest =>
      split at hrest
      · next hc =>
        obtain ⟨rfl, rfl⟩ := Prod.mk.inj (Option.some.inj h)
        exact ⟨[], s, by rw [hc]; rfl, by rw [hc]; rfl, hrest⟩
      · exact absurd hrest.symm (Option.some_ne_none rest)
    · rw [Option.map_eq_some_iff] at h
      obtain ⟨⟨front₀, close₀⟩, hcut, heq⟩ := h
      obtain ⟨rfl, rfl⟩ := Prod.mk.inj heq
      obtain ⟨front', s', rfl, rfl, hclose⟩ := ih hcut
      exact ⟨c :: front', s', rfl, rfl, hclose⟩

/-- What stands between quotes is cut just when it holds such a comma. -/
theorem cut_ne_none_iff (raw : List UInt8) : cut raw ≠ none ↔ HoldsTrailingComma raw := by
  constructor
  · intro h
    obtain ⟨⟨front, close⟩, hcut⟩ := Option.ne_none_iff_exists'.1 h
    obtain ⟨front', s, hraw, -, hclose⟩ := exists_of_cut hcut
    exact ⟨front', s, hraw, by rw [hclose]; exact Option.some_ne_none close⟩
  · rintro ⟨front, rest, rfl, hclose⟩
    induction front with
    | nil =>
      obtain ⟨close, hclose⟩ := Option.ne_none_iff_exists'.1 hclose
      rw [List.nil_append, cut, if_pos rfl, hclose]
      exact Option.some_ne_none _
    | cons c front ih =>
      rw [List.cons_append, cut]
      split
      · exact Option.some_ne_none _
      · exact fun hnone => ih (Option.map_eq_none_iff.1 hnone)

theorem exists_of_dropCommas (front : List UInt8) :
    ∃ commas, front ++ [44] = dropCommas front ++ 44 :: commas := by
  induction front using List.reverseRecOn with
  | nil => exact ⟨[], rfl⟩
  | append_singleton front c ih =>
    by_cases hc : c = 44
    · obtain ⟨commas, hcommas⟩ := ih
      rw [hc, dropCommas_comma]
      exact ⟨commas ++ [44], by rw [hcommas, List.append_assoc, List.cons_append]⟩
    · rw [dropCommas_other hc]
      exact ⟨[], rfl⟩

/-- A string without the comma, read piece by piece. -/
theorem exists_reads_of_cut {raw front close : List UInt8} {ps : List Piece}
    (hcut : cut raw = some (front, close)) (h : Reads raw ps) :
    ∃ qs us c vs, c ≠ 44 ∧ ps = qs ++ .byte 44 :: (us ++ .byte c :: vs) ∧
      Reads (dropCommas front ++ close) (qs ++ .byte c :: vs) := by
  obtain ⟨front', s, rfl, rfl, hclose⟩ := exists_of_cut hcut
  obtain ⟨blanks, c, rest, rfl, rfl, hc⟩ := exists_of_closeBehind hclose
  obtain ⟨commas, hcommas⟩ := exists_of_dropCommas front'
  have hraw : front' ++ 44 :: (blanks ++ c :: rest) =
      dropCommas front' ++ 44 :: ((commas ++ blanks) ++ c :: rest) := by
    rw [List.append_cons, hcommas, List.append_assoc, List.cons_append, List.append_assoc]
  rw [hraw] at h
  rw [dropCommas_comma]
  obtain ⟨qs, rs, hqs, hrs, rfl⟩ := h.exists_of_append_cons (by decide) (by decide) (by decide)
    (by decide)
  have hplain : isPlain c = true ∧ unescape c = none ∧ hexValue c = none ∧ c ≠ 117 ∧ c ≠ 44 := by
    rcases hc with rfl | rfl <;> decide
  obtain ⟨us, vs, -, hvs, rfl⟩ :=
    hrs.exists_of_append_cons hplain.1 hplain.2.1 hplain.2.2.1 hplain.2.2.2.1
  exact ⟨qs, us, c, vs, hplain.2.2.2.2, rfl, hqs.append (Reads.plain hplain.1 hvs)⟩

/-- The string without the comma is another one. -/
theorem read_ne_of_cut {raw front close : List UInt8} {ps : List Piece}
    (hcut : cut raw = some (front, close)) (h : Reads raw ps) :
    Lexeme.read (.string (dropCommas front ++ close)) ≠ some (.string (normal ps)) := by
  obtain ⟨qs, us, c, vs, hc, rfl, hreads⟩ := exists_reads_of_cut hcut h
  rw [Lexeme.read, hreads.readPieces, Option.map_some]
  intro heq
  have hnormal := Lexeme.string.inj (Option.some.inj heq)
  rw [normal_append_byte, normal_append_byte] at hnormal
  have hbytes := (List.cons.inj (List.append_cancel_left hnormal)).1
  exact hc (Piece.byte.inj hbytes)

/-! ## The tokens behind a pass -/

/-- What a pass leaves of a text is the text of the repaired tokens, and a comma is removed behind a
quote only. -/
def Leaves (m : Mode) (flipped : Bool) (ts : List (Lexeme (List UInt8)))
    (p : List UInt8 × Option (List UInt8)) : Prop :=
  lexFrom m (mended p) = some (repair flipped ts) ∧ BehindQuote p

section Leaves

variable {m : Mode} {flipped : Bool} {previous : Option UInt8} {s : List UInt8}
  {ts : List (Lexeme (List UInt8))}

/-- A byte that is copied in front of what a pass leaves. -/
theorem Leaves.copy {m' : Mode} {c : UInt8} {g : List (Lexeme (List UInt8)) → List (Lexeme (List UInt8))}
    {p : List UInt8 × Option (List UInt8)} (h : Leaves m' flipped ts p)
    (hg : ∀ s, lexFrom m (c :: s) = (lexFrom m' s).map g) (hrepair : repair flipped (g ts) =
      g (repair flipped ts)) : Leaves m flipped (g ts) (copyByte c p) := by
  refine ⟨?_, h.2.copy⟩
  rw [mended_copy h.2, hg, h.1, Option.map_some, hrepair]

/-- White space is dropped, or it is copied. -/
theorem leaves_blank (hm : m = .between ∨ m = .word) {c : UInt8} (hc : isBlank c = true)
    (htidy : Tidy (endWord m ts))
    (ih : ∀ inString, Leaves .between inString ts (passed (some c) inString s)) :
    Leaves m flipped (endWord m ts) (passed previous flipped (c :: s)) := by
  have hquote : c ≠ 34 := by
    rintro rfl
    exact absurd hc (by decide)
  have hcomma : c ≠ 44 := by
    rintro rfl
    exact absurd hc (by decide)
  have hcopied := (ih flipped).copy (g := endWord m) (fun s => lexFrom_blank hm hc)
    (repair_endWord m flipped ts)
  by_cases hcontrol : c = 10 ∨ c = 13 ∨ c = 9
  · cases flipped with
    | true =>
      rw [passed_control hcontrol]
      exact hcopied
    | false =>
      rw [passed_dropped hcontrol]
      refine ⟨?_, (ih false).2⟩
      rw [repair_endWord]
      rcases hm with rfl | rfl
      · exact (ih false).1
      · refine lexFrom_word_of_between (ih false).1 fun w hw => ?_
        -- no word follows a word
        have hspaced := (List.isChain_cons.1 htidy.spaced).1 (.word w) (head_repair hw)
        exact hspaced.1 [] w rfl rfl
  · rw [not_or, not_or] at hcontrol
    rw [passed_copy (toggle_of_ne hquote) hcontrol hcomma]
    exact hcopied

theorem leaves_mark (hm : m = .between ∨ m = .word) {c : UInt8} (hc : isMark c = true)
    (hs : lexFrom .between s = some ts) (htidy : Tidy (endWord m (.mark c :: ts)))
    (ih : Leaves .between flipped ts (passed (some c) flipped s)) :
    Leaves m flipped (endWord m (.mark c :: ts)) (passed previous flipped (c :: s)) := by
  have hcopied := ih.copy (g := fun ts => endWord m (.mark c :: ts)) (fun s => lexFrom_mark hm hc)
    (repair_endWord m flipped (.mark c :: ts))
  by_cases hcomma : c = 44
  · subst hcomma
    have hopen : flipped = false → closeBehind s = none := by
      intro _
      by_contra hclose
      have hspaced := (List.isChain_cons.1 htidy.of_endWord.spaced).1
      rcases head_of_closeBehind hs hclose with hhead | hhead
      · exact ((hspaced _ hhead).2 rfl).1 rfl
      · exact ((hspaced _ hhead).2 rfl).2 rfl
    rw [passed_comma hopen]
    exact hcopied
  · have hother : c ≠ 34 ∧ c ≠ 10 ∧ c ≠ 13 ∧ c ≠ 9 := by
      refine ⟨?_, ?_, ?_, ?_⟩ <;>
      · rintro rfl
        exact absurd hc (by decide)
    rw [passed_copy (toggle_of_ne hother.1) hother.2 hcomma]
    exact hcopied

theorem leaves_letter (hm : m = .between ∨ m = .word) {c : UInt8} (hblank : isBlank c = false)
    (hquote : c ≠ 34) (hmark : isMark c = false) {w : List UInt8}
    (ih : Leaves .word flipped (.word w :: ts) (passed (some c) flipped s)) :
    Leaves m flipped (extend c (.word w :: ts)) (passed previous flipped (c :: s)) := by
  have hother : c ≠ 10 ∧ c ≠ 13 ∧ c ≠ 9 := by
    refine ⟨?_, ?_, ?_⟩ <;>
    · rintro rfl
      exact absurd hblank (by decide)
  have hcomma : c ≠ 44 := by
    rintro rfl
    exact absurd hmark (by decide)
  rw [passed_copy (toggle_of_ne hquote) hother hcomma]
  exact ih.copy (fun s => lexFrom_letter hm hblank hquote hmark) rfl

/-- A string is copied as it is, or the rest of the text is. -/
theorem leaves_string (hm : m = .between ∨ m = .word) {raw rest : List UInt8} {ps : List Piece}
    (hprevious : previous ≠ some 92) (hraw : Reads raw ps) (hrest : lexFrom .between rest = some ts)
    (ih : Leaves .between (flipped ^^ endsInBackslash (.string raw)) ts
      (passed (some 34) (flipped ^^ endsInBackslash (.string raw)) rest)) :
    Leaves m flipped (endWord m (.string raw :: ts))
      (passed previous flipped (34 :: (raw ++ 34 :: rest))) := by
  rw [passed_quote hprevious, passed_reads hraw, passed_close]
  cases hcut : cutIn (!flipped) raw with
  | none =>
    obtain ⟨hmended, hbehind⟩ := mended_copyAll ih.2.copy raw
    refine ⟨?_, hbehind.copy⟩
    rw [resume, mended_copy hbehind, hmended, mended_copy ih.2, lexFrom_open hm,
      lexFrom_string_of_reads hraw, ih.1, repair_endWord, repair_string_none hcut]
    rfl
  | some place =>
    obtain ⟨front, close⟩ := place
    have hcut' : cut raw = some (front, close) := by
      cases flipped with
      | false => exact absurd hcut (by simp [cutIn])
      | true => exact hcut
    obtain ⟨_, _, _, _, -, -, hreads⟩ := exists_reads_of_cut hcut' hraw
    refine ⟨?_, fun _ => List.mem_cons_self⟩
    have hmended : mended (copyByte 34 (resume raw rest (copyByte 34
        (passed (some 34) (flipped ^^ endsInBackslash (.string raw)) rest)) (some (front, close)))) =
        34 :: (dropCommas front ++ close ++ 34 :: rest) := by
      refine (congrArg (· ++ (close ++ 34 :: rest))
        (dropCommas_append (c := 34) (by decide) [] front)).trans ?_
      rw [List.nil_append, List.cons_append, List.append_assoc]
    rw [hmended, lexFrom_open hm, lexFrom_string_of_reads hreads, hrest, repair_endWord,
      repair_string_some hcut]
    rfl

end Leaves

/-- **The tokens behind a pass** are the repaired tokens of the text. -/
theorem leaves_passed {m : Mode} (hm : m = .between ∨ m = .word) {s : List UInt8}
    {ts : List (Lexeme (List UInt8))} (h : lexFrom m s = some ts) (htidy : Tidy ts)
    {previous : Option UInt8} (hprevious : previous ≠ some 92) (flipped : Bool) :
    Leaves m flipped ts (passed previous flipped s) := by
  induction hlength : s.length using Nat.strong_induction_on
    generalizing s m ts previous flipped with
  | _ n ih =>
  subst hlength
  cases s with
  | nil =>
    refine ⟨?_, fun hnone => absurd rfl hnone⟩
    rcases hm with rfl | rfl
    · obtain rfl := Option.some.inj h
      rfl
    · obtain rfl := Option.some.inj h
      rfl
  | cons c s =>
    have hbetween : ∀ {ts'}, lexFrom .between s = some ts' → Tidy ts' → c ≠ 92 → ∀ inString,
        Leaves .between inString ts' (passed (some c) inString s) := fun hs htidy' hc inString =>
      ih s.length (Nat.lt_succ_self _) (Or.inl rfl) hs htidy'
        (fun heq => hc (Option.some.inj heq)) inString rfl
    by_cases hblank : isBlank c = true
    · rw [lexFrom_blank hm hblank, Option.map_eq_some_iff] at h
      obtain ⟨ts', hs, rfl⟩ := h
      have hc : c ≠ 92 := by
        rintro rfl
        exact absurd hblank (by decide)
      exact leaves_blank hm hblank htidy (hbetween hs htidy.of_endWord hc)
    by_cases hquote : c = 34
    · subst hquote
      rw [lexFrom_open hm, Option.map_eq_some_iff] at h
      obtain ⟨ts₀, hs, rfl⟩ := h
      obtain ⟨raw, rest, ts', rfl, rfl, hrest⟩ := exists_of_lexFrom_string (Or.inl hs)
      obtain ⟨ps, hps⟩ := htidy.of_endWord.reads raw List.mem_cons_self
      have hshort : rest.length < (34 :: (raw ++ 34 :: rest)).length := by
        simp only [List.length_cons, List.length_append]
        omega
      exact leaves_string hm hprevious hps hrest
        (ih rest.length hshort (Or.inl rfl) hrest htidy.of_endWord.tail (by decide) _ rfl)
    by_cases hmark : isMark c = true
    · rw [lexFrom_mark hm hmark, Option.map_eq_some_iff] at h
      obtain ⟨ts', hs, rfl⟩ := h
      have hc : c ≠ 92 := by
        rintro rfl
        exact absurd hmark (by decide)
      exact leaves_mark hm hmark hs htidy (hbetween hs htidy.of_endWord.tail hc flipped)
    · have hblank' := Bool.eq_false_of_not_eq_true hblank
      have hmark' := Bool.eq_false_of_not_eq_true hmark
      rw [lexFrom_letter hm hblank' hquote hmark', Option.map_eq_some_iff] at h
      obtain ⟨ts₀, hs, rfl⟩ := h
      obtain ⟨w, ts', rfl⟩ := exists_of_lexFrom_word hs
      have hc : c ≠ 92 := fun heq =>
        (htidy.words (c :: w) List.mem_cons_self c List.mem_cons_self).2.2.1 heq
      exact leaves_letter hm hblank' hquote hmark' (ih s.length (Nat.lt_succ_self _) (Or.inr rfl) hs
        htidy.of_word (fun heq => hc (Option.some.inj heq)) flipped rfl)

/-! ## The loop -/

theorem scanJson_eq (len : Nat) (result : List UInt8) (previous : Option UInt8) (inString : Bool)
    (s : List UInt8) :
    scanJson len result previous inString s =
      match (passed previous inString s).2 with
      | none => result ++ (passed previous inString s).1
      | some rest =>
        let result := dropCommas (result ++ (passed previous inString s).1)
        if 0 < result.length ∧ result.length + rest.length < len then result ++ rest else result := by
  induction s generalizing result previous inString with
  | nil => exact (List.append_nil result).symm
  | cons c s ih =>
    rw [scanJson, passed]
    split
    · exact ih result (some c) _
    · split
      · rfl
      · rw [ih]
        dsimp only
        rw [List.append_assoc, List.singleton_append]

theorem length_of_closeBehind {s close : List UInt8} (h : closeBehind s = some close) :
    close.length ≤ s.length := by
  obtain ⟨blanks, c, rest, rfl, -⟩ := exists_of_closeBehind h
  rw [List.length_append]
  exact Nat.le_add_left _ _

/-- What is removed makes room for the rest. -/
theorem length_of_passed {previous : Option UInt8} {inString : Bool} {s rest : List UInt8}
    (h : (passed previous inString s).2 = some rest) :
    ∃ k, (passed previous inString s).1 = k ++ [44] ∧ k.length + rest.length < s.length := by
  induction s generalizing previous inString with
  | nil => exact absurd h.symm (Option.some_ne_none rest)
  | cons c s ih =>
    rw [passed] at h ⊢
    split at h
    · next hdrop =>
      obtain ⟨k, hk, hlength⟩ := ih h
      rw [if_pos hdrop]
      exact ⟨k, hk, by rw [List.length_cons]; omega⟩
    · next hkeep =>
      rw [if_neg hkeep]
      split at h
      · next rest' hclose =>
        obtain rfl := Option.some.inj h
        split at hclose
        · next hcomma =>
          refine ⟨[], by rw [hcomma.2]; rfl, ?_⟩
          have hshort := length_of_closeBehind hclose
          rw [List.length_nil, List.length_cons]
          omega
        · exact absurd hclose.symm (Option.some_ne_none _)
      · obtain ⟨k, hk, hlength⟩ := ih h
        refine ⟨c :: k, by rw [hk]; rfl, ?_⟩
        rw [List.length_cons, List.length_cons]
        omega

/-- The loop over a whole text. -/
theorem scanJson_eq_mended {p : List UInt8} (h : BehindQuote (passed none false p)) :
    scanJson p.length [] none false p = mended (passed none false p) := by
  rw [scanJson_eq, mended]
  split
  · rfl
  · next rest hrest =>
    obtain ⟨k, hk, hlength⟩ := length_of_passed hrest
    have hmem : 34 ∈ (passed none false p).1 := h (by rw [hrest]; exact Option.some_ne_none rest)
    obtain ⟨front, behind, hsplit⟩ := List.append_of_mem hmem
    have hpos : 0 < (dropCommas (passed none false p).1).length := by
      rw [hsplit, dropCommas_append (by decide), List.length_append, List.length_cons]
      omega
    have hroom : (dropCommas (passed none false p).1).length + rest.length < p.length := by
      have hdrop : (dropCommas k).length ≤ k.length := (List.rdropWhile_prefix _ k).length_le
      rw [hk, dropCommas_comma]
      omega
    dsimp only
    rw [List.nil_append, if_pos ⟨hpos, hroom⟩]

/-! ## The whole clean-up -/

theorem word_mem_repair {w : List UInt8} {flipped : Bool} {ts : List (Lexeme (List UInt8))}
    (h : .word w ∈ repair flipped ts) : .word w ∈ ts := by
  induction ts generalizing flipped with
  | nil => exact h
  | cons t ts ih =>
    cases t with
    | mark b =>
      rcases List.mem_cons.1 h with h | h
      · exact absurd h (by simp)
      · exact List.mem_cons_of_mem _ (ih h)
    | word w' =>
      rcases List.mem_cons.1 h with h | h
      · rw [h]
        exact List.mem_cons_self
      · exact List.mem_cons_of_mem _ (ih h)
    | string raw =>
      cases hcut : cutIn (!flipped) raw with
      | none =>
        rw [repair_string_none hcut] at h
        exact List.mem_cons_of_mem _ (ih ((List.mem_cons.1 h).resolve_left (by simp)))
      | some place =>
        rw [repair_string_some hcut] at h
        exact List.mem_cons_of_mem _ ((List.mem_cons.1 h).resolve_left (by simp))

theorem isSpacing_of_isBlank (c : UInt8) (h : isBlank c = true) : IsSpacing c := Or.inl h

theorem isSpacing_of_isSpace (c : UInt8) (h : isSpace c = true) : IsSpacing c := by
  by_cases hblank : isBlank c = true
  · exact Or.inl hblank
  · have hother : c = 11 ∨ c = 12 := by
      simp only [isSpace, isBlank, Bool.or_eq_true, beq_iff_eq, decide_eq_true_eq] at h hblank
      grind
    right
    rcases hother with rfl | rfl <;> decide

/-- No text that spells a value starts with a fence. -/
theorem skipFence_of_lex {p : List UInt8} {ts : List (Lexeme (List UInt8))} (h : lex p = some ts)
    (hwords : WordsOk ts) : skipFence p = p := by
  rw [skipFence, if_neg]
  rintro ⟨rest, rfl⟩
  rw [lex, List.cons_append, lexFrom_letter (Or.inl rfl) (by decide) (by decide) (by decide),
    Option.map_eq_some_iff] at h
  obtain ⟨ts₀, hs, rfl⟩ := h
  obtain ⟨w, ts', rfl⟩ := exists_of_lexFrom_word hs
  exact (hwords (96 :: w) List.mem_cons_self 96 List.mem_cons_self).2.2.2 rfl

theorem lex_sanitizeJsonDup {text : List UInt8} {ts : List (Lexeme (List UInt8))}
    (h : lex text = some ts) (htidy : Tidy ts) :
    lex (sanitizeJsonDup text) = some (repair false ts) := by
  have hp := lex_dropWhile isSpacing_of_isBlank h htidy.words
  have hstart : (none : Option UInt8) ≠ some 92 := (Option.some_ne_none 92).symm
  have hleaves := leaves_passed (Or.inl rfl) hp htidy hstart false
  have hwords : WordsOk (repair false ts) := fun w hw => htidy.words w (word_mem_repair hw)
  rw [sanitizeJsonDup, skipFence_of_lex hp htidy.words, scanJson_eq_mended hleaves.2]
  have htrimmed := lexFrom_rdropWhile isSpacing_of_isBlank hleaves.1 hwords
  exact lexFrom_rdropWhile isSpacing_of_isSpace
    (lex_dropWhile isSpacing_of_isSpace htrimmed hwords) hwords

/-! ## What a text spells behind the clean-up -/

/-- `Safe` for the rest of a text, behind an odd number of strings that end in a backslash when
`flipped`. -/
def SafeFrom : (flipped : Bool) → List (Lexeme (List UInt8)) → Prop
  | _, [] => True
  | flipped, t :: ts =>
    (flipped = true → ∀ raw, t = .string raw → ¬HoldsTrailingComma raw) ∧
      SafeFrom (flipped ^^ endsInBackslash t) ts

theorem odd_toNat_xor (n : Nat) (a b : Bool) :
    Odd (n + (a ^^ b).toNat) ↔ Odd (n + b.toNat + a.toNat) := by
  cases a with
  | false =>
    rw [Bool.false_xor]
    rfl
  | true =>
    cases b with
    | false => rfl
    | true =>
      -- two more change nothing
      rw [Nat.odd_iff, Nat.odd_iff]
      change (n + 0) % 2 = 1 ↔ (n + 1 + 1) % 2 = 1
      omega

theorem safeFrom_iff (flipped : Bool) (ts : List (Lexeme (List UInt8))) :
    SafeFrom flipped ts ↔ ∀ front raw behind, ts = front ++ .string raw :: behind →
      Odd (front.countP endsInBackslash + flipped.toNat) → ¬HoldsTrailingComma raw := by
  induction ts generalizing flipped with
  | nil => exact iff_of_true trivial fun front raw behind h => absurd h (by simp)
  | cons t ts ih =>
    rw [SafeFrom, ih]
    constructor
    · rintro ⟨hhead, hrest⟩ front raw behind hsplit hodd
      cases front with
      | nil =>
        obtain ⟨ht, -⟩ := List.cons.inj hsplit
        refine hhead ?_ raw ht
        cases flipped with
        | true => rfl
        | false => exact absurd hodd (by decide)
      | cons u front =>
        obtain ⟨rfl, hsplit'⟩ := List.cons.inj hsplit
        refine hrest front raw behind hsplit' ?_
        rw [odd_toNat_xor]
        rw [List.countP_cons] at hodd
        cases hends : endsInBackslash t <;> rw [hends] at hodd <;> exact hodd
    · intro h
      refine ⟨fun hflipped raw ht => ?_, fun front raw behind hsplit hodd => ?_⟩
      · refine h [] raw ts (by rw [ht]; rfl) ?_
        rw [hflipped]
        decide
      · refine h (t :: front) raw behind (by rw [hsplit]; rfl) ?_
        rw [odd_toNat_xor] at hodd
        rw [List.countP_cons]
        cases hends : endsInBackslash t <;> rw [hends] at hodd <;> exact hodd

theorem flipped_of_cutIn {flipped : Bool} {raw : List UInt8} (h : cutIn (!flipped) raw ≠ none) :
    flipped = true ∧ HoldsTrailingComma raw := by
  cases flipped with
  | false => exact absurd rfl h
  | true => exact ⟨rfl, (cut_ne_none_iff raw).1 h⟩

/-- The repaired tokens spell the same just when there was nothing to repair. -/
theorem forall₂_repair_iff {ts : List (Lexeme (List UInt8))} {ds : List (Lexeme (List Piece))}
    (h : List.Forall₂ (fun t d => t.read = some d) ts ds) (flipped : Bool) :
    List.Forall₂ (fun t d => t.read = some d) (repair flipped ts) ds ↔ SafeFrom flipped ts := by
  induction h generalizing flipped with
  | nil => exact iff_of_true List.Forall₂.nil trivial
  | @cons t d ts ds hread hrest ih =>
    rw [SafeFrom]
    cases t with
    | mark b =>
      have hends : endsInBackslash (.mark b) = false := rfl
      rw [hends, Bool.xor_false, ← ih, and_iff_right fun _ _ ht => absurd ht (by simp), repair,
        List.forall₂_cons, and_iff_right hread]
      simp
    | word w =>
      have hends : endsInBackslash (.word w) = false := rfl
      rw [hends, Bool.xor_false, ← ih, and_iff_right fun _ _ ht => absurd ht (by simp), repair,
        List.forall₂_cons, and_iff_right hread]
      simp
    | string raw =>
      cases hcut : cutIn (!flipped) raw with
      | none =>
        have hsafe : flipped = true → ∀ raw', Lexeme.string raw = .string raw' →
            ¬HoldsTrailingComma raw' := by
          rintro rfl raw' heq hholds
          obtain rfl := Lexeme.string.inj heq
          exact (cut_ne_none_iff raw).2 hholds hcut
        rw [repair_string_none hcut, List.forall₂_cons, ih, and_iff_right hread,
          and_iff_right hsafe]
      | some place =>
        obtain ⟨front, close⟩ := place
        have hwrong : cutIn (!flipped) raw ≠ none := by
          rw [hcut]
          exact Option.some_ne_none _
        obtain ⟨rfl, hholds⟩ := flipped_of_cutIn hwrong
        obtain ⟨ps, hps, rfl⟩ := Option.map_eq_some_iff.1 hread
        rw [repair_string_some hcut, List.forall₂_cons]
        refine iff_of_false (fun hspells => ?_) fun hsafe => hsafe.1 rfl raw rfl hholds
        exact read_ne_of_cut hcut (reads_of_readPieces hps) hspells.1

/-- **A clean-up keeps the value** of a text just when no string with a comma in front of a closing
bracket or brace stands behind an odd number of strings that end in a backslash. -/
theorem parses_sanitizeJsonDup_iff {text : List UInt8} {ts : List (Lexeme (List UInt8))} {v : Json}
    (hlex : lex text = some ts) (hspells : Spells ts v) :
    Parses (sanitizeJsonDup text) v ↔ Safe ts := by
  have hout := lex_sanitizeJsonDup hlex (tidy_of_spells hspells)
  have hsafe : SafeFrom false ts ↔ Safe ts := safeFrom_iff false ts
  rw [← hsafe, ← forall₂_repair_iff hspells false]
  constructor
  · rintro ⟨ts', hts', hspells'⟩
    obtain rfl := Option.some.inj (hout.symm.trans hts')
    exact hspells'
  · exact fun h => ⟨repair false ts, hout, h⟩

/-- `["\\",","]`: behind a string that ends in a backslash there is a comma with nothing to close
behind it. -/
theorem parses_sanitizeJsonDup_iff_comma :
    Parses (sanitizeJsonDup [91, 34, 92, 92, 34, 44, 34, 44, 34, 93])
        (.array [.string [.byte 92], .string [.byte 44]]) ↔
      Safe [.mark 91, .string [92, 92], .mark 44, .string [44], .mark 93] :=
  parses_sanitizeJsonDup_iff (by decide) (by
    simp only [Spells, Json.tokens, itemTokens, List.cons_append, List.nil_append,
      List.forall₂_cons, List.forall₂_nil_right_iff]
    decide)

/-- `["\\",",]"]`: the comma in the second string is removed. -/
theorem not_parses_sanitizeJsonDup :
    Parses [91, 34, 92, 92, 34, 44, 34, 44, 93, 34, 93]
        (.array [.string [.byte 92], .string [.byte 44, .byte 93]]) ∧
      ¬Parses (sanitizeJsonDup [91, 34, 92, 92, 34, 44, 34, 44, 93, 34, 93])
        (.array [.string [.byte 92], .string [.byte 44, .byte 93]]) := by
  refine ⟨⟨[.mark 91, .string [92, 92], .mark 44, .string [44, 93], .mark 93], by decide, ?_⟩, ?_⟩
  · simp only [Spells, Json.tokens, itemTokens, List.cons_append, List.nil_append,
      List.forall₂_cons, List.forall₂_nil_right_iff]
    decide
  · rintro ⟨ts, hlex, hspells⟩
    have hout : lex (sanitizeJsonDup [91, 34, 92, 92, 34, 44, 34, 44, 93, 34, 93]) =
        some [.mark 91, .string [92, 92], .mark 44, .string [93], .mark 93] := by decide
    obtain rfl := Option.some.inj (hout.symm.trans hlex)
    simp only [Spells, Json.tokens, itemTokens, List.cons_append, List.nil_append,
      List.forall₂_cons, List.forall₂_nil_right_iff] at hspells
    exact absurd hspells.2.2.2.1 (by decide)

end EchoAi.Sanitize
