import EchoAi.Json.Value
import Mathlib.Data.Nat.Digits.Defs

/-!
# JSON texts

A printer and a parser of JSON texts on lists of characters, and the proof that the parser undoes
the printer: the instance of `JsonCodec` on which the development's concrete inputs are run.

* `printValue` writes a value without white space; strings are escaped, and a decimal number
  `mantissa / 10 ^ scale` is written as its mantissa with the exponent `-scale`.
* `parseValue` reads one value with a bound on the number of steps; it skips white space and leaves
  what follows the value unread.
* `parseValue_printValue`: reading a printed value gives it back, whatever closes it.
* `textCodec`: the codec, which ignores what follows the first value as a C parser does that is not
  told to look for the end of its input; a text is well formed when only white space follows.
-/

namespace JsonText

open JsonValue

/-! ## Digits -/

/-- The decimal digits of a number. -/
def printNat (n : Nat) : List Char :=
  if n = 0 then ['0'] else (Nat.digits 10 n).reverse.map Nat.digitChar

/-- The number that a list of digits denotes. -/
def digitsValue (ds : List Char) : Nat :=
  ds.foldl (fun a c => 10 * a + (c.toNat - 48)) 0

/-- The digits that a text starts with, and what follows them. -/
def leadingDigits : List Char → List Char × List Char
  | [] => ([], [])
  | c :: cs => if c.isDigit then (c :: (leadingDigits cs).1, (leadingDigits cs).2) else ([], c :: cs)

theorem digitChar_spec : ∀ d < 10, (Nat.digitChar d).isDigit = true ∧
    (Nat.digitChar d).toNat - 48 = d := by
  decide

theorem isDigit_of_mem_printNat {n : Nat} {c : Char} (h : c ∈ printNat n) : c.isDigit = true := by
  unfold printNat at h
  split at h
  · rw [List.mem_singleton] at h
    rw [h]
    decide
  · rw [List.mem_map] at h
    obtain ⟨d, hd, rfl⟩ := h
    rw [List.mem_reverse] at hd
    exact (digitChar_spec d (Nat.digits_lt_base (by decide) hd)).1

theorem printNat_ne_nil (n : Nat) : printNat n ≠ [] := by
  unfold printNat
  split
  · simp
  · next h =>
    intro hnil
    rw [List.map_eq_nil_iff, List.reverse_eq_nil_iff, Nat.digits_eq_nil_iff_eq_zero] at hnil
    exact h hnil

theorem digitsValue_printNat (n : Nat) : digitsValue (printNat n) = n := by
  unfold printNat
  split
  · next h =>
    rw [h]
    rfl
  · have hfold : ∀ ds : List Nat, (∀ d ∈ ds, d < 10) →
        digitsValue (ds.reverse.map Nat.digitChar) = Nat.ofDigits 10 ds := by
      intro ds hds
      rw [digitsValue, List.foldl_map, List.foldl_reverse]
      induction ds with
      | nil => rfl
      | cons d ds ih =>
        rw [List.foldr_cons, ih fun d' hd' => hds d' (List.mem_cons_of_mem _ hd'),
          (digitChar_spec d (hds d List.mem_cons_self)).2, Nat.ofDigits_cons]
        omega
    rw [hfold _ fun d hd => Nat.digits_lt_base (by decide) hd, Nat.ofDigits_digits]

/-- A text that ends a number: it is over, or a separator follows. -/
def Closed (rest : List Char) : Prop :=
  ∀ c ∈ rest.head?, c = ',' ∨ c = ']' ∨ c = '\x7d'

theorem closed_nil : Closed [] := by
  intro c hc
  exact absurd hc (by simp)

theorem closed_cons {c : Char} (h : c = ',' ∨ c = ']' ∨ c = '\x7d') (cs : List Char) :
    Closed (c :: cs) := by
  intro c' hc'
  rw [List.head?_cons, Option.mem_some_iff] at hc'
  rw [← hc']
  exact h

theorem leadingDigits_append {ds rest : List Char} (hds : ∀ c ∈ ds, c.isDigit = true)
    (hrest : ∀ c ∈ rest.head?, c.isDigit = false) : leadingDigits (ds ++ rest) = (ds, rest) := by
  induction ds with
  | nil =>
    cases rest with
    | nil => rfl
    | cons c cs =>
      have hc : c.isDigit = false := hrest c (by simp)
      rw [List.nil_append, leadingDigits, if_neg (by simp [hc])]
  | cons d ds ih =>
    rw [List.cons_append, leadingDigits, if_pos (hds d List.mem_cons_self),
      ih fun c hc => hds c (List.mem_cons_of_mem _ hc)]

theorem leadingDigits_printNat (n : Nat) {rest : List Char}
    (hrest : ∀ c ∈ rest.head?, c.isDigit = false) :
    leadingDigits (printNat n ++ rest) = (printNat n, rest) :=
  leadingDigits_append (fun _ hc => isDigit_of_mem_printNat hc) hrest

/-! ## Numbers -/

/-- The mantissa, with the exponent when there is one. -/
def printNumber (x : Decimal) : List Char :=
  (if x.mantissa < 0 then ['-'] else []) ++ printNat x.mantissa.natAbs ++
    (if x.scale = 0 then [] else 'e' :: '-' :: printNat x.scale)

/-- The digits after a decimal point, when there is one. -/
def parseFraction : List Char → List Char × List Char
  | [] => ([], [])
  | c :: cs => if c = '.' then leadingDigits cs else ([], c :: cs)

/-- Digits after an optional sign. -/
def parseSigned : List Char → Int × List Char
  | [] => (0, [])
  | c :: cs =>
    if c = '-' then (-(digitsValue (leadingDigits cs).1 : Int), (leadingDigits cs).2)
    else if c = '+' then ((digitsValue (leadingDigits cs).1 : Int), (leadingDigits cs).2)
    else ((digitsValue (leadingDigits (c :: cs)).1 : Int), (leadingDigits (c :: cs)).2)

/-- A signed exponent, when there is one. -/
def parseExponent : List Char → Int × List Char
  | [] => (0, [])
  | c :: cs => if c = 'e' ∨ c = 'E' then parseSigned cs else (0, c :: cs)

/-- The decimal number `m * 10 ^ (-s)`. -/
def scaled (m s : Int) : Decimal :=
  if 0 ≤ s then ⟨m, s.toNat⟩ else ⟨m * 10 ^ (-s).toNat, 0⟩

/-- A number without its sign. -/
def parseUnsigned (cs : List Char) : Option (Decimal × List Char) :=
  let whole := leadingDigits cs
  let fraction := parseFraction whole.2
  let exponent := parseExponent fraction.2
  if whole.1 = [] then none
  else some (scaled (digitsValue (whole.1 ++ fraction.1)) (fraction.1.length - exponent.1),
    exponent.2)

/-- A number: an optional minus sign, digits, a fraction and an exponent. -/
def parseNumber : List Char → Option (Decimal × List Char)
  | [] => none
  | c :: cs =>
    if c = '-' then (parseUnsigned cs).map fun r => (⟨-r.1.mantissa, r.1.scale⟩, r.2)
    else parseUnsigned (c :: cs)

theorem not_isDigit_of_closed {rest : List Char} (h : Closed rest) :
    ∀ c ∈ rest.head?, c.isDigit = false := by
  intro c hc
  rcases h c hc with rfl | rfl | rfl <;> decide

theorem parseFraction_of_ne {cs : List Char} (h : ∀ c ∈ cs.head?, c ≠ '.') :
    parseFraction cs = ([], cs) := by
  cases cs with
  | nil => rfl
  | cons c cs =>
    rw [parseFraction, if_neg (h c (by simp))]

theorem parseExponent_closed {rest : List Char} (h : Closed rest) :
    parseExponent rest = (0, rest) := by
  cases rest with
  | nil => rfl
  | cons c cs =>
    have hc : ¬ (c = 'e' ∨ c = 'E') := by
      rcases h c (by simp) with rfl | rfl | rfl <;> decide
    rw [parseExponent, if_neg hc]

theorem parseExponent_print (s : Nat) {rest : List Char} (h : Closed rest) :
    parseExponent ((if s = 0 then [] else 'e' :: '-' :: printNat s) ++ rest) =
      (-(s : Int), rest) := by
  split
  · next hs =>
    rw [List.nil_append, parseExponent_closed h, hs]
    rfl
  · rw [List.cons_append, List.cons_append, parseExponent, if_pos (Or.inl rfl),
      parseSigned, if_pos rfl,
      leadingDigits_printNat s (not_isDigit_of_closed h), digitsValue_printNat]

/-- What follows the digits of a printed number is neither a digit nor a decimal point. -/
theorem head_exponent (s : Nat) {rest : List Char} (h : Closed rest) :
    ∀ c ∈ ((if s = 0 then [] else 'e' :: '-' :: printNat s) ++ rest).head?,
      c.isDigit = false ∧ c ≠ '.' := by
  intro c hc
  split at hc
  · rw [List.nil_append] at hc
    rcases h c hc with rfl | rfl | rfl <;> decide
  · rw [List.cons_append, List.head?_cons, Option.mem_some_iff] at hc
    rw [← hc]
    decide

theorem parseUnsigned_print (m s : Nat) {rest : List Char} (h : Closed rest) :
    parseUnsigned (printNat m ++ ((if s = 0 then [] else 'e' :: '-' :: printNat s) ++ rest)) =
      some (⟨m, s⟩, rest) := by
  have hhead := head_exponent s h
  rw [parseUnsigned, leadingDigits_printNat m fun c hc => (hhead c hc).1]
  simp only [parseFraction_of_ne fun c hc => (hhead c hc).2, parseExponent_print s h,
    if_neg (printNat_ne_nil m), List.append_nil, digitsValue_printNat, List.length_nil]
  have hscale : ((0 : Nat) : Int) - -(s : Int) = s := by omega
  rw [hscale, scaled, if_pos (by omega), Int.toNat_natCast]

theorem printNat_head (n : Nat) : ∃ c cs, printNat n = c :: cs ∧ c.isDigit = true := by
  cases h : printNat n with
  | nil => exact absurd h (printNat_ne_nil n)
  | cons c cs => exact ⟨c, cs, rfl, isDigit_of_mem_printNat (by rw [h]; exact List.mem_cons_self)⟩

theorem parseNumber_printNumber (x : Decimal) {rest : List Char} (h : Closed rest) :
    parseNumber (printNumber x ++ rest) = some (x, rest) := by
  obtain ⟨m, s⟩ := x
  rw [printNumber, List.append_assoc, List.append_assoc]
  by_cases hm : m < 0
  · rw [if_pos hm, List.singleton_append, parseNumber, if_pos rfl,
      parseUnsigned_print _ _ h, Option.map_some]
    have habs : -((m.natAbs : Nat) : Int) = m := by omega
    rw [habs]
  · obtain ⟨c, cs, hc, hdigit⟩ := printNat_head m.natAbs
    have hsign : c ≠ '-' := by
      rintro rfl
      exact absurd hdigit (by decide)
    have habs : ((m.natAbs : Nat) : Int) = m := by omega
    have hunsigned := parseUnsigned_print m.natAbs s h
    rw [hc, List.cons_append, habs] at hunsigned
    rw [if_neg hm, List.nil_append, hc, List.cons_append, parseNumber, if_neg hsign, hunsigned]

/-! ## Strings -/

/-- The hexadecimal digit of a number below 16. -/
def hexDigit (d : Nat) : Char := Nat.digitChar d

/-- The number that a hexadecimal digit denotes. -/
def hexValue (c : Char) : Option Nat :=
  if '0' ≤ c ∧ c ≤ '9' then some (c.toNat - 48)
  else if 'a' ≤ c ∧ c ≤ 'f' then some (c.toNat - 87)
  else if 'A' ≤ c ∧ c ≤ 'F' then some (c.toNat - 55)
  else none

/-- A character as it stands between the quotes of a printed string. -/
def escapeChar (c : Char) : List Char :=
  if c = '"' then ['\\', '"']
  else if c = '\\' then ['\\', '\\']
  else if c = '\n' then ['\\', 'n']
  else if c = '\r' then ['\\', 'r']
  else if c = '\t' then ['\\', 't']
  else if c.toNat < 32 then
    ['\\', 'u', '0', '0', hexDigit (c.toNat / 16), hexDigit (c.toNat % 16)]
  else [c]

/-- A printed string with its quotes. -/
def printString (s : String) : List Char :=
  '"' :: ((s.toList.map escapeChar).flatten ++ ['"'])

/-- The character that a letter stands for after a backslash. -/
def unescape (c : Char) : Option Char :=
  if c = '"' ∨ c = '\\' ∨ c = '/' then some c
  else if c = 'b' then some (Char.ofNat 8)
  else if c = 'f' then some (Char.ofNat 12)
  else if c = 'n' then some '\n'
  else if c = 'r' then some '\r'
  else if c = 't' then some '\t'
  else none

/-- The number that four hexadecimal digits denote. -/
def hexValues (a b c d : Char) : Option Nat := do
  let a ← hexValue a
  let b ← hexValue b
  let c ← hexValue c
  let d ← hexValue d
  return 4096 * a + 256 * b + 16 * c + d

/-- Read the next character of a string: an escape or the character itself. -/
def parseChar : List Char → Option (Char × List Char)
  | [] => none
  | c :: cs =>
    if c = '\\' then
      match cs with
      | 'u' :: a :: b :: c :: d :: cs' => (hexValues a b c d).map fun n => (Char.ofNat n, cs')
      | e :: cs' => (unescape e).map fun c' => (c', cs')
      | [] => none
    else some (c, cs)

/-- Read a string up to its closing quote, at most `n` characters of it. -/
def parseString : Nat → List Char → Option (List Char × List Char)
  | 0, _ => none
  | n + 1, cs =>
    if cs.head? = some '"' then some ([], cs.tail)
    else do
      let r ← parseChar cs
      let rs ← parseString n r.2
      return (r.1 :: rs.1, rs.2)

theorem hexValues_control : ∀ n < 32,
    hexValues '0' '0' (hexDigit (n / 16)) (hexDigit (n % 16)) = some n := by
  decide

theorem parseChar_plain {c : Char} (h : c ≠ '\\') (cs : List Char) :
    parseChar (c :: cs) = some (c, cs) := by
  rw [parseChar.eq_def]
  simp only [if_neg h]

theorem parseChar_escapeChar (c : Char) (rest : List Char) :
    parseChar (escapeChar c ++ rest) = some (c, rest) := by
  unfold escapeChar
  split
  · next h => rw [h]; rfl
  split
  · next h => rw [h]; rfl
  split
  · next h => rw [h]; rfl
  split
  · next h => rw [h]; rfl
  split
  · next h => rw [h]; rfl
  split
  · next hlt =>
    have hparse : parseChar (['\\', 'u', '0', '0', hexDigit (c.toNat / 16),
        hexDigit (c.toNat % 16)] ++ rest) =
        (hexValues '0' '0' (hexDigit (c.toNat / 16)) (hexDigit (c.toNat % 16))).map
          fun n => (Char.ofNat n, rest) := rfl
    rw [hparse, hexValues_control c.toNat hlt, Option.map_some, Char.ofNat_toNat]
  · next _ hbackslash _ _ _ _ => exact parseChar_plain hbackslash rest

theorem escapeChar_head (c : Char) : ∃ e es, escapeChar c = e :: es ∧ e ≠ '"' := by
  unfold escapeChar
  split
  · exact ⟨_, _, rfl, by decide⟩
  split
  · exact ⟨_, _, rfl, by decide⟩
  split
  · exact ⟨_, _, rfl, by decide⟩
  split
  · exact ⟨_, _, rfl, by decide⟩
  split
  · exact ⟨_, _, rfl, by decide⟩
  split
  · exact ⟨_, _, rfl, by decide⟩
  · next hquote _ _ _ _ _ => exact ⟨c, [], rfl, hquote⟩

theorem parseString_escape (s : List Char) (rest : List Char) {n : Nat} (hn : s.length < n) :
    parseString n ((s.map escapeChar).flatten ++ '"' :: rest) = some (s, rest) := by
  induction s generalizing n with
  | nil =>
    cases n with
    | zero => exact absurd hn (by simp)
    | succ n => rfl
  | cons c s ih =>
    cases n with
    | zero => exact absurd hn (by simp)
    | succ n =>
      have hlen : s.length < n := by
        rw [List.length_cons] at hn
        omega
      obtain ⟨e, es, he, hquote⟩ := escapeChar_head c
      have hhead : ((((c :: s).map escapeChar).flatten ++ '"' :: rest).head? = some '"') ↔ False := by
        rw [List.map_cons, List.flatten_cons, he, List.append_assoc, List.cons_append,
          List.head?_cons, Option.some_inj, iff_false]
        exact hquote
      rw [parseString, if_neg (hhead.mp ·), List.map_cons, List.flatten_cons, List.append_assoc,
        parseChar_escapeChar]
      simp only [Option.bind_eq_bind, Option.bind_some, ih hlen, Option.pure_def]

theorem length_escape (s : List Char) : s.length ≤ ((s.map escapeChar).flatten).length := by
  induction s with
  | nil => exact Nat.le_refl _
  | cons c s ih =>
    obtain ⟨e, es, he, -⟩ := escapeChar_head c
    rw [List.map_cons, List.flatten_cons, List.length_append, he, List.length_cons,
      List.length_cons]
    omega

theorem parseString_printString (s : String) (rest : List Char) {n : Nat}
    (hn : (printString s).length ≤ n + 1) :
    ∃ cs, printString s ++ rest = '"' :: cs ∧ parseString n cs = some (s.toList, rest) := by
  refine ⟨(s.toList.map escapeChar).flatten ++ '"' :: rest, ?_, ?_⟩
  · rw [printString, List.cons_append, List.append_assoc, List.singleton_append]
  · refine parseString_escape s.toList rest ?_
    have hlen := length_escape s.toList
    rw [printString, List.length_cons, List.length_append, List.length_singleton] at hn
    omega

/-! ## Values -/

mutual
/-- The text of a value, without white space. -/
def printValue : JsonValue → List Char
  | .null => ['n', 'u', 'l', 'l']
  | .bool true => ['t', 'r', 'u', 'e']
  | .bool false => ['f', 'a', 'l', 's', 'e']
  | .number x => printNumber x
  | .string s => printString s
  | .array [] => ['[', ']']
  | .array (v :: vs) => '[' :: (printValue v ++ printItems vs)
  | .object [] => ['\x7b', '\x7d']
  | .object ((k, v) :: ms) => '\x7b' :: (printString k ++ ':' :: (printValue v ++ printMembers ms))
/-- The items after the first one, and the closing bracket. -/
def printItems : List JsonValue → List Char
  | [] => [']']
  | v :: vs => ',' :: (printValue v ++ printItems vs)
/-- The members after the first one, and the closing brace. -/
def printMembers : List (String × JsonValue) → List Char
  | [] => ['\x7d']
  | (k, v) :: ms => ',' :: (printString k ++ ':' :: (printValue v ++ printMembers ms))
end

/-- White space between tokens. -/
def isBlank (c : Char) : Bool := c == ' ' || c == '\n' || c == '\r' || c == '\t'

/-- The text after its leading white space. -/
def skipBlanks : List Char → List Char
  | [] => []
  | c :: cs => if isBlank c then skipBlanks cs else c :: cs

/-- The value of a keyword whose first letter was read. -/
def parseKeyword (letters : List Char) (v : JsonValue) (cs : List Char) :
    Option (JsonValue × List Char) :=
  if letters.isPrefixOf cs then some (v, cs.drop letters.length) else none

mutual
/-- Read one value in at most `n` steps. -/
def parseValue : Nat → List Char → Option (JsonValue × List Char)
  | 0, _ => none
  | n + 1, cs =>
    match skipBlanks cs with
    | [] => none
    | c :: cs =>
      if c = '"' then (parseString n cs).map fun r => (.string (String.ofList r.1), r.2)
      else if c = '[' then
        if (skipBlanks cs).head? = some ']' then some (.array [], (skipBlanks cs).tail)
        else do
          let v ← parseValue n cs
          let vs ← parseItems n v.2
          return (.array (v.1 :: vs.1), vs.2)
      else if c = '\x7b' then
        if (skipBlanks cs).head? = some '\x7d' then some (.object [], (skipBlanks cs).tail)
        else do
          let m ← parseMember n cs
          let ms ← parseMembers n m.2
          return (.object (m.1 :: ms.1), ms.2)
      else if c = 'n' then parseKeyword ['u', 'l', 'l'] .null cs
      else if c = 't' then parseKeyword ['r', 'u', 'e'] (.bool true) cs
      else if c = 'f' then parseKeyword ['a', 'l', 's', 'e'] (.bool false) cs
      else (parseNumber (c :: cs)).map fun r => (.number r.1, r.2)
/-- Read the items after the first one, up to the closing bracket. -/
def parseItems : Nat → List Char → Option (List JsonValue × List Char)
  | 0, _ => none
  | n + 1, cs =>
    match skipBlanks cs with
    | [] => none
    | c :: cs =>
      if c = ']' then some ([], cs)
      else if c = ',' then do
        let v ← parseValue n cs
        let vs ← parseItems n v.2
        return (v.1 :: vs.1, vs.2)
      else none
/-- Read a name, a colon and a value. -/
def parseMember : Nat → List Char → Option ((String × JsonValue) × List Char)
  | 0, _ => none
  | n + 1, cs =>
    match skipBlanks cs with
    | [] => none
    | c :: cs =>
      if c = '"' then do
        let k ← parseString n cs
        if (skipBlanks k.2).head? = some ':' then do
          let v ← parseValue n (skipBlanks k.2).tail
          return ((String.ofList k.1, v.1), v.2)
        else none
      else none
/-- Read the members after the first one, up to the closing brace. -/
def parseMembers : Nat → List Char → Option (List (String × JsonValue) × List Char)
  | 0, _ => none
  | n + 1, cs =>
    match skipBlanks cs with
    | [] => none
    | c :: cs =>
      if c = '\x7d' then some ([], cs)
      else if c = ',' then do
        let m ← parseMember n cs
        let ms ← parseMembers n m.2
        return (m.1 :: ms.1, ms.2)
      else none
end

/-! ## Reading what was printed -/

theorem skipBlanks_cons {c : Char} (h : isBlank c = false) (cs : List Char) :
    skipBlanks (c :: cs) = c :: cs := by
  rw [skipBlanks, if_neg (by simp [h])]

/-- A printed number starts with a minus sign or a digit. -/
theorem printNumber_head (x : Decimal) :
    ∃ c cs, printNumber x = c :: cs ∧ (c = '-' ∨ c.isDigit = true) := by
  unfold printNumber
  by_cases hm : x.mantissa < 0
  · rw [if_pos hm]
    exact ⟨'-', _, rfl, Or.inl rfl⟩
  · obtain ⟨c, cs, hc, hdigit⟩ := printNat_head x.mantissa.natAbs
    rw [if_neg hm, List.nil_append, hc]
    exact ⟨c, _, rfl, Or.inr hdigit⟩

/-- A character that a number can start with starts no other token. -/
theorem ne_of_numberHead {c d : Char} (h : c = '-' ∨ c.isDigit = true) (hd : d ≠ '-')
    (hd' : d.isDigit = false) : c ≠ d := by
  rintro rfl
  rcases h with h | h
  · exact hd h
  · rw [h] at hd'
    exact Bool.noConfusion hd'

theorem isBlank_of_numberHead {c : Char} (h : c = '-' ∨ c.isDigit = true) : isBlank c = false := by
  rw [Bool.eq_false_iff]
  intro hb
  simp only [isBlank, Bool.or_eq_true, beq_iff_eq] at hb
  rcases hb with ((hb | hb) | hb) | hb
  all_goals exact ne_of_numberHead h (by decide) (by decide) hb

/-- A printed value starts with a character that is neither white space nor a closing bracket. -/
theorem printValue_head (v : JsonValue) :
    ∃ c cs, printValue v = c :: cs ∧ isBlank c = false ∧ c ≠ ']' := by
  cases v with
  | null => exact ⟨_, _, by rw [printValue], by decide, by decide⟩
  | bool b =>
    cases b with
    | true => exact ⟨_, _, by rw [printValue], by decide, by decide⟩
    | false => exact ⟨_, _, by rw [printValue], by decide, by decide⟩
  | number x =>
    obtain ⟨c, cs, hc, hhead⟩ := printNumber_head x
    exact ⟨c, cs, by rw [printValue, hc], isBlank_of_numberHead hhead,
      ne_of_numberHead hhead (by decide) (by decide)⟩
  | string s => exact ⟨'"', _, by rw [printValue, printString], by decide, by decide⟩
  | array vs =>
    cases vs with
    | nil => exact ⟨_, _, by rw [printValue], by decide, by decide⟩
    | cons v vs => exact ⟨_, _, by rw [printValue], by decide, by decide⟩
  | object ms =>
    cases ms with
    | nil => exact ⟨_, _, by rw [printValue], by decide, by decide⟩
    | cons m ms => exact ⟨_, _, by rw [printValue], by decide, by decide⟩

theorem length_printValue_pos (v : JsonValue) : 0 < (printValue v).length := by
  obtain ⟨c, cs, h, -, -⟩ := printValue_head v
  rw [h, List.length_cons]
  omega

theorem closed_printItems (vs : List JsonValue) (rest : List Char) :
    Closed (printItems vs ++ rest) := by
  cases vs with
  | nil => exact closed_cons (Or.inr (Or.inl rfl)) _
  | cons v vs =>
    rw [printItems]
    exact closed_cons (Or.inl rfl) _

theorem closed_printMembers (ms : List (String × JsonValue)) (rest : List Char) :
    Closed (printMembers ms ++ rest) := by
  cases ms with
  | nil => exact closed_cons (Or.inr (Or.inr rfl)) _
  | cons m ms =>
    rw [printMembers]
    exact closed_cons (Or.inl rfl) _

theorem parseValue_number (x : Decimal) (n : Nat) {rest : List Char} (h : Closed rest) :
    parseValue (n + 1) (printNumber x ++ rest) = some (.number x, rest) := by
  have hnumber := parseNumber_printNumber x h
  obtain ⟨c, cs, hc, hhead⟩ := printNumber_head x
  rw [hc, List.cons_append] at hnumber ⊢
  have hne : ∀ d : Char, d ≠ '-' → d.isDigit = false → c ≠ d := fun d => ne_of_numberHead hhead
  rw [parseValue, skipBlanks_cons (isBlank_of_numberHead hhead)]
  simp only [if_neg (hne '"' (by decide) (by decide)), if_neg (hne '[' (by decide) (by decide)),
    if_neg (hne '\x7b' (by decide) (by decide)), if_neg (hne 'n' (by decide) (by decide)),
    if_neg (hne 't' (by decide) (by decide)), if_neg (hne 'f' (by decide) (by decide)), hnumber,
    Option.map_some]

theorem parseValue_string (s : String) (n : Nat) (rest : List Char)
    (hn : (printString s).length ≤ n + 1) :
    parseValue (n + 1) (printString s ++ rest) = some (.string s, rest) := by
  obtain ⟨cs, hcs, hparse⟩ := parseString_printString s rest hn
  rw [hcs, parseValue, skipBlanks_cons (by decide)]
  simp only [if_true, hparse, Option.map_some, String.ofList_toList]

theorem parseMember_print {k : String} {v : JsonValue} {n : Nat} {rest : List Char}
    (hk : (printString k).length ≤ n)
    (hv : parseValue n (printValue v ++ rest) = some (v, rest)) :
    parseMember (n + 1) (printString k ++ ':' :: (printValue v ++ rest)) = some ((k, v), rest) := by
  obtain ⟨cs, hcs, hparse⟩ := parseString_printString k (':' :: (printValue v ++ rest)) (Nat.le_succ_of_le hk)
  rw [hcs, parseMember, skipBlanks_cons (by decide)]
  simp only [if_true, hparse, Option.bind_eq_bind, Option.bind_some,
    skipBlanks_cons (c := ':') (by decide), List.head?_cons, List.tail_cons, hv,
    String.ofList_toList, Option.pure_def]

mutual
/-- **Reading a printed value gives it back**, with as many steps as its text has characters. -/
theorem parseValue_printValue : ∀ (v : JsonValue) (n : Nat) (rest : List Char),
    (printValue v).length ≤ n → Closed rest →
      parseValue n (printValue v ++ rest) = some (v, rest)
  | v, 0, rest, hn, hrest => by
    have hpos := length_printValue_pos v
    omega
  | .null, n + 1, rest, hn, hrest => by
    rw [printValue, List.cons_append, parseValue, skipBlanks_cons (by decide)]
    rfl
  | .bool true, n + 1, rest, hn, hrest => by
    rw [printValue, List.cons_append, parseValue, skipBlanks_cons (by decide)]
    rfl
  | .bool false, n + 1, rest, hn, hrest => by
    rw [printValue, List.cons_append, parseValue, skipBlanks_cons (by decide)]
    rfl
  | .number x, n + 1, rest, hn, hrest => by
    rw [printValue]
    exact parseValue_number x n hrest
  | .string s, n + 1, rest, hn, hrest => by
    rw [printValue] at hn ⊢
    exact parseValue_string s n rest hn
  | .array [], n + 1, rest, hn, hrest => by
    rw [printValue, List.cons_append, parseValue, skipBlanks_cons (by decide)]
    rfl
  | .array (v :: vs), n + 1, rest, hn, hrest => by
    obtain ⟨c, cs, hc, hblank, hclose⟩ := printValue_head v
    rw [printValue, List.length_cons, List.length_append] at hn
    have hpos := length_printValue_pos v
    have hv := parseValue_printValue v n (printItems vs ++ rest) (by omega)
      (closed_printItems vs rest)
    have hvs := parseItems_printItems vs n rest (by omega) hrest
    have hopen : ¬ (skipBlanks (printValue v ++ (printItems vs ++ rest))).head? = some ']' := by
      rw [hc, List.cons_append, skipBlanks_cons hblank, List.head?_cons, Option.some_inj]
      exact hclose
    rw [printValue, List.cons_append, List.append_assoc, parseValue, skipBlanks_cons (by decide)]
    simp only [if_neg (show ¬ '[' = '"' by decide), if_true, if_neg hopen, hv, hvs,
      Option.bind_eq_bind, Option.bind_some, Option.pure_def]
  | .object [], n + 1, rest, hn, hrest => by
    rw [printValue, List.cons_append, parseValue, skipBlanks_cons (by decide)]
    rfl
  | .object ((k, v) :: ms), n + 1, rest, hn, hrest => by
    rw [printValue, List.length_cons, List.length_append, List.length_cons,
      List.length_append] at hn
    cases n with
    | zero => omega
    | succ n =>
      have hv := parseValue_printValue v n (printMembers ms ++ rest) (by omega)
        (closed_printMembers ms rest)
      have hm := parseMember_print (k := k) (by omega) hv
      have hms := parseMembers_printMembers ms (n + 1) rest (by omega) hrest
      have hopen : ¬ (skipBlanks (printString k ++
          ':' :: (printValue v ++ (printMembers ms ++ rest)))).head? = some '\x7d' := by
        rw [printString, List.cons_append, skipBlanks_cons (by decide), List.head?_cons,
          Option.some_inj]
        decide
      rw [printValue, List.cons_append, List.append_assoc, List.cons_append, List.append_assoc,
        parseValue, skipBlanks_cons (by decide)]
      simp only [if_neg (show ¬ '\x7b' = '"' by decide), if_neg (show ¬ '\x7b' = '[' by decide),
        if_true, if_neg hopen, hm, hms, Option.bind_eq_bind, Option.bind_some, Option.pure_def]
theorem parseItems_printItems : ∀ (vs : List JsonValue) (n : Nat) (rest : List Char),
    (printItems vs).length ≤ n → Closed rest →
      parseItems n (printItems vs ++ rest) = some (vs, rest)
  | [], 0, rest, hn, hrest => absurd hn (by simp [printItems])
  | [], n + 1, rest, hn, hrest => by
    rw [printItems, List.cons_append, parseItems, skipBlanks_cons (by decide)]
    rfl
  | v :: vs, 0, rest, hn, hrest => absurd hn (by simp [printItems])
  | v :: vs, n + 1, rest, hn, hrest => by
    rw [printItems, List.length_cons, List.length_append] at hn
    have hv := parseValue_printValue v n (printItems vs ++ rest) (by omega)
      (closed_printItems vs rest)
    have hvs := parseItems_printItems vs n rest (by omega) hrest
    rw [printItems, List.cons_append, List.append_assoc, parseItems, skipBlanks_cons (by decide)]
    simp only [if_neg (show ¬ ',' = ']' by decide), if_true, hv, hvs, Option.bind_eq_bind,
      Option.bind_some, Option.pure_def]
theorem parseMembers_printMembers : ∀ (ms : List (String × JsonValue)) (n : Nat)
    (rest : List Char), (printMembers ms).length ≤ n → Closed rest →
      parseMembers n (printMembers ms ++ rest) = some (ms, rest)
  | [], 0, rest, hn, hrest => absurd hn (by simp [printMembers])
  | [], n + 1, rest, hn, hrest => by
    rw [printMembers, List.cons_append, parseMembers, skipBlanks_cons (by decide)]
    rfl
  | (k, v) :: ms, 0, rest, hn, hrest => absurd hn (by simp [printMembers])
  | (k, v) :: ms, n + 1, rest, hn, hrest => by
    rw [printMembers, List.length_cons, List.length_append, List.length_cons,
      List.length_append] at hn
    cases n with
    | zero => omega
    | succ n =>
      have hv := parseValue_printValue v n (printMembers ms ++ rest) (by omega)
        (closed_printMembers ms rest)
      have hm := parseMember_print (k := k) (by omega) hv
      have hms := parseMembers_printMembers ms (n + 1) rest (by omega) hrest
      rw [printMembers, List.cons_append, List.append_assoc, List.cons_append, List.append_assoc,
        parseMembers, skipBlanks_cons (by decide)]
      simp only [if_neg (show ¬ ',' = '\x7d' by decide), if_true, hm, hms, Option.bind_eq_bind,
        Option.bind_some, Option.pure_def]
end

/-! ## The codec -/

/-- The first value of a text, with what follows it. -/
def parseText (t : String) : Option (JsonValue × List Char) :=
  parseValue t.toList.length t.toList

theorem parseText_print (v : JsonValue) :
    parseText (String.ofList (printValue v)) = some (v, []) := by
  have h := parseValue_printValue v (printValue v).length [] (Nat.le_refl _) closed_nil
  rw [List.append_nil] at h
  rw [parseText, String.toList_ofList, h]

/-- Every character needs a byte. -/
theorem length_le_utf8ByteSize (cs : List Char) :
    cs.length ≤ (String.ofList cs).utf8ByteSize := by
  induction cs with
  | nil => exact Nat.zero_le _
  | cons c cs ih =>
    have hc : 0 < (String.singleton c).utf8ByteSize := by
      rw [String.utf8ByteSize_singleton]
      exact c.utf8Size_pos
    rw [String.ofList_cons, String.utf8ByteSize_append, List.length_cons]
    omega

theorem utf8ByteSize_ofList_le (cs : List Char) :
    (String.ofList cs).utf8ByteSize ≤ 4 * cs.length := by
  induction cs with
  | nil => exact Nat.zero_le _
  | cons c cs ih =>
    have hc : (String.singleton c).utf8ByteSize ≤ 4 := by
      rw [String.utf8ByteSize_singleton]
      exact c.utf8Size_le_four
    rw [String.ofList_cons, String.utf8ByteSize_append, List.length_cons]
    omega

/-- Characters that are left out need no bytes. -/
theorem utf8ByteSize_ofList_sublist {cs ds : List Char} (h : cs.Sublist ds) :
    (String.ofList cs).utf8ByteSize ≤ (String.ofList ds).utf8ByteSize := by
  induction h with
  | slnil => exact Nat.le_refl _
  | cons d _ ih =>
    rw [String.ofList_cons, String.utf8ByteSize_append]
    exact Nat.le_add_left_of_le ih
  | cons_cons d _ ih =>
    rw [String.ofList_cons, String.ofList_cons, String.utf8ByteSize_append,
      String.utf8ByteSize_append]
    exact Nat.add_le_add_left ih _

theorem printItems_sublist {xs ys : List JsonValue} (h : xs.Sublist ys) :
    (printItems xs).Sublist (printItems ys) := by
  induction h with
  | slnil => exact List.Sublist.refl _
  | cons v _ ih =>
    rw [printItems.eq_2]
    exact (ih.trans (List.sublist_append_right _ _)).cons ','
  | cons_cons v _ ih =>
    rw [printItems.eq_2, printItems.eq_2]
    exact ((List.Sublist.refl _).append ih).cons_cons ','

/-- The text of an array contains that of the array without some items. -/
theorem printValue_array_sublist {xs ys : List JsonValue} (h : xs.Sublist ys) :
    (printValue (.array xs)).Sublist (printValue (.array ys)) := by
  cases h with
  | slnil => exact List.Sublist.refl _
  | @cons xs ys v h =>
    rw [printValue.eq_7]
    cases xs with
    | nil =>
      rw [printValue.eq_6]
      have hclose : [']'].Sublist (printItems ys) := by
        have hnil := printItems_sublist (List.nil_sublist ys)
        rwa [printItems.eq_1] at hnil
      exact (hclose.trans (List.sublist_append_right _ _)).cons_cons '['
    | cons w ws =>
      have htail := (printItems_sublist h).tail
      rw [printItems.eq_2, List.tail_cons] at htail
      rw [printValue.eq_7]
      refine (htail.trans ?_).cons_cons '['
      exact (List.tail_sublist _).trans (List.sublist_append_right _ _)
  | @cons_cons xs ys v h =>
    rw [printValue.eq_7, printValue.eq_7]
    exact ((List.Sublist.refl _).append (printItems_sublist h)).cons_cons '['

theorem length_printItems_pos (vs : List JsonValue) : 0 < (printItems vs).length := by
  cases vs <;> rw [printItems] <;> exact Nat.succ_pos _

theorem two_le_length_printString (s : String) : 2 ≤ (printString s).length := by
  rw [printString, List.length_cons, List.length_append, List.length_singleton]
  omega

end JsonText

/-- The codec of JSON texts. -/
def textCodec : JsonCodec where
  parse t := (JsonText.parseText t).map Prod.fst
  print v := String.ofList (JsonText.printValue v)
  wellFormed t := ((JsonText.parseText t).map fun r => JsonText.skipBlanks r.2 == []) == some true
  parse_print v := by rw [JsonText.parseText_print, Option.map_some]
  wellFormed_print v := by
    rw [JsonText.parseText_print, Option.map_some]
    rfl
  parse_of_wellFormed t h := by
    cases hr : JsonText.parseText t with
    | none =>
      rw [hr] at h
      exact absurd h (by decide)
    | some r => exact ⟨r.1, rfl⟩
  parse_emptyObject := rfl
  parse_emptyArray := rfl
  two_lt_print_object m ms := by
    obtain ⟨k, v⟩ := m
    refine Nat.lt_of_lt_of_le ?_ (JsonText.length_le_utf8ByteSize _)
    have hk := JsonText.two_le_length_printString k
    rw [JsonText.printValue, List.length_cons, List.length_append]
    omega
  two_lt_print_array v vs := by
    refine Nat.lt_of_lt_of_le ?_ (JsonText.length_le_utf8ByteSize _)
    have hv := JsonText.length_printValue_pos v
    have hvs := JsonText.length_printItems_pos vs
    rw [JsonText.printValue, List.length_cons, List.length_append]
    omega

theorem compact_textCodec : textCodec.Compact where
  print_emptyObject := rfl
  print_emptyArray := rfl
  print_sublist _ _ h := JsonText.utf8ByteSize_ofList_sublist (JsonText.printValue_array_sublist h)
