import Mathlib.Data.List.Chain
import Mathlib.Data.List.DropRight
import Mathlib.Data.List.Forall2
import Mathlib.Data.UInt

/-!
# JSON texts as tokens

A JSON text is cut into tokens, white space between them is left out, and the tokens spell a value.

* `lexFrom`, `lex`: the tokens of a text; a string is kept as it stands between its quotes.
* `readPieces`, `normal`: what stands between the quotes is read, and surrogates that belong together
  are one character.
* `Json.tokens`: the tokens of a value; `Parses`: a text spells a value.
* `isChain_tokens`: two words never stand next to each other, and nothing closes behind a comma.
* `lexFrom_string`, `lexFrom_string_of_readPieces`: a string among the bytes of a text.

Texts are lists of bytes.  A number stands for itself as it is written.
-/

namespace JsonTokens

/-! ## Tokens -/

/-- A piece of a text: a bracket, brace, colon or comma, a string between its quotes, or a word, that
is a number or a literal. -/
inductive Lexeme (σ : Type) where
  | mark (b : UInt8)
  | string (s : σ)
  | word (w : List UInt8)
  deriving DecidableEq, Repr

/-- White space between tokens. -/
def isBlank (b : UInt8) : Bool := b == 32 || b == 9 || b == 10 || b == 13

/-- One of the bytes that are tokens. -/
def isMark (b : UInt8) : Bool :=
  b == 91 || b == 93 || b == 123 || b == 125 || b == 58 || b == 44

/-- Where in a text a byte stands. -/
inductive Mode where
  | between
  | word
  | string
  | escape
  deriving DecidableEq, Repr

/-- The byte in front of the first token. -/
def extend (b : UInt8) : List (Lexeme (List UInt8)) → List (Lexeme (List UInt8))
  | .string raw :: ts => .string (b :: raw) :: ts
  | .word w :: ts => .word (b :: w) :: ts
  | ts => ts

/-- A token that starts where a word may have ended. -/
def endWord (m : Mode) (ts : List (Lexeme (List UInt8))) : List (Lexeme (List UInt8)) :=
  if m = .word then .word [] :: ts else ts

/-- The tokens of the rest of a text; the first one is what is still to come of the token the rest
starts in. -/
def lexFrom (m : Mode) : List UInt8 → Option (List (Lexeme (List UInt8)))
  | [] => if m = .string ∨ m = .escape then none else some (endWord m [])
  | b :: s =>
    if m = .escape then (lexFrom .string s).map (extend b)
    else if m = .string then
      if b = 34 then (lexFrom .between s).map (.string [] :: ·)
      else (lexFrom (if b = 92 then .escape else .string) s).map (extend b)
    else if isBlank b then (lexFrom .between s).map (endWord m)
    else if b = 34 then (lexFrom .string s).map (endWord m)
    else if isMark b then (lexFrom .between s).map fun ts => endWord m (.mark b :: ts)
    else (lexFrom .word s).map (extend b)

/-- The tokens of a text. -/
def lex (s : List UInt8) : Option (List (Lexeme (List UInt8))) := lexFrom .between s

/-! ## Strings -/

/-- A piece of a string: a byte, or a code unit that is given by its number. -/
inductive Piece where
  | byte (b : UInt8)
  | code (n : Nat)
  deriving DecidableEq, Repr

/-- The number that a hexadecimal digit denotes. -/
def hexValue (b : UInt8) : Option Nat :=
  if 48 ≤ b ∧ b ≤ 57 then some (b.toNat - 48)
  else if 97 ≤ b ∧ b ≤ 102 then some (b.toNat - 87)
  else if 65 ≤ b ∧ b ≤ 70 then some (b.toNat - 55)
  else none

/-- The number that four hexadecimal digits denote. -/
def hexValues (a b c d : UInt8) : Option Nat :=
  (hexValue a).bind fun a => (hexValue b).bind fun b => (hexValue c).bind fun c =>
    (hexValue d).map fun d => 4096 * a + 256 * b + 16 * c + d

/-- The byte that a letter stands for after a backslash. -/
def unescape (e : UInt8) : Option UInt8 :=
  if e = 34 ∨ e = 92 ∨ e = 47 then some e
  else if e = 98 then some 8
  else if e = 102 then some 12
  else if e = 110 then some 10
  else if e = 114 then some 13
  else if e = 116 then some 9
  else none

/-- A byte that stands for itself between quotes. -/
def isPlain (b : UInt8) : Bool := 32 ≤ b && b != 34 && b != 92

/-- What stands between quotes, piece by piece. -/
def readPieces : List UInt8 → Option (List Piece)
  | [] => some []
  | b :: s =>
    if isPlain b then (readPieces s).map (.byte b :: ·)
    else if b = 92 then
      match s with
      | [] => none
      | e :: s =>
        if e = 117 then
          match s with
          | a :: b :: c :: d :: s =>
            (hexValues a b c d).bind fun n => (readPieces s).map (.code n :: ·)
          | _ => none
        else (unescape e).bind fun b => (readPieces s).map (.byte b :: ·)
    else none

/-- A character, byte by byte. -/
def charPieces (c : Char) : List Piece := (String.utf8EncodeChar c).map .byte

/-- A string whose surrogates that belong together are one character; a code unit without its other
half stays. -/
def normal : List Piece → List Piece
  | [] => []
  | .byte b :: ps => .byte b :: normal ps
  | .code n :: .code m :: ps =>
    if 0xD800 ≤ n ∧ n < 0xDC00 ∧ 0xDC00 ≤ m ∧ m < 0xE000 then
      charPieces (Char.ofNat (0x10000 + (n - 0xD800) * 0x400 + (m - 0xDC00))) ++ normal ps
    else if 0xD800 ≤ n ∧ n < 0xE000 then .code n :: normal (.code m :: ps)
    else charPieces (Char.ofNat n) ++ normal (.code m :: ps)
  | .code n :: ps =>
    if 0xD800 ≤ n ∧ n < 0xE000 then .code n :: normal ps
    else charPieces (Char.ofNat n) ++ normal ps

/-- A token whose string is read. -/
def Lexeme.read : Lexeme (List UInt8) → Option (Lexeme (List Piece))
  | .mark b => some (.mark b)
  | .string raw => (readPieces raw).map fun ps => .string (normal ps)
  | .word w => some (.word w)

/-! ## Values -/

/-- One digit or more. -/
def Digits (ds : List UInt8) : Prop := ds ≠ [] ∧ ∀ d ∈ ds, 48 ≤ d ∧ d ≤ 57

/-- A number as it is written. -/
def IsNumber (w : List UInt8) : Prop :=
  ∃ sign whole fraction exponent, w = sign ++ whole ++ fraction ++ exponent ∧
    (sign = [] ∨ sign = [45]) ∧
    Digits whole ∧ (whole.head? = some 48 → whole = [48]) ∧
    (fraction = [] ∨ ∃ ds, Digits ds ∧ fraction = 46 :: ds) ∧
    (exponent = [] ∨ ∃ e plus ds, (e = 101 ∨ e = 69) ∧ (plus = [] ∨ plus = [43] ∨ plus = [45]) ∧
      Digits ds ∧ exponent = e :: (plus ++ ds))

/-- A literal or a number. -/
structure Word where
  bytes : List UInt8
  valid : bytes = [110, 117, 108, 108] ∨ bytes = [116, 114, 117, 101] ∨
    bytes = [102, 97, 108, 115, 101] ∨ IsNumber bytes

/-- A value. -/
inductive Json where
  | word (w : Word)
  | string (s : List Piece)
  | array (items : List Json)
  | object (members : List (List Piece × Json))

mutual

/-- The tokens of a value. -/
def Json.tokens : Json → List (Lexeme (List Piece))
  | .word w => [.word w.bytes]
  | .string s => [.string s]
  | .array [] => [.mark 91, .mark 93]
  | .array (x :: xs) => .mark 91 :: (x.tokens ++ itemTokens xs)
  | .object [] => [.mark 123, .mark 125]
  | .object ((k, x) :: ms) => .mark 123 :: .string k :: .mark 58 :: (x.tokens ++ memberTokens ms)

/-- The tokens of further items, with the bracket that closes the array. -/
def itemTokens : List Json → List (Lexeme (List Piece))
  | [] => [.mark 93]
  | x :: xs => .mark 44 :: (x.tokens ++ itemTokens xs)

/-- The tokens of further members, with the brace that closes the object. -/
def memberTokens : List (List Piece × Json) → List (Lexeme (List Piece))
  | [] => [.mark 125]
  | (k, x) :: ms => .mark 44 :: .string k :: .mark 58 :: (x.tokens ++ memberTokens ms)

end

/-- The tokens of a text spell a value. -/
def Spells (ts : List (Lexeme (List UInt8))) (v : Json) : Prop :=
  List.Forall₂ (fun t d => t.read = some d) ts v.tokens

/-- A text spells a value. -/
def Parses (s : List UInt8) (v : Json) : Prop := ∃ ts, lex s = some ts ∧ Spells ts v

/-! ## Neighbours -/

/-- Two words do not stand next to each other, and nothing is closed behind a comma. -/
def Spaced {σ : Type} (t u : Lexeme σ) : Prop :=
  (∀ w w', t = .word w → u ≠ .word w') ∧ (t = .mark 44 → u ≠ .mark 93 ∧ u ≠ .mark 125)

theorem word_ne_mark {σ : Type} (w : List UInt8) (b : UInt8) : (.word w : Lexeme σ) ≠ .mark b := by
  simp

theorem string_ne_mark {σ : Type} (s : σ) (b : UInt8) : (.string s : Lexeme σ) ≠ .mark b := by
  simp

theorem spaced_mark {σ : Type} {b : UInt8} (hb : b ≠ 44) (u : Lexeme σ) : Spaced (.mark b) u := by
  refine ⟨fun w w' h => absurd h.symm (word_ne_mark w b), fun h => ?_⟩
  injection h with h
  exact absurd h hb

theorem spaced_of_ne {σ : Type} {t : Lexeme σ} {b : UInt8} (ht : t ≠ .mark 44) :
    Spaced t (.mark b) :=
  ⟨fun _ w' _ h => word_ne_mark w' b h.symm, fun h => absurd h ht⟩

/-- A value starts with a token that closes nothing. -/
theorem head_tokens (v : Json) : ∃ t ts, v.tokens = t :: ts ∧ t ≠ .mark 93 ∧ t ≠ .mark 125 := by
  cases v with
  | word w => exact ⟨.word w.bytes, [], by rw [Json.tokens], word_ne_mark _ _, word_ne_mark _ _⟩
  | string s => exact ⟨.string s, [], by rw [Json.tokens], string_ne_mark s _, string_ne_mark s _⟩
  | array xs =>
    cases xs with
    | nil => exact ⟨.mark 91, _, by rw [Json.tokens], by decide, by decide⟩
    | cons x xs => exact ⟨.mark 91, _, by rw [Json.tokens], by decide, by decide⟩
  | object ms =>
    cases ms with
    | nil => exact ⟨.mark 123, _, by rw [Json.tokens], by decide, by decide⟩
    | cons m ms => exact ⟨.mark 123, _, by rw [Json.tokens], by decide, by decide⟩

theorem spaced_head_tokens (v : Json) (rest : List (Lexeme (List Piece))) :
    ∀ u ∈ (v.tokens ++ rest).head?, Spaced (.mark 44) u := by
  obtain ⟨t, ts, hv, hbracket, hbrace⟩ := head_tokens v
  intro u hu
  rw [hv, List.cons_append, List.head?_cons, Option.mem_some_iff] at hu
  rw [← hu]
  exact ⟨fun w _ h => absurd h.symm (word_ne_mark w 44), fun _ => ⟨hbracket, hbrace⟩⟩

theorem isChain_mark {b : UInt8} (hb : b ≠ 44) {ts : List (Lexeme (List Piece))}
    (h : ts.IsChain Spaced) : (Lexeme.mark b :: ts).IsChain Spaced :=
  List.isChain_cons.2 ⟨fun u _ => spaced_mark hb u, h⟩

theorem isChain_scalar {t : Lexeme (List Piece)} (ht : t ≠ .mark 44)
    {rest : List (Lexeme (List Piece))} (hrest : rest.IsChain Spaced)
    (hmark : ∀ u ∈ rest.head?, ∃ b, u = .mark b) : (t :: rest).IsChain Spaced := by
  refine List.isChain_cons.2 ⟨fun u hu => ?_, hrest⟩
  obtain ⟨b, rfl⟩ := hmark u hu
  exact spaced_of_ne ht

theorem head_itemTokens (xs : List Json) (rest : List (Lexeme (List Piece))) :
    ∀ u ∈ (itemTokens xs ++ rest).head?, ∃ b, u = .mark b := by
  intro u hu
  cases xs <;> rw [itemTokens, List.cons_append, List.head?_cons, Option.mem_some_iff] at hu <;>
    exact ⟨_, hu.symm⟩

theorem head_memberTokens (ms : List (List Piece × Json)) (rest : List (Lexeme (List Piece))) :
    ∀ u ∈ (memberTokens ms ++ rest).head?, ∃ b, u = .mark b := by
  intro u hu
  cases ms <;> rw [memberTokens, List.cons_append, List.head?_cons, Option.mem_some_iff] at hu <;>
    exact ⟨_, hu.symm⟩

mutual

/-- The tokens of a value in front of others. -/
theorem isChain_tokens_append : ∀ (v : Json) (rest : List (Lexeme (List Piece))),
    rest.IsChain Spaced → (∀ u ∈ rest.head?, ∃ b, u = .mark b) →
      (v.tokens ++ rest).IsChain Spaced
  | .word w, rest, hrest, hmark => by
    rw [Json.tokens]
    exact isChain_scalar (word_ne_mark _ _) hrest hmark
  | .string s, rest, hrest, hmark => by
    rw [Json.tokens]
    exact isChain_scalar (string_ne_mark s _) hrest hmark
  | .array [], rest, hrest, _ => by
    rw [Json.tokens]
    exact isChain_mark (by decide) (isChain_mark (by decide) hrest)
  | .array (x :: xs), rest, hrest, _ => by
    rw [Json.tokens, List.cons_append, List.append_assoc]
    exact isChain_mark (by decide) (isChain_tokens_append x _
      (isChain_itemTokens_append xs rest hrest) (head_itemTokens xs rest))
  | .object [], rest, hrest, _ => by
    rw [Json.tokens]
    exact isChain_mark (by decide) (isChain_mark (by decide) hrest)
  | .object ((k, x) :: ms), rest, hrest, _ => by
    rw [Json.tokens, List.cons_append, List.cons_append, List.cons_append, List.append_assoc]
    have hmembers := isChain_tokens_append x _ (isChain_memberTokens_append ms rest hrest)
      (head_memberTokens ms rest)
    exact isChain_mark (by decide) (isChain_scalar (string_ne_mark k _)
      (isChain_mark (by decide) hmembers) fun u hu => ⟨58, (Option.mem_some_iff.1 hu).symm⟩)

theorem isChain_itemTokens_append : ∀ (xs : List Json) (rest : List (Lexeme (List Piece))),
    rest.IsChain Spaced → (itemTokens xs ++ rest).IsChain Spaced
  | [], rest, hrest => by
    rw [itemTokens]
    exact isChain_mark (by decide) hrest
  | x :: xs, rest, hrest => by
    rw [itemTokens, List.cons_append, List.append_assoc]
    exact List.isChain_cons.2 ⟨spaced_head_tokens x _, isChain_tokens_append x _
      (isChain_itemTokens_append xs rest hrest) (head_itemTokens xs rest)⟩

theorem isChain_memberTokens_append : ∀ (ms : List (List Piece × Json))
    (rest : List (Lexeme (List Piece))),
    rest.IsChain Spaced → (memberTokens ms ++ rest).IsChain Spaced
  | [], rest, hrest => by
    rw [memberTokens]
    exact isChain_mark (by decide) hrest
  | (k, x) :: ms, rest, hrest => by
    rw [memberTokens, List.cons_append, List.cons_append, List.cons_append, List.append_assoc]
    have hmembers := isChain_tokens_append x _ (isChain_memberTokens_append ms rest hrest)
      (head_memberTokens ms rest)
    have hkey : (Lexeme.string k :: .mark 58 :: (x.tokens ++ (memberTokens ms ++ rest))).IsChain
        Spaced :=
      isChain_scalar (string_ne_mark k _) (isChain_mark (by decide) hmembers)
        fun u hu => ⟨58, (Option.mem_some_iff.1 hu).symm⟩
    refine List.isChain_cons.2 ⟨fun u hu => ?_, hkey⟩
    rw [List.head?_cons, Option.mem_some_iff] at hu
    rw [← hu]
    exact ⟨fun w _ h => absurd h.symm (word_ne_mark w 44),
      fun _ => ⟨string_ne_mark k _, string_ne_mark k _⟩⟩

end

/-- **The tokens of a value**: no two words stand next to each other, and nothing is closed behind a
comma. -/
theorem isChain_tokens (v : Json) : v.tokens.IsChain Spaced := by
  have h := isChain_tokens_append v [] List.IsChain.nil (by simp)
  rwa [List.append_nil] at h

/-! ## Words -/

theorem mem_digits {ds : List UInt8} (h : Digits ds) {b : UInt8} (hb : b ∈ ds) :
    43 ≤ b ∧ b ≤ 57 := by
  have hdigit := h.2 b hb
  constructor <;> grind

/-- A number is written with digits, signs, points and the letter of the exponent. -/
theorem mem_number {w : List UInt8} (h : IsNumber w) {b : UInt8} (hb : b ∈ w) :
    43 ≤ b ∧ b ≤ 57 ∨ b = 69 ∨ b = 101 := by
  obtain ⟨sign, whole, fraction, exponent, rfl, hsign, hwhole, -, hfraction, hexponent⟩ := h
  rw [List.mem_append, List.mem_append, List.mem_append] at hb
  obtain ((hb | hb) | hb) | hb := hb
  · rcases hsign with rfl | rfl
    · exact absurd hb List.not_mem_nil
    · rw [List.mem_singleton] at hb
      exact Or.inl (by rw [hb]; decide)
  · exact Or.inl (mem_digits hwhole hb)
  · rcases hfraction with rfl | ⟨ds, hds, rfl⟩
    · exact absurd hb List.not_mem_nil
    · rcases List.mem_cons.1 hb with rfl | hb
      · exact Or.inl (by decide)
      · exact Or.inl (mem_digits hds hb)
  · rcases hexponent with rfl | ⟨e, plus, ds, he, hplus, hds, rfl⟩
    · exact absurd hb List.not_mem_nil
    · rcases List.mem_cons.1 hb with rfl | hb
      · exact Or.inr he.symm
      · rcases List.mem_append.1 hb with hb | hb
        · rcases hplus with rfl | rfl | rfl
          · exact absurd hb List.not_mem_nil
          · rw [List.mem_singleton] at hb
            exact Or.inl (by rw [hb]; decide)
          · rw [List.mem_singleton] at hb
            exact Or.inl (by rw [hb]; decide)
        · exact Or.inl (mem_digits hds hb)

/-- A byte of a word. -/
def IsWordByte (b : UInt8) : Prop := 43 ≤ b ∧ b ≤ 122 ∧ b ≠ 92 ∧ b ≠ 96

instance (b : UInt8) : Decidable (IsWordByte b) := inferInstanceAs (Decidable (_ ∧ _))

theorem isWordByte_of_all {w : List UInt8} (h : w.all (fun b => decide (IsWordByte b)) = true) :
    ∀ b ∈ w, IsWordByte b :=
  fun b hb => of_decide_eq_true (List.all_eq_true.1 h b hb)

theorem Word.isWordByte (w : Word) : ∀ b ∈ w.bytes, IsWordByte b := by
  rcases w.valid with h | h | h | h
  · rw [h]
    exact isWordByte_of_all rfl
  · rw [h]
    exact isWordByte_of_all rfl
  · rw [h]
    exact isWordByte_of_all rfl
  · intro b hb
    rcases mem_number h hb with ⟨hlow, hhigh⟩ | rfl | rfl
    · refine ⟨hlow, ?_, ?_, ?_⟩ <;> grind
    · decide
    · decide

mutual

theorem word_mem_tokens {w : List UInt8} : ∀ v : Json, .word w ∈ v.tokens → ∃ u : Word, w = u.bytes
  | .word u, h => by
    rw [Json.tokens, List.mem_singleton] at h
    injection h with h
    exact ⟨u, h⟩
  | .string s, h => by
    rw [Json.tokens, List.mem_singleton] at h
    exact absurd h (by simp)
  | .array [], h => by
    rw [Json.tokens] at h
    exact absurd h (by simp)
  | .array (x :: xs), h => by
    rw [Json.tokens, List.mem_cons, List.mem_append] at h
    rcases h with h | h | h
    · exact absurd h (by simp)
    · exact word_mem_tokens x h
    · exact word_mem_itemTokens xs h
  | .object [], h => by
    rw [Json.tokens] at h
    exact absurd h (by simp)
  | .object ((k, x) :: ms), h => by
    rw [Json.tokens, List.mem_cons, List.mem_cons, List.mem_cons, List.mem_append] at h
    rcases h with h | h | h | h | h
    · exact absurd h (by simp)
    · exact absurd h (by simp)
    · exact absurd h (by simp)
    · exact word_mem_tokens x h
    · exact word_mem_memberTokens ms h

theorem word_mem_itemTokens {w : List UInt8} :
    ∀ xs : List Json, .word w ∈ itemTokens xs → ∃ u : Word, w = u.bytes
  | [], h => by
    rw [itemTokens] at h
    exact absurd h (by simp)
  | x :: xs, h => by
    rw [itemTokens, List.mem_cons, List.mem_append] at h
    rcases h with h | h | h
    · exact absurd h (by simp)
    · exact word_mem_tokens x h
    · exact word_mem_itemTokens xs h

theorem word_mem_memberTokens {w : List UInt8} :
    ∀ ms : List (List Piece × Json), .word w ∈ memberTokens ms → ∃ u : Word, w = u.bytes
  | [], h => by
    rw [memberTokens] at h
    exact absurd h (by simp)
  | (k, x) :: ms, h => by
    rw [memberTokens, List.mem_cons, List.mem_cons, List.mem_cons, List.mem_append] at h
    rcases h with h | h | h | h | h
    · exact absurd h (by simp)
    · exact absurd h (by simp)
    · exact absurd h (by simp)
    · exact word_mem_tokens x h
    · exact word_mem_memberTokens ms h

end

/-! ## Strings between their quotes -/

theorem isPlain_ne {b : UInt8} (h : isPlain b = true) : b ≠ 34 ∧ b ≠ 92 := by
  simp only [isPlain, Bool.and_eq_true, bne_iff_ne] at h
  exact ⟨h.1.2, h.2⟩

theorem isPlain_of_hexValue {b : UInt8} (h : hexValue b ≠ none) : isPlain b = true := by
  rw [hexValue] at h
  simp only [isPlain, Bool.and_eq_true, decide_eq_true_eq, bne_iff_ne]
  split at h
  · refine ⟨⟨?_, ?_⟩, ?_⟩ <;> grind
  split at h
  · refine ⟨⟨?_, ?_⟩, ?_⟩ <;> grind
  split at h
  · refine ⟨⟨?_, ?_⟩, ?_⟩ <;> grind
  · exact absurd rfl h

/-- A plain byte lengthens the token it stands in. -/
theorem lexFrom_plain {b : UInt8} (h : isPlain b = true) (s : List UInt8) :
    lexFrom .string (b :: s) = (lexFrom .string s).map (extend b) := by
  obtain ⟨hquote, hbackslash⟩ := isPlain_ne h
  rw [lexFrom, if_neg (by decide), if_pos rfl, if_neg hquote, if_neg hbackslash]

theorem lexFrom_backslash (e : UInt8) (s : List UInt8) :
    lexFrom .string (92 :: e :: s) = (lexFrom .string s).map fun ts => extend 92 (extend e ts) := by
  rw [lexFrom, if_neg (by decide), if_pos rfl, if_neg (by decide), if_pos rfl, lexFrom, if_pos rfl,
    Option.map_map]
  rfl

theorem lexFrom_quote (s : List UInt8) :
    lexFrom .string (34 :: s) = (lexFrom .between s).map (.string [] :: ·) := by
  rw [lexFrom, if_neg (by decide), if_pos rfl, if_pos rfl]

theorem hexValues_isSome {a b c d : UInt8} {n : Nat} (h : hexValues a b c d = some n) :
    hexValue a ≠ none ∧ hexValue b ≠ none ∧ hexValue c ≠ none ∧ hexValue d ≠ none := by
  rw [hexValues] at h
  simp only [Option.bind_eq_some_iff, Option.map_eq_some_iff] at h
  obtain ⟨a', ha, b', hb, c', hc, d', hd, -⟩ := h
  rw [ha, hb, hc, hd]
  exact ⟨Option.some_ne_none a', Option.some_ne_none b', Option.some_ne_none c',
    Option.some_ne_none d'⟩

/-- What stands between quotes is made of plain bytes, escapes and code units. -/
inductive Reads : List UInt8 → List Piece → Prop where
  | nil : Reads [] []
  | plain {b : UInt8} {s : List UInt8} {ps : List Piece} (hb : isPlain b = true) (h : Reads s ps) :
      Reads (b :: s) (.byte b :: ps)
  | escape {e b : UInt8} {s : List UInt8} {ps : List Piece} (he : unescape e = some b)
      (h : Reads s ps) : Reads (92 :: e :: s) (.byte b :: ps)
  | code {a b c d : UInt8} {n : Nat} {s : List UInt8} {ps : List Piece}
      (hn : hexValues a b c d = some n) (h : Reads s ps) :
      Reads (92 :: 117 :: a :: b :: c :: d :: s) (.code n :: ps)

theorem readPieces_plain {b : UInt8} (h : isPlain b = true) (s : List UInt8) :
    readPieces (b :: s) = (readPieces s).map (.byte b :: ·) := by
  rw [readPieces.eq_def]
  dsimp only
  rw [if_pos h]

theorem readPieces_escape {e : UInt8} (h : e ≠ 117) (s : List UInt8) :
    readPieces (92 :: e :: s) =
      (unescape e).bind fun b => (readPieces s).map (.byte b :: ·) := by
  rw [readPieces.eq_def]
  dsimp only
  rw [if_neg (by decide), if_pos rfl, if_neg h]

theorem readPieces_code (a b c d : UInt8) (s : List UInt8) :
    readPieces (92 :: 117 :: a :: b :: c :: d :: s) =
      (hexValues a b c d).bind fun n => (readPieces s).map (.code n :: ·) := rfl

theorem readPieces_few {s : List UInt8} (h : s.length < 4) : readPieces (92 :: 117 :: s) = none := by
  match s, h with
  | [], _ => rfl
  | [_], _ => rfl
  | [_, _], _ => rfl
  | [_, _, _], _ => rfl
  | _ :: _ :: _ :: _ :: _, h => exact absurd h (by simp)

theorem reads_of_readPieces {s : List UInt8} {ps : List Piece} (h : readPieces s = some ps) :
    Reads s ps := by
  induction s using readPieces.induct generalizing ps with
  | case1 =>
    obtain rfl := Option.some.inj h
    exact Reads.nil
  | case2 b s hplain ih =>
    rw [readPieces_plain hplain, Option.map_eq_some_iff] at h
    obtain ⟨qs, hqs, rfl⟩ := h
    exact Reads.plain hplain (ih hqs)
  | case3 _ => exact absurd h (Option.some_ne_none ps).symm
  | case4 a b c d s _ ih =>
    rw [readPieces_code, Option.bind_eq_some_iff] at h
    obtain ⟨n, hn, hmap⟩ := h
    obtain ⟨qs, hqs, rfl⟩ := Option.map_eq_some_iff.1 hmap
    exact Reads.code hn (ih hqs)
  | case5 s hfew _ =>
    have hshort : s.length < 4 := by
      by_contra hlong
      match s, hlong, hfew with
      | a :: b :: c :: d :: s, _, hfew => exact hfew a b c d s rfl
    rw [readPieces_few hshort] at h
    exact absurd h.symm (Option.some_ne_none ps)
  | case6 e s he _ ih =>
    rw [readPieces_escape he, Option.bind_eq_some_iff] at h
    obtain ⟨b, hb, hmap⟩ := h
    obtain ⟨qs, hqs, rfl⟩ := Option.map_eq_some_iff.1 hmap
    exact Reads.escape hb (ih hqs)
  | case7 b s hplain hbackslash =>
    rw [readPieces.eq_def] at h
    dsimp only at h
    rw [if_neg hplain, if_neg hbackslash] at h
    exact absurd h.symm (Option.some_ne_none ps)

theorem Reads.readPieces {s : List UInt8} {ps : List Piece} (h : Reads s ps) :
    readPieces s = some ps := by
  induction h with
  | nil => rfl
  | plain hb _ ih => rw [readPieces_plain hb, ih, Option.map_some]
  | @escape e b s ps he _ ih =>
    have hletter : e ≠ 117 := by
      rintro rfl
      exact Option.some_ne_none b he.symm
    rw [readPieces_escape hletter, he, Option.bind_some, ih, Option.map_some]
  | code hn _ ih => rw [readPieces_code, hn, Option.bind_some, ih, Option.map_some]

theorem Reads.unique {s : List UInt8} {ps qs : List Piece} (h : Reads s ps) (h' : Reads s qs) :
    ps = qs :=
  Option.some.inj (h.readPieces.symm.trans h'.readPieces)

theorem Reads.append {s t : List UInt8} {ps qs : List Piece} (h : Reads s ps) (h' : Reads t qs) :
    Reads (s ++ t) (ps ++ qs) := by
  induction h with
  | nil => exact h'
  | plain hb _ ih => exact Reads.plain hb ih
  | escape he _ ih => exact Reads.escape he ih
  | code hn _ ih => exact Reads.code hn ih

/-- What stands in front of a byte contains the parts that the byte is not in. -/
theorem exists_of_append_cons_eq {front s t u : List UInt8} {x : UInt8}
    (h : s ++ x :: t = front ++ u) (hx : x ∉ front) : ∃ s', s = front ++ s' ∧ u = s' ++ x :: t := by
  rcases List.append_eq_append_iff.1 h with ⟨v, hfront, hv⟩ | ⟨s', hs, hu⟩
  · cases v with
    | nil => exact ⟨[], by rw [hfront, List.append_nil, List.append_nil], hv.symm⟩
    | cons y v =>
      obtain ⟨rfl, -⟩ := List.cons.inj hv
      exact absurd (by rw [hfront]; exact List.mem_append_right s List.mem_cons_self) hx
  · exact ⟨s', hs, hu⟩

/-- A reading is cut at a byte that cannot belong to an escape. -/
theorem Reads.exists_of_append_cons {s t : List UInt8} {x : UInt8} {ps : List Piece}
    (h : Reads (s ++ x :: t) ps) (hplain : isPlain x = true) (hletter : unescape x = none)
    (hdigit : hexValue x = none) (hu : x ≠ 117) :
    ∃ qs rs, Reads s qs ∧ Reads t rs ∧ ps = qs ++ .byte x :: rs := by
  have hbackslash : x ≠ 92 := (isPlain_ne hplain).2
  generalize hwhole : s ++ x :: t = whole at h
  induction h generalizing s with
  | nil => exact absurd hwhole (by simp)
  | @plain b s' ps hb h ih =>
    cases s with
    | nil =>
      obtain ⟨rfl, rfl⟩ := List.cons.inj hwhole
      exact ⟨[], ps, Reads.nil, h, rfl⟩
    | cons y s =>
      obtain ⟨rfl, hrest⟩ := List.cons.inj hwhole
      obtain ⟨qs, rs, hqs, hrs, rfl⟩ := ih hrest
      exact ⟨.byte y :: qs, rs, Reads.plain hb hqs, hrs, rfl⟩
  | @escape e b s' ps he h ih =>
    have hx : x ∉ [92, e] := by
      rw [List.mem_cons, List.mem_singleton]
      rintro (rfl | rfl)
      · exact hbackslash rfl
      · exact absurd (he.symm.trans hletter) (Option.some_ne_none b)
    obtain ⟨s, rfl, hrest⟩ := exists_of_append_cons_eq hwhole hx
    obtain ⟨qs, rs, hqs, hrs, rfl⟩ := ih hrest.symm
    exact ⟨.byte b :: qs, rs, Reads.escape he hqs, hrs, rfl⟩
  | @code a b c d n s' ps hn h ih =>
    have hx : x ∉ [92, 117, a, b, c, d] := by
      obtain ⟨ha, hb, hc, hd⟩ := hexValues_isSome hn
      simp only [List.mem_cons, List.not_mem_nil, or_false]
      rintro (rfl | rfl | rfl | rfl | rfl | rfl)
      · exact hbackslash rfl
      · exact hu rfl
      · exact absurd hdigit ha
      · exact absurd hdigit hb
      · exact absurd hdigit hc
      · exact absurd hdigit hd
    obtain ⟨s, rfl, hrest⟩ := exists_of_append_cons_eq hwhole hx
    obtain ⟨qs, rs, hqs, hrs, rfl⟩ := ih hrest.symm
    exact ⟨.code n :: qs, rs, Reads.code hn hqs, hrs, rfl⟩

/-- What can be read between quotes is a token when it stands there. -/
theorem lexFrom_string_of_reads {raw : List UInt8} {ps : List Piece} (h : Reads raw ps)
    (rest : List UInt8) :
    lexFrom .string (raw ++ 34 :: rest) = (lexFrom .between rest).map (.string raw :: ·) := by
  induction h with
  | nil => exact lexFrom_quote rest
  | plain hb _ ih =>
    rw [List.cons_append, lexFrom_plain hb, ih, Option.map_map]
    rfl
  | escape he _ ih =>
    rw [List.cons_append, List.cons_append, lexFrom_backslash, ih, Option.map_map]
    rfl
  | code hn _ ih =>
    obtain ⟨ha, hb, hc, hd⟩ := hexValues_isSome hn
    simp only [List.cons_append, lexFrom_backslash, lexFrom_plain (isPlain_of_hexValue ha),
      lexFrom_plain (isPlain_of_hexValue hb), lexFrom_plain (isPlain_of_hexValue hc),
      lexFrom_plain (isPlain_of_hexValue hd), ih, Option.map_map]
    rfl

/-- A string of a text ends at a quote. -/
theorem exists_of_lexFrom_string {s : List UInt8} {ts : List (Lexeme (List UInt8))}
    (h : lexFrom .string s = some ts ∨ lexFrom .escape s = some ts) :
    ∃ raw rest ts', s = raw ++ 34 :: rest ∧ ts = .string raw :: ts' ∧
      lexFrom .between rest = some ts' := by
  induction s generalizing ts with
  | nil =>
    rcases h with h | h
    · exact absurd h (Option.some_ne_none ts).symm
    · exact absurd h (Option.some_ne_none ts).symm
  | cons b s ih =>
    have hlonger : ∀ ts₀, (lexFrom .string s = some ts₀ ∨ lexFrom .escape s = some ts₀) →
        extend b ts₀ = ts → ∃ raw rest ts', b :: s = raw ++ 34 :: rest ∧ ts = .string raw :: ts' ∧
          lexFrom .between rest = some ts' := by
      rintro ts₀ hs rfl
      obtain ⟨raw, rest, ts', rfl, rfl, hrest⟩ := ih hs
      exact ⟨b :: raw, rest, ts', rfl, rfl, hrest⟩
    rcases h with h | h
    · by_cases hquote : b = 34
      · rw [hquote, lexFrom_quote, Option.map_eq_some_iff] at h
        obtain ⟨ts', hrest, rfl⟩ := h
        exact ⟨[], s, ts', by rw [hquote]; rfl, rfl, hrest⟩
      · rw [lexFrom, if_neg (by decide), if_pos rfl, if_neg hquote, Option.map_eq_some_iff] at h
        obtain ⟨ts₀, hs, hts⟩ := h
        split at hs
        · exact hlonger ts₀ (Or.inr hs) hts
        · exact hlonger ts₀ (Or.inl hs) hts
    · rw [lexFrom, if_pos rfl, Option.map_eq_some_iff] at h
      obtain ⟨ts₀, hs, hts⟩ := h
      exact hlonger ts₀ (Or.inl hs) hts

theorem normal_code {n : Nat} {ps : List Piece} (h : ∀ m ps', ps = .code m :: ps' → False) :
    normal (.code n :: ps) = if 0xD800 ≤ n ∧ n < 0xE000 then .code n :: normal ps
      else charPieces (Char.ofNat n) ++ normal ps := by
  match ps, h with
  | [], _ => rfl
  | .byte _ :: _, _ => rfl
  | .code m :: ps, h => exact (h m ps rfl).elim

/-- No surrogate is completed by a byte. -/
theorem append_byte_ne_code {ps : List Piece} (h : ∀ m ps', ps = .code m :: ps' → False) (b : UInt8)
    (qs : List Piece) : ∀ m ps', ps ++ .byte b :: qs = .code m :: ps' → False := by
  intro m ps' heq
  cases ps with
  | nil => exact Piece.noConfusion (List.cons.inj heq).1
  | cons p ps => exact h m ps (by rw [(List.cons.inj heq).1])

/-- A byte is the end of a string that is made normal. -/
theorem normal_append_byte (ps : List Piece) (b : UInt8) (qs : List Piece) :
    normal (ps ++ .byte b :: qs) = normal ps ++ .byte b :: normal qs := by
  induction ps using normal.induct with
  | case1 => rfl
  | case2 c ps ih => rw [List.cons_append, normal, ih, normal, List.cons_append]
  | case3 n m ps hpair ih =>
    rw [List.cons_append, List.cons_append, normal, if_pos hpair, ih, normal, if_pos hpair,
      List.append_assoc]
  | case4 n m ps hpair hlone ih =>
    rw [List.cons_append] at ih
    rw [List.cons_append, List.cons_append, normal, if_neg hpair, if_pos hlone, ih, normal,
      if_neg hpair, if_pos hlone, List.cons_append]
  | case5 n m ps hpair hlone ih =>
    rw [List.cons_append] at ih
    rw [List.cons_append, List.cons_append, normal, if_neg hpair, if_neg hlone, ih, normal,
      if_neg hpair, if_neg hlone, List.append_assoc]
  | case6 n ps hnext hlone ih =>
    rw [List.cons_append, normal_code (append_byte_ne_code hnext b qs), normal_code hnext,
      if_pos hlone, if_pos hlone, ih, List.cons_append]
  | case7 n ps hnext hlone ih =>
    rw [List.cons_append, normal_code (append_byte_ne_code hnext b qs), normal_code hnext,
      if_neg hlone, if_neg hlone, ih, List.append_assoc]

/-! ## Between tokens -/

section Between

variable {m : Mode} {b : UInt8} {s : List UInt8}

theorem lexFrom_blank (hm : m = .between ∨ m = .word) (hb : isBlank b = true) :
    lexFrom m (b :: s) = (lexFrom .between s).map (endWord m) := by
  rcases hm with rfl | rfl <;> rw [lexFrom, if_neg (by decide), if_neg (by decide), if_pos hb]

theorem lexFrom_open (hm : m = .between ∨ m = .word) :
    lexFrom m (34 :: s) = (lexFrom .string s).map (endWord m) := by
  rcases hm with rfl | rfl <;>
    rw [lexFrom, if_neg (by decide), if_neg (by decide), if_neg (by decide), if_pos rfl]

theorem lexFrom_mark (hm : m = .between ∨ m = .word) (hb : isMark b = true) :
    lexFrom m (b :: s) = (lexFrom .between s).map fun ts => endWord m (.mark b :: ts) := by
  have hblank : isBlank b ≠ true := by
    intro hblank
    simp only [isBlank, isMark, Bool.or_eq_true, beq_iff_eq] at hblank hb
    grind
  have hquote : b ≠ 34 := by
    rintro rfl
    exact absurd hb (by decide)
  rcases hm with rfl | rfl <;>
    rw [lexFrom, if_neg (by decide), if_neg (by decide), if_neg hblank, if_neg hquote, if_pos hb]

theorem lexFrom_letter (hm : m = .between ∨ m = .word) (hblank : isBlank b = false)
    (hquote : b ≠ 34) (hmark : isMark b = false) :
    lexFrom m (b :: s) = (lexFrom .word s).map (extend b) := by
  have hblank' : ¬isBlank b = true := by rw [hblank]; exact Bool.false_ne_true
  have hmark' : ¬isMark b = true := by rw [hmark]; exact Bool.false_ne_true
  rcases hm with rfl | rfl <;>
    rw [lexFrom, if_neg (by decide), if_neg (by decide), if_neg hblank', if_neg hquote,
      if_neg hmark']

/-- The rest of a word is a word. -/
theorem exists_of_lexFrom_word {ts : List (Lexeme (List UInt8))} (h : lexFrom .word s = some ts) :
    ∃ w ts', ts = .word w :: ts' := by
  have hm : Mode.word = .between ∨ Mode.word = .word := Or.inr rfl
  have hend : ∀ ts', endWord .word ts' = .word [] :: ts' := fun _ => rfl
  induction s generalizing ts with
  | nil => exact ⟨[], [], (Option.some.inj h).symm⟩
  | cons b s ih =>
    by_cases hblank : isBlank b = true
    · rw [lexFrom_blank hm hblank, Option.map_eq_some_iff] at h
      obtain ⟨ts', -, rfl⟩ := h
      exact ⟨[], ts', rfl⟩
    · by_cases hquote : b = 34
      · rw [hquote, lexFrom_open hm, Option.map_eq_some_iff] at h
        obtain ⟨ts', -, rfl⟩ := h
        exact ⟨[], ts', rfl⟩
      · by_cases hmark : isMark b = true
        · rw [lexFrom_mark hm hmark, Option.map_eq_some_iff] at h
          obtain ⟨ts', -, rfl⟩ := h
          exact ⟨[], .mark b :: ts', rfl⟩
        · rw [lexFrom_letter hm (Bool.eq_false_of_not_eq_true hblank) hquote
            (Bool.eq_false_of_not_eq_true hmark), Option.map_eq_some_iff] at h
          obtain ⟨ts', hs, rfl⟩ := h
          obtain ⟨w, ts'', rfl⟩ := ih hs
          exact ⟨b :: w, ts'', rfl⟩

end Between

/-! ## Texts that spell a value -/

theorem exists_of_forall₂ {α β : Type} {R : α → β → Prop} {xs : List α} {ys : List β}
    (h : List.Forall₂ R xs ys) {x : α} (hx : x ∈ xs) : ∃ y ∈ ys, R x y := by
  induction h with
  | nil => exact absurd hx List.not_mem_nil
  | @cons a b xs ys hab _ ih =>
    rcases List.mem_cons.1 hx with rfl | hx
    · exact ⟨b, List.mem_cons_self, hab⟩
    · obtain ⟨y, hy, hxy⟩ := ih hx
      exact ⟨y, List.mem_cons_of_mem b hy, hxy⟩

theorem mark_of_read {t : Lexeme (List UInt8)} {b : UInt8} (h : t.read = some (.mark b)) :
    t = .mark b := by
  cases t with
  | mark c => exact congrArg Lexeme.mark (Lexeme.mark.inj (Option.some.inj h))
  | string raw =>
    rw [Lexeme.read, Option.map_eq_some_iff] at h
    obtain ⟨ps, -, hps⟩ := h
    exact absurd hps (string_ne_mark _ b)
  | word w => exact absurd (Option.some.inj h) (word_ne_mark w b)

theorem spaced_of_read {t u : Lexeme (List UInt8)} {t' u' : Lexeme (List Piece)}
    (ht : t.read = some t') (hu : u.read = some u') (h : Spaced t' u') : Spaced t u := by
  refine ⟨?_, ?_⟩
  · rintro w w' rfl rfl
    exact h.1 w w' (Option.some.inj ht).symm (Option.some.inj hu).symm
  · rintro rfl
    refine ⟨?_, ?_⟩
    · rintro rfl
      exact (h.2 (Option.some.inj ht).symm).1 (Option.some.inj hu).symm
    · rintro rfl
      exact (h.2 (Option.some.inj ht).symm).2 (Option.some.inj hu).symm

theorem isChain_of_read {ts : List (Lexeme (List UInt8))} {ds : List (Lexeme (List Piece))}
    (h : List.Forall₂ (fun t d => t.read = some d) ts ds) (hds : ds.IsChain Spaced) :
    ts.IsChain Spaced := by
  induction h with
  | nil => exact List.IsChain.nil
  | @cons t d ts ds ht hrest ih =>
    rw [List.isChain_cons] at hds ⊢
    refine ⟨fun u hu => ?_, ih hds.2⟩
    cases hrest with
    | nil => exact absurd hu (by simp)
    | @cons u' e ts ds hu' _ =>
      obtain rfl := Option.mem_some_iff.1 hu
      exact spaced_of_read ht hu' (hds.1 e rfl)

/-- The words of some tokens are made of bytes that words are made of. -/
def WordsOk {σ : Type} (ts : List (Lexeme σ)) : Prop := ∀ w, .word w ∈ ts → ∀ b ∈ w, IsWordByte b

theorem Spells.wordsOk {ts : List (Lexeme (List UInt8))} {v : Json} (h : Spells ts v) :
    WordsOk ts := by
  intro w hw
  obtain ⟨d, hd, hread⟩ := exists_of_forall₂ h hw
  obtain rfl := Option.some.inj hread
  obtain ⟨u, rfl⟩ := word_mem_tokens v hd
  exact u.isWordByte

theorem Spells.exists_reads {ts : List (Lexeme (List UInt8))} {v : Json} (h : Spells ts v)
    {raw : List UInt8} (hraw : .string raw ∈ ts) : ∃ ps, Reads raw ps := by
  obtain ⟨d, -, hread⟩ := exists_of_forall₂ h hraw
  obtain ⟨ps, hps, -⟩ := Option.map_eq_some_iff.1 hread
  exact ⟨ps, reads_of_readPieces hps⟩

theorem Spells.isChain {ts : List (Lexeme (List UInt8))} {v : Json} (h : Spells ts v) :
    ts.IsChain Spaced :=
  isChain_of_read h (isChain_tokens v)

/-! ## White space around a text -/

theorem wordsOk_of_extend {b : UInt8} {ts : List (Lexeme (List UInt8))} (h : WordsOk (extend b ts)) :
    WordsOk ts := by
  intro w hw
  cases ts with
  | nil => exact absurd hw List.not_mem_nil
  | cons t ts =>
    cases t with
    | mark c => exact h w hw
    | string raw =>
      rcases List.mem_cons.1 hw with hw | hw
      · exact absurd hw (by simp)
      · exact h w (List.mem_cons_of_mem _ hw)
    | word w' =>
      rcases List.mem_cons.1 hw with hw | hw
      · obtain rfl := Lexeme.word.inj hw
        exact fun c hc => h (b :: w) List.mem_cons_self c (List.mem_cons_of_mem b hc)
      · exact h w (List.mem_cons_of_mem _ hw)

theorem wordsOk_of_cons {σ : Type} {t : Lexeme σ} {ts : List (Lexeme σ)} (h : WordsOk (t :: ts)) :
    WordsOk ts :=
  fun w hw => h w (List.mem_cons_of_mem t hw)

theorem wordsOk_of_endWord {m : Mode} {ts : List (Lexeme (List UInt8))} (h : WordsOk (endWord m ts)) :
    WordsOk ts := by
  rw [endWord] at h
  split at h
  · exact wordsOk_of_cons h
  · exact h

/-- One byte changes the tokens of the rest, and leaves the words in it as they are. -/
theorem exists_lexFrom_cons (m : Mode) (b : UInt8) :
    ∃ m' g, (∀ s, lexFrom m (b :: s) = (lexFrom m' s).map g) ∧
      ∀ ts, WordsOk (g ts) → WordsOk ts := by
  by_cases hescape : m = .escape
  · exact ⟨.string, extend b, fun s => by rw [lexFrom, if_pos hescape], fun _ => wordsOk_of_extend⟩
  by_cases hstring : m = .string
  · by_cases hquote : b = 34
    · exact ⟨.between, (.string [] :: ·),
        fun s => by rw [lexFrom, if_neg hescape, if_pos hstring, if_pos hquote],
        fun _ => wordsOk_of_cons⟩
    · exact ⟨if b = 92 then .escape else .string, extend b,
        fun s => by rw [lexFrom, if_neg hescape, if_pos hstring, if_neg hquote],
        fun _ => wordsOk_of_extend⟩
  have hm : m = .between ∨ m = .word := by
    cases m with
    | between => exact Or.inl rfl
    | word => exact Or.inr rfl
    | string => exact absurd rfl hstring
    | escape => exact absurd rfl hescape
  by_cases hblank : isBlank b = true
  · exact ⟨.between, endWord m, fun s => lexFrom_blank hm hblank, fun _ => wordsOk_of_endWord⟩
  by_cases hquote : b = 34
  · exact ⟨.string, endWord m, fun s => by rw [hquote, lexFrom_open hm], fun _ => wordsOk_of_endWord⟩
  by_cases hmark : isMark b = true
  · exact ⟨.between, fun ts => endWord m (.mark b :: ts), fun s => lexFrom_mark hm hmark,
      fun _ h => wordsOk_of_cons (wordsOk_of_endWord h)⟩
  · exact ⟨.word, extend b, fun s => lexFrom_letter hm (Bool.eq_false_of_not_eq_true hblank) hquote
      (Bool.eq_false_of_not_eq_true hmark), fun _ => wordsOk_of_extend⟩

/-- White space, or a byte that stands in no word: at the end of a text it can be left out. -/
def IsSpacing (c : UInt8) : Prop :=
  isBlank c = true ∨ isMark c = false ∧ c ≠ 34 ∧ ¬IsWordByte c

theorem IsSpacing.ne_quote {c : UInt8} (h : IsSpacing c) : c ≠ 34 := by
  rcases h with hblank | ⟨-, hquote, -⟩
  · rintro rfl
    exact absurd hblank (by decide)
  · exact hquote

/-- Such a byte between tokens is white space. -/
theorem exists_of_lexFrom_spacing {c : UInt8} (hc : IsSpacing c) {m : Mode}
    (hm : m = .between ∨ m = .word) {s : List UInt8} {ts : List (Lexeme (List UInt8))}
    (h : lexFrom m (c :: s) = some ts) (hwords : WordsOk ts) :
    ∃ ts', lexFrom .between s = some ts' ∧ ts = endWord m ts' := by
  by_cases hblank : isBlank c = true
  · rw [lexFrom_blank hm hblank, Option.map_eq_some_iff] at h
    obtain ⟨ts', hs, rfl⟩ := h
    exact ⟨ts', hs, rfl⟩
  · obtain ⟨hmark, hquote, hword⟩ := hc.resolve_left hblank
    rw [lexFrom_letter hm (Bool.eq_false_of_not_eq_true hblank) hquote hmark,
      Option.map_eq_some_iff] at h
    obtain ⟨ts', hs, rfl⟩ := h
    obtain ⟨w, ts'', rfl⟩ := exists_of_lexFrom_word hs
    exact absurd (hwords (c :: w) List.mem_cons_self c List.mem_cons_self) hword

theorem lexFrom_of_concat {c : UInt8} (hc : IsSpacing c) {m : Mode} {s : List UInt8}
    {ts : List (Lexeme (List UInt8))} (h : lexFrom m (s ++ [c]) = some ts) (hwords : WordsOk ts) :
    lexFrom m s = some ts := by
  induction s generalizing m ts with
  | nil =>
    rw [List.nil_append] at h
    by_cases hm : m = .between ∨ m = .word
    · obtain ⟨ts', hts', rfl⟩ := exists_of_lexFrom_spacing hc hm h hwords
      obtain rfl := Option.some.inj hts'
      rcases hm with rfl | rfl <;> rfl
    · -- a string has to be closed
      have hopen : lexFrom .string [c] = some ts ∨ lexFrom .escape [c] = some ts := by
        cases m with
        | between => exact absurd (Or.inl rfl) hm
        | word => exact absurd (Or.inr rfl) hm
        | string => exact Or.inl h
        | escape => exact Or.inr h
      obtain ⟨raw, rest, -, hquote, -, -⟩ := exists_of_lexFrom_string hopen
      have hmem : (34 : UInt8) ∈ [c] := by
        rw [hquote]
        exact List.mem_append_right raw List.mem_cons_self
      exact absurd (List.mem_singleton.1 hmem).symm hc.ne_quote
  | cons b s ih =>
    obtain ⟨m', g, hcons, hback⟩ := exists_lexFrom_cons m b
    rw [List.cons_append, hcons, Option.map_eq_some_iff] at h
    obtain ⟨ts', hs, rfl⟩ := h
    rw [hcons, ih hs (hback ts' hwords), Option.map_some]

/-- A text without the spacing behind it. -/
theorem lexFrom_rdropWhile {p : UInt8 → Bool} (hp : ∀ c, p c = true → IsSpacing c) {m : Mode}
    {s : List UInt8} {ts : List (Lexeme (List UInt8))} (h : lexFrom m s = some ts)
    (hwords : WordsOk ts) : lexFrom m (s.rdropWhile p) = some ts := by
  induction s using List.reverseRecOn with
  | nil => exact h
  | append_singleton s c ih =>
    rw [List.rdropWhile_concat]
    split
    · next hc => exact ih (lexFrom_of_concat (hp c hc) h hwords)
    · exact h

/-- A text without the spacing in front of it. -/
theorem lex_dropWhile {p : UInt8 → Bool} (hp : ∀ c, p c = true → IsSpacing c) {s : List UInt8}
    {ts : List (Lexeme (List UInt8))} (h : lex s = some ts) (hwords : WordsOk ts) :
    lex (s.dropWhile p) = some ts := by
  induction s with
  | nil => exact h
  | cons c s ih =>
    rw [List.dropWhile_cons]
    split
    · next hc =>
      obtain ⟨ts', hs, rfl⟩ := exists_of_lexFrom_spacing (hp c hc) (Or.inl rfl) h hwords
      exact ih hs
    · exact h

end JsonTokens
