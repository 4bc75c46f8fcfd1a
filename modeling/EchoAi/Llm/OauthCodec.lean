import EchoAi.Llm.OauthCallback
import EchoAi.Llm.OauthVault

/-!
# The codecs of the login

* `base64urlEncode`, with its sizes, beside the decoder `base64urlDecode`: `base64urlDecode_encode`,
  `base64urlDecode_iff`.
* `decodeWrites`: what the decoder has written when it ends, also where it fails.
* `urlEncode`, beside the decoder `urlDecodeExact`: `encodes_escapes`, `urlDecodeExact_eq_none_iff`.
* `codecs_exact`: the codecs are inverse to each other, and accept what they say.

Sizes are numbers of 64 bits.  Texts are shorter than `SIZE_MAX`, and memory does not run out.
-/

namespace EchoAi.OauthCodec

open Callback OauthVault

/-- `SIZE_MAX` -/
def sizeMax : Nat := 2 ^ 64 - 1

/-! ## Digits of six bits -/

/-- The table of `base64url_encode`. -/
def table : List UInt8 := ascii "ABCDEFGHIJKLMNOPQRSTUVWXYZabcdefghijklmnopqrstuvwxyz0123456789-_"

/-- The entry of the table for the lowest six bits. -/
def urlDigit (n : Nat) : UInt8 := table.getD (n % 64) 0

theorem length_table : table.length = 64 := by
  rw [table, ascii_ofList, List.length_map]
  rfl

theorem base64urlValue_getD {i : Nat} (h : i < 64) : base64urlValue (table.getD i 0) = some i := by
  have htable : ∀ i < 64, base64urlValue (table.getD i 0) = some i := by
    rw [table, ascii_ofList]
    decide +kernel
  exact htable i h

/-- The value of an entry is its place. -/
theorem base64urlValue_urlDigit (n : Nat) : base64urlValue (urlDigit n) = some (n % 64) :=
  base64urlValue_getD (Nat.mod_lt n (by decide))

/-- The entry at the place that is the value of a byte is the byte. -/
theorem getD_of_base64urlValue {c : UInt8} {v : Nat} (h : base64urlValue c = some v) :
    v < 64 ∧ table.getD v 0 = c := by
  have hbytes : ∀ n < 256, ∀ v ∈ base64urlValue (UInt8.ofNat n),
      v < 64 ∧ table.getD v 0 = UInt8.ofNat n := by
    rw [table, ascii_ofList]
    decide +kernel
  rw [← UInt8.ofNat_toNat (x := c)] at h ⊢
  exact hbytes _ c.toNat_lt v h

/-- Just the entries of the table have a value. -/
theorem base64urlValue_isSome_iff (c : UInt8) : (base64urlValue c).isSome ↔ c ∈ table := by
  constructor
  · intro h
    obtain ⟨v, hv⟩ := Option.isSome_iff_exists.1 h
    obtain ⟨hlt, hc⟩ := getD_of_base64urlValue hv
    rw [← hc, List.getD_eq_getElem?_getD,
      List.getElem?_eq_getElem (by rwa [length_table] : v < table.length)]
    exact List.getElem_mem _
  · intro h
    obtain ⟨i, hi, rfl⟩ := List.getElem_of_mem h
    rw [List.getElem_eq_getD 0, base64urlValue_getD (by rwa [length_table] at hi)]
    rfl

/-! ## The encoder -/

/-- The loop of `base64url_encode`: three bytes are four digits, fewer bytes are one digit more. -/
def encodeTriples : List UInt8 → List UInt8
  | [] => []
  | [x] =>
    let value := x.toNat * 2 ^ 16
    [urlDigit (value / 2 ^ 18), urlDigit (value / 2 ^ 12)]
  | [x, y] =>
    let value := x.toNat * 2 ^ 16 + y.toNat * 2 ^ 8
    [urlDigit (value / 2 ^ 18), urlDigit (value / 2 ^ 12), urlDigit (value / 2 ^ 6)]
  | x :: y :: z :: data =>
    let value := x.toNat * 2 ^ 16 + y.toNat * 2 ^ 8 + z.toNat
    urlDigit (value / 2 ^ 18) :: urlDigit (value / 2 ^ 12) :: urlDigit (value / 2 ^ 6) ::
      urlDigit value :: encodeTriples data

/-- `output_len` of `base64url_encode`, a number of 64 bits. -/
def outputLen (len : Nat) : Nat := (len + 2) % 2 ^ 64 / 3 * 4 % 2 ^ 64

/-- The guard of `base64url_encode` lets this length pass. -/
def Encodable (len : Nat) : Prop := len ≤ (sizeMax - 2) / 4 * 3

instance (len : Nat) : Decidable (Encodable len) := inferInstanceAs (Decidable (_ ≤ _))

/-- `base64url_encode` -/
def base64urlEncode (data : List UInt8) : Option (List UInt8) :=
  if Encodable data.length then some (encodeTriples data) else none

/-- The number of digits. -/
theorem length_encodeTriples (data : List UInt8) :
    (encodeTriples data).length = (data.length * 4 + 2) / 3 := by
  fun_induction encodeTriples data with
  | case1 => rfl
  | case2 x value => simp
  | case3 x y value => simp
  | case4 x y z data value ih =>
    simp only [List.length_cons, ih]
    omega

/-- No sum and no product of the sizes wraps around. -/
theorem outputLen_eq {len : Nat} (h : Encodable len) :
    outputLen len = (len + 2) / 3 * 4 ∧ outputLen len + 1 < 2 ^ 64 := by
  unfold Encodable sizeMax at h
  unfold outputLen
  omega

/-- The digits and the NUL are within what is allocated. -/
theorem length_encodeTriples_lt {data : List UInt8} (h : Encodable data.length) :
    (encodeTriples data).length + 1 ≤ outputLen data.length + 1 := by
  rw [length_encodeTriples, (outputLen_eq h).1]
  omega

/-- Two, three and four digits are read as the bytes that they were written for. -/
theorem decodedBytes_value {x y z : UInt8} {value : Nat}
    (h : value = x.toNat * 2 ^ 16 + y.toNat * 2 ^ 8 + z.toNat) :
    decodedBytes (value / 2 ^ 18 % 64) (value / 2 ^ 12 % 64) (value / 2 ^ 6 % 64) (value % 64) =
      [x, y, z] := by
  have hx := x.toNat_lt
  have hy := y.toNat_lt
  have hz := z.toNat_lt
  have hsum : value / 2 ^ 18 % 64 * 2 ^ 18 + value / 2 ^ 12 % 64 * 2 ^ 12 +
      value / 2 ^ 6 % 64 * 2 ^ 6 + value % 64 = value := by omega
  have hfirst : UInt8.ofNat (value / 2 ^ 16) = x := by
    rw [← UInt8.toNat_inj, UInt8.toNat_ofNat']
    omega
  have hsecond : UInt8.ofNat (value / 2 ^ 8) = y := by
    rw [← UInt8.toNat_inj, UInt8.toNat_ofNat']
    omega
  have hthird : UInt8.ofNat value = z := by
    rw [← UInt8.toNat_inj, UInt8.toNat_ofNat']
    omega
  simp only [decodedBytes, hsum, hfirst, hsecond, hthird]

/-- The digits of a text are read as the text. -/
theorem decodeQuads_encodeTriples (data : List UInt8) :
    decodeQuads (encodeTriples data) = some data := by
  fun_induction encodeTriples data with
  | case1 => rfl
  | case2 x value =>
    have hbytes := @decodedBytes_value x 0 0 value (by simp [value])
    have hthird : value / 2 ^ 6 % 64 = 0 := by omega
    have hfourth : value % 64 = 0 := by omega
    rw [hthird, hfourth] at hbytes
    simp only [decodeQuads, base64urlValue_urlDigit, Option.bind_eq_bind, Option.bind_some, hbytes]
    rfl
  | case3 x y value =>
    have hbytes := @decodedBytes_value x y 0 value (by simp [value])
    have hfourth : value % 64 = 0 := by omega
    rw [hfourth] at hbytes
    simp only [decodeQuads, base64urlValue_urlDigit, Option.bind_eq_bind, Option.bind_some, hbytes]
    rfl
  | case4 x y z data value ih =>
    have hbytes := @decodedBytes_value x y z value rfl
    simp only [decodeQuads, base64urlValue_urlDigit, Option.bind_eq_bind, Option.bind_some, hbytes,
      ih]
    rfl

/-- What is encoded is decoded again. -/
theorem base64urlDecode_encode {data : List UInt8} (hne : data ≠ [])
    (hlength : (encodeTriples data).length ≤ valueMax) :
    (base64urlEncode data).bind base64urlDecode = some data := by
  have hpos := List.length_pos_iff.2 hne
  have hlen := length_encodeTriples data
  unfold valueMax at hlength
  have hencodable : Encodable data.length := by
    unfold Encodable sizeMax
    omega
  rw [base64urlEncode, if_pos hencodable, Option.bind_some, base64urlDecode, if_neg]
  · exact decodeQuads_encodeTriples data
  · unfold valueMax
    omega

/-! ## The decoder -/

/-- The loop reads digits of the table, and not a single one at the end. -/
theorem decodeQuads_isSome_iff (input : List UInt8) :
    (decodeQuads input).isSome ↔ input.length % 4 ≠ 1 ∧ ∀ c ∈ input, c ∈ table := by
  simp only [← base64urlValue_isSome_iff]
  fun_induction decodeQuads input with
  | case1 => simp
  | case2 a => simp
  | case3 a b =>
    cases ha : base64urlValue a <;> cases hb : base64urlValue b <;> simp [ha, hb]
  | case4 a b c =>
    cases ha : base64urlValue a <;> cases hb : base64urlValue b <;>
      cases hc : base64urlValue c <;> simp [ha, hb, hc]
  | case5 a b c d input ih =>
    have hlength : (a :: b :: c :: d :: input).length % 4 = input.length % 4 := by
      simp only [List.length_cons]
      omega
    rw [hlength]
    cases ha : base64urlValue a <;> cases hb : base64urlValue b <;>
      cases hc : base64urlValue c <;> cases hd : base64urlValue d <;>
      cases hrest : decodeQuads input <;> simp [ha, hb, hc, hd, hrest, ← ih]

/-- The decoder accepts the texts over the alphabet of the lengths that texts of digits have. -/
theorem base64urlDecode_iff (input : List UInt8) :
    (base64urlDecode input).isSome ↔ input ≠ [] ∧ (∀ c ∈ input, c ∈ table) ∧
      input.length ≤ valueMax ∧ input.length % 4 ≠ 1 := by
  rw [base64urlDecode]
  split
  · next h =>
    refine iff_of_false (by simp) ?_
    rintro ⟨hne, -, hmax, hmod⟩
    rcases h with h | h | h
    · exact hne (List.length_eq_zero_iff.1 h)
    · exact hmod h
    · exact absurd hmax (Nat.not_le.2 h)
  · next h =>
    rw [decodeQuads_isSome_iff]
    constructor
    · rintro ⟨hmod, htable⟩
      exact ⟨fun hnil => h (.inl (List.length_eq_zero_iff.2 hnil)), htable,
        Nat.le_of_not_lt fun hlt => h (.inr (.inr hlt)), hmod⟩
    · rintro ⟨-, htable, -, hmod⟩
      exact ⟨hmod, htable⟩

/-- `decoded_len` of `base64url_decode` -/
def decodedLen (len : Nat) : Nat :=
  len / 4 * 3 + if len % 4 = 2 then 1 else if len % 4 = 3 then 2 else 0

/-- The loop of `base64url_decode` with what it has written so far, which stays where it fails. -/
def decodeWrites (output : List UInt8) : List UInt8 → Bool × List UInt8
  | a :: b :: c :: d :: input =>
    match decodeQuads [a, b, c, d] with
    | some bytes => decodeWrites (output ++ bytes) input
    | none => (false, output)
  | input =>
    match decodeQuads input with
    | some bytes => (true, output ++ bytes)
    | none => (false, output)

/-- Induction on digits that are read four at a time. -/
theorem quads_induction {motive : List UInt8 → Prop}
    (few : ∀ input, input.length < 4 → motive input)
    (more : ∀ a b c d input, motive input → motive (a :: b :: c :: d :: input))
    (input : List UInt8) : motive input := by
  obtain ⟨n, hn⟩ : ∃ n, input.length = n := ⟨_, rfl⟩
  induction n using Nat.strong_induction_on generalizing input with
  | _ n ih =>
    rcases input with _ | ⟨a, _ | ⟨b, _ | ⟨c, _ | ⟨d, input⟩⟩⟩⟩
    · exact few _ (by simp)
    · exact few _ (by simp)
    · exact few _ (by simp)
    · exact few _ (by simp)
    · simp only [List.length_cons] at hn
      exact more a b c d input (ih input.length (by omega) input rfl)

/-- The loop at four digits. -/
theorem decodeWrites_quad (output : List UInt8) (a b c d : UInt8) (input : List UInt8) :
    decodeWrites output (a :: b :: c :: d :: input) =
      (decodeQuads [a, b, c, d]).elim (false, output)
        fun bytes => decodeWrites (output ++ bytes) input := by
  rw [decodeWrites]
  cases decodeQuads [a, b, c, d] <;> rfl

/-- The loop at the last digits. -/
theorem decodeWrites_few (output : List UInt8) {input : List UInt8} (h : input.length < 4) :
    decodeWrites output input =
      (decodeQuads input).elim (false, output) fun bytes => (true, output ++ bytes) := by
  rw [decodeWrites]
  · cases decodeQuads input <;> rfl
  · rintro a b c d rest rfl
    simp only [List.length_cons] at h
    omega

/-- Four digits in front of others. -/
theorem decodeQuads_append (a b c d : UInt8) (input : List UInt8) :
    decodeQuads (a :: b :: c :: d :: input) =
      (decodeQuads [a, b, c, d]).bind fun bytes => (decodeQuads input).map (bytes ++ ·) := by
  cases ha : base64urlValue a <;> cases hb : base64urlValue b <;>
    cases hc : base64urlValue c <;> cases hd : base64urlValue d <;>
    cases hrest : decodeQuads input <;> simp [decodeQuads, ha, hb, hc, hd, hrest]

/-- What the loop reads is what it has written when it does not fail. -/
theorem decodeWrites_eq (output input : List UInt8) :
    (decodeQuads input).map (output ++ ·) =
      if (decodeWrites output input).1 then some (decodeWrites output input).2 else none := by
  induction input using quads_induction generalizing output with
  | few input hfew =>
    rw [decodeWrites_few output hfew]
    cases decodeQuads input <;> rfl
  | more a b c d input ih =>
    rw [decodeQuads_append, decodeWrites_quad]
    cases decodeQuads [a, b, c, d] with
    | none => rfl
    | some bytes =>
      rw [Option.elim_some, ← ih, Option.bind_some, Option.map_map]
      simp only [Function.comp_def, List.append_assoc]

theorem decodedLen_add_four (len : Nat) : decodedLen (len + 4) = 3 + decodedLen len := by
  rw [decodedLen, decodedLen, Nat.add_mod_right, Nat.add_div_right _ (by decide)]
  omega

/-- As many bytes are read as are expected. -/
theorem length_decodeQuads {input bytes : List UInt8} (h : decodeQuads input = some bytes) :
    bytes.length = decodedLen input.length := by
  fun_induction decodeQuads input generalizing bytes with
  | case1 =>
    rw [← Option.some.inj h]
    rfl
  | case2 a => exact absurd h (by simp)
  | case3 a b =>
    simp only [Option.bind_eq_bind, Option.bind_eq_some_iff] at h
    obtain ⟨_, -, _, -, hbytes⟩ := h
    rw [← Option.some.inj hbytes, show [a, b].length = 2 from rfl]
    rfl
  | case4 a b c =>
    simp only [Option.bind_eq_bind, Option.bind_eq_some_iff] at h
    obtain ⟨_, -, _, -, _, -, hbytes⟩ := h
    rw [← Option.some.inj hbytes, show [a, b, c].length = 3 from rfl]
    rfl
  | case5 a b c d input ih =>
    simp only [Option.bind_eq_bind, Option.bind_eq_some_iff] at h
    obtain ⟨_, -, _, -, _, -, _, -, rest, hrest, hbytes⟩ := h
    rw [← Option.some.inj hbytes, List.length_append, ih hrest]
    exact (decodedLen_add_four input.length).symm

/-- At no time the loop has written more than is expected. -/
theorem length_decodeWrites_le (output input : List UInt8) :
    (decodeWrites output input).2.length ≤ output.length + decodedLen input.length := by
  induction input using quads_induction generalizing output with
  | few input hfew =>
    rw [decodeWrites_few output hfew]
    cases h : decodeQuads input with
    | none => exact Nat.le_add_right _ _
    | some bytes => rw [Option.elim_some, List.length_append, length_decodeQuads h]
  | more a b c d input ih =>
    rw [decodeWrites_quad]
    cases h : decodeQuads [a, b, c, d] with
    | none => exact Nat.le_add_right _ _
    | some bytes =>
      have hle := ih (output ++ bytes)
      have hfour : bytes.length = decodedLen 4 := length_decodeQuads h
      rw [List.length_append, hfour, show decodedLen 4 = 3 from rfl, Nat.add_assoc,
        ← decodedLen_add_four] at hle
      exact hle

/-! ## Percent-encodings -/

/-- `is_url_char` -/
def isUrlChar (c : UInt8) : Bool := isAlnum c || c = 45 || c = 46 || c = 95 || c = 126

/-- The digits of `url_encode`. -/
def hexDigit (n : Nat) : UInt8 := (ascii "0123456789ABCDEF").getD n 0

/-- What `url_encode` writes for a byte. -/
def escape (c : UInt8) : List UInt8 :=
  if isUrlChar c then [c] else [37, hexDigit (c.toNat / 16), hexDigit (c.toNat % 16)]

/-- `url_encode` -/
def urlEncode (value : List UInt8) : Option (List UInt8) :=
  if (sizeMax - 1) / 3 < value.length then none else some (value.flatMap escape)

theorem hexValue_hexDigit {n : Nat} (h : n < 16) : hexValue (hexDigit n) = some n := by
  have hdigits : ∀ n < 16, hexValue (hexDigit n) = some n := by decide +kernel
  exact hdigits n h

/-- A byte that is written as it is stands for itself. -/
theorem ne_of_isUrlChar {c : UInt8} (h : isUrlChar c = true) : c ≠ 37 ∧ c ≠ 43 := by
  constructor
  · rintro rfl
    exact absurd h (by decide)
  · rintro rfl
    exact absurd h (by decide)

/-- The escapes of a text without control bytes encode it. -/
theorem encodes_escapes {text : List UInt8} (h : ∀ c ∈ text, isControl c = false) :
    Encodes (text.flatMap escape) text := by
  induction text with
  | nil => exact .nil
  | cons c text ih =>
    obtain ⟨hc, htext⟩ := List.forall_mem_cons.1 h
    rw [List.flatMap_cons, escape]
    split
    · next hplain =>
      obtain ⟨hpercent, hplus⟩ := ne_of_isUrlChar hplain
      exact .plain hpercent hplus hc (ih htext)
    · have hbyte : UInt8.ofNat (16 * (c.toNat / 16) + c.toNat % 16) = c := by
        rw [Nat.div_add_mod, UInt8.ofNat_toNat]
      have hlt := c.toNat_lt
      have hescape := Encodes.hex (hexValue_hexDigit (n := c.toNat / 16) (by omega))
        (hexValue_hexDigit (n := c.toNat % 16) (by omega)) (by rw [hbyte]; exact hc) (ih htext)
      rw [hbyte] at hescape
      exact hescape

/-- A percent sign without two hexadecimal digits behind it. -/
def BadEscape (raw : List UInt8) : Prop :=
  ∃ before behind, raw = before ++ 37 :: behind ∧
    ∀ high low rest, behind = high :: low :: rest → hexValue high = none ∨ hexValue low = none

/-- A percent-encoding, and the bytes that it stands for. -/
inductive Escaped : (raw bytes : List UInt8) → Prop
  | nil : Escaped [] []
  | plain {c : UInt8} {raw bytes : List UInt8} (hpercent : c ≠ 37) (hplus : c ≠ 43)
      (h : Escaped raw bytes) : Escaped (c :: raw) (c :: bytes)
  | plus {raw bytes : List UInt8} (h : Escaped raw bytes) : Escaped (43 :: raw) (32 :: bytes)
  | hex {high low : UInt8} {a b : Nat} {raw bytes : List UInt8} (hhigh : hexValue high = some a)
      (hlow : hexValue low = some b) (h : Escaped raw bytes) :
      Escaped (37 :: high :: low :: raw) (UInt8.ofNat (16 * a + b) :: bytes)

/-- No escape is bad where the bytes are known. -/
theorem Escaped.not_badEscape {raw bytes : List UInt8} (h : Escaped raw bytes) :
    ¬ BadEscape raw := by
  induction h with
  | nil =>
    rintro ⟨before, behind, hraw, -⟩
    exact absurd hraw (by simp)
  | plain hpercent hplus h ih =>
    rintro ⟨before, behind, hraw, hbad⟩
    cases before with
    | nil => exact hpercent (List.cons.inj hraw).1
    | cons c before => exact ih ⟨before, behind, (List.cons.inj hraw).2, hbad⟩
  | plus h ih =>
    rintro ⟨before, behind, hraw, hbad⟩
    cases before with
    | nil => exact absurd (List.cons.inj hraw).1 (by decide)
    | cons c before => exact ih ⟨before, behind, (List.cons.inj hraw).2, hbad⟩
  | hex hhigh hlow h ih =>
    rintro ⟨before, behind, hraw, hbad⟩
    -- the digits are no percent signs
    cases before with
    | nil =>
      rcases hbad _ _ _ (List.cons.inj hraw).2.symm with hnone | hnone
      · exact absurd (hhigh.symm.trans hnone) (by simp)
      · exact absurd (hlow.symm.trans hnone) (by simp)
    | cons _ before =>
      cases before with
      | nil =>
        rw [(List.cons.inj (List.cons.inj hraw).2).1] at hhigh
        exact absurd (hhigh.symm.trans (show hexValue 37 = none from rfl)) (by simp)
      | cons _ before =>
        cases before with
        | nil =>
          rw [(List.cons.inj (List.cons.inj (List.cons.inj hraw).2).2).1] at hlow
          exact absurd (hlow.symm.trans (show hexValue 37 = none from rfl)) (by simp)
        | cons _ before =>
          exact ih ⟨before, behind, (List.cons.inj (List.cons.inj (List.cons.inj hraw).2).2).2,
            hbad⟩

theorem BadEscape.cons {raw : List UInt8} (c : UInt8) (h : BadEscape raw) :
    BadEscape (c :: raw) := by
  obtain ⟨before, behind, rfl, hbad⟩ := h
  exact ⟨c :: before, behind, rfl, hbad⟩

/-- The encodings are those without control bytes. -/
theorem encodes_iff {raw text : List UInt8} :
    Encodes raw text ↔ Escaped raw text ∧ ∀ c ∈ text, isControl c = false := by
  constructor
  · intro h
    induction h with
    | nil => exact ⟨.nil, by simp⟩
    | plain hpercent hplus hc h ih =>
      exact ⟨.plain hpercent hplus ih.1, List.forall_mem_cons.2 ⟨hc, ih.2⟩⟩
    | plus h ih => exact ⟨.plus ih.1, List.forall_mem_cons.2 ⟨by decide, ih.2⟩⟩
    | hex hhigh hlow hc h ih =>
      exact ⟨.hex hhigh hlow ih.1, List.forall_mem_cons.2 ⟨hc, ih.2⟩⟩
  · rintro ⟨h, hcontrol⟩
    induction h with
    | nil => exact .nil
    | plain hpercent hplus h ih =>
      obtain ⟨hc, htext⟩ := List.forall_mem_cons.1 hcontrol
      exact .plain hpercent hplus hc (ih htext)
    | plus h ih => exact .plus (ih (List.forall_mem_cons.1 hcontrol).2)
    | hex hhigh hlow h ih =>
      obtain ⟨hc, htext⟩ := List.forall_mem_cons.1 hcontrol
      exact .hex hhigh hlow hc (ih htext)

/-- A text without a bad escape stands for bytes. -/
theorem exists_escaped {raw : List UInt8} (h : ¬ BadEscape raw) : ∃ bytes, Escaped raw bytes := by
  induction hlength : raw.length using Nat.strong_induction_on generalizing raw with
  | _ n ih =>
    subst hlength
    cases raw with
    | nil => exact ⟨[], .nil⟩
    | cons c raw =>
      by_cases hpercent : c = 37
      · subst hpercent
        -- both digits are there, or this escape is bad
        by_cases hdigits : ∀ high low rest, raw = high :: low :: rest →
            hexValue high = none ∨ hexValue low = none
        · exact absurd ⟨[], raw, rfl, hdigits⟩ h
        · push Not at hdigits
          obtain ⟨high, low, rest, rfl, hhigh, hlow⟩ := hdigits
          obtain ⟨a, ha⟩ := Option.ne_none_iff_exists'.1 hhigh
          obtain ⟨b, hb⟩ := Option.ne_none_iff_exists'.1 hlow
          have hrest : ¬ BadEscape rest := fun hbad => h (((hbad.cons low).cons high).cons 37)
          have hlt : rest.length < (37 :: high :: low :: rest).length := by
            simp only [List.length_cons]
            omega
          obtain ⟨bytes, hbytes⟩ := ih rest.length hlt hrest rfl
          exact ⟨_, .hex ha hb hbytes⟩
      · have hraw : ¬ BadEscape raw := fun hbad => h (hbad.cons c)
        obtain ⟨bytes, hbytes⟩ := ih raw.length (by simp) hraw rfl
        by_cases hplus : c = 43
        · subst hplus
          exact ⟨_, .plus hbytes⟩
        · exact ⟨_, .plain hpercent hplus hbytes⟩

theorem Escaped.unique {raw bytes bytes' : List UInt8} (h : Escaped raw bytes)
    (h' : Escaped raw bytes') : bytes = bytes' := by
  induction h generalizing bytes' with
  | nil =>
    cases h' with
    | nil => rfl
  | plain hpercent hplus h ih =>
    cases h' with
    | plain _ _ h' => rw [ih h']
    | plus h' => exact absurd rfl hplus
    | hex _ _ h' => exact absurd rfl hpercent
  | plus h ih =>
    cases h' with
    | plain _ hplus h' => exact absurd rfl hplus
    | plus h' => rw [ih h']
  | hex hhigh hlow h ih =>
    cases h' with
    | plain hpercent _ h' => exact absurd rfl hpercent
    | hex hhigh' hlow' h' =>
      rw [ih h', Option.some.inj (hhigh.symm.trans hhigh'), Option.some.inj (hlow.symm.trans hlow')]

/-- The decoder fails on an empty text, on a bad escape, and on a control byte. -/
theorem urlDecodeExact_eq_none_iff {raw : List UInt8} :
    urlDecodeExact raw = none ↔ raw = [] ∨ BadEscape raw ∨
      ∃ bytes, Escaped raw bytes ∧ ∃ c ∈ bytes, isControl c = true := by
  rw [Option.eq_none_iff_forall_ne_some]
  constructor
  · intro h
    by_cases hraw : raw = []
    · exact .inl hraw
    by_cases hbad : BadEscape raw
    · exact .inr (.inl hbad)
    obtain ⟨bytes, hbytes⟩ := exists_escaped hbad
    refine .inr (.inr ⟨bytes, hbytes, ?_⟩)
    by_contra hplain
    push Not at hplain
    have hencodes : Encodes raw bytes :=
      encodes_iff.2 ⟨hbytes, fun c hc => Bool.eq_false_iff.2 (hplain c hc)⟩
    exact h bytes
      (urlDecodeExact_eq_some_iff.2 ⟨hencodes, fun hnil => hraw (hencodes.nil_iff.2 hnil)⟩)
  · intro h text htext
    obtain ⟨hencodes, hne⟩ := urlDecodeExact_eq_some_iff.1 htext
    obtain ⟨hescaped, hplain⟩ := encodes_iff.1 hencodes
    rcases h with rfl | hbad | ⟨bytes, hbytes, c, hc, hcontrol⟩
    · exact hne (hencodes.nil_iff.1 rfl)
    · exact hescaped.not_badEscape hbad
    · rw [hbytes.unique hescaped] at hc
      exact absurd hcontrol (by rw [hplain c hc]; decide)

/-- A text is decoded from its escapes. -/
theorem urlDecodeExact_encode {text : List UInt8} (hne : text ≠ [])
    (hplain : ∀ c ∈ text, isControl c = false) (hlength : text.length ≤ (sizeMax - 1) / 3) :
    (urlEncode text).bind urlDecodeExact = some text := by
  rw [urlEncode, if_neg (Nat.not_lt.2 hlength), Option.bind_some]
  exact urlDecodeExact_eq_some_iff.2 ⟨encodes_escapes hplain, hne⟩

/-- What the decoder gives is what its loop has written. -/
theorem decodeWrites_of_base64urlDecode {input data : List UInt8}
    (h : base64urlDecode input = some data) : decodeWrites [] input = (true, data) := by
  unfold base64urlDecode at h
  split at h
  · exact absurd h (by simp)
  · have heq := decodeWrites_eq [] input
    rw [h] at heq
    split at heq
    · next htrue => exact Prod.ext htrue (Option.some.inj heq).symm
    · exact absurd heq (by simp)

/-- **The codecs are inverse and exact**: what is encoded is decoded again; the decoder of digits
accepts just the texts over the alphabet of the right lengths, and writes no more than is allocated;
the sizes of the encoder do not wrap around; and the decoder of escapes fails just on an empty text,
on a bad escape and on a control byte. -/
theorem codecs_exact :
    (∀ data, data ≠ [] → (encodeTriples data).length ≤ valueMax →
      (base64urlEncode data).bind base64urlDecode = some data) ∧
    (∀ input, (base64urlDecode input).isSome ↔ input ≠ [] ∧ (∀ c ∈ input, c ∈ table) ∧
      input.length ≤ valueMax ∧ input.length % 4 ≠ 1) ∧
    (∀ input, (decodeWrites [] input).2.length + 1 ≤ decodedLen input.length + 1 ∧
      ∀ data, base64urlDecode input = some data → decodeWrites [] input = (true, data)) ∧
    (∀ data, Encodable data.length → outputLen data.length + 1 < 2 ^ 64 ∧
      (encodeTriples data).length + 1 ≤ outputLen data.length + 1) ∧
    (∀ text, text ≠ [] → (∀ c ∈ text, isControl c = false) → text.length ≤ (sizeMax - 1) / 3 →
      (urlEncode text).bind urlDecodeExact = some text) ∧
    ∀ raw, urlDecodeExact raw = none ↔ raw = [] ∨ BadEscape raw ∨
      ∃ bytes, Escaped raw bytes ∧ ∃ c ∈ bytes, isControl c = true := by
  refine ⟨fun _ => base64urlDecode_encode, base64urlDecode_iff,
    fun input => ⟨?_, fun _ => decodeWrites_of_base64urlDecode⟩,
    fun data h => ⟨(outputLen_eq h).2, length_encodeTriples_lt h⟩,
    fun _ => urlDecodeExact_encode, fun _ => urlDecodeExact_eq_none_iff⟩
  have hle := length_decodeWrites_le [] input
  rw [List.length_nil, Nat.zero_add] at hle
  exact Nat.succ_le_succ hle

/-- Two bytes and a slash go through the codecs. -/
theorem codecs_exact_short :
    (base64urlEncode [255, 254]).bind base64urlDecode = some [255, 254] ∧
      (urlEncode [47]).bind urlDecodeExact = some [47] :=
  ⟨codecs_exact.1 [255, 254] (by decide +kernel) (by decide +kernel),
    codecs_exact.2.2.2.2.1 [47] (by decide +kernel) (by decide +kernel) (by decide +kernel)⟩

end EchoAi.OauthCodec
