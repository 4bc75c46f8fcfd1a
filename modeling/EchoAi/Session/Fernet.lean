import EchoAi.Bytes
import Mathlib.Data.List.GetD
import Mathlib.Tactic.Common

/-!
# Fernet tokens

A token is a version, a timestamp, an initial vector, a ciphertext and a tag over all of these.

* `FernetPrimitives`: the cipher and the hash, with what is known of them.
* `buildFernetToken`, `decryptFernetToken`: the two sides of the layout, on a little-endian host.
* `sealField`: the texts that reach the encryption, with the limits that their callers check.
* `fernet_iff`: when a text comes back, only authentic tokens are accepted and every size fits.

Sizes are `int`; `Stop.overflow` stands for a size that is none.
-/

namespace EchoAi

namespace Fernet

/-- What ends an operation early. -/
inductive Stop where
  | refused
  | overflow
  deriving DecidableEq, Repr

/-- The greatest `int`. -/
def intMax : Nat := 2 ^ 31 - 1

/-- A size as an `int`. -/
def intSize (n : Nat) : Except Stop Nat := if n ≤ intMax then .ok n else .error .overflow

/-- AES-128-CBC with padding, and HMAC-SHA256. -/
structure FernetPrimitives where
  cbcEncrypt : (key iv plaintext : List UInt8) → List UInt8
  cbcDecrypt : (key iv ciphertext : List UInt8) → Option (List UInt8)
  hmac : (key message : List UInt8) → List UInt8
  cbcDecrypt_cbcEncrypt : ∀ key iv p, cbcDecrypt key iv (cbcEncrypt key iv p) = some p
  length_cbcEncrypt : ∀ key iv p, (cbcEncrypt key iv p).length = (p.length / 16 + 1) * 16
  length_hmac : ∀ key bs, (hmac key bs).length = 32

/-- A key of 32 bytes: the first half signs and the second one encrypts. -/
structure FernetKey where
  bytes : List UInt8
  length_eq : bytes.length = 32

def FernetKey.hmacKey (key : FernetKey) : List UInt8 := key.bytes.take 16

def FernetKey.aesKey (key : FernetKey) : List UInt8 := key.bytes.drop 16

theorem intSize_bind {α : Type} (n : Nat) (f : Nat → Except Stop α) :
    (intSize n >>= f) = if n ≤ intMax then f n else .error .overflow := by
  unfold intSize
  split <;> rfl

/-- What is there is not refused. -/
theorem ite_refused_eq_ok {α : Type} {P : Prop} [Decidable P] {x : Except Stop α} {a : α} :
    (if P then .error .refused else x) = .ok a ↔ ¬P ∧ x = .ok a := by
  rw [ite_eq_iff]
  exact or_iff_right fun h => absurd h.2 (by simp)

/-! ## The timestamp -/

/-- A number as the memory of the host holds it. -/
def leBytes (w n : Nat) : List UInt8 := (beBytes w n).reverse

/-- The number that the memory of the host stands for. -/
def leValue (bs : List UInt8) : Nat := beValue bs.reverse

/-- `htonl`, and `ntohl`. -/
def htonl (n : Nat) : Nat := leValue (beBytes 4 n)

/-- The timestamp in `build_fernet_token`, which is 1 where it would be 0. -/
def timestampBe (t : Nat) : Nat :=
  let be := htonl (t >>> 32) ||| htonl t <<< 32
  if be = 0 then 1 else be

/-- The timestamp that `decrypt_fernet_token` reads. -/
def timestampRead (be : Nat) : Nat := htonl (be >>> 32) ||| htonl be <<< 32

/-- A 64-bit number as `int64_t`. -/
def asInt64 (n : Nat) : Int := if n < 2 ^ 63 then n else n - 2 ^ 64

/-! ## Tokens -/

variable (F : FernetPrimitives) (key : FernetKey)

/-- The bytes of a token in front of the tag. -/
def signedPart (iv : List UInt8) (now : Nat) (plaintext : List UInt8) : List UInt8 :=
  0x80 :: leBytes 8 (timestampBe now) ++ iv ++ F.cbcEncrypt key.aesKey iv plaintext

/-- `build_fernet_token` with a random initial vector. -/
def buildFernetToken (iv : List UInt8) (now : Nat) (plaintext : List UInt8) :
    Except Stop (List UInt8) := do
  let _ ← intSize (plaintext.length + 16)
  let ciphertext := F.cbcEncrypt key.aesKey iv plaintext
  let _ ← intSize (1 + 8 + 16 + ciphertext.length + 32)
  let bytes := signedPart F key iv now plaintext
  return bytes ++ F.hmac key.hmacKey bytes

/-- The timestamp of a token. -/
def timestamp (token : List UInt8) : Nat := timestampRead (leValue ((token.drop 1).take 8))

/-- The length of the ciphertext of a token. -/
def ciphertextLen (token : List UInt8) : Nat := token.length - 25 - 32

/-- The plaintext of a token. -/
def opened (token : List UInt8) : Option (List UInt8) :=
  F.cbcDecrypt key.aesKey ((token.drop 9).take 16) ((token.drop 25).take (ciphertextLen token))

/-- Whether the tag of a token is the one over all bytes in front of it. -/
def Tagged (token : List UInt8) : Prop :=
  F.hmac key.hmacKey (token.take (25 + ciphertextLen token)) =
    token.drop (25 + ciphertextLen token)

instance (token : List UInt8) : Decidable (Tagged F key token) :=
  inferInstanceAs (Decidable (_ = _))

/-- `decrypt_fernet_token`. -/
def decryptFernetToken (now : Nat) (token : List UInt8) : Except Stop (List UInt8) :=
  if token.length < 1 + 8 + 16 + 1 + 32 then .error .refused
  else if token.head? ≠ some 0x80 then .error .refused
  else if timestamp token ≠ 0 ∧ (now : Int) + 60 < asInt64 (timestamp token) then .error .refused
  else if ¬Tagged F key token then .error .refused
  else do
    let _ ← intSize (ciphertextLen token + 16)
    match opened F key token with
    | none => .error .refused
    | some plaintext => .ok plaintext

/-- `encryption_encrypt`. -/
def encryptionEncrypt (iv : List UInt8) (now : Nat) (plaintext : List UInt8) :
    Except Stop (List UInt8) :=
  if plaintext.length = 0 then .error .refused else buildFernetToken F key iv now plaintext

/-- `encryption_decrypt`. -/
def encryptionDecrypt (now : Nat) (token : List UInt8) : Except Stop (List UInt8) :=
  if token.length = 0 then .error .refused else decryptFernetToken F key now token

/-- The texts that are encrypted. -/
inductive Field where
  | title
  | messages
  | metadata
  | events
  /-- the credentials of `session_manager_save_provider_oauth` -/
  | providerOauth
  deriving DecidableEq, Repr

/-- The longest text that the caller lets through; there is no limit for a title. -/
def Field.limit : Field → Option Nat
  | .title => none
  | .messages => some intMax
  | .metadata => some intMax
  | .events => some intMax
  | .providerOauth => some (intMax - 128)

/-- Whether the caller lets a text of this length through. -/
def Field.Admits (field : Field) (length : Nat) : Prop := ∀ limit ∈ field.limit, length ≤ limit

instance (field : Field) (length : Nat) : Decidable (field.Admits length) :=
  inferInstanceAs (Decidable (∀ limit ∈ field.limit, length ≤ limit))

/-- A text on its way to the encryption. -/
def sealField (field : Field) (iv : List UInt8) (now : Nat) (text : List UInt8) :
    Except Stop (List UInt8) :=
  if field.Admits text.length then do
    let _ ← intSize text.length
    encryptionEncrypt F key iv now text
  else .error .refused

/-! ## What is written is read -/

theorem leValue_lt (bs : List UInt8) : leValue bs < 256 ^ bs.length := by
  have hlt := beValue_lt bs.reverse
  rwa [List.length_reverse] at hlt

theorem leValue_leBytes {w n : Nat} (hn : n < 256 ^ w) : leValue (leBytes w n) = n := by
  rw [leValue, leBytes, List.reverse_reverse, beValue_beBytes hn]

theorem htonl_lt (n : Nat) : htonl n < 2 ^ 32 := by
  have hlt := leValue_lt (beBytes 4 n)
  rwa [length_beBytes, show 256 ^ 4 = 2 ^ 32 from rfl] at hlt

theorem htonl_mod (n : Nat) : htonl (n % 2 ^ 32) = htonl n := by
  rw [htonl, show 2 ^ 32 = 256 ^ 4 from rfl, beBytes_mod]
  rfl

theorem htonl_htonl {n : Nat} (hn : n < 2 ^ 32) : htonl (htonl n) = n := by
  have hbytes : beBytes 4 (htonl n) = (beBytes 4 n).reverse := by
    have hback := beBytes_beValue (beBytes 4 n).reverse
    rwa [List.length_reverse, length_beBytes] at hback
  rw [htonl, hbytes, leValue, List.reverse_reverse, beValue_beBytes hn]

/-- Four bytes of memory in network order. -/
theorem htonl_leValue {bs : List UInt8} (h : bs.length = 4) : htonl (leValue bs) = beValue bs := by
  have hback := beBytes_beValue bs.reverse
  rw [List.length_reverse, h] at hback
  rw [htonl, show leValue bs = beValue bs.reverse from rfl, hback, leValue, List.reverse_reverse]

/-- Two halves side by side. -/
theorem or_shiftLeft {a b : Nat} (ha : a < 2 ^ 32) : a ||| b <<< 32 = b * 2 ^ 32 + a := by
  rw [Nat.or_comm, ← Nat.shiftLeft_add_eq_or_of_lt ha, Nat.shiftLeft_eq]

/-- **The timestamp.**  It comes back, but for 0, which the host's byte order makes 2 ^ 56. -/
theorem timestampRead_timestampBe {t : Nat} (ht : t < 2 ^ 64) :
    timestampRead (timestampBe t) = if t = 0 then 2 ^ 56 else t := by
  by_cases hzero : t = 0
  · subst hzero
    decide +kernel
  rw [if_neg hzero]
  have hsplit : t >>> 32 * 2 ^ 32 + t % 2 ^ 32 = t := by
    rw [Nat.shiftRight_eq_div_pow]
    exact Nat.div_add_mod' t (2 ^ 32)
  have hhigh : t >>> 32 < 2 ^ 32 := by
    rw [Nat.shiftRight_eq_div_pow]
    exact Nat.div_lt_of_lt_mul ht
  have hlow : t % 2 ^ 32 < 2 ^ 32 := Nat.mod_lt _ (by decide)
  have hhtonlLow : htonl (htonl t) = t % 2 ^ 32 := by rw [← htonl_mod t, htonl_htonl hlow]
  have hbe : htonl (t >>> 32) ||| htonl t <<< 32 = htonl t * 2 ^ 32 + htonl (t >>> 32) :=
    or_shiftLeft (htonl_lt _)
  have hsome : htonl t * 2 ^ 32 + htonl (t >>> 32) ≠ 0 := by
    intro hnone
    have hhtonlZero : htonl 0 = 0 := by decide +kernel
    have hlowZero : htonl t = 0 := by omega
    have hhighZero : htonl (t >>> 32) = 0 := by omega
    rw [hlowZero, hhtonlZero] at hhtonlLow
    have hhighBack := htonl_htonl hhigh
    rw [hhighZero, hhtonlZero] at hhighBack
    omega
  have hread : timestampBe t = htonl t * 2 ^ 32 + htonl (t >>> 32) := by
    rw [timestampBe, hbe]
    exact if_neg hsome
  have hshift : (htonl t * 2 ^ 32 + htonl (t >>> 32)) >>> 32 = htonl t := by
    rw [Nat.shiftRight_eq_div_pow, Nat.add_comm, Nat.add_mul_div_right _ _ (by decide),
      Nat.div_eq_of_lt (htonl_lt _), Nat.zero_add]
  have hrest : htonl (htonl t * 2 ^ 32 + htonl (t >>> 32)) = t >>> 32 := by
    rw [← htonl_mod, Nat.add_comm, Nat.add_mul_mod_self_right, htonl_mod, htonl_htonl hhigh]
  calc timestampRead (timestampBe t) = t % 2 ^ 32 ||| t >>> 32 <<< 32 := by
        rw [timestampRead, hread, hshift, hrest, hhtonlLow]
    _ = t >>> 32 * 2 ^ 32 + t % 2 ^ 32 := or_shiftLeft hlow
    _ = t := hsplit

theorem timestampBe_lt (t : Nat) : timestampBe t < 2 ^ 64 := by
  have hlow := htonl_lt (t >>> 32)
  have hhigh := htonl_lt t
  rw [timestampBe, or_shiftLeft hlow]
  split <;> omega

/-! ## A token that was built -/

section Built

variable {F : FernetPrimitives} {key : FernetKey} {iv p : List UInt8} {t : Nat}

/-- The bytes of a token in front of its tag. -/
theorem length_signedPart (hiv : iv.length = 16) :
    (signedPart F key iv t p).length = 25 + (p.length / 16 + 1) * 16 := by
  rw [signedPart, List.length_append, List.length_append, List.length_cons, leBytes,
    List.length_reverse, length_beBytes, hiv, F.length_cbcEncrypt]

/-- A token that was built. -/
def builtToken (F : FernetPrimitives) (key : FernetKey) (iv : List UInt8) (t : Nat)
    (p : List UInt8) : List UInt8 :=
  signedPart F key iv t p ++ F.hmac key.hmacKey (signedPart F key iv t p)

theorem length_builtToken (hiv : iv.length = 16) :
    (builtToken F key iv t p).length = 57 + (p.length / 16 + 1) * 16 := by
  rw [builtToken, List.length_append, length_signedPart hiv, F.length_hmac]
  omega

theorem ciphertextLen_builtToken (hiv : iv.length = 16) :
    ciphertextLen (builtToken F key iv t p) = (p.length / 16 + 1) * 16 := by
  rw [ciphertextLen, length_builtToken hiv]
  omega

/-- The parts of a token, one behind the other. -/
theorem builtToken_eq : builtToken F key iv t p =
    [0x80] ++ (leBytes 8 (timestampBe t) ++ (iv ++ (F.cbcEncrypt key.aesKey iv p ++
      F.hmac key.hmacKey (signedPart F key iv t p)))) := by
  rw [builtToken]
  simp only [signedPart, List.append_assoc, List.cons_append, List.nil_append]

theorem length_stamp (t : Nat) : (leBytes 8 (timestampBe t)).length = 8 := by
  rw [leBytes, List.length_reverse, length_beBytes]

theorem timestamp_builtToken (ht : t < 2 ^ 64) :
    timestamp (builtToken F key iv t p) = if t = 0 then 2 ^ 56 else t := by
  have hstamp : ((builtToken F key iv t p).drop 1).take 8 = leBytes 8 (timestampBe t) := by
    have hversion : ([0x80] : List UInt8).length = 1 := rfl
    rw [builtToken_eq, List.drop_left' hversion, List.take_left' (length_stamp t)]
  rw [timestamp, hstamp, leValue_leBytes (timestampBe_lt t), timestampRead_timestampBe ht]

theorem tagged_builtToken (hiv : iv.length = 16) : Tagged F key (builtToken F key iv t p) := by
  have hlength : (signedPart F key iv t p).length = 25 + (p.length / 16 + 1) * 16 :=
    length_signedPart hiv
  rw [Tagged, ciphertextLen_builtToken hiv, builtToken, List.take_left' hlength,
    List.drop_left' hlength]

theorem opened_builtToken (hiv : iv.length = 16) :
    opened F key (builtToken F key iv t p) = some p := by
  have hhead : ([0x80] ++ leBytes 8 (timestampBe t)).length = 9 := by
    rw [List.length_append, length_stamp]
    rfl
  have hvector : ((builtToken F key iv t p).drop 9).take 16 = iv := by
    rw [builtToken_eq, ← List.append_assoc, List.drop_left' hhead, List.take_left' hiv]
  have hfront : ([0x80] ++ leBytes 8 (timestampBe t) ++ iv).length = 25 := by
    rw [List.length_append, hhead, hiv]
  have hcipher : ((builtToken F key iv t p).drop 25).take ((p.length / 16 + 1) * 16) =
      F.cbcEncrypt key.aesKey iv p := by
    rw [builtToken_eq, ← List.append_assoc, ← List.append_assoc, List.drop_left' hfront,
      List.take_left' (F.length_cbcEncrypt _ _ _)]
  rw [opened, ciphertextLen_builtToken hiv, hvector, hcipher, F.cbcDecrypt_cbcEncrypt]

/-- Whether the sizes of a text fit: the token is the largest of them. -/
def Fits (length : Nat) : Prop := 57 + (length / 16 + 1) * 16 ≤ intMax

instance (length : Nat) : Decidable (Fits length) := inferInstanceAs (Decidable (_ ≤ _))

/-- **Building.**  A token is built when every size fits, and else a size overflows. -/
theorem sealField_eq {field : Field} (hp : p ≠ [])
    (hadmits : field.Admits p.length) :
    sealField F key field iv t p =
      if Fits p.length then .ok (builtToken F key iv t p) else .error .overflow := by
  have hsome : p.length ≠ 0 := fun hnone => hp (List.length_eq_zero_iff.mp hnone)
  have hsize : 1 + 8 + 16 + (F.cbcEncrypt key.aesKey iv p).length + 32 =
      57 + (p.length / 16 + 1) * 16 := by
    rw [F.length_cbcEncrypt]
    omega
  rw [sealField, if_pos hadmits, intSize_bind, encryptionEncrypt, if_neg hsome, buildFernetToken]
  simp only [intSize_bind, hsize]
  by_cases hfits : Fits p.length
  · have htoken : 57 + (p.length / 16 + 1) * 16 ≤ intMax := hfits
    have htext : p.length ≤ intMax := by omega
    have hroom : p.length + 16 ≤ intMax := by omega
    rw [if_pos htext, if_pos hroom, if_pos htoken, if_pos hfits]
    rfl
  · have htoken : ¬57 + (p.length / 16 + 1) * 16 ≤ intMax := hfits
    rw [if_neg htoken, if_neg hfits]
    split
    · split <;> rfl
    · rfl

/-- **Reading.**  The checks of a token, in one place. -/
theorem encryptionDecrypt_eq_ok_iff {now : Nat} {token : List UInt8}
    (hsize : token.length ≤ intMax) :
    encryptionDecrypt F key now token = .ok p ↔
      58 ≤ token.length ∧ token.head? = some 0x80 ∧
        (timestamp token = 0 ∨ asInt64 (timestamp token) ≤ now + 60) ∧ Tagged F key token ∧
          opened F key token = some p := by
  have hroom : ciphertextLen token + 16 ≤ intMax := by
    have hsmall : 16 ≤ intMax := by decide
    show token.length - 25 - 32 + 16 ≤ intMax
    omega
  have hlong : ¬token.length = 0 ∧ ¬token.length < 1 + 8 + 16 + 1 + 32 ↔ 58 ≤ token.length := by
    omega
  have hfresh : ¬(timestamp token ≠ 0 ∧ (now : Int) + 60 < asInt64 (timestamp token)) ↔
      timestamp token = 0 ∨ asInt64 (timestamp token) ≤ now + 60 := by
    rw [not_and_or, not_not, not_lt]
  have hopened : (match opened F key token with
      | none => .error .refused
      | some plaintext => .ok plaintext : Except Stop (List UInt8)) = .ok p ↔
        opened F key token = some p := by
    cases opened F key token with
    | none => simp
    | some q => simp
  unfold encryptionDecrypt decryptFernetToken
  simp only [intSize_bind, if_pos hroom, ite_refused_eq_ok]
  rw [hfresh, hopened, not_not, not_not, ← and_assoc, hlong]

end Built

/-! ## Round trips, authentic tokens and sizes -/

/-- The timestamp in the layout: eight bytes in network order. -/
def stamp (token : List UInt8) : Nat := beValue ((token.drop 1).take 8)

/-- What is sealed at one time is opened at another one. -/
def RoundTrips (iv : List UInt8) (field : Field) (t0 t1 : Nat) (p : List UInt8) : Prop :=
  ∃ token, sealField F key field iv t0 p = .ok token ∧ encryptionDecrypt F key t1 token = .ok p

/-- A token that is accepted has the version, a tag over every byte in front of it, and a timestamp
that is 0 or not more than a minute ahead. -/
def AcceptsAuthentic (now : Nat) (token : List UInt8) : Prop :=
  ∀ p, encryptionDecrypt F key now token = .ok p →
    token.head? = some 0x80 ∧
      F.hmac key.hmacKey (token.take (token.length - 32)) = token.drop (token.length - 32) ∧
        (stamp token = 0 ∨ stamp token ≤ now + 60)

/-- No size overflows on the way. -/
def SizesFit (iv : List UInt8) (field : Field) (t : Nat) (p : List UInt8) : Prop :=
  sealField F key field iv t p ≠ .error .overflow

/-- A token of the right form that was signed and encrypted with the key. -/
def Authentic (token : List UInt8) : Prop :=
  58 ≤ token.length ∧ token.head? = some 0x80 ∧ Tagged F key token ∧
    (opened F key token).isSome = true

instance (token : List UInt8) : Decidable (Authentic F key token) :=
  inferInstanceAs (Decidable (_ ∧ _ ∧ _ ∧ _))

section Claims

variable {F : FernetPrimitives} {key : FernetKey} {iv p token : List UInt8} {field : Field}
  {t0 t1 now : Nat}

/-- The swapped halves are the bytes in network order. -/
theorem timestamp_eq_stamp (hlong : 58 ≤ token.length) : timestamp token = stamp token := by
  have hbytes : ((token.drop 1).take 8).length = 8 := by
    rw [List.length_take, List.length_drop]
    omega
  rw [timestamp, stamp]
  generalize (token.drop 1).take 8 = bytes at hbytes ⊢
  obtain ⟨high, low, rfl, hhigh, hlow⟩ : ∃ high low : List UInt8, bytes = high ++ low ∧
      high.length = 4 ∧ low.length = 4 := by
    refine ⟨bytes.take 4, bytes.drop 4, (List.take_append_drop 4 bytes).symm, ?_, ?_⟩
    · rw [List.length_take, hbytes]
      rfl
    · rw [List.length_drop, hbytes]
  have hvalue : leValue (high ++ low) = leValue low * 2 ^ 32 + leValue high := by
    rw [leValue, List.reverse_append, beValue_append, List.length_reverse, hhigh]
    rfl
  have hlt : leValue high < 2 ^ 32 := by
    have hbound := leValue_lt high
    rwa [hhigh, show 256 ^ 4 = 2 ^ 32 from rfl] at hbound
  have hbe : beValue low < 2 ^ 32 := by
    have hbound := beValue_lt low
    rwa [hlow, show 256 ^ 4 = 2 ^ 32 from rfl] at hbound
  have hshift : (leValue low * 2 ^ 32 + leValue high) >>> 32 = leValue low := by
    rw [Nat.shiftRight_eq_div_pow, Nat.add_comm, Nat.add_mul_div_right _ _ (by decide),
      Nat.div_eq_of_lt hlt, Nat.zero_add]
  have hrest : htonl (leValue low * 2 ^ 32 + leValue high) = htonl (leValue high) := by
    rw [← htonl_mod, Nat.add_comm, Nat.add_mul_mod_self_right, htonl_mod]
  rw [timestampRead, hvalue, hshift, hrest, htonl_leValue hlow, htonl_leValue hhigh,
    or_shiftLeft hbe, beValue_append, hlow, show 256 ^ 4 = 2 ^ 32 from rfl]

theorem stamp_lt (token : List UInt8) : stamp token < 2 ^ 64 := by
  have hlt := beValue_lt ((token.drop 1).take 8)
  have hlength : ((token.drop 1).take 8).length ≤ 8 := List.length_take_le _ _
  calc stamp token < 256 ^ ((token.drop 1).take 8).length := hlt
    _ ≤ 256 ^ 8 := Nat.pow_le_pow_right (by decide) hlength
    _ = 2 ^ 64 := rfl

theorem sizesFit_iff (hp : p ≠ []) (hadmits : field.Admits p.length) :
    SizesFit F key iv field t0 p ↔ Fits p.length := by
  rw [SizesFit, sealField_eq hp hadmits]
  by_cases hfits : Fits p.length
  · rw [if_pos hfits]
    exact iff_of_true (by simp) hfits
  · rw [if_neg hfits]
    exact iff_of_false (by simp) hfits

theorem roundTrips_iff (hiv : iv.length = 16) (hp : p ≠ []) (hadmits : field.Admits p.length)
    (ht0 : t0 < 2 ^ 62) (hback : t0 ≤ t1 + 60) :
    RoundTrips F key iv field t0 t1 p ↔ Fits p.length ∧ (t0 ≠ 0 ∨ 2 ^ 56 ≤ t1 + 60) := by
  rw [RoundTrips, sealField_eq hp hadmits]
  by_cases hfits : Fits p.length
  · have hlength : (builtToken F key iv t0 p).length = 57 + (p.length / 16 + 1) * 16 :=
      length_builtToken hiv
    have hsize : (builtToken F key iv t0 p).length ≤ intMax := by
      rw [hlength]
      exact hfits
    have hlong : 58 ≤ (builtToken F key iv t0 p).length := by omega
    have hsmall : t0 < 2 ^ 64 := by omega
    have hclock : (timestamp (builtToken F key iv t0 p) = 0 ∨
        asInt64 (timestamp (builtToken F key iv t0 p)) ≤ t1 + 60) ↔ t0 ≠ 0 ∨ 2 ^ 56 ≤ t1 + 60 := by
      rw [timestamp_builtToken hsmall, asInt64]
      by_cases hzero : t0 = 0
      · rw [if_pos hzero]
        omega
      · rw [if_neg hzero]
        omega
    have hread := @encryptionDecrypt_eq_ok_iff F key p t1 _ hsize
    rw [hclock] at hread
    rw [if_pos hfits]
    constructor
    · rintro ⟨token, hbuilt, hopened⟩
      obtain rfl := Except.ok.inj hbuilt
      exact ⟨hfits, (hread.mp hopened).2.2.1⟩
    · rintro ⟨-, hgood⟩
      exact ⟨_, rfl, hread.mpr ⟨hlong, rfl, hgood, tagged_builtToken hiv, opened_builtToken hiv⟩⟩
  · rw [if_neg hfits]
    exact iff_of_false (by simp) fun h => hfits h.1

theorem acceptsAuthentic_iff (hnow : now < 2 ^ 62) (hsize : token.length ≤ intMax) :
    AcceptsAuthentic F key now token ↔ (Authentic F key token → stamp token < 2 ^ 63) := by
  constructor
  · rintro haccepts ⟨hlong, hversion, htagged, hsome⟩
    obtain ⟨p, hopened⟩ := Option.isSome_iff_exists.mp hsome
    by_contra hlate
    have hstamp := timestamp_eq_stamp hlong
    have hpast : asInt64 (timestamp token) ≤ now + 60 := by
      rw [hstamp, asInt64, if_neg hlate]
      have hlt := stamp_lt token
      omega
    have hok := (encryptionDecrypt_eq_ok_iff hsize).mpr
      ⟨hlong, hversion, Or.inr hpast, htagged, hopened⟩
    have hfresh := (haccepts p hok).2.2
    omega
  · intro hearly p hok
    obtain ⟨hlong, hversion, hfresh, htagged, hopened⟩ := (encryptionDecrypt_eq_ok_iff hsize).mp hok
    have hstamp := hearly ⟨hlong, hversion, htagged, Option.isSome_iff_exists.mpr ⟨p, hopened⟩⟩
    have hend : 25 + ciphertextLen token = token.length - 32 := by
      show 25 + (token.length - 25 - 32) = token.length - 32
      omega
    refine ⟨hversion, ?_, ?_⟩
    · rw [← hend]
      exact htagged
    · rw [timestamp_eq_stamp hlong, asInt64, if_pos hstamp] at hfresh
      omega

/-- **Fernet tokens.**  A text comes back, only authentic tokens are accepted and every size fits,
exactly when the token of the text fits an `int`, the clock does not stand at 0, and no authentic token
has a timestamp from 2 ^ 63 on. -/
theorem fernet_iff (hiv : iv.length = 16) (hp : p ≠ []) (hadmits : field.Admits p.length)
    (ht0 : t0 < 2 ^ 62) (hback : t0 ≤ t1 + 60) (hnow : now < 2 ^ 62)
    (hsize : token.length ≤ intMax) :
    RoundTrips F key iv field t0 t1 p ∧ AcceptsAuthentic F key now token ∧
        SizesFit F key iv field t0 p ↔
      Fits p.length ∧ (t0 ≠ 0 ∨ 2 ^ 56 ≤ t1 + 60) ∧
        (Authentic F key token → stamp token < 2 ^ 63) := by
  rw [roundTrips_iff hiv hp hadmits ht0 hback, acceptsAuthentic_iff hnow hsize,
    sizesFit_iff hp hadmits]
  tauto

end Claims

/-! ## One text under the zero key -/

/-- The padding of CBC. -/
def pad (p : List UInt8) : List UInt8 :=
  p ++ List.replicate (16 - p.length % 16) (UInt8.ofNat (16 - p.length % 16))

/-- The padding removed. -/
def unpad (c : List UInt8) : Option (List UInt8) :=
  c.getLast?.map fun b => c.take (c.length - b.toNat)

theorem getLast?_pad (p : List UInt8) :
    (pad p).getLast? = some (UInt8.ofNat (16 - p.length % 16)) := by
  have hsome : 16 - p.length % 16 ≠ 0 := by omega
  rw [pad, List.getLast?_append, List.getLast?_replicate, if_neg hsome]
  rfl

theorem unpad_pad (p : List UInt8) : unpad (pad p) = some p := by
  have hbyte : (UInt8.ofNat (16 - p.length % 16)).toNat = 16 - p.length % 16 := by
    rw [UInt8.toNat_ofNat']
    omega
  rw [unpad, getLast?_pad, Option.map_some, hbyte, pad, List.length_append, List.length_replicate,
    Nat.add_sub_cancel, List.take_left]

def zeroHalf : List UInt8 := List.replicate 16 0

def zeroKey : FernetKey := ⟨List.replicate 32 0, rfl⟩

/-- The text "echo-ai-ok". -/
def sampleText : List UInt8 := ascii "echo-ai-ok"

/-- It under AES-128-CBC with the zero key and vector. -/
def sampleCiphertext : List UInt8 :=
  [0xe2, 0x71, 0xbd, 0x3f, 0x7f, 0x40, 0x2a, 0x36, 0x1c, 0x88, 0x21, 0xcc, 0x4d, 0x09, 0xa7, 0xc4]

/-- A token of it from the time 1700000000, in front of the tag. -/
def sampleSigned : List UInt8 :=
  [0x80, 0x00, 0x00, 0x00, 0x00, 0x65, 0x53, 0xf1, 0x00] ++ zeroHalf ++ sampleCiphertext

/-- The HMAC-SHA256 of these bytes under the zero key. -/
def sampleTag : List UInt8 :=
  [0x2b, 0xa5, 0x12, 0x3f, 0xf8, 0x89, 0x87, 0xce, 0x65, 0x57, 0xb7, 0x97, 0x8e, 0xb1, 0x1d, 0x1c,
    0x25, 0x7d, 0x26, 0x58, 0x56, 0x68, 0x4a, 0xfe, 0x6a, 0xbf, 0x2a, 0xb4, 0x4a, 0x99, 0x95, 0x5d]

/-- Primitives that have the values of AES-128-CBC and HMAC-SHA256 at the sample. -/
def samplePrimitives : FernetPrimitives where
  cbcEncrypt key iv p :=
    if key = zeroHalf ∧ iv = zeroHalf ∧ p = sampleText then sampleCiphertext else pad p
  cbcDecrypt key iv c :=
    if key = zeroHalf ∧ iv = zeroHalf ∧ c = sampleCiphertext then some sampleText else unpad c
  hmac key message :=
    if key = zeroHalf ∧ message = sampleSigned then sampleTag else List.replicate 32 0
  cbcDecrypt_cbcEncrypt key iv p := by
    by_cases hsample : key = zeroHalf ∧ iv = zeroHalf ∧ p = sampleText
    · obtain ⟨rfl, rfl, rfl⟩ := hsample
      simp
    · have hother : pad p ≠ sampleCiphertext := by
        intro heq
        have hlast : (pad p).getLast? = some 0xc4 := by rw [heq]; rfl
        rw [getLast?_pad] at hlast
        have hvalue := congrArg UInt8.toNat (Option.some.inj hlast)
        rw [UInt8.toNat_ofNat'] at hvalue
        have hc4 : (0xc4 : UInt8).toNat = 196 := rfl
        omega
      rw [if_neg hsample, if_neg fun h => hother h.2.2, unpad_pad]
  length_cbcEncrypt key iv p := by
    by_cases hsample : key = zeroHalf ∧ iv = zeroHalf ∧ p = sampleText
    · rw [if_pos hsample, hsample.2.2]
      rfl
    · rw [if_neg hsample, pad, List.length_append, List.length_replicate]
      omega
  length_hmac key message := by
    split
    · rfl
    · exact List.length_replicate

example : sealField samplePrimitives zeroKey .title zeroHalf 1700000000 sampleText =
    .ok (sampleSigned ++ sampleTag) := by
  decide +kernel

/-- The sample comes back. -/
theorem fernet_iff_sample :
    RoundTrips samplePrimitives zeroKey zeroHalf .title 1700000000 1700000000 sampleText ∧
      AcceptsAuthentic samplePrimitives zeroKey 1700000000 (sampleSigned ++ sampleTag) ∧
        SizesFit samplePrimitives zeroKey zeroHalf .title 1700000000 sampleText :=
  (fernet_iff rfl (by decide) (by decide) (by decide) (by decide) (by decide) (by decide)).mpr
    ⟨by decide, Or.inl (by decide), fun _ => by decide⟩

/-- The messages of a session may be as long as the greatest `int`, and their token is longer. -/
theorem not_fernet : ¬ ∀ (F : FernetPrimitives) (key : FernetKey) (iv : List UInt8) (field : Field)
    (p token : List UInt8) (t0 t1 now : Nat), iv.length = 16 → p ≠ [] → field.Admits p.length →
      t0 < 2 ^ 62 → t0 ≤ t1 + 60 → now < 2 ^ 62 → token.length ≤ intMax →
        RoundTrips F key iv field t0 t1 p ∧ AcceptsAuthentic F key now token ∧
          SizesFit F key iv field t0 p := by
  intro h
  have hlength : (List.replicate intMax (97 : UInt8)).length = intMax := List.length_replicate
  have hsome : List.replicate intMax (97 : UInt8) ≠ [] := by
    intro hnone
    rw [hnone] at hlength
    exact absurd hlength (by decide)
  have hadmits : Field.messages.Admits (List.replicate intMax (97 : UInt8)).length := by
    rw [hlength]
    decide
  have hall := h samplePrimitives zeroKey zeroHalf .messages (List.replicate intMax 97) [] 1 1 1 rfl
    hsome hadmits (by decide) (by decide) (by decide) (by decide)
  have hfits := (sizesFit_iff hsome hadmits).mp hall.2.2
  rw [hlength] at hfits
  exact absurd hfits (by decide)

end Fernet

end EchoAi
