import Mathlib.Data.List.Basic
import Mathlib.Tactic.Common

/-!
# Keys and tokens

The cipher is taken as ideal.  A key is what it is derived from, the password and the bytes
`salt ++ pepper` that the key derivation runs over, so two keys are equal exactly when these are.
A token is the pair of its key and its plaintext, and no other key opens it; bytes that no
encryption has written, such as a file that was cut off, are opened by no key.

* `encryptionKeyDerive`, `encryptionEncrypt`, `encryptionDecrypt`: the three operations with the
  argument checks of the source.
* `encryptionCreateVerifier`, `encryptionCheckVerifier`: the token of a fixed text that tells
  whether a key is the vault's.
-/

namespace EchoAi

/-- Contents of a small binary file. -/
abbrev Bytes := List UInt8

/-- A key, named by what it is derived from. -/
structure EncryptionKey where
  password : String
  seed : Bytes
  deriving DecidableEq, Repr

/-- A stored ciphertext. -/
inductive Token where
  /-- written by an encryption -/
  | sealed (key : EncryptionKey) (plaintext : String)
  /-- any other bytes -/
  | foreign (bytes : Bytes)
  deriving DecidableEq, Repr

/-- `SALT_PEPPER_MAX`, which also bounds the files that the two loads accept. -/
def saltPepperMax : Nat := 64

/-- The length of a salt. -/
def saltSize : Nat := 16

/-- `encryption_salt_load`, `encryption_pepper_load`: the bytes of a file that is not too long. -/
def encryptionSaltLoad (file : Option Bytes) : Option Bytes :=
  file.bind fun bytes => if saltPepperMax < bytes.length then none else some bytes

/-- `encryption_key_derive`: both parts must be there and not too long. -/
def encryptionKeyDerive (password : String) (salt pepper : Bytes) : Option EncryptionKey :=
  if salt = [] ∨ pepper = [] ∨ saltPepperMax < salt.length ∨ saltPepperMax < pepper.length then none
  else some ⟨password, salt ++ pepper⟩

/-- `encryption_encrypt`: an empty text is refused. -/
def encryptionEncrypt (key : EncryptionKey) (plaintext : String) : Option Token :=
  if plaintext = "" then none else some (.sealed key plaintext)

/-- `encryption_decrypt`. -/
def encryptionDecrypt (key : EncryptionKey) : Token → Option String
  | .sealed k plaintext => if k = key then some plaintext else none
  | .foreign _ => none

/-- The text whose token verifies a key. -/
def verifierText : String := "echo-ai-ok"

/-- The contents that `encryption_create_verifier` writes. -/
def encryptionCreateVerifier (key : EncryptionKey) : Token := .sealed key verifierText

/-- `encryption_check_verifier` on the contents of a file. -/
def encryptionCheckVerifier (key : EncryptionKey) (file : Option Token) : Bool :=
  file.bind (encryptionDecrypt key) == some verifierText

/-! ## Opening what was sealed -/

theorem encryptionDecrypt_eq_some_iff {key : EncryptionKey} {t : Token} {p : String} :
    encryptionDecrypt key t = some p ↔ t = .sealed key p := by
  cases t with
  | «sealed» k q =>
    rw [encryptionDecrypt, Token.sealed.injEq]
    by_cases hk : k = key
    · rw [if_pos hk, Option.some_inj]
      exact ⟨fun h => ⟨hk, h⟩, fun h => h.2⟩
    · rw [if_neg hk]
      exact iff_of_false (by simp) fun h => hk h.1
  | foreign b => exact iff_of_false (by simp [encryptionDecrypt]) (by simp)

theorem encryptionDecrypt_encrypt {key : EncryptionKey} {p : String} {t : Token}
    (h : encryptionEncrypt key p = some t) : encryptionDecrypt key t = some p := by
  rw [encryptionEncrypt] at h
  split at h
  · exact absurd h (by simp)
  · rw [← Option.some.inj h, encryptionDecrypt, if_pos rfl]

theorem encryptionCheckVerifier_iff {key : EncryptionKey} {file : Option Token} :
    encryptionCheckVerifier key file = true ↔ file = some (encryptionCreateVerifier key) := by
  rw [encryptionCheckVerifier, beq_iff_eq, encryptionCreateVerifier]
  cases file with
  | none => exact iff_of_false (by simp) (by simp)
  | some t => rw [Option.bind_some, encryptionDecrypt_eq_some_iff, Option.some_inj]

theorem encryptionKeyDerive_eq_some {password : String} {salt pepper : Bytes} {key : EncryptionKey}
    (h : encryptionKeyDerive password salt pepper = some key) :
    key = ⟨password, salt ++ pepper⟩ := by
  rw [encryptionKeyDerive] at h
  split at h
  · exact absurd h (by simp)
  · exact (Option.some.inj h).symm

end EchoAi
