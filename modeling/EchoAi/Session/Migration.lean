import EchoAi.Durable.Program
import EchoAi.Session.Reencrypt

/-!
# Changing the password of a vault

A password change moves the salt away, creates a new one, seals the database under the new key and
swaps the verifier, with a marker file that tells the next start that it was under way.  Every file
operation and the commit is one atomic step, and the process may be cut off between any two of them;
a new file appears empty and is filled later.

* `Disk`: the files of a vault's directory and its database; `Vault` adds the live key.
* `migrationPerformChange`: the password change, with `restoreOldFiles` on every failure.
* `migrationCheckAndRecover`: the recovery that a start runs, with `legacyKeyEvidence` for a database
  that no change has committed to yet, and `migrationFinalizeRecovery`.

Operations that may fail are named by `RecoverSite` and `ChangeSite`; the calls of `stat` always
tell the truth.
-/

namespace EchoAi

/-! ## The disk -/

/-- The files of a vault. -/
inductive VaultFile where
  /-- `.changing_pwd` -/
  | marker
  /-- `salt` -/
  | salt
  /-- `salt.old` -/
  | oldSalt
  /-- `.pepper` -/
  | pepper
  /-- `.verifier` -/
  | verifier
  /-- `.verifier.new` -/
  | verifierNew
  deriving DecidableEq, Repr

/-- What a file holds. -/
inductive Contents where
  | bytes (b : Bytes)
  | token (t : Token)
  deriving DecidableEq, Repr

namespace Contents

/-- The contents as salt or pepper; a token is longer than the loads accept. -/
def bytes? : Contents → Option Bytes
  | bytes b => some b
  | token _ => none

/-- The contents as a token; other bytes are no encryption's. -/
def asToken : Contents → Token
  | bytes b => .foreign b
  | token t => t

end Contents

/-- What survives a crash. -/
structure Disk where
  files : VaultFile → Option Contents
  database : Database

/-- A session manager on its data directory. -/
structure Vault where
  disk : Disk
  encKey : EncryptionKey

namespace Disk

/-- The disk with other contents of one file. -/
def set (d : Disk) (f : VaultFile) (c : Option Contents) : Disk :=
  { d with files := fun g => if g = f then c else d.files g }

@[simp] theorem files_set_self (d : Disk) (f : VaultFile) (c : Option Contents) :
    (d.set f c).files f = c := if_pos rfl

theorem files_set_ne (d : Disk) {f g : VaultFile} (h : g ≠ f) (c : Option Contents) :
    (d.set f c).files g = d.files g := if_neg h

@[simp] theorem database_set (d : Disk) (f : VaultFile) (c : Option Contents) :
    (d.set f c).database = d.database := rfl

@[simp] theorem set_set (d : Disk) (f : VaultFile) (c c' : Option Contents) :
    (d.set f c).set f c' = d.set f c' := by
  simp only [set, mk.injEq, and_true]
  funext g
  by_cases h : g = f
  · rw [if_pos h, if_pos h]
  · rw [if_neg h, if_neg h, if_neg h]

/-- Whether there is such a file: `stat` returns 0. -/
def exists? (d : Disk) (f : VaultFile) : Bool := (d.files f).isSome

end Disk

namespace Vault

/-- The vault with other contents of one file. -/
def set (v : Vault) (f : VaultFile) (c : Option Contents) : Vault :=
  { v with disk := v.disk.set f c }

@[simp] theorem disk_set (v : Vault) (f : VaultFile) (c : Option Contents) :
    (v.set f c).disk = v.disk.set f c := rfl

@[simp] theorem set_set (v : Vault) (f : VaultFile) (c c' : Option Contents) :
    (v.set f c).set f c' = v.set f c' := by
  simp only [set, Disk.set_set]

@[simp] theorem encKey_set (v : Vault) (f : VaultFile) (c : Option Contents) :
    (v.set f c).encKey = v.encKey := rfl

end Vault

/-! ## File operations -/

open Program

/-- `rename`: fails when there is no such file. -/
def renameFile (failed : Bool) (src dst : VaultFile) : Program Vault Bool := do
  let v ← get
  match v.disk.files src with
  | none => return false
  | some c =>
    if failed then return false
    else do
      modify fun v => (v.set dst (some c)).set src none
      return true

/-- `remove_if_exists`. -/
def removeIfExists (failed : Bool) (f : VaultFile) : Program Vault Bool := do
  if failed then return false
  else do
    modify fun v => v.set f none
    return true

/-- `sync_file`, `sync_directory`. -/
def sync (failed : Bool) : Program Vault Bool := return !failed

/-- The operations on a new file. -/
inductive CreateSite where
  /-- finding its contents: random bytes or an encryption -/
  | contents
  | «open»
  | write
  | unlink
  deriving DecidableEq, Repr

/-- Create a file that must not be there: it appears with `first`, is filled in between with
`partly`, and is removed again when it cannot be filled. -/
def createFile (fail : Faults CreateSite) (f : VaultFile) (first partly contents : Contents) :
    Program Vault Bool := do
  let v ← get
  if fail .contents || fail .open || v.disk.exists? f then return false
  else do
    modify fun v => v.set f (some first)
    modify fun v => v.set f (some partly)
    if fail .write then do
      let _ ← removeIfExists (fail .unlink) f
      return false
    else do
      modify fun v => v.set f (some contents)
      return true

/-- `create_marker`. -/
def createMarker (fail : Faults CreateSite) : Program Vault Bool :=
  createFile fail .marker (.bytes []) (.bytes []) (.bytes [112, 101, 110, 100, 105, 110, 103, 10])

/-- `encryption_salt_create` with the random bytes `salt`, of which `n` are written first. -/
def encryptionSaltCreate (fail : Faults CreateSite) (salt : Bytes) (n : Nat) :
    Program Vault Bool :=
  createFile fail .salt (.bytes []) (.bytes (salt.take n)) (.bytes salt)

/-- `encryption_create_verifier` for the file `.verifier.new`. -/
def createVerifierNew (fail : Faults CreateSite) (key : EncryptionKey) : Program Vault Bool :=
  createFile fail .verifierNew (.bytes []) (.bytes [])
    (.token (encryptionCreateVerifier key))

section Specs

variable {C : Vault → Prop} {Q : Bool → Vault → Prop} {v : Vault} {failed : Bool}

theorem wp_sync (hC : C v) (hQ : Q (!failed) v) : wp C (sync failed) Q v := wp_pure hC hQ

theorem wp_renameFile {src dst : VaultFile} (hC : C v)
    (hfalse : failed = true ∨ v.disk.files src = none → Q false v)
    (htrue : ∀ c, failed = false → v.disk.files src = some c →
      C ((v.set dst (some c)).set src none) ∧ Q true ((v.set dst (some c)).set src none)) :
    wp C (renameFile failed src dst) Q v := by
  refine wp_get_bind ?_
  cases hsrc : v.disk.files src with
  | none => exact wp_pure hC (hfalse (Or.inr hsrc))
  | some c =>
    cases failed with
    | true => exact wp_pure hC (hfalse (Or.inl rfl))
    | false =>
      obtain ⟨hC', hQ'⟩ := htrue c rfl hsrc
      exact wp_modify_bind hC (wp_pure hC' hQ')

theorem wp_removeIfExists {f : VaultFile} (hC : C v) (hfalse : failed = true → Q false v)
    (htrue : failed = false → C (v.set f none) ∧ Q true (v.set f none)) :
    wp C (removeIfExists failed f) Q v := by
  cases failed with
  | true => exact wp_pure hC (hfalse rfl)
  | false => exact wp_modify_bind hC (wp_pure (htrue rfl).1 (htrue rfl).2)

/-- A file that is created holds one of four contents at any time; in the end it holds its contents,
or the creation failed. -/
theorem wp_createFile {fail : Faults CreateSite} {f : VaultFile} {first partly contents : Contents}
    (hstart : C v ∧ Q false v)
    (hstep : v.disk.files f = none → ∀ c, c = none ∨ c = some first ∨ c = some partly →
      C (v.set f c) ∧ Q false (v.set f c))
    (hend : v.disk.files f = none →
      C (v.set f (some contents)) ∧ Q true (v.set f (some contents))) :
    wp C (createFile fail f first partly contents) Q v := by
  refine wp_get_bind ?_
  cases hf : v.disk.files f with
  | some c =>
    have hexists : (fail .contents || fail .open || v.disk.exists? f) = true := by
      rw [Disk.exists?, hf, Option.isSome_some, Bool.or_true]
    rw [if_pos hexists]
    exact wp_pure hstart.1 hstart.2
  | none =>
    split
    · exact wp_pure hstart.1 hstart.2
    have hfirst := hstep hf _ (Or.inr (Or.inl rfl))
    have hpartly := hstep hf _ (Or.inr (Or.inr rfl))
    have hnone := hstep hf _ (Or.inl rfl)
    refine wp_modify_bind hstart.1 (wp_modify_bind hfirst.1 ?_)
    rw [Vault.set_set]
    split
    · refine wp_bind_of (R := fun _ s' => C s' ∧ Q false s')
        (wp_removeIfExists hpartly.1 (fun _ => hpartly) fun _ => ?_) fun _ s' h => wp_pure h.1 h.2
      rw [Vault.set_set]
      exact ⟨hnone.1, hnone⟩
    · refine wp_modify_bind hpartly.1 ?_
      rw [Vault.set_set]
      exact wp_pure (hend hf).1 (hend hf).2

end Specs

/-- The bytes of a salt or pepper file. -/
def Disk.loadBytes (d : Disk) (f : VaultFile) : Option Bytes :=
  encryptionSaltLoad ((d.files f).bind Contents.bytes?)

theorem Disk.loadBytes_of_le {d : Disk} {f : VaultFile} {b : Bytes}
    (hf : d.files f = some (.bytes b)) (hb : b.length ≤ saltPepperMax) : d.loadBytes f = some b := by
  rw [loadBytes, hf]
  exact if_neg (Nat.not_lt.mpr hb)

theorem Disk.eq_of_loadBytes {d : Disk} {f : VaultFile} {b b' : Bytes}
    (hf : d.files f = some (.bytes b)) (h : d.loadBytes f = some b') : b' = b := by
  rw [loadBytes, hf, Option.bind_some, Contents.bytes?, encryptionSaltLoad, Option.bind_some] at h
  split at h
  · exact absurd h (by simp)
  · exact (Option.some.inj h).symm

/-- The token of a verifier file. -/
def Disk.loadToken (d : Disk) (f : VaultFile) : Option Token := (d.files f).map Contents.asToken

/-- The key of a password with the salt in file `f` and the vault's pepper. -/
def Disk.deriveKey (d : Disk) (f : VaultFile) (password : String) : Option EncryptionKey := do
  let salt ← d.loadBytes f
  let pepper ← d.loadBytes .pepper
  encryptionKeyDerive password salt pepper

/-! ## Restoring the old files -/

/-- The operations of `restore_old_files`. -/
inductive RestoreSite where
  | renameSalt | removeVerifierNew | removeMarker | syncDirectory
  deriving DecidableEq, Repr

/-- `restore_old_files`: the verifier is removed even when the salt could not be moved back; the
marker stays when anything went wrong. -/
def restoreOldFiles (fail : Faults RestoreSite) : Program Vault Bool := do
  let renamed ← renameFile (fail .renameSalt) .oldSalt .salt
  let removed ← removeIfExists (fail .removeVerifierNew) .verifierNew
  if renamed && removed then
    andThen (removeIfExists (fail .removeMarker) .marker) (sync (fail .syncDirectory))
  else return false

/-! ## Recovery -/

/-- The operations of a recovery. -/
inductive RecoverSite where
  /-- building the paths -/
  | paths
  | restore (s : RestoreSite)
  | loadSalt
  /-- reading the salt of the last committed change -/
  | readState
  /-- reading the evidence for a salt file -/
  | evidence (f : VaultFile)
  | loadPepper
  | deriveKey
  | createVerifier (s : CreateSite)
  | syncVerifier
  | syncCreated
  | removeCreated
  /-- building the verifier's path -/
  | verifierPath
  | renameVerifier
  | removeOldSalt
  | renameSalt
  | removeVerifierNew
  | removeMarker
  | syncDirectory
  deriving DecidableEq, Repr

/-- The tokens of the sessions in the order in which the evidence looks at them. -/
def Database.sessionTokens (db : Database) : List Token :=
  db.sessions.filterMap SessionRow.title ++ db.sessions.filterMap SessionRow.messages ++
    db.sessions.filterMap SessionRow.metadata ++ db.sessions.filterMap SessionRow.events

/-- What a key derived from a salt file says about a vault. -/
structure KeyEvidence where
  hasEncryptedRows : Bool
  databaseMatch : Bool
  verifierMatch : Bool
  deriving DecidableEq, Repr

/-- `legacy_key_evidence`: whether the key opens the first token of the database and the
verifier. -/
def legacyKeyEvidence (failed : Bool) (d : Disk) (f : VaultFile) (password : String) :
    Option KeyEvidence := do
  attempt failed
  let key ← d.deriveKey f password
  return {
    hasEncryptedRows := d.database.sessionTokens.head?.isSome
    databaseMatch := (d.database.sessionTokens.head?.bind (encryptionDecrypt key)).isSome
    verifierMatch := encryptionCheckVerifier key (d.loadToken .verifier) }

/-- The decision of the evidence between the two salts: absent when it does not tell. -/
def evidenceCommitted (current old : KeyEvidence) : Option Bool :=
  if current.hasEncryptedRows || old.hasEncryptedRows then
    if current.databaseMatch = old.databaseMatch then none else some current.databaseMatch
  else if current.verifierMatch ≠ old.verifierMatch then some current.verifierMatch
  else none

/-- The files of a committed change: the new verifier becomes the verifier, the old salt goes. -/
def finalizeCommitted (fail : Faults RecoverSite) (d : Disk) : Program Vault Bool :=
  if fail .verifierPath then return false
  else andThen
    (if d.exists? .verifierNew then renameFile (fail .renameVerifier) .verifierNew .verifier
      else return true)
    (removeIfExists (fail .removeOldSalt) .oldSalt)

/-- The files of a change that was not committed: the old salt is put back, the new verifier goes. -/
def finalizeUncommitted (fail : Faults RecoverSite) (d : Disk) : Program Vault Bool :=
  if d.exists? .oldSalt then
    andThen (renameFile (fail .renameSalt) .oldSalt .salt)
      (removeIfExists (fail .removeVerifierNew) .verifierNew)
  else if !d.exists? .salt then return false
  else removeIfExists (fail .removeVerifierNew) .verifierNew

/-- `migration_finalize_recovery`. -/
def migrationFinalizeRecovery (fail : Faults RecoverSite) (committed : Bool) :
    Program Vault Int := do
  let v ← get
  if ← andThen
      (if committed then finalizeCommitted fail v.disk else finalizeUncommitted fail v.disk)
      (andThen (removeIfExists (fail .removeMarker) .marker) (sync (fail .syncDirectory))) then
    return 0
  else return -1

/-- The verifier that a committed change of a database without a state table still lacks. -/
def recreateVerifier (fail : Faults RecoverSite) (password : String) : Program Vault Bool := do
  let v ← get
  if fail .loadPepper || fail .deriveKey then return false
  else match v.disk.deriveKey .salt password with
    | none => return false
    | some key =>
      let created ← andThen (createVerifierNew (fail.within .createVerifier) key)
        (andThen (sync (fail .syncVerifier)) (sync (fail .syncCreated)))
      if created then return true
      else do
        let _ ← removeIfExists (fail .removeCreated) .verifierNew
        return false

/-- Whether the change was committed: the salt on disk is the one that the database recorded or, in
a database without a record and with two salts, the evidence for it is the better one. -/
def recoveryDecision (fail : Faults RecoverSite) (d : Disk) (password : String) :
    Option Bool := do
  attempt (fail .loadSalt)
  let salt ← d.loadBytes .salt
  attempt (fail .readState)
  if d.database.migrationState.isNone && d.exists? .oldSalt then
    let current ← legacyKeyEvidence (fail (.evidence .salt)) d .salt password
    let old ← legacyKeyEvidence (fail (.evidence .oldSalt)) d .oldSalt password
    evidenceCommitted current old
  else
    return d.database.migrationState == some salt

/-- `migration_check_and_recover`. -/
def migrationCheckAndRecover (fail : Faults RecoverSite) (password : String) :
    Program Vault Int := do
  if fail .paths then return -1
  let v ← get
  if !v.disk.exists? .marker then return 0
  if !v.disk.exists? .salt then
    if !v.disk.exists? .oldSalt then return -1
    if !(← restoreOldFiles (fail.within .restore)) then return -1
    return 0
  match recoveryDecision fail v.disk password with
  | none => return -1
  | some committed =>
    if committed && v.disk.database.migrationState.isNone && !v.disk.exists? .verifierNew then
      if !(← recreateVerifier fail password) then return -1
    migrationFinalizeRecovery fail committed

/-! ## The change -/

/-- The operations of a password change. -/
inductive ChangeSite where
  | createMarker (s : CreateSite)
  | syncMarker
  | renameSalt
  | syncRename
  | createSalt (s : CreateSite)
  | syncSalt
  | syncCreated
  | loadSalt
  | loadPepper
  | deriveKey
  | removeVerifierNew
  | createVerifier (s : CreateSite)
  | syncVerifierNew
  | begin
  | reencrypt (s : ReencryptSite)
  | commit
  | renameVerifier
  | syncVerifier
  | recover (s : RecoverSite)
  | removeOldSalt
  | removeMarker
  | syncDirectory
  | restore (s : RestoreSite)
  deriving DecidableEq, Repr

section Change

variable (codec : JsonCodec) (fail : Faults ChangeSite)

/-- The exit of a change that has not been committed: the old key is live again and the old files
are put back. -/
def changeRestore (oldKey : EncryptionKey) : Program Vault Int := do
  modify fun v => { v with encKey := oldKey }
  let _ ← restoreOldFiles (fail.within .restore)
  return -1

/-- The change after its commit: activate the verifier and remove what the change left behind.  A
verifier that could not be activated is left to a recovery. -/
def changeActivate (newPassword : String) : Program Vault Int := do
  if !(← andThen (renameFile (fail .renameVerifier) .verifierNew .verifier)
      (sync (fail .syncVerifier))) then
    if (← migrationCheckAndRecover (fail.within .recover) newPassword) = 0 then return 0
    else return -2
  let _ ← andThen (removeIfExists (fail .removeOldSalt) .oldSalt)
    (andThen (removeIfExists (fail .removeMarker) .marker) (sync (fail .syncDirectory)))
  return 0

/-- The transaction of a change, under the new key and with the new salt. -/
def changeTransaction (newPassword : String) (oldKey newKey : EncryptionKey) (salt : Bytes) :
    Program Vault Int := do
  if fail .begin then changeRestore fail oldKey
  else do
    let v ← get
    let result := reencrypt codec (fail.within .reencrypt) oldKey newKey v.encKey salt
      v.disk.database
    modify fun v => { v with encKey := result.1 }
    match result.2 with
    | none => changeRestore fail oldKey
    | some db =>
      if fail .commit then changeRestore fail oldKey
      else do
        modify fun v => { v with disk := { v.disk with database := db } }
        modify fun v => { v with encKey := newKey }
        changeActivate fail newPassword

/-- Put the marker in place. -/
def placeMarker : Program Vault Bool :=
  andThen (createMarker (fail.within .createMarker)) (sync (fail .syncMarker))

/-- Move the salt away. -/
def moveSalt : Program Vault Bool :=
  andThen (renameFile (fail .renameSalt) .salt .oldSalt) (sync (fail .syncRename))

/-- Put the new salt in place. -/
def placeSalt (freshSalt : Bytes) (written : Nat) : Program Vault Bool :=
  andThen (encryptionSaltCreate (fail.within .createSalt) freshSalt written)
    (andThen (sync (fail .syncSalt)) (sync (fail .syncCreated)))

/-- The new salt, read back, and the key of the new password with it. -/
def loadNewKey (d : Disk) (newPassword : String) : Option (Bytes × EncryptionKey) := do
  attempt (fail .loadSalt)
  let salt ← d.loadBytes .salt
  attempt (fail .loadPepper)
  attempt (fail .deriveKey)
  let newKey ← d.deriveKey .salt newPassword
  return (salt, newKey)

/-- Put the new verifier next to the old one. -/
def placeVerifier (newKey : EncryptionKey) : Program Vault Bool :=
  andThen (removeIfExists (fail .removeVerifierNew) .verifierNew)
    (andThen (createVerifierNew (fail.within .createVerifier) newKey)
      (sync (fail .syncVerifierNew)))

/-- `migration_perform_change` with the random bytes `freshSalt` for the new salt, of which
`written` reach the file first. -/
def migrationPerformChange (newPassword : String) (freshSalt : Bytes) (written : Nat) :
    Program Vault Int := do
  let v ← get
  let oldKey := v.encKey
  if !(← placeMarker fail) then return -1
  if !(← moveSalt fail) then changeRestore fail oldKey
  else if !(← placeSalt fail freshSalt written) then changeRestore fail oldKey
  else do
    let v ← get
    match loadNewKey fail v.disk newPassword with
    | none => changeRestore fail oldKey
    | some (salt, newKey) =>
      if !(← placeVerifier fail newKey) then changeRestore fail oldKey
      else changeTransaction codec fail newPassword oldKey newKey salt

end Change

end EchoAi
