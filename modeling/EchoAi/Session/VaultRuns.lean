import EchoAi.Session.MigrationPhases
import EchoAi.Json.Text

/-!
# The life of a vault

A vault is started, its password is changed, and the process may be cut off in either.  A start runs
the recovery first; a change needs a process that has unlocked the vault.  New salts are random, so a
change never draws the salt that is on the disk.

* `VaultStep`, `VaultRun`: the steps and runs of a vault, with a condition on every disk on which a
  recovery starts.
* `CrashConsistent`: after every run and a recovery that has done its work, salt, verifier and rows
  belong to one key.
* `crashConsistent_unless_staleVerifier`: so it is as long as no recovery starts on a stale verifier;
  `not_crashConsistent_staleVerifier` shows what happens when one does.
-/

namespace EchoAi

open Program

/-! ## Starting a vault -/

/-- The live key of a manager before it has one. -/
def zeroKey : EncryptionKey := ⟨"", []⟩

/-- `init_encryption` after the recovery, on a vault that is not new: the key of the password, if it
opens the verifier. -/
def unlock (d : Disk) (password : String) : Option EncryptionKey := do
  let key ← d.deriveKey .salt password
  if encryptionCheckVerifier key (d.loadToken .verifier) then return key else none

/-- A vault's disk, and the live key of the process that has unlocked it. -/
structure VaultState where
  disk : Disk
  process : Option EncryptionKey

/-- The state that a start leads to whose recovery has ended with `result`. -/
def started (password : String) (result : Int × Vault) : VaultState where
  disk := result.2.disk
  process := if result.1 = 0 then unlock result.2.disk password else none

section Runs

variable (codec : JsonCodec) (ok : Disk → Prop)

/-- A step in the life of a vault.  Every disk on which a recovery starts is `ok`. -/
inductive VaultStep : VaultState → VaultState → Prop
  | start {d : Disk} (fail : Faults RecoverSite) (password : String) (hok : ok d) :
      VaultStep ⟨d, none⟩
        (started password (run (migrationCheckAndRecover fail password) ⟨d, zeroKey⟩))
  | startCut {d : Disk} {v : Vault} (fail : Faults RecoverSite) (password : String) (hok : ok d)
      (hcut : Cut (migrationCheckAndRecover fail password) ⟨d, zeroKey⟩ v) :
      VaultStep ⟨d, none⟩ ⟨v.disk, none⟩
  | change {d : Disk} {key : EncryptionKey} (fail : Faults ChangeSite) (newPassword : String)
      (fresh : Bytes) (written : Nat) (hlength : fresh.length = saltSize)
      (hfresh : d.files .salt ≠ some (.bytes fresh)) {v : Vault}
      (hv : v = (run (migrationPerformChange codec fail newPassword fresh written) ⟨d, key⟩).2) :
      VaultStep ⟨d, some key⟩ ⟨v.disk, some v.encKey⟩
  | changeCut {d : Disk} {key : EncryptionKey} (fail : Faults ChangeSite) (newPassword : String)
      (fresh : Bytes) (written : Nat) (hlength : fresh.length = saltSize)
      (hfresh : d.files .salt ≠ some (.bytes fresh)) {v : Vault}
      (hcut : Cut (migrationPerformChange codec fail newPassword fresh written) ⟨d, key⟩ v) :
      VaultStep ⟨d, some key⟩ ⟨v.disk, none⟩
  | exit {d : Disk} {key : EncryptionKey} : VaultStep ⟨d, some key⟩ ⟨d, none⟩

/-- Any number of steps. -/
inductive VaultRun (st₀ : VaultState) : VaultState → Prop
  | refl : VaultRun st₀ st₀
  | step {st st' : VaultState} (hrun : VaultRun st₀ st) (hstep : VaultStep codec ok st st') :
      VaultRun st₀ st'

end Runs

/-- Salt, verifier and rows belong to one password's key. -/
def Consistent (d : Disk) : Prop :=
  ∃ password key, d.deriveKey .salt password = some key ∧
    encryptionCheckVerifier key (d.loadToken .verifier) = true ∧
    (∀ row ∈ d.database.sessions, ∀ t ∈ row.tokens, (encryptionDecrypt key t).isSome = true) ∧
    ∀ row ∈ d.database.oauth, (encryptionDecrypt key row.data).isSome = true

/-- **Crash consistency.**  Whatever was started, changed and cut off since the vault was settled, a
recovery that returns 0 and leaves no marker has made the vault consistent.  Every disk on which a
recovery starts is `ok`. -/
def CrashConsistent (codec : JsonCodec) (ok : Disk → Prop) : Prop :=
  ∀ (pepper salt : Bytes) (password : String) (d : Disk) (st : VaultState),
    Settled pepper salt password d → VaultRun codec ok ⟨d, none⟩ st → ok st.disk →
    ∀ (fail : Faults RecoverSite) (password' : String) (key : EncryptionKey) (v : Vault),
      run (migrationCheckAndRecover fail password') ⟨st.disk, key⟩ = (0, v) →
      v.disk.exists? .marker = false → Consistent v.disk

/-! ## The invariant of a vault's life -/

section Invariant

variable {codec : JsonCodec} {pepper : Bytes}

/-- The disk is in one of the phases of a change. -/
def InPhase (pepper : Bytes) (d : Disk) : Prop :=
  ∃ salt password, Resting pepper salt password d ∨ Pending pepper salt password d

theorem Changed.inPhase {salt : Bytes} {password : String} {d : Disk}
    (h : Changed pepper salt password d) : InPhase pepper d := by
  rcases h with h | h
  · exact ⟨salt, password, Or.inr h⟩
  · exact ⟨salt, password, Or.inl (Or.inl h)⟩

theorem ChangePhase.inPhase {salt fresh : Bytes} {password newPassword : String} {d : Disk}
    (h : ChangePhase pepper salt password fresh newPassword d) : InPhase pepper d := by
  rcases h with h | h
  · exact ⟨salt, password, Or.inl h⟩
  · exact h.inPhase

/-- A recovery that does not start on a stale verifier keeps the disk in its phases. -/
theorem wp_migrationCheckAndRecover_inPhase {v : Vault} {fail : Faults RecoverSite}
    {password : String} (h : InPhase pepper v.disk) (hstale : ¬ StaleVerifier v.disk) :
    wp (fun v => InPhase pepper v.disk) (migrationCheckAndRecover fail password)
      (fun _ v => InPhase pepper v.disk) v := by
  obtain ⟨salt, owner, h | h⟩ := h
  · have hrest : ∀ v : Vault, Resting pepper salt owner v.disk → InPhase pepper v.disk :=
      fun _ h => ⟨salt, owner, Or.inl h⟩
    exact wp_mono hrest (fun _ => hrest) (wp_migrationCheckAndRecover_resting h hstale)
  · exact wp_mono (fun _ => Changed.inPhase) (fun _ _ => Changed.inPhase)
      (wp_migrationCheckAndRecover_pending h)

/-- A change that finds a marker does nothing. -/
theorem wp_migrationPerformChange_of_marker {C : Vault → Prop} {fail : Faults ChangeSite}
    {newPassword : String} {fresh : Bytes} {written : Nat} {v : Vault} (hC : C v)
    (hmarker : v.disk.exists? .marker = true) :
    wp C (migrationPerformChange codec fail newPassword fresh written) (fun _ => C) v := by
  refine wp_get_bind (wp_bind_of (R := fun ok v' => C v' ∧ ok = false) ?_ ?_)
  · refine wp_andThen_of (R := fun ok v' => C v' ∧ ok = false) ?_ (fun _ h => h)
      fun _ h => absurd h.2 (by simp)
    refine wp_get_bind ?_
    rw [hmarker, Bool.or_true, if_pos rfl]
    exact wp_pure hC ⟨hC, rfl⟩
  · rintro ok v' ⟨h', rfl⟩
    exact wp_pure h' h'

/-- A change keeps the disk in its phases. -/
theorem wp_migrationPerformChange_inPhase {v : Vault} {fail : Faults ChangeSite}
    {newPassword : String} {fresh : Bytes} {written : Nat} (h : InPhase pepper v.disk)
    (hlength : fresh.length = saltSize) (hfresh : v.disk.files .salt ≠ some (.bytes fresh)) :
    wp (fun v => InPhase pepper v.disk)
      (migrationPerformChange codec fail newPassword fresh written)
      (fun _ v => InPhase pepper v.disk) v := by
  obtain ⟨salt, owner, (hs | hm | hr) | hp⟩ := id h
  · have hne : fresh ≠ salt := by
      rintro rfl
      exact hfresh hs.saltFile
    exact wp_mono (fun _ => ChangePhase.inPhase) (fun _ _ => ChangePhase.inPhase)
      (wp_migrationPerformChange hs hlength hne)
  · exact wp_migrationPerformChange_of_marker h hm.markerFile
  · exact wp_migrationPerformChange_of_marker h hr.markerFile
  · exact wp_migrationPerformChange_of_marker h hp.markerFile

/-- Every step keeps the disk in its phases. -/
theorem VaultStep.inPhase {st st' : VaultState}
    (h : VaultStep codec (fun d => ¬ StaleVerifier d) st st') (hst : InPhase pepper st.disk) :
    InPhase pepper st'.disk := by
  cases h with
  | start fail password hok =>
    exact (wp_iff.mp (wp_migrationCheckAndRecover_inPhase (v := ⟨_, _⟩) hst hok)).2
  | startCut fail password hok hcut =>
    exact (wp_iff.mp (wp_migrationCheckAndRecover_inPhase (v := ⟨_, _⟩) hst hok)).1 _ hcut
  | change fail newPassword fresh written hlength hfresh hv =>
    rw [hv]
    exact (wp_iff.mp (wp_migrationPerformChange_inPhase (v := ⟨_, _⟩) hst hlength hfresh)).2
  | changeCut fail newPassword fresh written hlength hfresh hcut =>
    exact (wp_iff.mp (wp_migrationPerformChange_inPhase (v := ⟨_, _⟩) hst hlength hfresh)).1 _ hcut
  | exit => exact hst

theorem VaultRun.inPhase {st₀ st : VaultState}
    (h : VaultRun codec (fun d => ¬ StaleVerifier d) st₀ st) (hst : InPhase pepper st₀.disk) :
    InPhase pepper st.disk := by
  induction h with
  | refl => exact hst
  | step _ hstep ih => exact hstep.inPhase ih

end Invariant

/-! ## What a settled vault is good for -/

section Settled

variable {pepper salt : Bytes} {password : String} {d : Disk}

/-- The salt's file and the pepper give the key of the rows. -/
theorem Belongs.deriveKey (h : Belongs pepper salt password d) {f : VaultFile}
    (hf : d.files f = some (.bytes salt)) :
    d.deriveKey f password = some (vaultKey pepper salt password) := by
  have hle : salt.length ≤ saltPepperMax := by
    rw [h.salt_length]
    decide
  have hne : salt ≠ [] := by
    rintro rfl
    exact absurd h.salt_length (by decide)
  rw [Disk.deriveKey, Disk.loadBytes_of_le hf hle, Disk.loadBytes_of_le h.pepperFile h.pepper_le,
    Option.bind_eq_bind, Option.bind_some, Option.bind_some, encryptionKeyDerive, if_neg, vaultKey]
  rintro (h' | h' | h' | h')
  · exact hne h'
  · exact h.pepper_ne h'
  · exact absurd h' (Nat.not_lt.mpr hle)
  · exact absurd h' (Nat.not_lt.mpr h.pepper_le)

theorem Uncommitted.checkVerifier (h : Uncommitted pepper salt password d) :
    encryptionCheckVerifier (vaultKey pepper salt password) (d.loadToken .verifier) = true := by
  rw [encryptionCheckVerifier_iff, Disk.loadToken, h.verifierFile, Option.map_some,
    Contents.asToken]

theorem isSome_decrypt_of_sealed {key : EncryptionKey} {t : Token}
    (ht : ∃ text, t = .sealed key text) : (encryptionDecrypt key t).isSome = true := by
  obtain ⟨text, rfl⟩ := ht
  rw [encryptionDecrypt, if_pos rfl]
  rfl

theorem Settled.consistent (h : Settled pepper salt password d) : Consistent d :=
  ⟨password, vaultKey pepper salt password, h.toBelongs.deriveKey h.saltFile,
    h.toUncommitted.checkVerifier,
    fun row hrow t ht => isSome_decrypt_of_sealed (h.sealedUnder.1 row hrow t ht),
    fun row hrow => isSome_decrypt_of_sealed (h.sealedUnder.2 row hrow)⟩

/-- Without a marker the vault is settled. -/
theorem InPhase.consistent (h : InPhase pepper d) (hmarker : d.exists? .marker = false) :
    Consistent d := by
  obtain ⟨salt, password, (h | h | h) | h⟩ := h
  · exact h.consistent
  · exact absurd (hmarker.symm.trans h.markerFile) (by simp)
  · exact absurd (hmarker.symm.trans h.markerFile) (by simp)
  · exact absurd (hmarker.symm.trans h.markerFile) (by simp)

end Settled

/-! ## Crash consistency -/

/-- **A vault is crash consistent as long as no recovery starts on a stale verifier.** -/
theorem crashConsistent_unless_staleVerifier (codec : JsonCodec) :
    CrashConsistent codec fun d => ¬ StaleVerifier d := by
  intro pepper salt password d st hd hrun hstale fail password' key v hrec hmarker
  have hphase : InPhase pepper st.disk := hrun.inPhase ⟨salt, password, Or.inl (Or.inl hd)⟩
  have hwp : wp (fun v => InPhase pepper v.disk) (migrationCheckAndRecover fail password')
      (fun _ v => InPhase pepper v.disk) ⟨st.disk, key⟩ :=
    wp_migrationCheckAndRecover_inPhase hphase hstale
  have hend := (wp_iff.mp hwp).2
  rw [hrec] at hend
  exact hend.consistent hmarker

/-! ### A stale verifier -/

/-- A vault whose password was changed before, without rows. -/
def changedVault : Disk where
  files := fun
    | .salt => some (.bytes (List.replicate saltSize 1))
    | .pepper => some (.bytes [7])
    | .verifier => some (.token (encryptionCreateVerifier
        (vaultKey [7] (List.replicate saltSize 1) "old password")))
    | _ => none
  database := ⟨[], [], some (List.replicate saltSize 1)⟩

theorem settled_changedVault :
    Settled [7] (List.replicate saltSize 1) "old password" changedVault where
  pepperFile := rfl
  pepper_ne := by decide
  pepper_le := by decide
  salt_length := rfl
  primaryKeys := ⟨List.nodup_nil, List.nodup_nil⟩
  sealedUnder := ⟨fun _ h => absurd h List.not_mem_nil, fun _ h => absurd h List.not_mem_nil⟩
  verifierFile := rfl
  state := Or.inr rfl
  saltFile := rfl
  oldSaltFile := rfl
  verifierNewFile := rfl

/-- A change of `changedVault` that is cut off when the new verifier has just been written. -/
def cutOffChange : Vault :=
  after 17 (migrationPerformChange textCodec Faults.none "new password"
    (List.replicate saltSize 2) 0)
    ⟨changedVault, vaultKey [7] (List.replicate saltSize 1) "old password"⟩

/-- The next recovery, cut off when the old salt is back. -/
def cutOffRecovery : Vault :=
  after 4 (migrationCheckAndRecover Faults.none "old password") ⟨cutOffChange.disk, zeroKey⟩

/-- The recovery after that. -/
def lastRecovery : Int × Vault :=
  run (migrationCheckAndRecover Faults.none "old password") ⟨cutOffRecovery.disk, zeroKey⟩

theorem unlock_changedVault : unlock changedVault "old password" =
    some (vaultKey [7] (List.replicate saltSize 1) "old password") := by
  decide +kernel

/-- The vault is started, its change is cut off, and so is the recovery of the change. -/
theorem run_cutOffRecovery :
    VaultRun textCodec (fun _ => True) ⟨changedVault, none⟩ ⟨cutOffRecovery.disk, none⟩ := by
  have hstarted : started "old password"
      (run (migrationCheckAndRecover Faults.none "old password") ⟨changedVault, zeroKey⟩) =
      ⟨changedVault, some (vaultKey [7] (List.replicate saltSize 1) "old password")⟩ := by
    rw [← unlock_changedVault]
    rfl
  have hstart : VaultStep textCodec (fun _ => True) ⟨changedVault, none⟩
      ⟨changedVault, some (vaultKey [7] (List.replicate saltSize 1) "old password")⟩ :=
    hstarted ▸ VaultStep.start Faults.none "old password" trivial
  have hchange : VaultStep textCodec (fun _ => True)
      ⟨changedVault, some (vaultKey [7] (List.replicate saltSize 1) "old password")⟩
      ⟨cutOffChange.disk, none⟩ := by
    refine VaultStep.changeCut Faults.none "new password" (List.replicate saltSize 2) 0 rfl ?_
      (cut_after 17 _ _)
    exact fun h => absurd (Contents.bytes.inj (Option.some.inj h)) (by decide)
  have hrecovery : VaultStep textCodec (fun _ => True) ⟨cutOffChange.disk, none⟩
      ⟨cutOffRecovery.disk, none⟩ :=
    VaultStep.startCut Faults.none "old password" trivial (cut_after 4 _ _)
  exact ((VaultRun.refl.step hstart).step hchange).step hrecovery

/-- Crash consistency fails: the recovery that finds the old salt back takes the change for
committed, since this salt is still the one that the database recorded, and activates the verifier
of the change that was undone. -/
theorem not_crashConsistent_staleVerifier : ¬ CrashConsistent textCodec fun _ => True := by
  intro h
  obtain ⟨password, key, hkey, hverifier, -, -⟩ := h [7] (List.replicate saltSize 1) "old password"
    changedVault _ settled_changedVault run_cutOffRecovery trivial Faults.none "old password"
    zeroKey lastRecovery.2 rfl rfl
  have hpepper : lastRecovery.2.disk.files .pepper = some (.bytes [7]) := rfl
  have hsalt : lastRecovery.2.disk.files .salt = some (.bytes (List.replicate saltSize 1)) := rfl
  have hfile : lastRecovery.2.disk.files .verifier = some (.token (encryptionCreateVerifier
      (vaultKey [7] (List.replicate saltSize 2) "new password"))) := rfl
  have hseed : key.seed = List.replicate saltSize 1 ++ [7] := by
    simp only [Disk.deriveKey, Disk.loadBytes_of_le hsalt (by decide),
      Disk.loadBytes_of_le hpepper (by decide), Option.bind_eq_bind, Option.bind_some] at hkey
    rw [encryptionKeyDerive_eq_some hkey]
  rw [encryptionCheckVerifier_iff, Disk.loadToken, hfile, Option.map_some, Option.some_inj,
    Contents.asToken, encryptionCreateVerifier, encryptionCreateVerifier,
    Token.sealed.injEq] at hverifier
  rw [← hverifier.1, vaultKey] at hseed
  exact absurd hseed (by decide)

end EchoAi
