import EchoAi.Session.VaultRuns

/-!
# The owner's way back

After a change that was cut off, the owner starts the vault with the password that matches the
database: the new one if the change was committed and the old one if not.  When nothing fails, the
recovery then succeeds on every disk that the change may have left, with one exception: an empty salt
file, created but not yet filled, in a vault without a recorded salt.  No key can be derived from
it, so the evidence for it cannot be read.

* `run_recovery_changed`, `run_recovery_resting_iff`: when the recovery succeeds, by phase.
* `ownerPassword`: the password that matches the database.
* `recovers_iff_not_emptySalt`: the recovery succeeds but for the empty salt file.
-/

namespace EchoAi

open Program

/-! ## Recoveries in which nothing fails -/

section FaultFree

variable {pepper salt : Bytes} {password : String} {v : Vault}

@[simp] theorem run_removeIfExists (f : VaultFile) (v : Vault) :
    run (removeIfExists false f) v = (true, v.set f none) := rfl

@[simp] theorem run_sync (v : Vault) : run (sync false) v = (true, v) := rfl

theorem run_renameFile {src dst : VaultFile} {c : Contents} (h : v.disk.files src = some c) :
    run (renameFile false src dst) v = (true, (v.set dst (some c)).set src none) := by
  simp only [renameFile, run_bind, run_get, h, Bool.false_eq_true, if_false, run_modify, run_pure]

/-- Putting the old salt back succeeds when there is one. -/
theorem run_restoreOldFiles (h : v.disk.exists? .oldSalt = true) :
    (run (restoreOldFiles Faults.none) v).1 = true := by
  obtain ⟨c, hc⟩ := Option.isSome_iff_exists.mp h
  simp [restoreOldFiles, run_renameFile hc]

theorem run_finalizeCommitted : (run (finalizeCommitted Faults.none v.disk) v).1 = true := by
  cases hnew : v.disk.files .verifierNew with
  | none => simp [finalizeCommitted, Disk.exists?, hnew]
  | some c => simp [finalizeCommitted, Disk.exists?, hnew, run_renameFile hnew]

theorem run_finalizeUncommitted (h : v.disk.exists? .salt = true) :
    (run (finalizeUncommitted Faults.none v.disk) v).1 = true := by
  cases hold : v.disk.files .oldSalt with
  | none => simp [finalizeUncommitted, Disk.exists?, hold, Option.isSome_iff_ne_none.mp h]
  | some c => simp [finalizeUncommitted, Disk.exists?, hold, run_renameFile hold]

/-- Finishing a recovery succeeds once there is a salt. -/
theorem run_migrationFinalizeRecovery {committed : Bool} (h : v.disk.exists? .salt = true) :
    (run (migrationFinalizeRecovery Faults.none committed) v).1 = 0 := by
  cases committed with
  | true => simp [migrationFinalizeRecovery, run_finalizeCommitted]
  | false => simp [migrationFinalizeRecovery, run_finalizeUncommitted h]

/-- With a marker and a salt, a recovery succeeds as soon as it comes to a decision. -/
theorem run_recovery_iff (hmarker : v.disk.exists? .marker = true)
    (hsalt : v.disk.exists? .salt = true)
    (hstate : recoveryDecision Faults.none v.disk password = some true →
      v.disk.database.migrationState.isNone = false) :
    (run (migrationCheckAndRecover Faults.none password) v).1 = 0 ↔
      (recoveryDecision Faults.none v.disk password).isSome = true := by
  cases hd : recoveryDecision Faults.none v.disk password with
  | none => simp [migrationCheckAndRecover, hmarker, hsalt, hd]
  | some committed =>
    cases committed with
    | false =>
      simp [migrationCheckAndRecover, hmarker, hsalt, hd, run_migrationFinalizeRecovery hsalt]
    | true =>
      have hrecorded : v.disk.database.migrationState ≠ none := by
        rintro hnone
        rw [hnone] at hstate
        exact absurd (hstate hd) (by simp)
      simp [migrationCheckAndRecover, hmarker, hsalt, hd, hrecorded,
        run_migrationFinalizeRecovery hsalt]

/-- Without a marker there is nothing to recover. -/
theorem run_recovery_of_not_marker {fail : Faults RecoverSite} (hpaths : fail .paths = false)
    (hmarker : v.disk.exists? .marker = false) :
    (run (migrationCheckAndRecover fail password) v).1 = 0 := by
  simp [migrationCheckAndRecover, hmarker, hpaths]

/-- Without a salt, a recovery puts the old one back. -/
theorem run_recovery_of_not_salt (hmarker : v.disk.exists? .marker = true)
    (hsalt : v.disk.exists? .salt = false) (hold : v.disk.exists? .oldSalt = true) :
    (run (migrationCheckAndRecover Faults.none password) v).1 = 0 := by
  simp [migrationCheckAndRecover, hmarker, hsalt, hold, run_restoreOldFiles hold]

end FaultFree

/-! ## Recovery by phase -/

section Phases

variable {pepper salt : Bytes} {password : String} {v : Vault}

/-- A salt file that was created and never filled, in a vault without a recorded salt. -/
def EmptySalt (d : Disk) : Prop :=
  d.database.migrationState = none ∧ d.files .salt = some (.bytes [])

theorem not_emptySalt_of_saltFile {d : Disk} (hsalt : d.files .salt = some (.bytes salt))
    (hlength : salt.length = saltSize) : ¬ EmptySalt d := by
  rintro ⟨-, hempty⟩
  rw [hsalt, Option.some_inj, Contents.bytes.injEq] at hempty
  rw [hempty] at hlength
  exact absurd hlength (by decide)

/-- With one salt or a recorded one there is always a decision. -/
theorem isSome_recoveryDecision {d : Disk} {t : Bytes} (hsalt : d.files .salt = some (.bytes t))
    (hlength : t.length ≤ saltSize)
    (h : d.database.migrationState.isNone = false ∨ d.exists? .oldSalt = false) :
    (recoveryDecision Faults.none d password).isSome = true := by
  have hle : t.length ≤ saltPepperMax := le_trans hlength (by decide)
  have hcond : (d.database.migrationState.isNone && d.exists? .oldSalt) = false := by
    rcases h with h | h
    · rw [h, Bool.false_and]
    · rw [h, Bool.and_false]
  simp only [recoveryDecision, Faults.none_apply, attempt_false, Disk.loadBytes_of_le hsalt hle,
    hcond, Option.bind_eq_bind, Option.bind_some, Bool.false_eq_true, if_false, Option.pure_def,
    Option.isSome_some]

/-- A recovery of a vault with one salt succeeds. -/
theorem run_recovery_of_oneSalt (hb : Belongs pepper salt password v.disk)
    (hsalt : v.disk.files .salt = some (.bytes salt)) (hold : v.disk.files .oldSalt = none)
    (password' : String) : (run (migrationCheckAndRecover Faults.none password') v).1 = 0 := by
  cases hmarker : v.disk.exists? .marker with
  | false => exact run_recovery_of_not_marker rfl hmarker
  | true =>
    have hexists : v.disk.exists? .salt = true := by
      rw [Disk.exists?, hsalt]
      rfl
    refine (run_recovery_iff hmarker hexists fun hd => ?_).mpr
      (isSome_recoveryDecision hsalt (le_of_eq hb.salt_length) (Or.inr ?_))
    · rw [decision_of_oneSalt hold hsalt hd]
      rfl
    · rw [Disk.exists?, hold]
      rfl

/-- A recovery of a committed change succeeds, whatever the password. -/
theorem run_recovery_changed (h : Changed pepper salt password v.disk) (password' : String) :
    (run (migrationCheckAndRecover Faults.none password') v).1 = 0 := by
  rcases h with h | h
  · have hstate : v.disk.database.migrationState.isNone = false := by
      rw [h.state]
      rfl
    have hexists : v.disk.exists? .salt = true := by
      rw [Disk.exists?, h.saltFile]
      rfl
    exact (run_recovery_iff h.markerFile hexists fun _ => hstate).mpr
      (isSome_recoveryDecision h.saltFile (le_of_eq h.salt_length) (Or.inl hstate))
  · exact run_recovery_of_oneSalt h.toBelongs h.saltFile h.oldSaltFile password'

/-- The evidence for the old salt, with the password of the rows. -/
theorem evidence_of_oldSalt {d : Disk} (h : Uncommitted pepper salt password d)
    (hold : d.files .oldSalt = some (.bytes salt)) :
    legacyKeyEvidence false d .oldSalt password =
      some ⟨d.database.sessionTokens.head?.isSome, d.database.sessionTokens.head?.isSome, true⟩ := by
  have hmatch : (d.database.sessionTokens.head?.bind
      (encryptionDecrypt (vaultKey pepper salt password))).isSome =
      d.database.sessionTokens.head?.isSome := by
    cases hhead : d.database.sessionTokens.head? with
    | none => rfl
    | some t =>
      rw [Option.bind_some, Option.isSome_some]
      exact isSome_decrypt_of_sealed
        (h.toBelongs.sealed_of_mem_sessionTokens (List.mem_of_head? hhead))
  rw [legacyKeyEvidence, attempt_false, h.toBelongs.deriveKey hold]
  simp only [Option.bind_eq_bind, Option.bind_some, Option.pure_def, hmatch, h.checkVerifier]

/-- Between the two salts, the evidence tells unless the new salt's file is empty. -/
theorem isSome_evidence_iff {d : Disk} {t : Bytes} (h : Uncommitted pepper salt password d)
    (hold : d.files .oldSalt = some (.bytes salt)) (hsalt : d.files .salt = some (.bytes t))
    (hne : t ≠ salt) (hlength : t.length ≤ saltSize) :
    ((legacyKeyEvidence false d .salt password).bind fun current =>
      (legacyKeyEvidence false d .oldSalt password).bind fun old =>
        evidenceCommitted current old).isSome = true ↔ t ≠ [] := by
  have hle : t.length ≤ saltPepperMax := le_trans hlength (by decide)
  have hderive : d.deriveKey .salt password = encryptionKeyDerive password t pepper := by
    rw [Disk.deriveKey, Disk.loadBytes_of_le hsalt hle,
      Disk.loadBytes_of_le h.pepperFile h.pepper_le]
    rfl
  cases hcurrent : legacyKeyEvidence false d .salt password with
  | none =>
    refine iff_of_false (by simp) fun ht => ?_
    have hkey : encryptionKeyDerive password t pepper = some (vaultKey pepper t password) := by
      rw [encryptionKeyDerive, if_neg, vaultKey]
      rintro (h' | h' | h' | h')
      · exact ht h'
      · exact h.pepper_ne h'
      · exact absurd h' (Nat.not_lt.mpr hle)
      · exact absurd h' (Nat.not_lt.mpr h.pepper_le)
    rw [legacyKeyEvidence, attempt_false, hderive, hkey] at hcurrent
    exact absurd hcurrent (by simp)
  | some current =>
    have hrows : current.hasEncryptedRows = d.database.sessionTokens.head?.isSome := by
      simp only [legacyKeyEvidence, Option.bind_eq_bind, Option.bind_eq_some_iff, Option.pure_def,
        Option.some_inj] at hcurrent
      obtain ⟨-, -, key, -, rfl⟩ := hcurrent
      rfl
    have ht : t ≠ [] := by
      rintro rfl
      rw [legacyKeyEvidence, attempt_false, hderive, encryptionKeyDerive,
        if_pos (Or.inl rfl)] at hcurrent
      exact absurd hcurrent (by simp)
    obtain ⟨hdb, hver⟩ := evidence_of_otherSalt h hsalt hne hcurrent
    refine iff_of_true ?_ ht
    rw [evidence_of_oldSalt h hold, Option.bind_some, Option.bind_some, evidenceCommitted, hrows,
      hdb, hver]
    cases d.database.sessionTokens.head?.isSome <;> rfl

/-- **A recovery of a vault at rest succeeds with the password of its rows, but for an empty salt
file.** -/
theorem run_recovery_resting_iff (h : Resting pepper salt password v.disk) :
    (run (migrationCheckAndRecover Faults.none password) v).1 = 0 ↔ ¬ EmptySalt v.disk := by
  rcases h with h | h | h
  · exact iff_of_true (run_recovery_of_oneSalt h.toBelongs h.saltFile h.oldSaltFile password)
      (not_emptySalt_of_saltFile h.saltFile h.salt_length)
  · have hold : v.disk.exists? .oldSalt = true := by
      rw [Disk.exists?, h.oldSaltFile]
      rfl
    cases hc : v.disk.files .salt with
    | none =>
      refine iff_of_true (run_recovery_of_not_salt h.markerFile ?_ hold) fun hempty => ?_
      · rw [Disk.exists?, hc]
        rfl
      · exact absurd (hc.symm.trans hempty.2) (by simp)
    | some c =>
      obtain ⟨t, rfl, hne, hlength⟩ := h.saltFile c hc
      have hexists : v.disk.exists? .salt = true := by
        rw [Disk.exists?, hc]
        rfl
      rw [run_recovery_iff h.markerFile hexists fun hd => Bool.noConfusion (h.decision hd)]
      rcases h.state with hstate | hstate
      · have hle : t.length ≤ saltPepperMax := le_trans hlength (by decide)
        rw [EmptySalt, hc, Option.some_inj, Contents.bytes.injEq, and_iff_right hstate,
          ← Ne, ← isSome_evidence_iff h.toUncommitted h.oldSaltFile hc hne hlength]
        simp only [recoveryDecision, Faults.none_apply, attempt_false,
          Disk.loadBytes_of_le hc hle, hstate, hold, Option.isNone_none, Bool.and_self,
          Option.bind_eq_bind, Option.bind_some, if_true]
      · refine iff_of_true (isSome_recoveryDecision hc hlength (Or.inl ?_)) fun hempty => ?_
        · rw [hstate]
          rfl
        · exact absurd (hstate.symm.trans hempty.1) (by simp)
  · exact iff_of_true (run_recovery_of_oneSalt h.toBelongs h.saltFile h.oldSaltFile password)
      (not_emptySalt_of_saltFile h.saltFile h.salt_length)

end Phases

/-! ## After a change that was cut off -/

/-- The password that matches the database after a change to `fresh`: the new one once the database
has recorded this salt. -/
def ownerPassword (fresh : Bytes) (oldPassword newPassword : String) (d : Disk) : String :=
  if d.database.migrationState = some fresh then newPassword else oldPassword

/-- **After a change that was cut off anywhere, a recovery with the owner's password succeeds if and
only if the change did not leave an empty salt file in a vault without a recorded salt.** -/
theorem recovers_iff_not_emptySalt {codec : JsonCodec} {fail : Faults ChangeSite}
    {pepper salt fresh : Bytes} {oldPassword newPassword : String} {written : Nat}
    {v v' : Vault} {key : EncryptionKey} (h : Settled pepper salt oldPassword v.disk)
    (hlength : fresh.length = saltSize) (hfresh : fresh ≠ salt)
    (hcut : Cut (migrationPerformChange codec fail newPassword fresh written) v v') :
    (run (migrationCheckAndRecover Faults.none
      (ownerPassword fresh oldPassword newPassword v'.disk)) ⟨v'.disk, key⟩).1 = 0 ↔
      ¬ EmptySalt v'.disk := by
  rcases (wp_iff.mp (wp_migrationPerformChange h hlength hfresh)).1 v' hcut with hrest | hchanged
  · have hstate : v'.disk.database.migrationState ≠ some fresh := by
      have hstate : v'.disk.database.migrationState = none ∨
          v'.disk.database.migrationState = some salt := by
        rcases hrest with hrest | hrest | hrest <;> exact hrest.state
      rintro heq
      rcases hstate with hstate | hstate
      · exact absurd (heq.symm.trans hstate) (by simp)
      · exact hfresh (Option.some.inj (heq.symm.trans hstate))
    rw [ownerPassword, if_neg hstate]
    exact run_recovery_resting_iff (v := ⟨v'.disk, key⟩) hrest
  · refine iff_of_true (run_recovery_changed (v := ⟨v'.disk, key⟩) hchanged _) ?_
    rcases hchanged with hchanged | hchanged
    · exact not_emptySalt_of_saltFile hchanged.saltFile hlength
    · exact not_emptySalt_of_saltFile hchanged.saltFile hlength

/-- A vault whose password was never changed, without rows. -/
def firstVault : Disk := { changedVault with database := ⟨[], [], none⟩ }

theorem settled_firstVault : Settled [7] (List.replicate saltSize 1) "old password" firstVault :=
  { settled_changedVault with state := Or.inl rfl }

/-- The first change of a vault, cut off after `n` steps. -/
def cutOffFirstChange (n : Nat) : Vault :=
  after n (migrationPerformChange textCodec Faults.none "new password"
    (List.replicate saltSize 2) 0)
    ⟨firstVault, vaultKey [7] (List.replicate saltSize 1) "old password"⟩

/-- Cut off when the new salt is there, the change is undone on the evidence for the old one. -/
theorem recovers_of_filledSalt :
    (run (migrationCheckAndRecover Faults.none (ownerPassword (List.replicate saltSize 2)
      "old password" "new password" (cutOffFirstChange 11).disk))
      ⟨(cutOffFirstChange 11).disk, zeroKey⟩).1 = 0 :=
  (recovers_iff_not_emptySalt settled_firstVault rfl (by decide) (cut_after 11 _ _)).mpr fun h =>
    absurd (Contents.bytes.inj (Option.some.inj h.2)) (by decide)

/-- Cut off when the salt file has just been created, the change cannot be undone. -/
theorem not_recovers_emptySalt :
    ¬ ∀ (pepper salt fresh : Bytes) (oldPassword newPassword : String) (written : Nat)
        (v v' : Vault) (key : EncryptionKey), Settled pepper salt oldPassword v.disk →
        fresh.length = saltSize → fresh ≠ salt →
        Cut (migrationPerformChange textCodec Faults.none newPassword fresh written) v v' →
        (run (migrationCheckAndRecover Faults.none
          (ownerPassword fresh oldPassword newPassword v'.disk)) ⟨v'.disk, key⟩).1 = 0 := by
  intro h
  have hzero := h [7] (List.replicate saltSize 1) (List.replicate saltSize 2) "old password"
    "new password" 0 _ (cutOffFirstChange 9) zeroKey settled_firstVault rfl (by decide)
    (cut_after 9 _ _)
  have hfailed : (run (migrationCheckAndRecover Faults.none "old password")
      ⟨(cutOffFirstChange 9).disk, zeroKey⟩).1 = -1 := by
    decide +kernel
  exact absurd (hzero.symm.trans hfailed) (by decide)

end EchoAi
