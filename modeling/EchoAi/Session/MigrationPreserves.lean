import EchoAi.Session.VaultRuns

/-!
# What a password change does to the rows

A change works on files until its transaction, and on files again after its commit.  It answers -1
exactly when it was not committed.

* `Vault.rows`: what the files of a vault do not show, its database and its live key; `keepsRows_…`
  says of every file program that it keeps them.
* `run_migrationPerformChange`: a change answers -1 and keeps database and key, or it has replaced
  them by the results of `reencrypt` and the new key.
* `changeKeeps_iff`: a change keeps the contents of every row, under the key that it leaves live,
  exactly when every session that it commits was in its normal form and came through intact.
-/

namespace EchoAi

open Program

/-- The database of a vault and its live key. -/
def Vault.rows (v : Vault) : Database × EncryptionKey := (v.disk.database, v.encKey)

/-! ## Programs on files -/

section Files

theorem keepsRows_set (f : VaultFile) (c : Option Contents) :
    Keeps Vault.rows (modify fun v => v.set f c) :=
  keeps_modify fun _ => rfl

theorem keepsRows_sync (failed : Bool) : Keeps Vault.rows (sync failed) := keeps_pure _

theorem keepsRows_renameFile (failed : Bool) (src dst : VaultFile) :
    Keeps Vault.rows (renameFile failed src dst) := by
  refine keeps_bind keeps_get fun v => ?_
  split
  · exact keeps_pure _
  · refine keeps_ite (keeps_pure _) (keeps_bind ?_ fun _ => keeps_pure _)
    exact keeps_modify fun _ => rfl

theorem keepsRows_removeIfExists (failed : Bool) (f : VaultFile) :
    Keeps Vault.rows (removeIfExists failed f) :=
  keeps_ite (keeps_pure _) (keeps_bind (keepsRows_set f none) fun _ => keeps_pure _)

theorem keepsRows_createFile (fail : Faults CreateSite) (f : VaultFile)
    (first partly contents : Contents) :
    Keeps Vault.rows (createFile fail f first partly contents) := by
  refine keeps_bind keeps_get fun v => keeps_ite (keeps_pure _) ?_
  refine keeps_bind (keepsRows_set f _) fun _ => keeps_bind (keepsRows_set f _) fun _ => ?_
  exact keeps_ite (keeps_bind (keepsRows_removeIfExists _ f) fun _ => keeps_pure _)
    (keeps_bind (keepsRows_set f _) fun _ => keeps_pure _)

theorem keepsRows_restoreOldFiles (fail : Faults RestoreSite) :
    Keeps Vault.rows (restoreOldFiles fail) := by
  refine keeps_bind (keepsRows_renameFile _ _ _) fun _ => ?_
  refine keeps_bind (keepsRows_removeIfExists _ _) fun _ => ?_
  exact keeps_ite (keeps_andThen (keepsRows_removeIfExists _ _) (keepsRows_sync _)) (keeps_pure _)

theorem keepsRows_finalizeCommitted (fail : Faults RecoverSite) (d : Disk) :
    Keeps Vault.rows (finalizeCommitted fail d) := by
  refine keeps_ite (keeps_pure _) (keeps_andThen ?_ (keepsRows_removeIfExists _ _))
  exact keeps_ite (keepsRows_renameFile _ _ _) (keeps_pure _)

theorem keepsRows_finalizeUncommitted (fail : Faults RecoverSite) (d : Disk) :
    Keeps Vault.rows (finalizeUncommitted fail d) := by
  refine keeps_ite (keeps_andThen (keepsRows_renameFile _ _ _) (keepsRows_removeIfExists _ _)) ?_
  exact keeps_ite (keeps_pure _) (keepsRows_removeIfExists _ _)

theorem keepsRows_migrationFinalizeRecovery (fail : Faults RecoverSite) (committed : Bool) :
    Keeps Vault.rows (migrationFinalizeRecovery fail committed) := by
  refine keeps_bind keeps_get fun v => keeps_bind ?_ fun _ =>
    keeps_ite (keeps_pure _) (keeps_pure _)
  refine keeps_andThen (keeps_ite (keepsRows_finalizeCommitted _ _)
    (keepsRows_finalizeUncommitted _ _)) ?_
  exact keeps_andThen (keepsRows_removeIfExists _ _) (keepsRows_sync _)

theorem keepsRows_recreateVerifier (fail : Faults RecoverSite) (password : String) :
    Keeps Vault.rows (recreateVerifier fail password) := by
  refine keeps_bind keeps_get fun v => keeps_ite (keeps_pure _) ?_
  split
  · exact keeps_pure _
  · refine keeps_bind ?_ fun _ => ?_
    · exact keeps_andThen (keepsRows_createFile _ _ _ _ _)
        (keeps_andThen (keepsRows_sync _) (keepsRows_sync _))
    · exact keeps_ite (keeps_pure _)
        (keeps_bind (keepsRows_removeIfExists _ _) fun _ => keeps_pure _)

/-- A recovery keeps database and key. -/
theorem keepsRows_migrationCheckAndRecover (fail : Faults RecoverSite) (password : String) :
    Keeps Vault.rows (migrationCheckAndRecover fail password) := by
  refine keeps_ite (keeps_pure _) (keeps_bind keeps_get fun v => keeps_ite (keeps_pure _) ?_)
  refine keeps_ite (keeps_ite (keeps_pure _) ?_) ?_
  · exact keeps_bind (keepsRows_restoreOldFiles _) fun _ => keeps_ite (keeps_pure _) (keeps_pure _)
  · split
    · exact keeps_pure _
    · refine keeps_ite ?_ (keepsRows_migrationFinalizeRecovery _ _)
      exact keeps_bind (keepsRows_recreateVerifier _ _) fun _ =>
        keeps_ite (keeps_pure _) (keepsRows_migrationFinalizeRecovery _ _)

variable (fail : Faults ChangeSite)

theorem keepsRows_placeMarker : Keeps Vault.rows (placeMarker fail) :=
  keeps_andThen (keepsRows_createFile _ _ _ _ _) (keepsRows_sync _)

theorem keepsRows_moveSalt : Keeps Vault.rows (moveSalt fail) :=
  keeps_andThen (keepsRows_renameFile _ _ _) (keepsRows_sync _)

theorem keepsRows_placeSalt (fresh : Bytes) (written : Nat) :
    Keeps Vault.rows (placeSalt fail fresh written) :=
  keeps_andThen (keepsRows_createFile _ _ _ _ _)
    (keeps_andThen (keepsRows_sync _) (keepsRows_sync _))

theorem keepsRows_placeVerifier (newKey : EncryptionKey) :
    Keeps Vault.rows (placeVerifier fail newKey) :=
  keeps_andThen (keepsRows_removeIfExists _ _)
    (keeps_andThen (keepsRows_createFile _ _ _ _ _) (keepsRows_sync _))

/-- Activating the verifier keeps database and key. -/
theorem keepsRows_changeActivate (newPassword : String) :
    Keeps Vault.rows (changeActivate fail newPassword) := by
  refine keeps_bind (keeps_andThen (keepsRows_renameFile _ _ _) (keepsRows_sync _)) fun _ => ?_
  refine keeps_ite ?_ ?_
  · exact keeps_bind (keepsRows_migrationCheckAndRecover _ _) fun _ =>
      keeps_ite (keeps_pure _) (keeps_pure _)
  · refine keeps_bind ?_ fun _ => keeps_pure _
    exact keeps_andThen (keepsRows_removeIfExists _ _)
      (keeps_andThen (keepsRows_removeIfExists _ _) (keepsRows_sync _))

end Files

/-! ## The change -/

section Change

variable {codec : JsonCodec} {fail : Faults ChangeSite} {newPassword : String}

/-- What a change may have done to the database and the live key of `v` when it answers `rc`. -/
def ChangeResult (codec : JsonCodec) (fail : Faults ChangeSite) (v : Vault) (rc : Int)
    (rows : Database × EncryptionKey) : Prop :=
  rc = -1 ∧ rows = v.rows ∨
    rc ≠ -1 ∧ ∃ salt, (reencrypt codec (fail.within .reencrypt) v.encKey rows.2 v.encKey salt
      v.disk.database).2 = some rows.1

/-- After its commit a change no longer answers -1. -/
theorem run_changeActivate_ne (v : Vault) : (run (changeActivate fail newPassword) v).1 ≠ -1 := by
  rw [changeActivate, run_bind]
  split
  · rw [run_bind]
    split <;> simp
  · rw [run_bind]
    simp

/-- The exit of a change that was not committed. -/
theorem run_changeRestore {v v' : Vault} (h : v'.disk.database = v.disk.database) :
    (run (changeRestore fail v.encKey) v').1 = -1 ∧
      (run (changeRestore fail v.encKey) v').2.rows = v.rows := by
  simp only [changeRestore, run_bind, run_modify, run_pure, true_and]
  rw [keepsRows_restoreOldFiles]
  exact Prod.ext h rfl

theorem changeResult_changeRestore {v v' : Vault} (h : v'.disk.database = v.disk.database) :
    ChangeResult codec fail v (run (changeRestore fail v.encKey) v').1
      (run (changeRestore fail v.encKey) v').2.rows :=
  Or.inl (run_changeRestore h)

theorem changeResult_changeTransaction {v v' : Vault} {newKey : EncryptionKey} {salt : Bytes}
    (h : v'.rows = v.rows) :
    ChangeResult codec fail v
      (run (changeTransaction codec fail newPassword v.encKey newKey salt) v').1
      (run (changeTransaction codec fail newPassword v.encKey newKey salt) v').2.rows := by
  obtain ⟨hdb, hkey⟩ := Prod.mk.inj h
  unfold changeTransaction
  split
  · exact changeResult_changeRestore hdb
  · simp only [run_bind, run_get, run_modify]
    split
    · exact changeResult_changeRestore hdb
    · next db hre =>
      split
      · exact changeResult_changeRestore hdb
      · simp only [run_bind, run_modify]
        refine Or.inr ⟨run_changeActivate_ne _, salt, ?_⟩
        rw [keepsRows_changeActivate]
        rw [hdb, hkey] at hre
        exact hre

/-- **What a password change does to the rows.** -/
theorem run_migrationPerformChange (fresh : Bytes) (written : Nat) (v : Vault) :
    ChangeResult codec fail v
      (run (migrationPerformChange codec fail newPassword fresh written) v).1
      (run (migrationPerformChange codec fail newPassword fresh written) v).2.rows := by
  have hmarker := keepsRows_placeMarker fail v
  have hsalt := fun v' => keepsRows_moveSalt fail v'
  have hfresh := fun v' => keepsRows_placeSalt fail fresh written v'
  unfold migrationPerformChange
  simp only [run_bind, run_get]
  split
  · exact Or.inl ⟨rfl, hmarker⟩
  rw [run_bind]
  have h₁ := (hsalt (run (placeMarker fail) v).2).trans hmarker
  split
  · exact changeResult_changeRestore (Prod.mk.inj h₁).1
  rw [run_bind]
  have h₂ := (hfresh (run (moveSalt fail) (run (placeMarker fail) v).2).2).trans h₁
  split
  · exact changeResult_changeRestore (Prod.mk.inj h₂).1
  simp only [run_bind, run_get]
  split
  · exact changeResult_changeRestore (Prod.mk.inj h₂).1
  rw [run_bind]
  next newKey _ =>
    have h₃ := (keepsRows_placeVerifier fail newKey _).trans h₂
    split
    · exact changeResult_changeRestore (Prod.mk.inj h₃).1
    · exact changeResult_changeTransaction h₃

/-- The contents of the rows survive a change: one that was not committed leaves database and live
key as they were, one that was committed leaves the same contents under the new key. -/
def ChangeKeeps (codec : JsonCodec) (fail : Faults ChangeSite) (newPassword : String)
    (fresh : Bytes) (written : Nat) (v : Vault) : Prop :=
  let result := run (migrationPerformChange codec fail newPassword fresh written) v
  (result.1 = -1 → result.2.rows = v.rows) ∧
    (result.1 ≠ -1 → Preserves codec v.encKey result.2.encKey v.disk.database
      result.2.disk.database)

/-- **A password change keeps the rows exactly when, if it commits, every session stands in its
normal form and comes through intact**, unless both fail and make up for each other. -/
theorem changeKeeps_iff {fresh : Bytes} {written : Nat} {v : Vault}
    (hkeys : v.disk.database.PrimaryKeys)
    (hcase : v.disk.database.Normal codec v.encKey ∨
      v.disk.database.Intact codec (fail.within .reencrypt) v.encKey) :
    ChangeKeeps codec fail newPassword fresh written v ↔
      ((run (migrationPerformChange codec fail newPassword fresh written) v).1 ≠ -1 →
        v.disk.database.Normal codec v.encKey ∧
          v.disk.database.Intact codec (fail.within .reencrypt) v.encKey) := by
  have hresult : ChangeResult codec fail v
      (run (migrationPerformChange codec fail newPassword fresh written) v).1
      (run (migrationPerformChange codec fail newPassword fresh written) v).2.rows :=
    run_migrationPerformChange fresh written v
  rw [ChangeKeeps]
  rcases hresult with ⟨hrc, hrows⟩ | ⟨hrc, salt, hre⟩
  · exact iff_of_true ⟨fun _ => hrows, fun h => absurd hrc h⟩ fun h => absurd hrc h
  · have hpreserves := preserves_reencrypt_iff hkeys hcase hre
    constructor
    · exact fun h _ => hpreserves.mp (h.2 hrc)
    · exact fun h => ⟨fun h' => absurd h' hrc, fun _ => hpreserves.mpr (h hrc)⟩

end Change

/-! ## An example -/

/-- What the store writes is in its normal form. -/
theorem normal_of_written {codec : JsonCodec} {key : EncryptionKey} {db : Database}
    (h : ∀ row ∈ db.sessions, ∃ s, row = sessionRow codec key s) : db.Normal codec key := by
  intro id s hs
  obtain ⟨row, hrow, hread⟩ := exists_row_of_loadSessionLocked hs
  obtain ⟨s₀, rfl⟩ := h row (mem_of_findRow hrow)
  rw [readSessionRow_sessionRow, Option.some_inj] at hread
  rw [← hread, Session.normalize_normalize]

theorem databaseIntact_none {codec : JsonCodec} {key : EncryptionKey} {db : Database} :
    db.Intact codec Faults.none key := fun _ _ _ s _ =>
  ⟨fun _ _ _ _ => rfl, intact_none s.messages⟩

/-- A session in which a tool was called. -/
def callSession : Session where
  id := "session_1"
  title := ""
  titleGenerationAttempted := 0
  createdAt := ""
  messages := [{
    role := some "assistant"
    content := some ""
    toolCalls := [{ id := some "call_1", name := some "shell", arguments := some "\x7b\x7d" }] }]
  metadata := .object []
  events := []

/-- The vault of `changedVault`, with that session. -/
def callVault : Vault where
  disk := { changedVault with
    database := ⟨[sessionRow textCodec
      (vaultKey [7] (List.replicate saltSize 1) "old password") callSession], [], none⟩ }
  encKey := vaultKey [7] (List.replicate saltSize 1) "old password"

theorem primaryKeys_callVault : callVault.disk.database.PrimaryKeys :=
  ⟨List.nodup_singleton _, List.nodup_nil⟩

theorem normal_callVault : callVault.disk.database.Normal textCodec callVault.encKey :=
  normal_of_written fun _ hrow => ⟨callSession, List.mem_singleton.mp hrow⟩

/-- A change in which nothing fails keeps the call. -/
theorem changeKeeps_callVault :
    ChangeKeeps textCodec Faults.none "new password" (List.replicate saltSize 2) 0 callVault :=
  (changeKeeps_iff primaryKeys_callVault (Or.inl normal_callVault)).mpr fun _ =>
    ⟨normal_callVault, databaseIntact_none⟩

/-- The run in which the array of the first message's calls cannot be allocated. -/
def lostCalls : Faults ChangeSite := fun site =>
  decide (site = .reencrypt (.load 0 (.messages (.toolCalls 0))))

/-- That run commits, and the call is gone. -/
theorem not_changeKeeps_lostCalls :
    ¬ ∀ (fail : Faults ChangeSite) (v : Vault), v.disk.database.PrimaryKeys →
        v.disk.database.SealedUnder v.encKey →
        ChangeKeeps textCodec fail "new password" (List.replicate saltSize 2) 0 v := by
  intro h
  have hsealed : callVault.disk.database.SealedUnder callVault.encKey := by
    refine ⟨fun row hrow t ht => ?_, fun _ hrow => absurd hrow List.not_mem_nil⟩
    rw [List.mem_singleton.mp hrow] at ht
    simp only [SessionRow.tokens, sessionRow, titleColumn, callSession, if_true, Option.toList_none,
      Option.toList_some, List.nil_append, List.cons_append, List.mem_cons, List.not_mem_nil,
      or_false] at ht
    rcases ht with rfl | rfl | rfl <;> exact ⟨_, rfl⟩
  obtain ⟨-, hpreserves⟩ := h lostCalls callVault primaryKeys_callVault hsealed
  have hrun : (run (migrationPerformChange textCodec lostCalls "new password"
        (List.replicate saltSize 2) 0) callVault).1 ≠ -1 ∧
      (loadSessionLocked textCodec Faults.none
        (run (migrationPerformChange textCodec lostCalls "new password"
          (List.replicate saltSize 2) 0) callVault).2.encKey
        (run (migrationPerformChange textCodec lostCalls "new password"
          (List.replicate saltSize 2) 0) callVault).2.disk.database.sessions
        "session_1").map Session.messages ≠
      (loadSessionLocked textCodec Faults.none callVault.encKey callVault.disk.database.sessions
        "session_1").map Session.messages := by
    decide +kernel
  obtain ⟨hcommitted, hlost⟩ := hrun
  exact hlost (congrArg _ ((hpreserves hcommitted).sessions "session_1"))

end EchoAi
