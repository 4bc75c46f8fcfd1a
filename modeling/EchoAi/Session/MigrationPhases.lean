import EchoAi.Session.Migration

/-!
# The phases of a password change

At any time the rows of a vault belong to one key, that of a password with one salt.  A change takes
the disk through a few phases, in each of which it is clear from the files which salt this is:

* `Settled`: the salt file holds it, and there is no other salt and no new verifier.
* `Moved`: it was moved to `salt.old`, and the salt file is missing or holds another one.
* `Restored`: it was moved back, and a new verifier may be left over.
* `Pending`: the change was committed under the new key, whose verifier still is or already was
  activated.

Every step of a change and of a recovery leads from one of these to another, and so does a crash
between two steps (`wp_migrationPerformChange`, `wp_migrationCheckAndRecover`), with one exception:
a recovery that starts with a left-over verifier while the database still names the restored salt as
that of the last change (`StaleVerifier`) takes the change for committed and activates the verifier of
a key that is lost.
-/

namespace EchoAi

open Program

/-- The key of a password and a salt in a vault. -/
def vaultKey (pepper salt : Bytes) (password : String) : EncryptionKey := ⟨password, salt ++ pepper⟩

/-! ## Phases -/

/-- The rows belong to the key of `password` and `salt`. -/
structure Belongs (pepper salt : Bytes) (password : String) (d : Disk) : Prop where
  pepperFile : d.files .pepper = some (.bytes pepper)
  pepper_ne : pepper ≠ []
  pepper_le : pepper.length ≤ saltPepperMax
  salt_length : salt.length = saltSize
  primaryKeys : d.database.PrimaryKeys
  sealedUnder : d.database.SealedUnder (vaultKey pepper salt password)

/-- No change of the vault is waiting for its verifier: the verifier is that of the rows' key, and a
recorded salt is the rows' salt. -/
structure Uncommitted (pepper salt : Bytes) (password : String) (d : Disk) : Prop extends
    Belongs pepper salt password d where
  verifierFile : d.files .verifier =
    some (.token (encryptionCreateVerifier (vaultKey pepper salt password)))
  state : d.database.migrationState = none ∨ d.database.migrationState = some salt

/-- The salt is in place, and nothing of a change is left but perhaps its marker. -/
structure Settled (pepper salt : Bytes) (password : String) (d : Disk) : Prop extends
    Uncommitted pepper salt password d where
  saltFile : d.files .salt = some (.bytes salt)
  oldSaltFile : d.files .oldSalt = none
  verifierNewFile : d.files .verifierNew = none

/-- The salt was moved away, and another one may have taken its place. -/
structure Moved (pepper salt : Bytes) (password : String) (d : Disk) : Prop extends
    Uncommitted pepper salt password d where
  markerFile : d.exists? .marker = true
  oldSaltFile : d.files .oldSalt = some (.bytes salt)
  saltFile : ∀ c, d.files .salt = some c → ∃ t, c = .bytes t ∧ t ≠ salt ∧ t.length ≤ saltSize

/-- The salt was moved back, and a new verifier may be left. -/
structure Restored (pepper salt : Bytes) (password : String) (d : Disk) : Prop extends
    Uncommitted pepper salt password d where
  markerFile : d.exists? .marker = true
  saltFile : d.files .salt = some (.bytes salt)
  oldSaltFile : d.files .oldSalt = none

/-- The change to this salt was committed; its verifier is new or already in place. -/
structure Pending (pepper salt : Bytes) (password : String) (d : Disk) : Prop extends
    Belongs pepper salt password d where
  markerFile : d.exists? .marker = true
  state : d.database.migrationState = some salt
  saltFile : d.files .salt = some (.bytes salt)
  verifierNewFile :
    d.files .verifierNew =
      some (.token (encryptionCreateVerifier (vaultKey pepper salt password))) ∨
    d.files .verifierNew = none ∧ d.files .verifier =
      some (.token (encryptionCreateVerifier (vaultKey pepper salt password)))

/-- The phases in which no change was committed. -/
def Resting (pepper salt : Bytes) (password : String) (d : Disk) : Prop :=
  Settled pepper salt password d ∨ Moved pepper salt password d ∨ Restored pepper salt password d

/-- The phases in which a change was committed. -/
def Changed (pepper salt : Bytes) (password : String) (d : Disk) : Prop :=
  Pending pepper salt password d ∨ Settled pepper salt password d

/-- A recovery finds a verifier that is left over from a change that was undone, next to the salt of
the last change. -/
def StaleVerifier (d : Disk) : Prop :=
  d.exists? .marker = true ∧ d.exists? .verifierNew = true ∧ d.exists? .oldSalt = false ∧
    ∃ salt, d.files .salt = some (.bytes salt) ∧ d.database.migrationState = some salt

section Phases

variable {pepper salt : Bytes} {password : String} {d : Disk}

/-- The files that a change moves while it is not committed. -/
def VaultFile.moves : VaultFile → Bool
  | .pepper => false
  | .verifier => false
  | _ => true

theorem Belongs.set (h : Belongs pepper salt password d) {f : VaultFile} (hf : f ≠ .pepper)
    (c : Option Contents) : Belongs pepper salt password (d.set f c) :=
  { h with pepperFile := (d.files_set_ne hf.symm c).trans h.pepperFile }

theorem Uncommitted.set (h : Uncommitted pepper salt password d) {f : VaultFile}
    (hf : f.moves = true) (c : Option Contents) : Uncommitted pepper salt password (d.set f c) := by
  have hpepper : f ≠ .pepper := by
    rintro rfl
    exact Bool.noConfusion hf
  have hverifier : f ≠ .verifier := by
    rintro rfl
    exact Bool.noConfusion hf
  exact { h.toBelongs.set hpepper c with
    verifierFile := (d.files_set_ne hverifier.symm c).trans h.verifierFile
    state := h.state }

theorem Settled.set_marker (h : Settled pepper salt password d) (c : Option Contents) :
    Settled pepper salt password (d.set .marker c) :=
  { h.toUncommitted.set rfl c with
    saltFile := h.saltFile
    oldSaltFile := h.oldSaltFile
    verifierNewFile := h.verifierNewFile }

/-- Moving the salt away starts the change. -/
theorem Settled.moveSalt (h : Settled pepper salt password d) (hmarker : d.exists? .marker = true) :
    Moved pepper salt password ((d.set .oldSalt (some (.bytes salt))).set .salt none) :=
  { (h.toUncommitted.set (f := .oldSalt) rfl _).set (f := .salt) rfl none with
    markerFile := hmarker
    oldSaltFile := rfl
    saltFile := fun c hc => absurd hc (by simp) }

theorem Moved.set_salt (h : Moved pepper salt password d) {c : Option Contents}
    (hc : ∀ c', c = some c' → ∃ t, c' = .bytes t ∧ t ≠ salt ∧ t.length ≤ saltSize) :
    Moved pepper salt password (d.set .salt c) :=
  { h.toUncommitted.set rfl c with
    markerFile := h.markerFile
    oldSaltFile := h.oldSaltFile
    saltFile := fun c' hc' => hc c' ((d.files_set_self .salt c).symm.trans hc') }

theorem Moved.set_verifierNew (h : Moved pepper salt password d) (c : Option Contents) :
    Moved pepper salt password (d.set .verifierNew c) :=
  { h.toUncommitted.set rfl c with
    markerFile := h.markerFile
    oldSaltFile := h.oldSaltFile
    saltFile := h.saltFile }

/-- Moving the salt back ends the change. -/
theorem Moved.moveBack (h : Moved pepper salt password d) :
    Restored pepper salt password ((d.set .salt (some (.bytes salt))).set .oldSalt none) :=
  { (h.toUncommitted.set (f := .salt) rfl _).set (f := .oldSalt) rfl none with
    markerFile := h.markerFile
    saltFile := rfl
    oldSaltFile := rfl }

theorem Restored.set_verifierNew (h : Restored pepper salt password d) :
    Settled pepper salt password (d.set .verifierNew none) :=
  { h.toUncommitted.set rfl none with
    saltFile := h.saltFile
    oldSaltFile := h.oldSaltFile
    verifierNewFile := rfl }

theorem Restored.settled (h : Restored pepper salt password d)
    (hnew : d.files .verifierNew = none) : Settled pepper salt password d :=
  { h.toUncommitted with saltFile := h.saltFile, oldSaltFile := h.oldSaltFile, verifierNewFile := hnew }

theorem Settled.set_verifierNew (h : Settled pepper salt password d) :
    Settled pepper salt password (d.set .verifierNew none) :=
  { h.toUncommitted.set rfl none with
    saltFile := h.saltFile
    oldSaltFile := h.oldSaltFile
    verifierNewFile := rfl }

theorem Settled.set_oldSalt (h : Settled pepper salt password d) :
    Settled pepper salt password (d.set .oldSalt none) :=
  { h.toUncommitted.set rfl none with
    saltFile := h.saltFile
    oldSaltFile := rfl
    verifierNewFile := h.verifierNewFile }

theorem Resting.set_verifierNew (h : Resting pepper salt password d) :
    Resting pepper salt password (d.set .verifierNew none) := by
  rcases h with h | h | h
  · exact Or.inl h.set_verifierNew
  · exact Or.inr (Or.inl (h.set_verifierNew none))
  · exact Or.inl h.set_verifierNew

theorem Pending.set_oldSalt (h : Pending pepper salt password d) :
    Pending pepper salt password (d.set .oldSalt none) :=
  { h.toBelongs.set (by decide) none with
    markerFile := h.markerFile
    state := h.state
    saltFile := h.saltFile
    verifierNewFile := h.verifierNewFile }

/-- Activating the verifier of a committed change. -/
theorem Pending.activate (h : Pending pepper salt password d) {c : Contents}
    (hc : d.files .verifierNew = some c) :
    Pending pepper salt password ((d.set .verifier (some c)).set .verifierNew none) ∧
      ((d.set .verifier (some c)).set .verifierNew none).files .verifierNew = none := by
  have hverifier : c = .token (encryptionCreateVerifier (vaultKey pepper salt password)) := by
    rcases h.verifierNewFile with hnew | hnew
    · exact Option.some.inj (hc.symm.trans hnew)
    · exact absurd (hc.symm.trans hnew.1) (by simp)
  refine ⟨?_, rfl⟩
  exact { (h.toBelongs.set (f := .verifier) (by decide) _).set (f := .verifierNew) (by decide) none
    with
    markerFile := h.markerFile
    state := h.state
    saltFile := h.saltFile
    verifierNewFile := Or.inr ⟨rfl, by rw [← hverifier]; rfl⟩ }

/-- A committed change whose verifier is in place and whose old salt is gone needs its marker no
longer. -/
theorem Pending.settled (h : Pending pepper salt password d)
    (hnew : d.files .verifierNew = none) (hold : d.files .oldSalt = none)
    (c : Option Contents) : Settled pepper salt password (d.set .marker c) := by
  have hverifier : d.files .verifier =
      some (.token (encryptionCreateVerifier (vaultKey pepper salt password))) := by
    rcases h.verifierNewFile with hnew' | hnew'
    · exact absurd (hnew.symm.trans hnew') (by simp)
    · exact hnew'.2
  exact { h.toBelongs.set (f := .marker) (by decide) c with
    verifierFile := hverifier
    state := Or.inr h.state
    saltFile := h.saltFile
    oldSaltFile := hold
    verifierNewFile := hnew }

end Phases

/-! ## Steps that undo a change -/

section Steps

variable {pepper salt : Bytes} {password : String} {v : Vault}

/-- Putting the old files back keeps the vault resting, however far it gets. -/
theorem wp_restoreOldFiles {fail : Faults RestoreSite} (h : Resting pepper salt password v.disk) :
    wp (fun v => Resting pepper salt password v.disk) (restoreOldFiles fail)
      (fun _ v => Resting pepper salt password v.disk) v := by
  refine wp_bind_of (R := fun renamed v' => Resting pepper salt password v'.disk ∧
    (renamed = true → Restored pepper salt password v'.disk)) ?_ ?_
  · refine wp_renameFile h (fun _ => ⟨h, fun hfalse => Bool.noConfusion hfalse⟩) fun c _ hc => ?_
    rcases h with h | h | h
    · exact absurd (h.oldSaltFile.symm.trans hc) (by simp)
    · rw [← Option.some.inj (h.oldSaltFile.symm.trans hc)]
      exact ⟨Or.inr (Or.inr h.moveBack), Or.inr (Or.inr h.moveBack), fun _ => h.moveBack⟩
    · exact absurd (h.oldSaltFile.symm.trans hc) (by simp)
  rintro renamed v' ⟨h', hrenamed⟩
  refine wp_bind_of (R := fun removed v'' => Resting pepper salt password v''.disk ∧
    ((renamed && removed) = true → Settled pepper salt password v''.disk)) ?_ ?_
  · refine wp_removeIfExists h' (fun _ => ⟨h', fun hand => ?_⟩) fun _ => ?_
    · rw [Bool.and_false] at hand
      exact Bool.noConfusion hand
    · refine ⟨h'.set_verifierNew, h'.set_verifierNew, fun hand => ?_⟩
      rw [Bool.and_true] at hand
      exact (hrenamed hand).set_verifierNew
  rintro removed v'' ⟨h'', hboth⟩
  split
  · next hand =>
    refine wp_andThen_of (R := fun _ v => Resting pepper salt password v.disk)
      (wp_removeIfExists h'' (fun _ => h'') fun _ => ?_) (fun _ h => h) fun _ h => wp_sync h h
    exact ⟨Or.inl ((hboth hand).set_marker none), Or.inl ((hboth hand).set_marker none)⟩
  · exact wp_pure h'' h''

theorem wp_finalizeUncommitted {fail : Faults RecoverSite}
    (h : Resting pepper salt password v.disk) :
    wp (fun v => Resting pepper salt password v.disk) (finalizeUncommitted fail v.disk)
      (fun ok v' => Resting pepper salt password v'.disk ∧
        (ok = true → Settled pepper salt password v'.disk)) v := by
  have hno : ∀ {v' : Vault}, false = true → Settled pepper salt password v'.disk := fun hfalse =>
    Bool.noConfusion hfalse
  unfold finalizeUncommitted
  split
  · next hold =>
    rcases h with h | h | h
    · exact absurd hold (by simp [Disk.exists?, h.oldSaltFile])
    · have hrest : Resting pepper salt password v.disk := Or.inr (Or.inl h)
      refine wp_andThen_of (R := fun renamed v' => Resting pepper salt password v'.disk ∧
        (renamed = true → Restored pepper salt password v'.disk)) ?_ ?_ ?_
      · refine wp_renameFile hrest (fun _ => ⟨hrest, fun hfalse => Bool.noConfusion hfalse⟩)
          fun c _ hc => ?_
        rw [← Option.some.inj (h.oldSaltFile.symm.trans hc)]
        exact ⟨Or.inr (Or.inr h.moveBack), Or.inr (Or.inr h.moveBack), fun _ => h.moveBack⟩
      · exact fun v' h' => ⟨h'.1, hno⟩
      · intro v' h'
        have hsettled := (h'.2 rfl).set_verifierNew
        exact wp_removeIfExists h'.1 (fun _ => ⟨h'.1, hno⟩)
          fun _ => ⟨Or.inl hsettled, Or.inl hsettled, fun _ => hsettled⟩
    · exact absurd hold (by simp [Disk.exists?, h.oldSaltFile])
  · next hold =>
    split
    · exact wp_pure h ⟨h, hno⟩
    · have hsettled : Settled pepper salt password (v.disk.set .verifierNew none) := by
        rcases h with h | h | h
        · exact h.set_verifierNew
        · exact absurd (by simp [Disk.exists?, h.oldSaltFile]) hold
        · exact h.set_verifierNew
      exact wp_removeIfExists h (fun _ => ⟨h, hno⟩)
        fun _ => ⟨Or.inl hsettled, Or.inl hsettled, fun _ => hsettled⟩

/-! ## Steps that complete a change -/

theorem wp_finalizeCommitted_settled {fail : Faults RecoverSite}
    (h : Settled pepper salt password v.disk) :
    wp (fun v => Settled pepper salt password v.disk) (finalizeCommitted fail v.disk)
      (fun _ v' => Settled pepper salt password v'.disk) v := by
  have hnew : ¬ v.disk.exists? .verifierNew = true := by
    simp [Disk.exists?, h.verifierNewFile]
  rw [finalizeCommitted, if_neg hnew]
  split
  · exact wp_pure h h
  · refine wp_andThen_of (R := fun _ v => Settled pepper salt password v.disk) (wp_pure h h)
      (fun _ h => h) fun v' h' => ?_
    exact wp_removeIfExists h' (fun _ => h') fun _ => ⟨h'.set_oldSalt, h'.set_oldSalt⟩

theorem wp_finalizeCommitted_pending {fail : Faults RecoverSite}
    (h : Pending pepper salt password v.disk) :
    wp (fun v => Pending pepper salt password v.disk) (finalizeCommitted fail v.disk)
      (fun ok v' => Pending pepper salt password v'.disk ∧
        (ok = true → v'.disk.files .verifierNew = none ∧ v'.disk.files .oldSalt = none)) v := by
  have hno : ∀ {v' : Vault}, false = true →
      v'.disk.files .verifierNew = none ∧ v'.disk.files .oldSalt = none := fun hfalse =>
    Bool.noConfusion hfalse
  unfold finalizeCommitted
  split
  · exact wp_pure h ⟨h, hno⟩
  · refine wp_andThen_of (R := fun ok v' => Pending pepper salt password v'.disk ∧
      (ok = true → v'.disk.files .verifierNew = none)) ?_ (fun v' h' => ⟨h'.1, hno⟩) ?_
    · split
      · exact wp_renameFile h (fun _ => ⟨h, fun hfalse => Bool.noConfusion hfalse⟩)
          fun c _ hc => ⟨(h.activate hc).1, (h.activate hc).1, fun _ => (h.activate hc).2⟩
      · next hnew =>
        refine wp_pure h ⟨h, fun _ => ?_⟩
        rw [Disk.exists?, Option.isSome_iff_ne_none, not_not] at hnew
        exact hnew
    · intro v' h'
      refine wp_removeIfExists h'.1 (fun _ => ⟨h'.1, hno⟩) fun _ => ?_
      exact ⟨h'.1.set_oldSalt, h'.1.set_oldSalt, fun _ => ⟨h'.2 rfl, rfl⟩⟩

/-! ## Recovery -/

/-- A recovery keeps an invariant when putting the files in order does and what that achieves
survives the removal of the marker. -/
theorem wp_migrationFinalizeRecovery {I : Vault → Prop} {S : Vault → Prop}
    {fail : Faults RecoverSite} {committed : Bool}
    (hfiles : wp I (if committed then finalizeCommitted fail v.disk
      else finalizeUncommitted fail v.disk) (fun ok v' => I v' ∧ (ok = true → S v')) v)
    (hmarker : ∀ v', S v' → I (v'.set .marker none)) :
    wp I (migrationFinalizeRecovery fail committed) (fun _ => I) v := by
  refine wp_get_bind (wp_bind_of (R := fun _ => I) ?_ ?_)
  · refine wp_andThen_of hfiles (fun _ h => h.1) fun v' h => ?_
    refine wp_andThen_of (R := fun _ => I) ?_ (fun _ h => h) fun _ h => wp_sync h h
    exact wp_removeIfExists h.1 (fun _ => h.1) fun _ =>
      ⟨hmarker v' (h.2 rfl), hmarker v' (h.2 rfl)⟩
  · intro ok v' h
    split <;> exact wp_pure h h

/-- A recovery keeps an invariant when restoring does, in case there is no salt, and when acting on
its decision does, in case there is one.  A decision for the change is only taken on the database's
word. -/
theorem wp_migrationCheckAndRecover {I : Vault → Prop} {fail : Faults RecoverSite}
    {password : String} (h : I v)
    (hrestore : v.disk.exists? .salt = false →
      wp I (restoreOldFiles (fail.within .restore)) (fun _ => I) v)
    (hdecision : ∀ committed, recoveryDecision fail v.disk password = some committed →
      (committed = true → v.disk.database.migrationState.isNone = false) ∧
        wp I (migrationFinalizeRecovery fail committed) (fun _ => I) v) :
    wp I (migrationCheckAndRecover fail password) (fun _ => I) v := by
  unfold migrationCheckAndRecover
  split
  · exact wp_pure h h
  refine wp_get_bind ?_
  split
  · exact wp_pure h h
  split
  · next hsalt =>
    split
    · exact wp_pure h h
    · refine wp_bind_of (hrestore (by simpa using hsalt)) fun ok v' h' => ?_
      split <;> exact wp_pure h' h'
  cases hd : recoveryDecision fail v.disk password with
  | none => exact wp_pure h h
  | some committed =>
    obtain ⟨hstate, hfinalize⟩ := hdecision committed hd
    have hrecreate : ¬ (committed && v.disk.database.migrationState.isNone &&
        !v.disk.exists? .verifierNew) = true := by
      cases committed with
      | false => simp
      | true => simp [hstate rfl]
    dsimp only
    rw [if_neg hrecreate]
    exact hfinalize

/-! ## The decision of a recovery -/

theorem deriveKey_eq_some {d : Disk} {f : VaultFile} {password' : String} {t : Bytes}
    {key : EncryptionKey} (hb : Belongs pepper salt password d) (hf : d.files f = some (.bytes t))
    (h : d.deriveKey f password' = some key) : key = vaultKey pepper t password' := by
  simp only [Disk.deriveKey, Disk.loadBytes_of_le hb.pepperFile hb.pepper_le, Option.bind_eq_bind,
    Option.bind_some, Option.bind_eq_some_iff] at h
  obtain ⟨t', ht', hkey⟩ := h
  rw [encryptionKeyDerive_eq_some hkey, Disk.eq_of_loadBytes hf ht', vaultKey]

theorem exists_row_of_mem_sessionTokens {db : Database} {t : Token} (h : t ∈ db.sessionTokens) :
    ∃ row ∈ db.sessions, t ∈ row.tokens := by
  simp only [Database.sessionTokens, List.mem_append, List.mem_filterMap] at h
  simp only [SessionRow.tokens, List.mem_append, Option.mem_toList]
  rcases h with ((⟨row, hrow, ht⟩ | ⟨row, hrow, ht⟩) | ⟨row, hrow, ht⟩) | ⟨row, hrow, ht⟩
  · exact ⟨row, hrow, Or.inl (Or.inl (Or.inl ht))⟩
  · exact ⟨row, hrow, Or.inl (Or.inl (Or.inr ht))⟩
  · exact ⟨row, hrow, Or.inl (Or.inr ht)⟩
  · exact ⟨row, hrow, Or.inr ht⟩

/-- Every token that the evidence looks at is sealed under the vault's key. -/
theorem Belongs.sealed_of_mem_sessionTokens {d : Disk} (h : Belongs pepper salt password d)
    {t : Token} (ht : t ∈ d.database.sessionTokens) :
    ∃ text, t = .sealed (vaultKey pepper salt password) text := by
  obtain ⟨row, hrow, ht'⟩ := exists_row_of_mem_sessionTokens ht
  exact h.sealedUnder.1 row hrow t ht'

/-- A salt file with other bytes speaks for no change: its key opens nothing. -/
theorem evidence_of_otherSalt {d : Disk} {failed : Bool} {password' : String} {t : Bytes}
    {e : KeyEvidence} (h : Uncommitted pepper salt password d)
    (hf : d.files .salt = some (.bytes t)) (ht : t ≠ salt)
    (he : legacyKeyEvidence failed d .salt password' = some e) :
    e.databaseMatch = false ∧ e.verifierMatch = false := by
  simp only [legacyKeyEvidence, Option.bind_eq_bind, Option.bind_eq_some_iff, Option.pure_def,
    Option.some_inj] at he
  obtain ⟨-, -, key, hkey, rfl⟩ := he
  have hkey' : vaultKey pepper salt password ≠ key := by
    rw [deriveKey_eq_some h.toBelongs hf hkey, vaultKey, vaultKey, Ne, EncryptionKey.mk.injEq,
      not_and]
    exact fun _ heq => ht (List.append_cancel_right heq).symm
  constructor
  · cases hhead : d.database.sessionTokens.head? with
    | none => rfl
    | some tok =>
      obtain ⟨text, rfl⟩ := h.sealed_of_mem_sessionTokens (List.mem_of_head? hhead)
      rw [Option.bind_some, encryptionDecrypt, if_neg hkey']
      rfl
  · rw [Bool.eq_false_iff]
    intro hv
    rw [encryptionCheckVerifier_iff, Disk.loadToken, h.verifierFile, Option.map_some,
      Option.some_inj, Contents.asToken, encryptionCreateVerifier, encryptionCreateVerifier,
      Token.sealed.injEq] at hv
    exact hkey' hv.1

/-- A recovery of a vault whose salt was moved never takes the change for committed. -/
theorem Moved.decision {d : Disk} {fail : Faults RecoverSite} {password' : String}
    {committed : Bool} (h : Moved pepper salt password d)
    (hd : recoveryDecision fail d password' = some committed) : committed = false := by
  simp only [recoveryDecision, Option.bind_eq_bind, Option.bind_eq_some_iff] at hd
  obtain ⟨-, -, t, ht, -, -, hd⟩ := hd
  obtain ⟨hfile, hne⟩ : d.files .salt = some (.bytes t) ∧ t ≠ salt := by
    cases hc : d.files .salt with
    | none =>
      rw [Disk.loadBytes, hc] at ht
      exact absurd ht (by simp [encryptionSaltLoad])
    | some c =>
      obtain ⟨t', rfl, hne, -⟩ := h.saltFile c hc
      rw [Disk.eq_of_loadBytes hc ht]
      exact ⟨rfl, hne⟩
  have hold : d.exists? .oldSalt = true := by rw [Disk.exists?, h.oldSaltFile]; rfl
  rw [hold, Bool.and_true] at hd
  rcases h.state with hstate | hstate
  · rw [hstate, Option.isNone_none, if_pos rfl] at hd
    simp only [Option.bind_eq_some_iff] at hd
    obtain ⟨current, hcurrent, old, -, hdecide⟩ := hd
    obtain ⟨hdb, hver⟩ := evidence_of_otherSalt h.toUncommitted hfile hne hcurrent
    rw [evidenceCommitted, hdb, hver] at hdecide
    split at hdecide
    · split at hdecide
      · exact absurd hdecide (by simp)
      · exact (Option.some.inj hdecide).symm
    · split at hdecide
      · exact (Option.some.inj hdecide).symm
      · exact absurd hdecide (by simp)
  · rw [hstate, Option.isNone_some, if_neg (by simp), Option.pure_def, Option.some_inj] at hd
    rw [← hd, beq_eq_false_iff_ne]
    exact fun heq => hne (Option.some.inj heq).symm

/-- With one salt only, a recovery takes the change for committed on the database's word. -/
theorem decision_of_oneSalt {d : Disk} {fail : Faults RecoverSite} {password' : String}
    (hold : d.files .oldSalt = none) (hsalt : d.files .salt = some (.bytes salt))
    (hd : recoveryDecision fail d password' = some true) :
    d.database.migrationState = some salt := by
  simp only [recoveryDecision, Option.bind_eq_bind, Option.bind_eq_some_iff] at hd
  obtain ⟨-, -, t, ht, -, -, hd⟩ := hd
  have hexists : d.exists? .oldSalt = false := by rw [Disk.exists?, hold]; rfl
  rw [hexists, Bool.and_false, if_neg (by simp), Option.pure_def, Option.some_inj,
    beq_iff_eq] at hd
  rw [hd, Disk.eq_of_loadBytes hsalt ht]

/-- **A recovery of a vault at rest leaves it at rest**, wherever it is cut off, unless it starts on a
stale verifier. -/
theorem wp_migrationCheckAndRecover_resting {fail : Faults RecoverSite} {password' : String}
    (h : Resting pepper salt password v.disk) (hstale : ¬ StaleVerifier v.disk) :
    wp (fun v => Resting pepper salt password v.disk) (migrationCheckAndRecover fail password')
      (fun _ v => Resting pepper salt password v.disk) v := by
  refine wp_migrationCheckAndRecover h (fun _ => wp_restoreOldFiles h) fun committed hd => ?_
  cases committed with
  | false =>
    refine ⟨fun hfalse => Bool.noConfusion hfalse, ?_⟩
    exact wp_migrationFinalizeRecovery (S := fun v => Settled pepper salt password v.disk)
      (wp_finalizeUncommitted h) fun v' h' => Or.inl (h'.set_marker none)
  | true =>
    have hsettled : Settled pepper salt password v.disk ∧
        v.disk.database.migrationState = some salt := by
      rcases h with h | h | h
      · exact ⟨h, decision_of_oneSalt h.oldSaltFile h.saltFile hd⟩
      · exact Bool.noConfusion (h.decision hd)
      · have hstate := decision_of_oneSalt h.oldSaltFile h.saltFile hd
        have hold : v.disk.exists? .oldSalt = false := by rw [Disk.exists?, h.oldSaltFile]; rfl
        have hnew : v.disk.files .verifierNew = none := by
          by_contra hnew
          rw [← Ne, ← Option.isSome_iff_ne_none] at hnew
          exact hstale ⟨h.markerFile, hnew, hold, salt, h.saltFile, hstate⟩
        exact ⟨h.settled hnew, hstate⟩
    refine ⟨fun _ => by rw [hsettled.2]; rfl, ?_⟩
    refine wp_mono (C := fun v => Settled pepper salt password v.disk) (fun _ h => Or.inl h)
      (fun _ _ h => Or.inl h) (wp_migrationFinalizeRecovery
        (S := fun v => Settled pepper salt password v.disk) ?_ fun v' h' => h'.set_marker none)
    exact wp_mono (fun _ h => h) (fun _ _ h => ⟨h, fun _ => h⟩)
      (wp_finalizeCommitted_settled hsettled.1)

/-- **A recovery of a committed change completes it**, or leaves it to the next one. -/
theorem wp_migrationCheckAndRecover_pending {fail : Faults RecoverSite} {password' : String}
    (h : Pending pepper salt password v.disk) :
    wp (fun v => Changed pepper salt password v.disk) (migrationCheckAndRecover fail password')
      (fun _ v => Changed pepper salt password v.disk) v := by
  have hexists : v.disk.exists? .salt = true := by rw [Disk.exists?, h.saltFile]; rfl
  refine wp_migrationCheckAndRecover (Or.inl h)
    (fun hno => absurd (hno.symm.trans hexists) (by simp)) fun committed hd => ?_
  have hcommitted : committed = true := by
    simp only [recoveryDecision, Option.bind_eq_bind, Option.bind_eq_some_iff, h.state,
      Option.isNone_some, Bool.false_and, Bool.false_eq_true, if_false, Option.pure_def,
      Option.some_inj] at hd
    obtain ⟨-, -, t, ht, -, -, hd⟩ := hd
    rw [← hd, Disk.eq_of_loadBytes h.saltFile ht, beq_self_eq_true]
  subst hcommitted
  refine ⟨fun _ => by rw [h.state]; rfl, ?_⟩
  refine wp_migrationFinalizeRecovery
    (S := fun v => Pending pepper salt password v.disk ∧ v.disk.files .verifierNew = none ∧
      v.disk.files .oldSalt = none) ?_ fun v' h' => Or.inr (h'.1.settled h'.2.1 h'.2.2 none)
  rw [if_pos rfl]
  exact wp_mono (fun _ h => Or.inl h) (fun _ _ h => ⟨Or.inl h.1, fun hok => ⟨h.1, h.2 hok⟩⟩)
    (wp_finalizeCommitted_pending h)

/-! ## The change -/

section Change

variable {codec : JsonCodec} {fail : Faults ChangeSite} {fresh : Bytes} {newPassword : String}

/-- Where a change from one key to another may leave the disk. -/
def ChangePhase (pepper salt : Bytes) (password : String) (fresh : Bytes) (newPassword : String)
    (d : Disk) : Prop :=
  Resting pepper salt password d ∨ Changed pepper fresh newPassword d

theorem wp_changeRestore {oldKey : EncryptionKey} (h : Resting pepper salt password v.disk) :
    wp (fun v => ChangePhase pepper salt password fresh newPassword v.disk)
      (changeRestore fail oldKey)
      (fun _ v => ChangePhase pepper salt password fresh newPassword v.disk) v := by
  refine wp_modify_bind (Or.inl h) (wp_bind_of (R := fun _ v' =>
    Resting pepper salt password v'.disk) ?_ fun _ v' h' => wp_pure (Or.inl h') (Or.inl h'))
  exact wp_mono (fun _ h => Or.inl h) (fun _ _ h => h) (wp_restoreOldFiles h)

/-- After its commit a change activates the verifier or leaves that to a recovery. -/
theorem wp_changeActivate (h : Pending pepper fresh newPassword v.disk) :
    wp (fun v => Changed pepper fresh newPassword v.disk) (changeActivate fail newPassword)
      (fun _ v => Changed pepper fresh newPassword v.disk) v := by
  refine wp_bind_of (R := fun ok v' => Pending pepper fresh newPassword v'.disk ∧
    (ok = true → v'.disk.files .verifierNew = none)) ?_ ?_
  · refine wp_andThen_of (R := fun ok v' => Pending pepper fresh newPassword v'.disk ∧
      (ok = true → v'.disk.files .verifierNew = none)) ?_ (fun _ h => h)
      fun v' h' => wp_sync (Or.inl h'.1) ⟨h'.1, fun _ => h'.2 rfl⟩
    exact wp_renameFile (Or.inl h) (fun _ => ⟨h, fun hfalse => Bool.noConfusion hfalse⟩)
      fun c _ hc => ⟨Or.inl (h.activate hc).1, (h.activate hc).1, fun _ => (h.activate hc).2⟩
  rintro ok v' ⟨h', hnew⟩
  cases ok with
  | false =>
    refine wp_bind_of (wp_migrationCheckAndRecover_pending h') fun rc v'' h'' => ?_
    split <;> exact wp_pure h'' h''
  | true =>
    refine wp_bind_of (R := fun _ v => Changed pepper fresh newPassword v.disk) ?_
      fun _ v'' h'' => wp_pure h'' h''
    refine wp_andThen_of (R := fun ok v'' => Pending pepper fresh newPassword v''.disk ∧
      (ok = true → v''.disk.files .verifierNew = none ∧ v''.disk.files .oldSalt = none)) ?_
      (fun _ h'' => Or.inl h''.1) fun v'' h'' => ?_
    · exact wp_removeIfExists (Or.inl h') (fun _ => ⟨h', fun hfalse => Bool.noConfusion hfalse⟩)
        fun _ => ⟨Or.inl h'.set_oldSalt, h'.set_oldSalt, fun _ => ⟨hnew rfl, rfl⟩⟩
    · have hsettled := h''.1.settled (h''.2 rfl).1 (h''.2 rfl).2 none
      refine wp_andThen_of (R := fun _ v => Changed pepper fresh newPassword v.disk) ?_
        (fun _ h => h) fun _ h => wp_sync h h
      exact wp_removeIfExists (Or.inl h''.1) (fun _ => Or.inl h''.1)
        fun _ => ⟨Or.inr hsettled, Or.inr hsettled⟩

/-- The transaction of a change for which the new salt and the new verifier are in place. -/
theorem wp_changeTransaction {oldKey : EncryptionKey} (h : Moved pepper salt password v.disk)
    (hlength : fresh.length = saltSize) (hsalt : v.disk.files .salt = some (.bytes fresh))
    (hnew : v.disk.files .verifierNew =
      some (.token (encryptionCreateVerifier (vaultKey pepper fresh newPassword)))) :
    wp (fun v => ChangePhase pepper salt password fresh newPassword v.disk)
      (changeTransaction codec fail newPassword oldKey (vaultKey pepper fresh newPassword) fresh)
      (fun _ v => ChangePhase pepper salt password fresh newPassword v.disk) v := by
  have hrest : Resting pepper salt password v.disk := Or.inr (Or.inl h)
  unfold changeTransaction
  split
  · exact wp_changeRestore hrest
  refine wp_get_bind (wp_modify_bind (Or.inl hrest) ?_)
  split
  · exact wp_changeRestore hrest
  next db hdb =>
    split
    · exact wp_changeRestore hrest
    obtain ⟨hsealed, hkeys, hstate⟩ := sealedUnder_reencrypt h.primaryKeys hdb
    have hpending : Pending pepper fresh newPassword { v.disk with database := db } :=
      { pepperFile := h.pepperFile
        pepper_ne := h.pepper_ne
        pepper_le := h.pepper_le
        salt_length := hlength
        primaryKeys := hkeys
        sealedUnder := hsealed
        markerFile := h.markerFile
        state := hstate
        saltFile := hsalt
        verifierNewFile := Or.inl hnew }
    refine wp_modify_bind (Or.inl hrest) (wp_modify_bind (Or.inr (Or.inl hpending)) ?_)
    exact wp_mono (fun _ h => Or.inr h) (fun _ _ h => Or.inr h) (wp_changeActivate hpending)

theorem wp_placeMarker (h : Settled pepper salt password v.disk) :
    wp (fun v => Resting pepper salt password v.disk) (placeMarker fail)
      (fun ok v' => Settled pepper salt password v'.disk ∧
        (ok = true → v'.disk.exists? .marker = true)) v := by
  refine wp_andThen_of (R := fun ok v' => Settled pepper salt password v'.disk ∧
    (ok = true → v'.disk.exists? .marker = true)) ?_ (fun _ h => h)
    fun v' h' => wp_sync (Or.inl h'.1) ⟨h'.1, fun _ => h'.2 rfl⟩
  refine wp_createFile ⟨Or.inl h, h, fun hfalse => Bool.noConfusion hfalse⟩
    (fun _ c _ => ?_) fun _ => ?_
  · exact ⟨Or.inl (h.set_marker c), h.set_marker c, fun hfalse => Bool.noConfusion hfalse⟩
  · exact ⟨Or.inl (h.set_marker _), h.set_marker _, fun _ => rfl⟩

theorem wp_moveSalt (h : Settled pepper salt password v.disk)
    (hmarker : v.disk.exists? .marker = true) :
    wp (fun v => Resting pepper salt password v.disk) (moveSalt fail)
      (fun ok v' => Resting pepper salt password v'.disk ∧
        (ok = true → Moved pepper salt password v'.disk)) v := by
  refine wp_andThen_of (R := fun ok v' => Resting pepper salt password v'.disk ∧
    (ok = true → Moved pepper salt password v'.disk)) ?_ (fun _ h => h)
    fun v' h' => wp_sync h'.1 ⟨h'.1, fun _ => h'.2 rfl⟩
  refine wp_renameFile (Or.inl h)
    (fun _ => ⟨Or.inl h, fun hfalse => Bool.noConfusion hfalse⟩) fun c _ hc => ?_
  rw [← Option.some.inj (h.saltFile.symm.trans hc)]
  have hmoved := h.moveSalt hmarker
  exact ⟨Or.inr (Or.inl hmoved), Or.inr (Or.inl hmoved), fun _ => hmoved⟩

/-- No part of a new salt is the old one: a proper part is shorter. -/
theorem take_ne_salt (hsalt : salt.length = saltSize) (hlength : fresh.length = saltSize)
    (hfresh : fresh ≠ salt) (n : Nat) : fresh.take n ≠ salt := by
  intro heq
  have htake : (fresh.take n).length = saltSize := heq ▸ hsalt
  rw [List.length_take, ← hlength] at htake
  rw [List.take_of_length_le (by omega)] at heq
  exact hfresh heq

theorem Moved.set_freshSalt {d : Disk} (h : Moved pepper salt password d)
    (hlength : fresh.length = saltSize) (hfresh : fresh ≠ salt) (n : Nat) :
    Moved pepper salt password (d.set .salt (some (.bytes (fresh.take n)))) := by
  refine h.set_salt fun c hc => ?_
  rw [← Option.some.inj hc]
  refine ⟨_, rfl, take_ne_salt h.salt_length hlength hfresh n, ?_⟩
  rw [List.length_take, hlength]
  exact Nat.min_le_right _ _

theorem wp_placeSalt {written : Nat} (h : Moved pepper salt password v.disk)
    (hlength : fresh.length = saltSize) (hfresh : fresh ≠ salt) :
    wp (fun v => Moved pepper salt password v.disk) (placeSalt fail fresh written)
      (fun ok v' => Moved pepper salt password v'.disk ∧
        (ok = true → v'.disk.files .salt = some (.bytes fresh))) v := by
  refine wp_andThen_of (R := fun ok v' => Moved pepper salt password v'.disk ∧
    (ok = true → v'.disk.files .salt = some (.bytes fresh))) ?_ (fun _ h => h) fun v' h' => ?_
  · refine wp_createFile ⟨h, h, fun hfalse => Bool.noConfusion hfalse⟩ (fun _ c hc => ?_)
      fun _ => ?_
    · have hmoved : Moved pepper salt password (v.disk.set .salt c) := by
        rcases hc with rfl | rfl | rfl
        · exact h.set_salt fun c' hc' => absurd hc' (by simp)
        · exact h.set_freshSalt hlength hfresh 0
        · exact h.set_freshSalt hlength hfresh written
      exact ⟨hmoved, hmoved, fun hfalse => Bool.noConfusion hfalse⟩
    · have hmoved := h.set_freshSalt hlength hfresh fresh.length
      rw [List.take_length] at hmoved
      exact ⟨hmoved, hmoved, fun _ => rfl⟩
  · exact wp_andThen_of (R := fun _ v'' => Moved pepper salt password v''.disk ∧
      v''.disk.files .salt = some (.bytes fresh))
      (wp_sync h'.1 ⟨h'.1, h'.2 rfl⟩) (fun _ h => ⟨h.1, fun _ => h.2⟩)
      fun _ h => wp_sync h.1 ⟨h.1, fun _ => h.2⟩

theorem loadNewKey_eq_some {d : Disk} {loaded : Bytes} {newKey : EncryptionKey}
    (hb : Belongs pepper salt password d) (hsalt : d.files .salt = some (.bytes fresh))
    (h : loadNewKey fail d newPassword = some (loaded, newKey)) :
    loaded = fresh ∧ newKey = vaultKey pepper fresh newPassword := by
  simp only [loadNewKey, Option.bind_eq_bind, Option.bind_eq_some_iff, Option.pure_def,
    Option.some_inj, Prod.mk.injEq] at h
  obtain ⟨-, -, t, ht, -, -, -, -, key, hkey, rfl, rfl⟩ := h
  exact ⟨Disk.eq_of_loadBytes hsalt ht, deriveKey_eq_some hb hsalt hkey⟩

theorem wp_placeVerifier {newKey : EncryptionKey} (h : Moved pepper salt password v.disk)
    (hsalt : v.disk.files .salt = some (.bytes fresh)) :
    wp (fun v => Moved pepper salt password v.disk) (placeVerifier fail newKey)
      (fun ok v' => Moved pepper salt password v'.disk ∧
        v'.disk.files .salt = some (.bytes fresh) ∧ (ok = true →
          v'.disk.files .verifierNew = some (.token (encryptionCreateVerifier newKey)))) v := by
  refine wp_andThen_of (R := fun _ v' => Moved pepper salt password v'.disk ∧
    v'.disk.files .salt = some (.bytes fresh)) ?_
    (fun _ h => ⟨h.1, h.2, fun hfalse => Bool.noConfusion hfalse⟩) fun v' h' => ?_
  · exact wp_removeIfExists h (fun _ => ⟨h, hsalt⟩) fun _ =>
      ⟨h.set_verifierNew none, h.set_verifierNew none, hsalt⟩
  · refine wp_andThen_of (R := fun ok v' => Moved pepper salt password v'.disk ∧
      v'.disk.files .salt = some (.bytes fresh) ∧ (ok = true →
        v'.disk.files .verifierNew = some (.token (encryptionCreateVerifier newKey))))
      ?_ (fun _ h => h) fun _ h => wp_sync h.1 ⟨h.1, h.2.1, fun _ => h.2.2 rfl⟩
    exact wp_createFile ⟨h'.1, h'.1, h'.2, fun hfalse => Bool.noConfusion hfalse⟩
      (fun _ c _ => ⟨h'.1.set_verifierNew c, h'.1.set_verifierNew c, h'.2,
        fun hfalse => Bool.noConfusion hfalse⟩)
      fun _ => ⟨h'.1.set_verifierNew _, h'.1.set_verifierNew _, h'.2, fun _ => rfl⟩

/-- **A password change that starts on a settled vault leaves it in one of the phases**, wherever it
is cut off. -/
theorem wp_migrationPerformChange {written : Nat} (h : Settled pepper salt password v.disk)
    (hlength : fresh.length = saltSize) (hfresh : fresh ≠ salt) :
    wp (fun v => ChangePhase pepper salt password fresh newPassword v.disk)
      (migrationPerformChange codec fail newPassword fresh written)
      (fun _ v => ChangePhase pepper salt password fresh newPassword v.disk) v := by
  have hmovedPhase : ∀ v : Vault, Moved pepper salt password v.disk →
      ChangePhase pepper salt password fresh newPassword v.disk := fun _ h =>
    Or.inl (Or.inr (Or.inl h))
  refine wp_get_bind (wp_bind_of (wp_mono (fun _ h => Or.inl h) (fun _ _ h => h)
    (wp_placeMarker h)) ?_)
  rintro ok v₁ ⟨h₁, hmarker⟩
  cases ok with
  | false => exact wp_pure (Or.inl (Or.inl h₁)) (Or.inl (Or.inl h₁))
  | true =>
  refine wp_bind_of (wp_mono (fun _ h => Or.inl h) (fun _ _ h => h)
    (wp_moveSalt h₁ (hmarker rfl))) ?_
  rintro ok v₂ ⟨h₂, hmoved⟩
  cases ok with
  | false => exact wp_changeRestore h₂
  | true =>
  refine wp_bind_of (wp_mono hmovedPhase (fun _ _ h => h)
    (wp_placeSalt (hmoved rfl) hlength hfresh)) ?_
  rintro ok v₃ ⟨h₃, hsalt⟩
  cases ok with
  | false => exact wp_changeRestore (Or.inr (Or.inl h₃))
  | true =>
  refine wp_get_bind ?_
  cases hload : loadNewKey fail v₃.disk newPassword with
  | none =>
    dsimp only
    exact wp_changeRestore (Or.inr (Or.inl h₃))
  | some loaded =>
  obtain ⟨loaded, newKey⟩ := loaded
  obtain ⟨rfl, rfl⟩ := loadNewKey_eq_some h₃.toBelongs (hsalt rfl) hload
  dsimp only
  refine wp_bind_of (wp_mono hmovedPhase (fun _ _ h => h)
    (wp_placeVerifier h₃ (hsalt rfl))) ?_
  rintro ok v₄ ⟨h₄, hsalt₄, hverifier⟩
  cases ok with
  | false => exact wp_changeRestore (Or.inr (Or.inl h₄))
  | true => exact wp_changeTransaction h₄ hlength hsalt₄ (hverifier rfl)

end Change

end Steps

end EchoAi
