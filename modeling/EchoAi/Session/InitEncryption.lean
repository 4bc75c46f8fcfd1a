import EchoAi.Session.OwnerRecovery

/-!
# Initializing the encryption

A start recovers from a password change, creates salt and pepper when there is no salt yet, derives
the key and checks it against the verifier.  A start that takes the vault for new and fails removes
all three files again, and whether the vault is new is read off the salt alone.

* `initEncryption`: a start, with every operation that may fail named by `InitSite`.
* `wp_createKeyMaterial`, `wp_openVault`: what the two parts of a start leave of the files and when
  they succeed; `files_initCleanup`: what the removal leaves.
* `keyMaterialKept_iff`: a failed start keeps the key material exactly when the vault is not taken
  for new or there is nothing to lose.
-/

namespace EchoAi

open Program

/-! ## The start of a vault -/

/-- The operations of `init_encryption`. -/
inductive InitSite where
  | recover (s : RecoverSite)
  /-- building the three paths -/
  | paths
  /-- building the path of the salt in `encryption_first_run_detect` -/
  | detect
  | createSalt (s : CreateSite)
  | createPepper (s : CreateSite)
  | loadSalt
  | loadPepper
  | deriveKey
  /-- reading the verifier -/
  | checkVerifier
  | createVerifier (s : CreateSite)
  /-- removing a file after a failure -/
  | cleanup (f : VaultFile)
  deriving DecidableEq, Repr

/-- `SessionManagerCreateResult`. -/
inductive SessionManagerCreateResult where
  | ok
  | authFailed
  | storageFailed
  deriving DecidableEq, Repr

/-- The random bytes of a start, and how many of them reach their file first. -/
structure KeyDraw where
  salt : Bytes
  pepper : Bytes
  saltWritten : Nat
  pepperWritten : Nat

/-- `PEPPER_SIZE` -/
def pepperSize : Nat := 32

/-- The draw has the lengths that are asked for. -/
def KeyDraw.Sized (draw : KeyDraw) : Prop :=
  draw.salt.length = saltSize ∧ draw.pepper.length = pepperSize

/-- `encryption_first_run_detect`: there is no salt. -/
def encryptionFirstRunDetect (failed : Bool) (d : Disk) : Bool := !failed && !d.exists? .salt

/-- `encryption_pepper_create` with the random bytes `pepper`, of which `n` are written first. -/
def encryptionPepperCreate (fail : Faults CreateSite) (pepper : Bytes) (n : Nat) :
    Program Vault Bool :=
  createFile fail .pepper (.bytes []) (.bytes (pepper.take n)) (.bytes pepper)

/-- `encryption_create_verifier` for the file `.verifier`. -/
def createVerifier (fail : Faults CreateSite) (key : EncryptionKey) : Program Vault Bool :=
  createFile fail .verifier (.bytes []) (.bytes []) (.token (encryptionCreateVerifier key))

section Init

variable (fail : Faults InitSite) (password : String) (draw : KeyDraw)

/-- What the first run of a vault creates before it reads the key material. -/
def createKeyMaterial : Program Vault Bool :=
  if password.utf8ByteSize < 8 then return false
  else andThen (encryptionSaltCreate (fail.within .createSalt) draw.salt draw.saltWritten)
    (encryptionPepperCreate (fail.within .createPepper) draw.pepper draw.pepperWritten)

/-- The key of the password becomes the live key, and the verifier is checked or, on a first run
without one, created. -/
def openVault (isFirstRun : Bool) : Program Vault SessionManagerCreateResult := do
  let v ← get
  if fail .loadSalt || fail .loadPepper || fail .deriveKey then return .storageFailed
  match v.disk.deriveKey .salt password with
  | none => return .storageFailed
  | some key =>
    modify fun v => { v with encKey := key }
    if v.disk.exists? .verifier then
      if !fail .checkVerifier && encryptionCheckVerifier key (v.disk.loadToken .verifier) then
        return .ok
      else return .authFailed
    else if isFirstRun then
      if ← createVerifier (fail.within .createVerifier) key then return .ok
      else return .storageFailed
    else return .storageFailed

/-- The way from the detection to the result. -/
def initVault (isFirstRun : Bool) : Program Vault SessionManagerCreateResult := do
  if isFirstRun then
    if ← createKeyMaterial fail password draw then openVault fail password true
    else return .storageFailed
  else openVault fail password false

/-- The removal after a first run that has failed. -/
def initCleanup : Program Vault Unit := do
  let _ ← removeIfExists (fail (.cleanup .salt)) .salt
  let _ ← removeIfExists (fail (.cleanup .pepper)) .pepper
  let _ ← removeIfExists (fail (.cleanup .verifier)) .verifier
  return ()

/-- The way from the detection to the end, with the removal. -/
def initOrCleanup (isFirstRun : Bool) : Program Vault SessionManagerCreateResult := do
  let result ← initVault fail password draw isFirstRun
  if result ≠ .ok && isFirstRun then do
    initCleanup fail
    return result
  else return result

/-- `init_encryption`. -/
def initEncryption : Program Vault SessionManagerCreateResult := do
  if (← migrationCheckAndRecover (fail.within .recover) password) ≠ 0 then return .storageFailed
  if fail .paths then return .storageFailed
  let v ← get
  initOrCleanup fail password draw (encryptionFirstRunDetect (fail .detect) v.disk)

end Init

/-! ## What the parts of a start leave -/

/-- The files with the key material. -/
def VaultFile.isKeyMaterial : VaultFile → Bool
  | salt | pepper | verifier => true
  | marker | oldSalt | verifierNew => false

/-- Every file with key material is still there, with the same bytes. -/
def KeyMaterialKept (d d' : Disk) : Prop :=
  ∀ f : VaultFile, f.isKeyMaterial = true → ∀ c, d.files f = some c → d'.files f = some c

theorem KeyMaterialKept.refl (d : Disk) : KeyMaterialKept d d := fun _ _ _ h => h

/-- A file that was not there may be created. -/
theorem KeyMaterialKept.set {d d' : Disk} (h : KeyMaterialKept d d') {f : VaultFile}
    (hf : d'.files f = none) (c : Option Contents) : KeyMaterialKept d (d'.set f c) := by
  intro g hg b hb
  have hkept := h g hg b hb
  have hne : g ≠ f := by
    rintro rfl
    rw [hf] at hkept
    exact absurd hkept (by simp)
  rw [Disk.files_set_ne _ hne]
  exact hkept

section Parts

variable {fail : Faults InitSite} {password : String} {draw : KeyDraw} {v : Vault}

/-- Creating a file keeps the key material, and succeeds only for a file that is not there. -/
theorem wp_createFile_kept {d : Disk} {fail : Faults CreateSite} {f : VaultFile}
    {first partly contents : Contents} (h : KeyMaterialKept d v.disk) :
    wp (fun _ => True) (createFile fail f first partly contents)
      (fun created v' => KeyMaterialKept d v'.disk ∧
        (created = true → v.disk.files f = none ∧ v' = v.set f (some contents))) v := by
  refine wp_createFile ⟨trivial, h, fun hfalse => absurd hfalse (by simp)⟩ ?_ ?_
  · intro hf c _
    exact ⟨trivial, h.set hf c, fun hfalse => absurd hfalse (by simp)⟩
  · intro hf
    exact ⟨trivial, h.set hf _, fun _ => ⟨hf, rfl⟩⟩

/-- The key material of a first run is there when there was no salt and no pepper before. -/
theorem wp_createKeyMaterial :
    wp (fun _ => True) (createKeyMaterial fail password draw)
      (fun created v' => KeyMaterialKept v.disk v'.disk ∧ (created = true →
        v.disk.files .pepper = none ∧ v' =
          (v.set .salt (some (.bytes draw.salt))).set .pepper (some (.bytes draw.pepper)))) v := by
  rw [createKeyMaterial]
  split
  · exact wp_pure trivial ⟨KeyMaterialKept.refl _, fun hfalse => absurd hfalse (by simp)⟩
  refine wp_andThen_of (wp_createFile_kept (KeyMaterialKept.refl _)) ?_ ?_
  · rintro v₁ ⟨hkept, -⟩
    exact ⟨hkept, fun hfalse => absurd hfalse (by simp)⟩
  · rintro v₁ ⟨hkept, hsalt⟩
    obtain ⟨-, hv₁⟩ := hsalt rfl
    refine wp_mono (fun _ h => h) ?_ (wp_createFile_kept hkept)
    rintro created v₂ ⟨hkept₂, hpepper⟩
    refine ⟨hkept₂, fun hcreated => ?_⟩
    obtain ⟨hnone, hv₂⟩ := hpepper hcreated
    subst hv₁ hv₂
    refine ⟨?_, rfl⟩
    rw [← hnone, Vault.disk_set, Disk.files_set_ne _ (by decide)]

/-- The key of a first run comes from the bytes that were drawn. -/
theorem deriveKey_of_draw {v₁ : Vault} {key : EncryptionKey} (hsized : draw.Sized)
    (hv₁ : v₁ = (v.set .salt (some (.bytes draw.salt))).set .pepper (some (.bytes draw.pepper)))
    (h : v₁.disk.deriveKey .salt password = some key) :
    key = ⟨password, draw.salt ++ draw.pepper⟩ := by
  have hsalt : v₁.disk.files .salt = some (.bytes draw.salt) := by
    rw [hv₁, Vault.disk_set, Disk.files_set_ne _ (by decide), Vault.disk_set, Disk.files_set_self]
  have hpepper : v₁.disk.files .pepper = some (.bytes draw.pepper) := by
    rw [hv₁, Vault.disk_set, Disk.files_set_self]
  have hsaltLe : draw.salt.length ≤ saltPepperMax := by
    rw [hsized.1]
    decide
  have hpepperLe : draw.pepper.length ≤ saltPepperMax := by
    rw [hsized.2]
    decide
  rw [Disk.deriveKey, Disk.loadBytes_of_le hsalt hsaltLe,
    Disk.loadBytes_of_le hpepper hpepperLe] at h
  exact encryptionKeyDerive_eq_some h

/-- Opening a vault keeps its key material, and succeeds on a verifier only with its key. -/
theorem wp_openVault {d : Disk} (h : KeyMaterialKept d v.disk) (isFirstRun : Bool) :
    wp (fun _ => True) (openVault fail password isFirstRun)
      (fun result v' => KeyMaterialKept d v'.disk ∧
        (result = .ok → ∃ key, v.disk.deriveKey .salt password = some key ∧
          (v.disk.exists? .verifier = true →
            encryptionCheckVerifier key (v.disk.loadToken .verifier) = true))) v := by
  refine wp_get_bind ?_
  split
  · exact wp_pure trivial ⟨h, fun hok => absurd hok (by simp)⟩
  cases hkey : v.disk.deriveKey .salt password with
  | none => exact wp_pure trivial ⟨h, fun hok => absurd hok (by simp)⟩
  | some key =>
    refine wp_modify_bind trivial ?_
    split
    · split
      next hcheck =>
        rw [Bool.and_eq_true] at hcheck
        exact wp_pure trivial ⟨h, fun _ => ⟨key, rfl, fun _ => hcheck.2⟩⟩
      next => exact wp_pure trivial ⟨h, fun hok => absurd hok (by simp)⟩
    next hverifier =>
      cases isFirstRun with
      | false => exact wp_pure trivial ⟨h, fun hok => absurd hok (by simp)⟩
      | true =>
        refine wp_bind_of (wp_createFile_kept (v := { v with encKey := key }) h) ?_
        rintro created v' ⟨hkept, -⟩
        cases created with
        | false =>
          exact wp_pure trivial ⟨hkept, fun hok => absurd hok (by simp)⟩
        | true =>
          exact wp_pure trivial
            ⟨hkept, fun _ => ⟨key, rfl, fun hexists => absurd hexists hverifier⟩⟩

/-- The two parts together: a first run that succeeds had no pepper, and a verifier only if it is
the new key's. -/
theorem wp_initVault (isFirstRun : Bool) :
    wp (fun _ => True) (initVault fail password draw isFirstRun)
      (fun result v' => KeyMaterialKept v.disk v'.disk ∧
        (isFirstRun = true → draw.Sized → result = .ok → v.disk.files .pepper = none ∧
          ∀ c, v.disk.files .verifier = some c →
            c.asToken = encryptionCreateVerifier ⟨password, draw.salt ++ draw.pepper⟩)) v := by
  cases isFirstRun with
  | false =>
    refine wp_mono (fun _ h => h) ?_ (wp_openVault (KeyMaterialKept.refl _) false)
    rintro result v' ⟨hkept, -⟩
    exact ⟨hkept, fun hfalse => absurd hfalse (by simp)⟩
  | true =>
    refine wp_bind_of wp_createKeyMaterial ?_
    rintro created v₁ ⟨hkept, hcreated⟩
    cases created with
    | false =>
      exact wp_pure trivial ⟨hkept, fun _ _ hok => absurd hok (by simp)⟩
    | true =>
      obtain ⟨hpepper, hv₁⟩ := hcreated rfl
      refine wp_mono (fun _ h => h) ?_ (wp_openVault hkept true)
      rintro result v' ⟨hkept', hok⟩
      refine ⟨hkept', fun _ hsized hresult => ⟨hpepper, fun c hc => ?_⟩⟩
      obtain ⟨key, hkey, hcheck⟩ := hok hresult
      have hverifier : v₁.disk.files .verifier = some c := by
        rw [hv₁, Vault.disk_set, Disk.files_set_ne _ (by decide), Vault.disk_set,
          Disk.files_set_ne _ (by decide), hc]
      have htoken : v₁.disk.loadToken .verifier = some c.asToken := by
        rw [Disk.loadToken, hverifier, Option.map_some]
      have hexists : v₁.disk.exists? .verifier = true := by
        rw [Disk.exists?, hverifier, Option.isSome_some]
      have hopened := encryptionCheckVerifier_iff.mp (hcheck hexists)
      rw [htoken, Option.some_inj] at hopened
      rw [hopened, deriveKey_of_draw hsized hv₁ hkey]

end Parts

/-! ## The whole start -/

section Start

variable {fail : Faults InitSite} {password : String} {draw : KeyDraw} {v : Vault}

theorem run_removeIfExists_snd (failed : Bool) (f : VaultFile) (v : Vault) :
    (run (removeIfExists failed f) v).2 = if failed = true then v else v.set f none := by
  cases failed <;> rfl

/-- The removal leaves the files that it cannot remove, and those that are no key material. -/
theorem files_initCleanup (f : VaultFile) : (run (initCleanup fail) v).2.disk.files f =
    if f.isKeyMaterial = true ∧ fail (.cleanup f) = false then none else v.disk.files f := by
  simp only [initCleanup, run_bind, run_pure, run_removeIfExists_snd]
  cases hsalt : fail (.cleanup .salt) <;> cases hpepper : fail (.cleanup .pepper) <;>
    cases hverifier : fail (.cleanup .verifier) <;>
    cases f <;> simp [VaultFile.isKeyMaterial, Disk.set, hsalt, hpepper, hverifier]

/-- Without a marker, a recovery does nothing. -/
theorem run_recovery_idle {fail : Faults RecoverSite} (hmarker : v.disk.exists? .marker = false) :
    run (migrationCheckAndRecover fail password) v = (if fail .paths = true then -1 else 0, v) := by
  cases hpaths : fail .paths <;> simp [migrationCheckAndRecover, hmarker, hpaths]

/-- A first run that has failed goes through the removal. -/
theorem run_initOrCleanup (isFirstRun : Bool) :
    run (initOrCleanup fail password draw isFirstRun) v =
      if ((run (initVault fail password draw isFirstRun) v).1 ≠ .ok && isFirstRun) = true then
        ((run (initVault fail password draw isFirstRun) v).1,
          (run (initCleanup fail) (run (initVault fail password draw isFirstRun) v).2).2)
      else run (initVault fail password draw isFirstRun) v := by
  rw [initOrCleanup, run_bind]
  split
  · rw [run_bind, run_pure]
  · rw [run_pure]

/-- Without a marker, a start may be stopped by the paths before it looks for the salt. -/
theorem run_initEncryption (hmarker : v.disk.exists? .marker = false) :
    run (initEncryption fail password draw) v =
      if fail (.recover .paths) = true ∨ fail .paths = true then (.storageFailed, v)
      else run (initOrCleanup fail password draw
        (encryptionFirstRunDetect (fail .detect) v.disk)) v := by
  rw [initEncryption, run_bind, run_recovery_idle hmarker]
  cases hrecover : fail (.recover .paths) with
  | true => simp [hrecover]
  | false =>
    cases hpaths : fail .paths with
    | true => simp [hrecover]
    | false => simp [hrecover]

end Start

/-! ## Failed starts -/

/-- A start that fails keeps the key material, whatever bytes are drawn. -/
def KeepsKeyMaterial (fail : Faults InitSite) (password : String) (d : Disk) : Prop :=
  ∀ draw : KeyDraw, draw.Sized →
    (run (initEncryption fail password draw) ⟨d, zeroKey⟩).1 ≠ .ok →
    KeyMaterialKept d (run (initEncryption fail password draw) ⟨d, zeroKey⟩).2.disk

/-- The vault is not taken for new, or nothing that is there can be removed. -/
def NothingToLose (fail : Faults InitSite) (d : Disk) : Prop :=
  fail (.recover .paths) = true ∨ fail .paths = true ∨ fail .detect = true ∨
    d.exists? .salt = true ∨
    ∀ f : VaultFile, f.isKeyMaterial = true → d.exists? f = true → fail (.cleanup f) = true

section Failed

variable {fail : Faults InitSite} {password : String} {d : Disk}

/-- A first run that fails removes what can be removed. -/
theorem files_of_failedFirstRun {draw : KeyDraw} (hmarker : d.exists? .marker = false)
    (hrecover : fail (.recover .paths) = false) (hpaths : fail .paths = false)
    (hfirst : encryptionFirstRunDetect (fail .detect) d = true)
    (hfailed : (run (initVault fail password draw true) ⟨d, zeroKey⟩).1 ≠ .ok) (f : VaultFile)
    (hf : f.isKeyMaterial = true) (hcleanup : fail (.cleanup f) = false) :
    (run (initEncryption fail password draw) ⟨d, zeroKey⟩).1 ≠ .ok ∧
      (run (initEncryption fail password draw) ⟨d, zeroKey⟩).2.disk.files f = none := by
  have hstop : ¬ (fail (.recover .paths) = true ∨ fail .paths = true) := by
    rw [hrecover, hpaths]
    decide
  rw [run_initEncryption hmarker, if_neg hstop, hfirst, run_initOrCleanup,
    if_pos (by rw [Bool.and_true, decide_eq_true hfailed])]
  refine ⟨hfailed, ?_⟩
  rw [files_initCleanup, if_pos ⟨hf, hcleanup⟩]

/-- Two first runs with different salts do not both succeed on a vault that has a verifier. -/
theorem exists_failing_draw {f : VaultFile} (hf : f.isKeyMaterial = true)
    (hexists : d.exists? f = true) (hsalt : d.exists? .salt = false) :
    ∃ draw : KeyDraw, draw.Sized ∧
      (run (initVault fail password draw true) ⟨d, zeroKey⟩).1 ≠ .ok := by
  by_contra hnone
  have hall : ∀ b : UInt8, (run (initVault fail password
      ⟨List.replicate saltSize b, List.replicate pepperSize 0, 0, 0⟩ true) ⟨d, zeroKey⟩).1 = .ok := by
    intro b
    by_contra hfailed
    exact hnone ⟨_, ⟨List.length_replicate, List.length_replicate⟩, hfailed⟩
  have hspec : ∀ b : UInt8, d.files .pepper = none ∧ ∀ c, d.files .verifier = some c →
      c.asToken = encryptionCreateVerifier
        ⟨password, List.replicate saltSize b ++ List.replicate pepperSize 0⟩ := by
    intro b
    obtain ⟨-, hok⟩ := (wp_iff.mp (@wp_initVault fail password
      ⟨List.replicate saltSize b, List.replicate pepperSize 0, 0, 0⟩ ⟨d, zeroKey⟩ true)).2
    exact hok rfl ⟨List.length_replicate, List.length_replicate⟩ (hall b)
  cases f with
  | salt =>
    rw [hsalt] at hexists
    exact absurd hexists (by simp)
  | pepper =>
    rw [Disk.exists?, (hspec 0).1] at hexists
    exact absurd hexists (by simp)
  | verifier =>
    obtain ⟨c, hc⟩ := Option.isSome_iff_exists.mp hexists
    have hzero := (hspec 0).2 c hc
    rw [(hspec 1).2 c hc] at hzero
    exact absurd hzero (by simp [encryptionCreateVerifier, saltSize, pepperSize])
  | marker | oldSalt | verifierNew => exact absurd hf (by simp [VaultFile.isKeyMaterial])

/-- **A failed start keeps the key material exactly when there is nothing to lose**: the vault is
not taken for new, or neither a pepper nor a verifier can be removed. -/
theorem keyMaterialKept_iff (fail : Faults InitSite) (password : String) (d : Disk)
    (hmarker : d.exists? .marker = false) :
    KeepsKeyMaterial fail password d ↔ NothingToLose fail d := by
  by_cases hstop : fail (.recover .paths) = true ∨ fail .paths = true
  · refine iff_of_true ?_ (hstop.imp_right Or.inl)
    intro draw _ _
    rw [run_initEncryption hmarker, if_pos hstop]
    exact KeyMaterialKept.refl d
  rw [not_or, Bool.not_eq_true, Bool.not_eq_true] at hstop
  obtain ⟨hrecover, hpaths⟩ := hstop
  cases hfirst : encryptionFirstRunDetect (fail .detect) d with
  | false =>
    refine iff_of_true ?_ ?_
    · intro draw _ _
      obtain ⟨hkept, -⟩ := (wp_iff.mp (@wp_initVault fail password draw ⟨d, zeroKey⟩ false)).2
      rw [run_initEncryption hmarker, if_neg (by simp [hrecover, hpaths]), hfirst,
        run_initOrCleanup, Bool.and_false, if_neg Bool.false_ne_true]
      exact hkept
    · rw [encryptionFirstRunDetect, Bool.and_eq_false_iff, Bool.not_eq_false',
        Bool.not_eq_false'] at hfirst
      exact Or.inr (Or.inr (hfirst.imp_right Or.inl))
  | true =>
    have hdetect := hfirst
    rw [encryptionFirstRunDetect, Bool.and_eq_true, Bool.not_eq_true', Bool.not_eq_true'] at hdetect
    obtain ⟨hdetect, hsalt⟩ := hdetect
    constructor
    · intro hkeeps
      refine Or.inr (Or.inr (Or.inr (Or.inr fun f hf hexists => ?_)))
      by_contra hcleanup
      rw [Bool.not_eq_true] at hcleanup
      obtain ⟨draw, hsized, hfailed⟩ := @exists_failing_draw fail password d f
        hf hexists hsalt
      obtain ⟨hresult, hgone⟩ := files_of_failedFirstRun hmarker hrecover hpaths hfirst hfailed f
        hf hcleanup
      obtain ⟨c, hc⟩ := Option.isSome_iff_exists.mp hexists
      rw [hkeeps draw hsized hresult f hf c hc] at hgone
      exact absurd hgone (by simp)
    · intro hlose draw _ hresult
      have hclean : ∀ f : VaultFile, f.isKeyMaterial = true → d.exists? f = true →
          fail (.cleanup f) = true := by
        simpa only [NothingToLose, hrecover, hpaths, hdetect, hsalt, Bool.false_eq_true,
          false_or] using hlose
      obtain ⟨hkept, -⟩ := (wp_iff.mp (@wp_initVault fail password draw ⟨d, zeroKey⟩ true)).2
      rw [run_initEncryption hmarker, if_neg (by simp [hrecover, hpaths]), hfirst,
        run_initOrCleanup]
      split
      · intro f hf c hc
        have hstays : fail (.cleanup f) = true :=
          hclean f hf (by rw [Disk.exists?, hc, Option.isSome_some])
        rw [files_initCleanup, hstays, if_neg (fun h => Bool.noConfusion h.2)]
        exact hkept f hf c hc
      · exact hkept

end Failed

/-- A start of the vault of `changedVault`, whose salt is there, keeps its key material. -/
theorem keyMaterialKept_changedVault :
    KeepsKeyMaterial Faults.none "new password" changedVault :=
  (keyMaterialKept_iff Faults.none "new password" changedVault rfl).mpr
    (Or.inr (Or.inr (Or.inr (Or.inl rfl))))

/-- The vault `changedVault` after its salt was lost. -/
def saltlessVault : Disk := changedVault.set .salt none

/-- A start of a vault that has lost its salt removes the pepper. -/
theorem not_keyMaterialKept_saltlessVault : saltlessVault.exists? .marker = false ∧
    ¬ KeepsKeyMaterial Faults.none "old password" saltlessVault := by
  refine ⟨rfl, fun h => ?_⟩
  have hpepper := h ⟨List.replicate saltSize 1, List.replicate pepperSize 2, 0, 0⟩ ⟨rfl, rfl⟩
    (by decide +kernel) .pepper rfl (.bytes [7]) rfl
  exact absurd hpepper (by decide +kernel)

end EchoAi
