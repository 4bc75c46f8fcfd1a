import EchoAi.Session.SessionIntact
import Mathlib.Data.List.Sort

/-!
# Sealing the store under a new key

Inside one transaction a password change loads every session under the old key and saves it under
the new one, opens and seals every provider's OAuth data, and records the new salt.  The manager's
live key is swapped back and forth around each load and save, so a failure may leave either key in
it; the caller puts the right one back.

* `migrateSessions`, `migrateProviderOauth`, `recordCommittedSalt`: the three parts, each absent when
  it fails.  `migrateSessions` also gives the live key it leaves.
* `reencrypt`: the transaction up to its commit.
* `sealedUnder_reencrypt`: whatever operations fail, a transaction that gets this far has sealed
  every row under the new key.
* `preserves_reencrypt_iff`: it has kept the contents of every row when every session came through
  intact.
-/

namespace EchoAi

/-- A row of `provider_oauth`. -/
structure OauthRow where
  provider : String
  data : Token
  deriving DecidableEq, Repr

/-- The database of a vault.  `migrationState` is the salt in the table `password_migration_state`,
absent as long as there is no such table. -/
structure Database where
  sessions : List SessionRow
  oauth : List OauthRow
  migrationState : Option Bytes
  deriving DecidableEq, Repr

/-- The operations of the transaction. -/
inductive ReencryptSite where
  /-- preparing the statement that lists the sessions -/
  | selectSessions
  /-- fetching the next session id -/
  | stepSession (i : Nat)
  | load (i : Nat) (s : LoadSite)
  | save (i : Nat) (s : SaveSite)
  | finalizeSessions
  /-- preparing the two statements on `provider_oauth` -/
  | selectOauth
  /-- fetching the next provider -/
  | stepOauth (i : Nat)
  | decryptOauth (i : Nat)
  | encryptOauth (i : Nat)
  | updateOauth (i : Nat)
  | resetOauth (i : Nat)
  | finalizeOauth
  | createStateTable
  | recordSalt
  deriving DecidableEq, Repr

/-- The operations whose failure makes the transaction fail. -/
def ReencryptSite.checked : ReencryptSite → Bool
  | load _ s => s.checked
  | save _ s => s.checked
  | _ => true

section Codec

variable (codec : JsonCodec)

/-! ## Sessions -/

/-- A text that is not empty and free of NUL. -/
def validText (text : String) : Bool := decide (text ≠ "") && !text.toList.contains '\x00'

/-- The loop of `migrate_sessions` over the ids that are left, the `i`-th one first. -/
def migrateSessionRows (fail : Faults ReencryptSite) (oldKey newKey : EncryptionKey) :
    Nat → List String → EncryptionKey → List SessionRow → EncryptionKey × Option (List SessionRow)
  | i, [], live, rows => (live, if fail (.stepSession i) then none else some rows)
  | i, id :: ids, live, rows =>
    if fail (.stepSession i) || !validText id then (live, none)
    else match loadSessionLocked codec (fail.within (.load i)) oldKey rows id with
      | none => (oldKey, none)
      | some s => match saveSessionCoreLocked codec (fail.within (.save i)) newKey rows s with
        | none => (newKey, none)
        | some rows' => migrateSessionRows fail oldKey newKey (i + 1) ids newKey rows'

/-- The ids of the table, in the order in which they are listed. -/
def sessionIds (rows : List SessionRow) : List String :=
  (rows.map SessionRow.id).insertionSort (· ≤ ·)

/-- `migrate_sessions`. -/
def migrateSessions (fail : Faults ReencryptSite) (oldKey newKey live : EncryptionKey)
    (rows : List SessionRow) : EncryptionKey × Option (List SessionRow) :=
  if fail .selectSessions then (live, none)
  else
    let result := migrateSessionRows codec fail oldKey newKey 0 (sessionIds rows) live rows
    (result.1, if fail .finalizeSessions then none else result.2)

/-! ## OAuth data -/

/-- The loop of `migrate_provider_oauth` over the rows that are left, the `i`-th one first. -/
def migrateOauthRows (fail : Faults ReencryptSite) (oldKey newKey : EncryptionKey) :
    Nat → List OauthRow → List OauthRow → Option (List OauthRow)
  | i, [], rows => if fail (.stepOauth i) then none else some rows
  | i, row :: rest, rows => do
    attempt (fail (.stepOauth i))
    attempt (!validText row.provider)
    attempt (fail (.decryptOauth i))
    let plain ← encryptionDecrypt oldKey row.data
    attempt (!validText plain)
    attempt (fail (.encryptOauth i))
    let data ← encryptionEncrypt newKey plain
    attempt (fail (.updateOauth i))
    attempt (fail (.resetOauth i))
    migrateOauthRows fail oldKey newKey (i + 1) rest
      (putRow OauthRow.provider { row with data } rows)

/-- `migrate_provider_oauth`. -/
def migrateProviderOauth (fail : Faults ReencryptSite) (oldKey newKey : EncryptionKey)
    (rows : List OauthRow) : Option (List OauthRow) := do
  attempt (fail .selectOauth)
  let rows' ← migrateOauthRows fail oldKey newKey 0
    (rows.insertionSort fun r r' => r.provider ≤ r'.provider) rows
  attempt (fail .finalizeOauth)
  return rows'

/-! ## The transaction -/

/-- `record_committed_salt`. -/
def recordCommittedSalt (fail : Faults ReencryptSite) (salt : Bytes) : Option (Option Bytes) := do
  attempt (fail .createStateTable)
  attempt (fail .recordSalt)
  return some salt

/-- The transaction of a password change up to its commit, and the live key it leaves. -/
def reencrypt (fail : Faults ReencryptSite) (oldKey newKey live : EncryptionKey) (salt : Bytes)
    (db : Database) : EncryptionKey × Option Database :=
  let result := migrateSessions codec fail oldKey newKey live db.sessions
  (result.1, do
    let sessions ← result.2
    let oauth ← migrateProviderOauth fail oldKey newKey db.oauth
    let migrationState ← recordCommittedSalt fail salt
    return { sessions, oauth, migrationState })

variable {codec}

/-! ## What the loops do to the rows -/

section Loops

variable {fail : Faults ReencryptSite} {oldKey newKey : EncryptionKey}

/-- A loop over distinct ids changes the rows of these ids one by one: as soon as the `i`-th load and
save relate the row before to the row after by `R i`, so does the whole loop. -/
theorem migrateSessionRows_spec {R : Nat → SessionRow → SessionRow → Prop}
    (hstep : ∀ (i : Nat) (row : SessionRow) (s : Session) (rows rows' : List SessionRow),
      readSessionRow codec (fail.within (.load i)) oldKey row = some s →
      saveSessionCoreLocked codec (fail.within (.save i)) newKey rows s = some rows' →
      ∃ row', rows' = putRow SessionRow.id row' rows ∧ row'.id = row.id ∧ R i row row')
    (ids : List String) (hids : ids.Nodup) {i : Nat} {live live' : EncryptionKey}
    {rows rows' : List SessionRow}
    (h : migrateSessionRows codec fail oldKey newKey i ids live rows = (live', some rows')) :
    rows'.map SessionRow.id = rows.map SessionRow.id ∧
      (∀ id ∉ ids, findRow SessionRow.id id rows' = findRow SessionRow.id id rows) ∧
      ∀ j id, ids[j]? = some id → ∃ row row', findRow SessionRow.id id rows = some row ∧
        findRow SessionRow.id id rows' = some row' ∧ R (i + j) row row' := by
  induction ids generalizing i live rows with
  | nil =>
    rw [migrateSessionRows, Prod.mk.injEq] at h
    have hrows : rows = rows' := by
      have h' := h.2
      split at h'
      · exact absurd h' (by simp)
      · exact Option.some.inj h'
    subst hrows
    exact ⟨rfl, fun _ _ => rfl, fun j id hid => absurd hid (by simp)⟩
  | cons id ids ih =>
    rw [migrateSessionRows] at h
    split at h
    · exact absurd (Prod.mk.inj h).2 (by simp)
    split at h
    · exact absurd (Prod.mk.inj h).2 (by simp)
    · next s hload =>
      split at h
      · exact absurd (Prod.mk.inj h).2 (by simp)
      · next rows₁ hsave =>
        obtain ⟨row, hrow, hread⟩ := exists_row_of_loadSessionLocked hload
        obtain ⟨row', rfl, hid', hR⟩ := hstep i row s rows rows₁ hread hsave
        rw [List.nodup_cons] at hids
        have hrowid : row'.id = id := hid'.trans (key_of_findRow hrow)
        obtain ⟨hkeys, hother, hdone⟩ := ih hids.2 h
        have hmem : row'.id ∈ rows.map SessionRow.id := by
          rw [hrowid]
          exact findRow_isSome_iff.mp ⟨row, hrow⟩
        refine ⟨hkeys.trans (map_putRow_of_mem hmem), ?_, ?_⟩
        · intro id' hid'
          rw [List.mem_cons, not_or] at hid'
          rw [hother id' hid'.2]
          refine findRow_putRow_ne ?_ rows
          rw [hrowid]
          exact fun heq => hid'.1 heq.symm
        · intro j id' hid'
          cases j with
          | zero =>
            obtain rfl : id = id' := Option.some.inj hid'
            refine ⟨row, row', hrow, ?_, hR⟩
            rw [hother _ hids.1, ← hrowid]
            exact findRow_putRow_self row' rows
          | succ j =>
            obtain ⟨r, r', hr, hr', hRr⟩ := hdone j id' hid'
            refine ⟨r, r', ?_, hr', ?_⟩
            · rw [← hr]
              refine (findRow_putRow_ne ?_ rows).symm
              rw [hrowid]
              rintro rfl
              exact hids.1 (List.mem_of_getElem? hid')
            · rw [Nat.add_comm j, ← Nat.add_assoc]
              exact hRr

theorem mem_sessionIds {rows : List SessionRow} {id : String} :
    id ∈ sessionIds rows ↔ id ∈ rows.map SessionRow.id :=
  (List.perm_insertionSort _ _).mem_iff

/-- The pass over all sessions, with the relation of `migrateSessionRows_spec`. -/
theorem migrateSessions_spec {R : Nat → SessionRow → SessionRow → Prop}
    (hstep : ∀ (i : Nat) (row : SessionRow) (s : Session) (rows rows' : List SessionRow),
      readSessionRow codec (fail.within (.load i)) oldKey row = some s →
      saveSessionCoreLocked codec (fail.within (.save i)) newKey rows s = some rows' →
      ∃ row', rows' = putRow SessionRow.id row' rows ∧ row'.id = row.id ∧ R i row row')
    {live : EncryptionKey} {rows rows' : List SessionRow} (hrows : (rows.map SessionRow.id).Nodup)
    (h : (migrateSessions codec fail oldKey newKey live rows).2 = some rows') :
    rows'.map SessionRow.id = rows.map SessionRow.id ∧
      ∀ i id, (sessionIds rows)[i]? = some id → ∃ row row',
        findRow SessionRow.id id rows = some row ∧ findRow SessionRow.id id rows' = some row' ∧
          R i row row' := by
  rw [migrateSessions] at h
  split at h
  · exact absurd h (by simp)
  · dsimp only at h
    split at h
    · exact absurd h (by simp)
    · have hids : (sessionIds rows).Nodup := (List.perm_insertionSort _ _).nodup_iff.mpr hrows
      obtain ⟨hkeys, -, hdone⟩ := migrateSessionRows_spec hstep (sessionIds rows) hids
        (Prod.ext rfl h)
      refine ⟨hkeys, fun i id hid => ?_⟩
      have hi := hdone i id hid
      rwa [Nat.zero_add] at hi

/-- A loop over rows with distinct providers seals the data of each anew. -/
theorem migrateOauthRows_spec (rest : List OauthRow)
    (hrest : (rest.map OauthRow.provider).Nodup) {i : Nat} {rows rows' : List OauthRow}
    (hfind : ∀ row ∈ rest, findRow OauthRow.provider row.provider rows = some row)
    (h : migrateOauthRows fail oldKey newKey i rest rows = some rows') :
    rows'.map OauthRow.provider = rows.map OauthRow.provider ∧
      (∀ p ∉ rest.map OauthRow.provider,
        findRow OauthRow.provider p rows' = findRow OauthRow.provider p rows) ∧
      ∀ row ∈ rest, ∃ text, row.data = .sealed oldKey text ∧
        findRow OauthRow.provider row.provider rows' =
          some { row with data := .sealed newKey text } := by
  induction rest generalizing i rows with
  | nil =>
    rw [migrateOauthRows] at h
    split at h
    · exact absurd h (by simp)
    · rw [Option.some_inj] at h
      subst h
      exact ⟨rfl, fun _ _ => rfl, fun row hrow => absurd hrow (by simp)⟩
  | cons row rest ih =>
    simp only [migrateOauthRows, Option.bind_eq_bind, Option.bind_eq_some_iff] at h
    obtain ⟨-, -, -, -, -, -, text, htext, -, -, -, -, data, hdata, -, -, -, -, h⟩ := h
    rw [encryptionDecrypt_eq_some_iff] at htext
    have hdata' := encryptionDecrypt_eq_some_iff.mp (encryptionDecrypt_encrypt hdata)
    rw [List.map_cons, List.nodup_cons] at hrest
    have hne : ∀ r ∈ rest, row.provider ≠ r.provider := fun r hr heq =>
      hrest.1 (heq ▸ List.mem_map_of_mem hr)
    have hfind' : ∀ r ∈ rest, findRow OauthRow.provider r.provider
        (putRow OauthRow.provider { row with data } rows) = some r := by
      intro r hr
      have hkey : ({ row with data } : OauthRow).provider ≠ r.provider := hne r hr
      rw [findRow_putRow_ne hkey]
      exact hfind r (List.mem_cons_of_mem _ hr)
    obtain ⟨hkeys, hother, hdone⟩ := ih hrest.2 hfind' h
    have hmem : ({ row with data } : OauthRow).provider ∈ rows.map OauthRow.provider :=
      findRow_isSome_iff.mp ⟨row, hfind row List.mem_cons_self⟩
    refine ⟨hkeys.trans (map_putRow_of_mem hmem), ?_, ?_⟩
    · intro p hp
      rw [List.map_cons, List.mem_cons, not_or] at hp
      have hkey : ({ row with data } : OauthRow).provider ≠ p := fun heq => hp.1 heq.symm
      rw [hother p hp.2, findRow_putRow_ne hkey]
    · intro r hr
      rw [List.mem_cons] at hr
      rcases hr with rfl | hr
      · refine ⟨text, htext, ?_⟩
        rw [hother _ hrest.1, ← hdata']
        have hself : findRow OauthRow.provider r.provider
            (putRow OauthRow.provider { r with data } rows) = some { r with data } :=
          findRow_putRow_self ({ r with data } : OauthRow) rows
        exact hself
      · exact hdone r hr

theorem migrateProviderOauth_spec {rows rows' : List OauthRow}
    (hrows : (rows.map OauthRow.provider).Nodup)
    (h : migrateProviderOauth fail oldKey newKey rows = some rows') :
    rows'.map OauthRow.provider = rows.map OauthRow.provider ∧
      ∀ row ∈ rows, ∃ text, row.data = .sealed oldKey text ∧
        findRow OauthRow.provider row.provider rows' =
          some { row with data := .sealed newKey text } := by
  simp only [migrateProviderOauth, Option.bind_eq_bind, Option.bind_eq_some_iff, Option.pure_def,
    Option.some_inj] at h
  obtain ⟨-, -, rows₁, h, -, -, rfl⟩ := h
  have hperm := List.perm_insertionSort (fun r r' : OauthRow => r.provider ≤ r'.provider) rows
  obtain ⟨hkeys, -, hdone⟩ := migrateOauthRows_spec _ ((hperm.map _).nodup_iff.mpr hrows)
    (fun row hrow => findRow_of_mem hrows (hperm.mem_iff.mp hrow)) h
  exact ⟨hkeys, fun row hrow => hdone row (hperm.mem_iff.mpr hrow)⟩

end Loops

/-! ## What the transaction does to the database -/

namespace Database

/-- Session ids and providers are primary keys. -/
def PrimaryKeys (db : Database) : Prop :=
  (db.sessions.map SessionRow.id).Nodup ∧ (db.oauth.map OauthRow.provider).Nodup

/-- Every token of the database is sealed under the key. -/
def SealedUnder (key : EncryptionKey) (db : Database) : Prop :=
  (∀ row ∈ db.sessions, row.SealedUnder key) ∧ ∀ row ∈ db.oauth, ∃ text, row.data = .sealed key text

/-- Every session is loaded in the form in which it would be saved. -/
def Normal (codec : JsonCodec) (key : EncryptionKey) (db : Database) : Prop :=
  ∀ id s, loadSessionLocked codec Faults.none key db.sessions id = some s → s.normalize codec = s

/-- Every session comes through its load and its save intact. -/
def Intact (codec : JsonCodec) (fail : Faults ReencryptSite) (key : EncryptionKey)
    (db : Database) : Prop :=
  ∀ i id, (sessionIds db.sessions)[i]? = some id → ∀ s,
    loadSessionLocked codec Faults.none key db.sessions id = some s →
      s.Intact codec (fail.within (.load i)) (fail.within (.save i))

end Database

/-- The databases hold the same rows, the first under the old key and the second under the new. -/
structure Preserves (codec : JsonCodec) (oldKey newKey : EncryptionKey) (db db' : Database) :
    Prop where
  ids : db'.sessions.map SessionRow.id = db.sessions.map SessionRow.id
  providers : db'.oauth.map OauthRow.provider = db.oauth.map OauthRow.provider
  sessions : ∀ id, loadSessionLocked codec Faults.none newKey db'.sessions id =
    loadSessionLocked codec Faults.none oldKey db.sessions id
  oauth : ∀ p, ((findRow OauthRow.provider p db'.oauth).bind fun r =>
      encryptionDecrypt newKey r.data) =
    (findRow OauthRow.provider p db.oauth).bind fun r => encryptionDecrypt oldKey r.data

section Transaction

variable {fail : Faults ReencryptSite} {oldKey newKey live : EncryptionKey} {salt : Bytes}
  {db db' : Database}

theorem reencrypt_eq_some (h : (reencrypt codec fail oldKey newKey live salt db).2 = some db') :
    (migrateSessions codec fail oldKey newKey live db.sessions).2 = some db'.sessions ∧
      migrateProviderOauth fail oldKey newKey db.oauth = some db'.oauth ∧
      db'.migrationState = some salt := by
  simp only [reencrypt, recordCommittedSalt, Option.bind_eq_bind, Option.bind_eq_some_iff,
    Option.pure_def, Option.some_inj] at h
  obtain ⟨sessions, hsessions, oauth, hoauth, state, ⟨-, -, -, -, rfl⟩, rfl⟩ := h
  exact ⟨hsessions, hoauth, rfl⟩

/-- **A transaction that gets to its commit has sealed every row under the new key**, whatever
operations failed on the way. -/
theorem sealedUnder_reencrypt (hkeys : db.PrimaryKeys)
    (h : (reencrypt codec fail oldKey newKey live salt db).2 = some db') :
    db'.SealedUnder newKey ∧ db'.PrimaryKeys ∧ db'.migrationState = some salt := by
  obtain ⟨hsessions, hoauth, hsalt⟩ := reencrypt_eq_some h
  obtain ⟨hids, hrows⟩ := migrateSessions_spec (R := fun _ _ row' => row'.SealedUnder newKey)
    (fun i row s rows rows' hread hsave => by
      obtain ⟨row', hput, hid, hsealed⟩ := exists_row_of_saveSessionCoreLocked hsave
      exact ⟨row', hput, hid.trans (id_of_readSessionRow hread), hsealed⟩) hkeys.1 hsessions
  obtain ⟨hproviders, hdata⟩ := migrateProviderOauth_spec hkeys.2 hoauth
  have hnodup : (db'.sessions.map SessionRow.id).Nodup := hids ▸ hkeys.1
  have hnodup' : (db'.oauth.map OauthRow.provider).Nodup := hproviders ▸ hkeys.2
  refine ⟨⟨?_, ?_⟩, ⟨hnodup, hnodup'⟩, hsalt⟩
  · intro row hrow
    have hmem : row.id ∈ db.sessions.map SessionRow.id := hids ▸ List.mem_map_of_mem hrow
    obtain ⟨i, hi⟩ := List.getElem?_of_mem (mem_sessionIds.mpr hmem)
    obtain ⟨-, row', -, hrow', hsealed⟩ := hrows i row.id hi
    rw [findRow_of_mem hnodup hrow, Option.some_inj] at hrow'
    rw [hrow']
    exact hsealed
  · intro row hrow
    have hmem : row.provider ∈ db.oauth.map OauthRow.provider :=
      hproviders ▸ List.mem_map_of_mem hrow
    obtain ⟨row₀, hrow₀, hprovider⟩ := List.mem_map.mp hmem
    obtain ⟨text, -, hfind⟩ := hdata row₀ hrow₀
    rw [hprovider, findRow_of_mem hnodup' hrow, Option.some_inj] at hfind
    exact ⟨text, by rw [hfind]⟩

/-- A transaction keeps the contents of the rows exactly when every session comes through its load
and its save as it was. -/
theorem preserves_reencrypt_iff_forall (hkeys : db.PrimaryKeys)
    (h : (reencrypt codec fail oldKey newKey live salt db).2 = some db') :
    Preserves codec oldKey newKey db db' ↔
      ∀ i id, (sessionIds db.sessions)[i]? = some id → ∀ s,
        loadSessionLocked codec Faults.none oldKey db.sessions id = some s →
          (s.loaded (fail.within (.load i))).received codec (fail.within (.save i)) = s := by
  obtain ⟨hsessions, hoauth, -⟩ := reencrypt_eq_some h
  obtain ⟨hids, hrows⟩ := migrateSessions_spec
    (R := fun i row row' => ∃ s, readSessionRow codec Faults.none oldKey row = some s ∧
      readSessionRow codec Faults.none newKey row' = some
        ((s.loaded (fail.within (.load i))).received codec (fail.within (.save i))))
    (fun i row s rows rows' hread hsave => by
      obtain ⟨s₀, hread₀, rfl⟩ := exists_loaded_of_readSessionRow hread
      obtain ⟨row', hput, hid, hread'⟩ := exists_received_of_saveSessionCoreLocked hsave
      exact ⟨row', hput, hid.trans (id_of_readSessionRow hread), s₀, hread₀, hread'⟩)
    hkeys.1 hsessions
  have hloads : ∀ i id, (sessionIds db.sessions)[i]? = some id → ∃ s,
      loadSessionLocked codec Faults.none oldKey db.sessions id = some s ∧
        loadSessionLocked codec Faults.none newKey db'.sessions id = some
          ((s.loaded (fail.within (.load i))).received codec (fail.within (.save i))) := by
    intro i id hi
    obtain ⟨row, row', hrow, hrow', s, hread, hread'⟩ := hrows i id hi
    refine ⟨s, ?_, ?_⟩
    · rw [loadSessionLocked_none, hrow, Option.bind_some, hread]
    · rw [loadSessionLocked_none, hrow', Option.bind_some, hread']
  constructor
  · intro hpreserves i id hi s hs
    obtain ⟨s', hs', hnew⟩ := hloads i id hi
    obtain rfl : s' = s := Option.some.inj (hs'.symm.trans hs)
    rw [hpreserves.sessions, hs] at hnew
    exact (Option.some.inj hnew).symm
  · intro hsame
    obtain ⟨hproviders, hdata⟩ := migrateProviderOauth_spec hkeys.2 hoauth
    refine ⟨hids, hproviders, ?_, ?_⟩
    · intro id
      by_cases hid : id ∈ db.sessions.map SessionRow.id
      · obtain ⟨i, hi⟩ := List.getElem?_of_mem (mem_sessionIds.mpr hid)
        obtain ⟨s, hs, hnew⟩ := hloads i id hi
        rw [hnew, hs, hsame i id hi s hs]
      · obtain ⟨hnone', hnone⟩ := findRow_eq_none_of_keys hids hid
        rw [loadSessionLocked_none, loadSessionLocked_none, hnone', hnone]
        rfl
    · intro p
      by_cases hp : p ∈ db.oauth.map OauthRow.provider
      · obtain ⟨row, hrow, rfl⟩ := List.mem_map.mp hp
        obtain ⟨text, htext, hfind⟩ := hdata row hrow
        rw [hfind, findRow_of_mem hkeys.2 hrow, Option.bind_some, Option.bind_some, htext,
          encryptionDecrypt, if_pos rfl, encryptionDecrypt, if_pos rfl]
      · obtain ⟨hnone', hnone⟩ := findRow_eq_none_of_keys hproviders hp
        rw [hnone', hnone]
        rfl

theorem exists_sessionIds_of_load {key : EncryptionKey} {id : String} {s : Session}
    (h : loadSessionLocked codec Faults.none key db.sessions id = some s) :
    ∃ i : Nat, (sessionIds db.sessions)[i]? = some id := by
  obtain ⟨row, hrow, -⟩ := exists_row_of_loadSessionLocked h
  exact List.getElem?_of_mem (mem_sessionIds.mpr (findRow_isSome_iff.mp ⟨row, hrow⟩))

/-- **A transaction that gets to its commit keeps the contents of every row exactly when every
session stands in its normal form and comes through intact**, unless both fail and make up for each
other. -/
theorem preserves_reencrypt_iff (hkeys : db.PrimaryKeys)
    (hcase : db.Normal codec oldKey ∨ db.Intact codec fail oldKey)
    (h : (reencrypt codec fail oldKey newKey live salt db).2 = some db') :
    Preserves codec oldKey newKey db db' ↔
      db.Normal codec oldKey ∧ db.Intact codec fail oldKey := by
  rw [preserves_reencrypt_iff_forall hkeys h]
  constructor
  · intro hsame
    rcases hcase with hnormal | hintact
    · exact ⟨hnormal, fun i id hi s hs =>
        (received_loaded_eq_iff (hnormal id s hs)).mp (hsame i id hi s hs)⟩
    · refine ⟨fun id s hs => ?_, hintact⟩
      obtain ⟨i, hi⟩ := exists_sessionIds_of_load hs
      rw [← (hintact i id hi s hs).received_loaded]
      exact hsame i id hi s hs
  · rintro ⟨hnormal, hintact⟩ i id hi s hs
    exact (received_loaded_eq_iff (hnormal id s hs)).mpr (hintact i id hi s hs)

end Transaction

end Codec

end EchoAi
