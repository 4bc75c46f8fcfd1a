import EchoAi.Agent.MessageReceived
import EchoAi.Session.Encryption
import EchoAi.Table

/-!
# Sessions and their rows

A session is kept as one row of the table `agent_sessions`.  Its title, messages, metadata and
events are sealed under the vault's key; an empty title is kept as no title at all.

* `Session`: a session in memory.  Its events are an array and its metadata is always there, as
  `session_create` and every load leave them.
* `loadSessionLocked`, `saveSessionCoreLocked`: loading a row and writing it (in the mode that
  replaces the row of the same id), under failing operations named by `LoadSite` and `SaveSite`.
* `Session.normalize`: what saving and loading makes of a session; `loadSession_save` says that the
  saved session is loaded in this form and that no other session changes.
* `abortsOr_loadSessionLocked`, `abortsOr_saveSessionCoreLocked`: with checked failures only, each
  gives up or does what it does without failures.
-/

namespace EchoAi

/-- A session in memory. -/
structure Session where
  id : String
  title : String
  titleGenerationAttempted : Int
  createdAt : String
  messages : List Message
  metadata : JsonValue
  events : List JsonValue

/-- A row of `agent_sessions`. -/
structure SessionRow where
  id : String
  title : Option Token
  titleGenerationAttempted : Int
  createdAt : String
  messages : Option Token
  metadata : Option Token
  events : Option Token
  deriving DecidableEq, Repr

/-- The sealed columns of a row. -/
inductive Column where
  | title | messages | metadata | events
  deriving DecidableEq, Repr

namespace SessionRow

/-- The tokens of a row. -/
def tokens (row : SessionRow) : List Token :=
  row.title.toList ++ row.messages.toList ++ row.metadata.toList ++ row.events.toList

/-- Every token of the row is sealed under the key. -/
def SealedUnder (key : EncryptionKey) (row : SessionRow) : Prop :=
  ∀ t ∈ row.tokens, ∃ text, t = .sealed key text

end SessionRow

/-- The operations of a load. -/
inductive LoadSite where
  | prepare
  | bind
  | step
  /-- allocating the session and its first fields -/
  | session
  /-- opening a sealed column -/
  | decrypt (c : Column)
  /-- copying the title -/
  | title
  /-- reading the messages -/
  | messages (s : DecodeSite)
  /-- parsing the metadata -/
  | metadata
  /-- parsing the events -/
  | events
  deriving DecidableEq, Repr

/-- The operations whose failure makes a load give up. -/
def LoadSite.checked : LoadSite → Bool
  | messages s => s.checked
  | _ => true

/-- The operations of a save. -/
inductive SaveSite where
  /-- writing the messages -/
  | messages (s : EncodeSite)
  /-- printing the metadata -/
  | metadata
  /-- printing the events -/
  | events
  /-- sealing a column -/
  | encrypt (c : Column)
  | prepare
  | bind
  | step
  deriving DecidableEq, Repr

/-- The operations whose failure makes a save give up. -/
def SaveSite.checked : SaveSite → Bool
  | messages s => s.checked
  | _ => true

section Codec

variable (codec : JsonCodec)

/-! ## Metadata and events -/

/-- `session_serialize_metadata_new`: a text of at most two bytes is replaced by the empty
object. -/
def sessionSerializeMetadataNew (metadata : JsonValue) : String :=
  if (codec.print metadata).utf8ByteSize ≤ 2 then "\x7b\x7d" else codec.print metadata

/-- `session_serialize_events_new`. -/
def sessionSerializeEventsNew (events : List JsonValue) : String :=
  if (codec.print (.array events)).utf8ByteSize ≤ 2 then "[]" else codec.print (.array events)

/-- `session_deserialize_events`: anything but an array is refused. -/
def sessionDeserializeEvents (text : String) : Option (List JsonValue) :=
  match codec.parse text with
  | some (.array items) => some items
  | _ => none

/-- The metadata after saving and loading. -/
def normalizeMetadata (metadata : JsonValue) : JsonValue :=
  if (codec.print metadata).utf8ByteSize ≤ 2 then .object [] else metadata

/-- The events after saving and loading. -/
def normalizeEvents (events : List JsonValue) : List JsonValue :=
  if (codec.print (.array events)).utf8ByteSize ≤ 2 then [] else events

/-- A session after saving and loading. -/
def Session.normalize (s : Session) : Session :=
  { s with
    messages := s.messages.map (Message.normalize codec)
    metadata := normalizeMetadata codec s.metadata
    events := normalizeEvents codec s.events }

/-! ## Loading -/

/-- The contents of a sealed column; an empty column holds `empty`. -/
def readColumn {α : Type} (failed : Bool) (key : EncryptionKey) (empty : α)
    (read : String → Option α) : Option Token → Option α
  | none => some empty
  | some t => if failed then none else (encryptionDecrypt key t).bind read

/-- The session that a row holds: every column must be opened and read. -/
def readSessionRow (fail : Faults LoadSite) (key : EncryptionKey) (row : SessionRow) :
    Option Session := do
  attempt (fail .session)
  let title ← readColumn (fail (.decrypt .title)) key ""
    (fun text => if fail .title then none else some text) row.title
  let messages ← readColumn (fail (.decrypt .messages)) key []
    (sessionDeserializeMessages codec (fail.within .messages)) row.messages
  let metadata ← readColumn (fail (.decrypt .metadata)) key (.object [])
    (fun text => if fail .metadata then none else codec.parse text) row.metadata
  let events ← readColumn (fail (.decrypt .events)) key []
    (fun text => if fail .events then none else sessionDeserializeEvents codec text) row.events
  return { id := row.id, title, titleGenerationAttempted := row.titleGenerationAttempted,
           createdAt := row.createdAt, messages, metadata, events }

/-- `load_session_locked`. -/
def loadSessionLocked (fail : Faults LoadSite) (key : EncryptionKey) (rows : List SessionRow)
    (id : String) : Option Session := do
  attempt (fail .prepare)
  attempt (fail .bind)
  attempt (fail .step)
  let row ← findRow SessionRow.id id rows
  readSessionRow codec fail key row

/-! ## Saving -/

/-- The largest length of a column, `INT_MAX`. -/
def intMax : Nat := 2147483647

/-- Seal a text. -/
def sealColumn (failed : Bool) (key : EncryptionKey) (text : String) : Option Token :=
  if failed then none else encryptionEncrypt key text

/-- The title column of a title; an empty title is left out. -/
def titleColumn (key : EncryptionKey) (title : String) : Option Token :=
  if title = "" then none else some (.sealed key title)

/-- Seal a title that is not empty. -/
def sealTitle (failed : Bool) (key : EncryptionKey) (title : String) : Option (Option Token) :=
  if title = "" then some none else (sealColumn failed key title).map some

/-- `save_session_core_locked`: the rows after the session's row was written in place. -/
def saveSessionCoreLocked (fail : Faults SaveSite) (key : EncryptionKey) (rows : List SessionRow)
    (s : Session) : Option (List SessionRow) := do
  let messagesText ← sessionSerializeMessagesNew codec (fail.within .messages) s.messages
  attempt (fail .metadata)
  let metadataText := sessionSerializeMetadataNew codec s.metadata
  attempt (fail .events)
  let eventsText := sessionSerializeEventsNew codec s.events
  attempt (decide (intMax < messagesText.utf8ByteSize))
  attempt (decide (intMax < metadataText.utf8ByteSize))
  attempt (decide (intMax < eventsText.utf8ByteSize))
  let title ← sealTitle (fail (.encrypt .title)) key s.title
  let messages ← sealColumn (fail (.encrypt .messages)) key messagesText
  let metadata ← sealColumn (fail (.encrypt .metadata)) key metadataText
  let events ← sealColumn (fail (.encrypt .events)) key eventsText
  attempt (fail .prepare)
  attempt (fail .bind)
  attempt (fail .step)
  let row : SessionRow :=
    { id := s.id, title, titleGenerationAttempted := s.titleGenerationAttempted,
      createdAt := s.createdAt, messages := some messages, metadata := some metadata,
      events := some events }
  return putRow SessionRow.id row rows

/-! ## With checked failures only -/

/-- The row that holds a session. -/
def sessionRow (key : EncryptionKey) (s : Session) : SessionRow where
  id := s.id
  title := titleColumn key s.title
  titleGenerationAttempted := s.titleGenerationAttempted
  createdAt := s.createdAt
  messages := some (.sealed key (codec.print (messagesJson codec s.messages)))
  metadata := some (.sealed key (sessionSerializeMetadataNew codec s.metadata))
  events := some (.sealed key (sessionSerializeEventsNew codec s.events))

/-- The texts of a column must be there and within `INT_MAX`. -/
def columnFits (text : String) : Bool := decide (text ≠ "" ∧ text.utf8ByteSize ≤ intMax)

/-- Whether the three texts of a session can be stored. -/
def Session.storable (s : Session) : Bool :=
  columnFits (codec.print (messagesJson codec s.messages)) &&
    columnFits (sessionSerializeMetadataNew codec s.metadata) &&
    columnFits (sessionSerializeEventsNew codec s.events)

variable {codec}

theorem sealColumn_of_ne {key : EncryptionKey} {text : String} (h : text ≠ "") :
    sealColumn false key text = some (.sealed key text) := by
  rw [sealColumn, if_neg (by simp), encryptionEncrypt, if_neg h]

theorem sealTitle_false (key : EncryptionKey) (title : String) :
    sealTitle false key title = some (titleColumn key title) := by
  rw [sealTitle, titleColumn]
  by_cases h : title = ""
  · rw [if_pos h, if_pos h]
  · rw [if_neg h, if_neg h, sealColumn_of_ne h, Option.map_some]

theorem saveSessionCoreLocked_none (key : EncryptionKey) (rows : List SessionRow) (s : Session) :
    saveSessionCoreLocked codec Faults.none key rows s =
      if s.storable codec then some (putRow SessionRow.id (sessionRow codec key s) rows)
      else none := by
  have hcolumn : ∀ text, columnFits text = true ↔ text ≠ "" ∧ ¬ intMax < text.utf8ByteSize := by
    intro text
    rw [columnFits, decide_eq_true_iff, Nat.not_lt]
  have htext : ∀ (text : String) {β : Type} (f : Token → Option β),
      ((sealColumn false key text).bind f) =
        if text = "" then none else f (.sealed key text) := by
    intro text β f
    by_cases h : text = ""
    · rw [h]
      rfl
    · rw [sealColumn_of_ne h, if_neg h]
      rfl
  simp only [saveSessionCoreLocked, Faults.within_none, sessionSerializeMessagesNew_none,
    Faults.none_apply, attempt_false, Option.bind_eq_bind, Option.bind_some, sealTitle_false, htext,
    attempt_decide_bind, Option.pure_def, Session.storable, Bool.and_eq_true, hcolumn]
  split
  · next h => rw [if_neg fun hs => hs.1.1.2 h]
  split
  · next h => rw [if_neg fun hs => hs.1.2.2 h]
  split
  · next h => rw [if_neg fun hs => hs.2.2 h]
  split
  · next h => rw [if_neg fun hs => hs.1.1.1 h]
  split
  · next h => rw [if_neg fun hs => hs.1.2.1 h]
  split
  · next h => rw [if_neg fun hs => hs.2.1 h]
  · next h₁ h₂ h₃ h₄ h₅ h₆ =>
    rw [if_pos ⟨⟨⟨h₄, h₁⟩, h₅, h₂⟩, h₆, h₃⟩]
    rfl

theorem abortsOr_sealColumn (failed : Bool) (key : EncryptionKey) (text : String) :
    AbortsOr (sealColumn failed key text) (sealColumn false key text) :=
  AbortsOr.ite_none failed _

theorem abortsOr_sealTitle (failed : Bool) (key : EncryptionKey) (title : String) :
    AbortsOr (sealTitle failed key title) (sealTitle false key title) := by
  unfold sealTitle
  split
  · exact AbortsOr.refl _
  · cases failed with
    | true => exact AbortsOr.none_left _
    | false => exact AbortsOr.refl _

/-- **A save whose failures are all checked** gives up or writes what it writes without failures. -/
theorem abortsOr_saveSessionCoreLocked {fail : Faults SaveSite} (h : fail.OnlyIn SaveSite.checked)
    (key : EncryptionKey) (rows : List SessionRow) (s : Session) :
    AbortsOr (saveSessionCoreLocked codec fail key rows s)
      (saveSessionCoreLocked codec Faults.none key rows s) := by
  have hmessages : AbortsOr
      (sessionSerializeMessagesNew codec (fail.within .messages) s.messages)
      (sessionSerializeMessagesNew codec Faults.none s.messages) := by
    rw [sessionSerializeMessagesNew_none]
    exact abortsOr_sessionSerializeMessagesNew (fun site hsite => h (.messages site) hsite) _
  refine AbortsOr.bind hmessages fun messagesText => ?_
  refine AbortsOr.bind (AbortsOr.of_attempt _) fun _ => ?_
  refine AbortsOr.bind (AbortsOr.of_attempt _) fun _ => ?_
  refine AbortsOr.bind (AbortsOr.refl _) fun _ => ?_
  refine AbortsOr.bind (AbortsOr.refl _) fun _ => ?_
  refine AbortsOr.bind (AbortsOr.refl _) fun _ => ?_
  refine AbortsOr.bind (abortsOr_sealTitle _ _ _) fun title => ?_
  refine AbortsOr.bind (abortsOr_sealColumn _ _ _) fun messages => ?_
  refine AbortsOr.bind (abortsOr_sealColumn _ _ _) fun metadata => ?_
  refine AbortsOr.bind (abortsOr_sealColumn _ _ _) fun events => ?_
  refine AbortsOr.bind (AbortsOr.of_attempt _) fun _ => ?_
  refine AbortsOr.bind (AbortsOr.of_attempt _) fun _ => ?_
  exact AbortsOr.bind (AbortsOr.of_attempt _) fun _ => AbortsOr.refl _

theorem abortsOr_readColumn {α : Type} (failed : Bool) (key : EncryptionKey) (empty : α)
    {read read' : String → Option α} (h : ∀ text, AbortsOr (read text) (read' text))
    (t : Option Token) :
    AbortsOr (readColumn failed key empty read t) (readColumn false key empty read' t) := by
  cases t with
  | none => exact AbortsOr.refl _
  | some t =>
    exact (AbortsOr.ite_none failed _).trans (AbortsOr.bind (AbortsOr.refl _) h)

theorem abortsOr_readSessionRow {fail : Faults LoadSite} (h : fail.OnlyIn LoadSite.checked)
    (key : EncryptionKey) (row : SessionRow) :
    AbortsOr (readSessionRow codec fail key row) (readSessionRow codec Faults.none key row) := by
  have hmessages : ∀ text, AbortsOr
      (sessionDeserializeMessages codec (fail.within .messages) text)
      (sessionDeserializeMessages codec Faults.none text) := by
    intro text
    rw [sessionDeserializeMessages_none]
    exact abortsOr_sessionDeserializeMessages (fun site hsite => h (.messages site) hsite) text
  refine AbortsOr.bind (AbortsOr.of_attempt _) fun _ => ?_
  refine AbortsOr.bind (abortsOr_readColumn _ key "" (fun _ => AbortsOr.ite_none _ _) _)
    fun title => ?_
  refine AbortsOr.bind (abortsOr_readColumn _ key [] hmessages _) fun messages => ?_
  refine AbortsOr.bind (abortsOr_readColumn _ key _ (fun _ => AbortsOr.ite_none _ _) _)
    fun metadata => ?_
  exact AbortsOr.bind (abortsOr_readColumn _ key [] (fun _ => AbortsOr.ite_none _ _) _)
    fun events => AbortsOr.refl _

/-- **A load whose failures are all checked** gives up or loads what it loads without failures. -/
theorem abortsOr_loadSessionLocked {fail : Faults LoadSite} (h : fail.OnlyIn LoadSite.checked)
    (key : EncryptionKey) (rows : List SessionRow) (id : String) :
    AbortsOr (loadSessionLocked codec fail key rows id)
      (loadSessionLocked codec Faults.none key rows id) := by
  refine AbortsOr.bind (AbortsOr.of_attempt _) fun _ => ?_
  refine AbortsOr.bind (AbortsOr.of_attempt _) fun _ => ?_
  refine AbortsOr.bind (AbortsOr.of_attempt _) fun _ => ?_
  exact AbortsOr.bind (AbortsOr.refl _) fun row => abortsOr_readSessionRow h key row

theorem loadSessionLocked_none (key : EncryptionKey) (rows : List SessionRow) (id : String) :
    loadSessionLocked codec Faults.none key rows id =
      (findRow SessionRow.id id rows).bind (readSessionRow codec Faults.none key) := rfl

/-- A loaded session stands in the row of its id. -/
theorem exists_row_of_loadSessionLocked {fail : Faults LoadSite} {key : EncryptionKey}
    {rows : List SessionRow} {id : String} {s : Session}
    (h : loadSessionLocked codec fail key rows id = some s) :
    ∃ row, findRow SessionRow.id id rows = some row ∧
      readSessionRow codec fail key row = some s := by
  simp only [loadSessionLocked, Option.bind_eq_bind, Option.bind_eq_some_iff] at h
  obtain ⟨-, -, -, -, -, -, row, hrow, hread⟩ := h
  exact ⟨row, hrow, hread⟩

theorem id_of_readSessionRow {fail : Faults LoadSite} {key : EncryptionKey} {row : SessionRow}
    {s : Session} (h : readSessionRow codec fail key row = some s) : s.id = row.id := by
  simp only [readSessionRow, Option.bind_eq_bind, Option.bind_eq_some_iff, Option.pure_def,
    Option.some_inj] at h
  obtain ⟨-, -, _, -, _, -, _, -, _, -, rfl⟩ := h
  rfl

theorem sealed_of_sealColumn {failed : Bool} {key : EncryptionKey} {text : String} {t : Token}
    (h : sealColumn failed key text = some t) : ∃ p, t = .sealed key p := by
  rw [sealColumn] at h
  split at h
  · exact absurd h (by simp)
  · exact ⟨text, encryptionDecrypt_eq_some_iff.mp (encryptionDecrypt_encrypt h)⟩

theorem sealed_of_sealTitle {failed : Bool} {key : EncryptionKey} {title : String}
    {column : Option Token} (h : sealTitle failed key title = some column) :
    ∀ t ∈ column, ∃ p, t = .sealed key p := by
  intro t ht
  rw [Option.mem_def] at ht
  rw [sealTitle, ht] at h
  split at h
  · exact absurd h (by simp)
  · rw [Option.map_eq_some_iff] at h
    obtain ⟨t', ht', heq⟩ := h
    rw [Option.some_inj] at heq
    rw [← heq]
    exact sealed_of_sealColumn ht'

/-- Whatever fails, a save that succeeds writes one row and seals it under the key. -/
theorem exists_row_of_saveSessionCoreLocked {fail : Faults SaveSite} {key : EncryptionKey}
    {rows rows' : List SessionRow} {s : Session}
    (h : saveSessionCoreLocked codec fail key rows s = some rows') :
    ∃ row, rows' = putRow SessionRow.id row rows ∧ row.id = s.id ∧ row.SealedUnder key := by
  simp only [saveSessionCoreLocked, Option.bind_eq_bind, Option.bind_eq_some_iff, Option.pure_def,
    Option.some_inj] at h
  obtain ⟨messagesText, -, -, -, -, -, -, -, -, -, -, -, title, htitle, messages, hmessages, metadata,
    hmetadata, events, hevents, -, -, -, -, -, -, rfl⟩ := h
  refine ⟨_, rfl, rfl, ?_⟩
  intro t ht
  simp only [SessionRow.tokens, Option.toList_some, List.mem_append, Option.mem_toList,
    List.mem_singleton] at ht
  rcases ht with ((ht | rfl) | rfl) | rfl
  · exact sealed_of_sealTitle htitle t ht
  · exact sealed_of_sealColumn hmessages
  · exact sealed_of_sealColumn hmetadata
  · exact sealed_of_sealColumn hevents

/-! ## Loading what was saved -/

theorem parse_sessionSerializeMetadataNew (metadata : JsonValue) :
    codec.parse (sessionSerializeMetadataNew codec metadata) =
      some (normalizeMetadata codec metadata) := by
  unfold sessionSerializeMetadataNew normalizeMetadata
  split
  · exact codec.parse_emptyObject
  · exact codec.parse_print metadata

theorem sessionDeserializeEvents_serialize (events : List JsonValue) :
    sessionDeserializeEvents codec (sessionSerializeEventsNew codec events) =
      some (normalizeEvents codec events) := by
  unfold sessionSerializeEventsNew normalizeEvents
  by_cases h : (codec.print (.array events)).utf8ByteSize ≤ 2
  · rw [if_pos h, if_pos h, sessionDeserializeEvents, codec.parse_emptyArray]
  · rw [if_neg h, if_neg h, sessionDeserializeEvents, codec.parse_print]

theorem readColumn_sealed {α : Type} (key : EncryptionKey) (empty : α)
    (read : String → Option α) (text : String) :
    readColumn false key empty read (some (.sealed key text)) = read text := by
  rw [readColumn, if_neg (by simp), encryptionDecrypt, if_pos rfl, Option.bind_some]

theorem readColumn_titleColumn (key : EncryptionKey) (title : String) :
    readColumn false key "" some (titleColumn key title) = some title := by
  rw [titleColumn]
  split
  · next h => rw [readColumn, h]
  · exact readColumn_sealed key "" some title

/-- A row that holds a session is read as its normal form. -/
theorem readSessionRow_sessionRow (key : EncryptionKey) (s : Session) :
    readSessionRow codec Faults.none key (sessionRow codec key s) = some (s.normalize codec) := by
  have htitle : readColumn false key "" (fun text => some text) (titleColumn key s.title) =
      some s.title := readColumn_titleColumn key s.title
  simp only [readSessionRow, sessionRow, Faults.within_none, Faults.none_apply,
    attempt_false, Option.bind_eq_bind, Option.bind_some, Bool.false_eq_true, if_false, htitle,
    readColumn_sealed, sessionDeserializeMessages_none, readMessages_print,
    parse_sessionSerializeMetadataNew, sessionDeserializeEvents_serialize, Option.pure_def]
  rfl

/-- **A saved session is loaded in its normal form.** -/
theorem loadSession_save {key : EncryptionKey} {rows rows' : List SessionRow} {s : Session}
    (h : saveSessionCoreLocked codec Faults.none key rows s = some rows') :
    loadSessionLocked codec Faults.none key rows' s.id = some (s.normalize codec) := by
  rw [saveSessionCoreLocked_none] at h
  split at h
  · rw [← Option.some.inj h]
    have hrow : findRow SessionRow.id s.id (putRow SessionRow.id (sessionRow codec key s) rows) =
        some (sessionRow codec key s) := findRow_putRow_self (sessionRow codec key s) rows
    rw [loadSessionLocked_none, hrow, Option.bind_some, readSessionRow_sessionRow]
  · exact absurd h (by simp)

/-- A load depends on the row of its id only. -/
theorem loadSessionLocked_congr {fail : Faults LoadSite} {key : EncryptionKey}
    {rows rows' : List SessionRow} {id : String}
    (h : findRow SessionRow.id id rows = findRow SessionRow.id id rows') :
    loadSessionLocked codec fail key rows id = loadSessionLocked codec fail key rows' id := by
  rw [loadSessionLocked, loadSessionLocked, h]

/-- A save changes no other session. -/
theorem loadSession_save_ne {key key' : EncryptionKey} {rows rows' : List SessionRow} {s : Session}
    (h : saveSessionCoreLocked codec Faults.none key rows s = some rows') {id : String}
    (hid : s.id ≠ id) :
    loadSessionLocked codec Faults.none key' rows' id =
      loadSessionLocked codec Faults.none key' rows id := by
  rw [saveSessionCoreLocked_none] at h
  split at h
  · rw [← Option.some.inj h]
    have hrow : (sessionRow codec key s).id ≠ id := hid
    exact loadSessionLocked_congr (findRow_putRow_ne hrow rows)
  · exact absurd h (by simp)

/-! ## Normal forms -/

theorem normalizeMetadata_normalizeMetadata (metadata : JsonValue) :
    normalizeMetadata codec (normalizeMetadata codec metadata) =
      normalizeMetadata codec metadata := by
  by_cases h : (codec.print metadata).utf8ByteSize ≤ 2
  · have hempty : normalizeMetadata codec metadata = .object [] := if_pos h
    rw [hempty, normalizeMetadata, ite_self]
  · have hkept : normalizeMetadata codec metadata = metadata := if_neg h
    rw [hkept, hkept]

theorem normalizeEvents_normalizeEvents (events : List JsonValue) :
    normalizeEvents codec (normalizeEvents codec events) = normalizeEvents codec events := by
  by_cases h : (codec.print (.array events)).utf8ByteSize ≤ 2
  · have hempty : normalizeEvents codec events = [] := if_pos h
    rw [hempty, normalizeEvents, ite_self]
  · have hkept : normalizeEvents codec events = events := if_neg h
    rw [hkept, hkept]

/-- Saving and loading a loaded session changes nothing. -/
theorem Session.normalize_normalize (s : Session) :
    (s.normalize codec).normalize codec = s.normalize codec := by
  have hmessages : (s.messages.map (Message.normalize codec)).map (Message.normalize codec) =
      s.messages.map (Message.normalize codec) := by
    rw [List.map_map]
    exact List.map_congr_left fun m _ => m.normalize_normalize
  simp only [Session.normalize, hmessages, normalizeMetadata_normalizeMetadata,
    normalizeEvents_normalizeEvents]

end Codec

end EchoAi
