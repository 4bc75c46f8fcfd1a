import EchoAi.Agent.SaveSession

/-!
# Exporting and importing a session

A session is exported as one JSON object and imported from such a text as a new row.  The import
leaves out system messages, reads every member with a default, and never touches a row that is
there.

* `sessionManagerExportSessionNew`, `sessionManagerImportSessionNew`: the two operations; `Written`
  says of a row that a save without losses has written it.
* `importSessionBuild_exportText`: the text of a session is read as the session without its system
  messages.
* `importUndoesExport_iff`: importing into another database brings every session back but the one
  with the empty id, and importing any text only adds.

Memory does not run out while a text is made or read; the operations of the save may fail.
-/

namespace EchoAi

open JsonValue

/-! ## The members of an exported session -/

/-- The members of an exported session. -/
inductive SessionKey where
  | id | title | titleGenerationAttempted | createdAt | messages | metadata | events
  deriving DecidableEq, Repr

namespace SessionKey

/-- The name of a member. -/
def label : SessionKey → String
  | id => "id"
  | title => "title"
  | titleGenerationAttempted => "title_generation_attempted"
  | createdAt => "created_at"
  | messages => "messages"
  | metadata => "metadata"
  | events => "events"

/-- All members. -/
def all : List SessionKey :=
  [id, title, titleGenerationAttempted, createdAt, messages, metadata, events]

theorem mem_all (k : SessionKey) : k ∈ all := by
  cases k <;> decide

theorem eq_of_sameLabel (k k' : SessionKey) (h : sameName k.label k'.label = true) : k = k' := by
  have hall : ∀ k ∈ all, ∀ k' ∈ all, sameName k.label k'.label = true → k = k' := by
    decide +kernel
  exact hall k k.mem_all k' k'.mem_all h

end SessionKey

section Codec

variable (codec : JsonCodec)

/-! ## Export -/

/-- `session_manager_load_session_alloc`: there is no session under the empty id. -/
def sessionManagerLoadSessionAlloc (key : EncryptionKey) (rows : List SessionRow) (id : String) :
    Option Session :=
  if id = "" then none else loadSessionLocked codec Faults.none key rows id

/-- The members that an export writes. -/
def exportFields (s : Session) : List (SessionKey × Option JsonValue) :=
  [(.id, some (.string s.id)),
    (.title, some (.string s.title)),
    (.titleGenerationAttempted, some (.number ⟨s.titleGenerationAttempted, 0⟩)),
    (.createdAt, some (.string s.createdAt)),
    (.messages, if s.messages.isEmpty then none else some (messagesJson codec s.messages)),
    (.metadata, some s.metadata),
    (.events, some (.array s.events))]

/-- The object that an export prints. -/
def exportJson (s : Session) : JsonValue :=
  ofFields SessionKey.label (presentFields (exportFields codec s))

/-- `session_manager_export_session_new`. -/
def sessionManagerExportSessionNew (key : EncryptionKey) (rows : List SessionRow) (id : String) :
    Option String :=
  (sessionManagerLoadSessionAlloc codec key rows id).map fun s => codec.print (exportJson codec s)

/-! ## Import -/

/-- Whether an item of the imported messages is a system message. -/
def isSystemItem (item : JsonValue) : Bool :=
  textMember item MessageKey.role.label == some "system"

/-- The messages of an imported object: the array without its system messages is printed and read
again. -/
def importMessages : Option JsonValue → List Message
  | some (.array items) =>
    (sessionDeserializeMessages codec Faults.none
      (codec.print (.array (items.filter fun item => !isSystemItem item)))).getD []
  | _ => []

/-- The metadata of an imported object, printed and read again. -/
def importMetadata : Option JsonValue → JsonValue
  | some metadata => (codec.parse (codec.print metadata)).getD (.object [])
  | none => .object []

/-- The events of an imported object, printed and read again. -/
def importEvents : Option JsonValue → List JsonValue
  | some (.array items) => (sessionDeserializeEvents codec (codec.print (.array items))).getD []
  | _ => []

/-- `import_session_build` -/
def importSessionBuild (new : NewSession) (text : String) : Option Session := do
  let json ← codec.parse text
  let s := sessionCreate new "Imported Session"
  return {
    id := (textMember json SessionKey.id.label).getD s.id
    title := (textMember json SessionKey.title.label).getD s.title
    titleGenerationAttempted :=
      (((json.member SessionKey.titleGenerationAttempted.label).bind numberValue).map Decimal.valueInt).getD
        s.titleGenerationAttempted
    createdAt := (textMember json SessionKey.createdAt.label).getD s.createdAt
    messages := importMessages codec (json.member SessionKey.messages.label)
    metadata := importMetadata codec (json.member SessionKey.metadata.label)
    events := importEvents codec (json.member SessionKey.events.label) }

/-- The row that `save_session_core_locked` writes in either of its modes. -/
def sessionRowToStore (fail : Faults SaveSite) (key : EncryptionKey) (s : Session) :
    Option SessionRow := do
  let messagesText ← sessionSerializeMessagesNew codec (fail.within .messages) s.messages
  attempt (fail .metadata)
  let metadataText := sessionSerializeMetadataNew codec s.metadata
  attempt (fail .events)
  let eventsText := sessionSerializeEventsNew codec s.events
  attempt (decide (intMax < messagesText.utf8ByteSize))
  attempt (decide (intMax < metadataText.utf8ByteSize))
  attempt (decide (intMax < eventsText.utf8ByteSize))
  let title ← sealTitle (fail (.encrypt .title)) key s.title
  let messages ← sealColumn (fail (.encrypt .messages)) key messagesText
  let metadata ← sealColumn (fail (.encrypt .metadata)) key metadataText
  let events ← sealColumn (fail (.encrypt .events)) key eventsText
  attempt (fail .prepare)
  attempt (fail .bind)
  attempt (fail .step)
  return { id := s.id, title, titleGenerationAttempted := s.titleGenerationAttempted,
           createdAt := s.createdAt, messages := some messages, metadata := some metadata,
           events := some events }

/-- `session_manager_import_session_new`: the imported session, absent when there is none, and the
rows afterwards. -/
def sessionManagerImportSessionNew (fail : Faults SaveSite) (new : NewSession)
    (key : EncryptionKey) (rows : List SessionRow) (text : String) :
    Option Session × List SessionRow :=
  match importSessionBuild codec new text with
  | none => (none, rows)
  | some s =>
    match sessionRowToStore codec fail key s with
    | none => (none, rows)
    | some row =>
      let written := insertRow SessionRow.id row rows
      (if written.2 then some s else none, written.1)

/-! ## Rows that were written -/

/-- The row was written by a save that has lost nothing, of a session whose number is an `int`. -/
def Written (key : EncryptionKey) (row : SessionRow) : Prop :=
  ∃ s : Session, s.storable codec = true ∧ -2147483648 ≤ s.titleGenerationAttempted ∧
    s.titleGenerationAttempted ≤ 2147483647 ∧ row = sessionRow codec key s

/-- The session without its system messages. -/
def Session.withoutSystem (s : Session) : Session :=
  { s with messages := storedMessages s.messages }

/-- The sessions are the same but for system messages. -/
structure SameSession (s s' : Session) : Prop where
  id : s'.id = s.id
  title : s'.title = s.title
  titleGenerationAttempted : s'.titleGenerationAttempted = s.titleGenerationAttempted
  createdAt : s'.createdAt = s.createdAt
  metadata : s'.metadata = s.metadata
  events : s'.events = s.events
  messages : s'.messages = storedMessages s.messages

/-- The session in the row is exported, and importing the text into any database without a row of
its id brings it back, in memory and as a row. -/
def UndoesExport (key key' : EncryptionKey) (rows : List SessionRow) (row : SessionRow) : Prop :=
  ∀ (new : NewSession) (rows' : List SessionRow), findRow SessionRow.id row.id rows' = none →
    ∃ s text s' rows'', readSessionRow codec Faults.none key row = some s ∧
      sessionManagerExportSessionNew codec key rows row.id = some text ∧
      sessionManagerImportSessionNew codec Faults.none new key' rows' text = (some s', rows'') ∧
      SameSession s s' ∧ loadSessionLocked codec Faults.none key' rows'' row.id = some s'

/-- Importing a text, whatever fails, leaves every row as it is and adds rows of new ids only, and
none when it fails. -/
def OnlyAdds (key : EncryptionKey) : Prop :=
  ∀ (fail : Faults SaveSite) (new : NewSession) (rows : List SessionRow) (text : String),
    ∃ added, (sessionManagerImportSessionNew codec fail new key rows text).2 = rows ++ added ∧
      (∀ row ∈ added, findRow SessionRow.id row.id rows = none) ∧
      ((sessionManagerImportSessionNew codec fail new key rows text).1 = none → added = [])

variable {codec}

/-- A save in the mode that replaces writes the same row. -/
theorem saveSessionCoreLocked_eq (fail : Faults SaveSite) (key : EncryptionKey)
    (rows : List SessionRow) (s : Session) :
    saveSessionCoreLocked codec fail key rows s =
      (sessionRowToStore codec fail key s).map fun row => putRow SessionRow.id row rows := by
  simp only [saveSessionCoreLocked, sessionRowToStore, Option.bind_eq_bind, Option.map_bind,
    Function.comp_def, Option.pure_def, Option.map_some]

theorem sessionRowToStore_none (key : EncryptionKey) (s : Session) :
    sessionRowToStore codec Faults.none key s =
      if s.storable codec then some (sessionRow codec key s) else none := by
  have hsave := @saveSessionCoreLocked_none codec key [] s
  rw [saveSessionCoreLocked_eq] at hsave
  cases hrow : sessionRowToStore codec Faults.none key s with
  | none =>
    rw [hrow, Option.map_none] at hsave
    split at hsave
    · exact absurd hsave (by simp)
    next h => rw [if_neg h]
  | some row =>
    rw [hrow, Option.map_some] at hsave
    split at hsave
    next h =>
      rw [if_pos h, (List.cons.inj (Option.some.inj hsave)).1]
    next => exact absurd hsave (by simp)

/-! ## Reading an exported session -/

/-- A member of the text of a session. -/
theorem member_exportJson (s : Session) (k : SessionKey) :
    (exportJson codec s).member k.label = ((exportFields codec s).lookup k).join := by
  have hkeys : ((exportFields codec s).map Prod.fst).Nodup := by
    change SessionKey.all.Nodup
    decide
  rw [exportJson, member_ofFields SessionKey.eq_of_sameLabel, lookup_presentFields hkeys]

/-- The text members are read as they were written. -/
theorem textMember_exportJson (s : Session) {k : SessionKey} {text : String}
    (hk : (exportFields codec s).lookup k = some (some (.string text))) :
    textMember (exportJson codec s) k.label = some text := by
  rw [textMember, member_exportJson, hk]
  rfl

/-- The role of a written message is its role. -/
theorem isSystemItem_messageJson {m : Message} (h : m.normalize codec = m) :
    isSystemItem (messageJson codec m) = m.hasSystemRole := by
  have hrole : m.role = some (m.role.getD "") := by
    conv_lhs => rw [← h]
    rfl
  have hkeys : ((messageFields codec Faults.none 0 m).map Prod.fst).Nodup := by
    rw [map_fst_messageFields]
    decide
  have hread : textMember (messageJson codec m) MessageKey.role.label = some (m.role.getD "") := by
    rw [textMember, messageJson, member_ofFields MessageKey.eq_of_sameLabel,
      lookup_presentFields hkeys]
    rfl
  rw [isSystemItem, hread, Message.hasSystemRole, ← hrole]

/-- The messages of a loaded session are imported without the system messages. -/
theorem importMessages_messagesJson {msgs : List Message}
    (h : ∀ m ∈ msgs, m.normalize codec = m) :
    importMessages codec (some (messagesJson codec msgs)) = storedMessages msgs := by
  have hfilter : (msgs.map (messageJson codec)).filter (fun item => !isSystemItem item) =
      (storedMessages msgs).map (messageJson codec) := by
    rw [List.filter_map, storedMessages]
    refine congrArg (List.map (messageJson codec)) (List.filter_congr fun m hm => ?_)
    rw [Function.comp_apply, isSystemItem_messageJson (h m hm)]
  have hnormal : (storedMessages msgs).map (Message.normalize codec) = storedMessages msgs := by
    conv_rhs => rw [← List.map_id (storedMessages msgs)]
    exact List.map_congr_left fun m hm => h m (List.mem_of_mem_filter hm)
  rw [messagesJson, importMessages, hfilter, sessionDeserializeMessages_none]
  change (readMessages codec (codec.print (messagesJson codec (storedMessages msgs)))).getD [] = _
  rw [readMessages_print, Option.getD_some, hnormal]

/-- **The text of a session is read as the session without its system messages.** -/
theorem importSessionBuild_exportText (new : NewSession) {s : Session}
    (hmessages : ∀ m ∈ s.messages, m.normalize codec = m)
    (hlow : -2147483648 ≤ s.titleGenerationAttempted)
    (hhigh : s.titleGenerationAttempted ≤ 2147483647) :
    importSessionBuild codec new (codec.print (exportJson codec s)) =
      some s.withoutSystem := by
  have hid : textMember (exportJson codec s) SessionKey.id.label = some s.id :=
    textMember_exportJson s rfl
  have htitle : textMember (exportJson codec s) SessionKey.title.label = some s.title :=
    textMember_exportJson s rfl
  have hcreated : textMember (exportJson codec s) SessionKey.createdAt.label = some s.createdAt :=
    textMember_exportJson s rfl
  have hnumber : (exportJson codec s).member SessionKey.titleGenerationAttempted.label =
      some (.number ⟨s.titleGenerationAttempted, 0⟩) := member_exportJson s _
  have hmetadata : (exportJson codec s).member SessionKey.metadata.label = some s.metadata :=
    member_exportJson s _
  have hevents : (exportJson codec s).member SessionKey.events.label = some (.array s.events) :=
    member_exportJson s _
  have hmsgs : importMessages codec ((exportJson codec s).member SessionKey.messages.label) =
      storedMessages s.messages := by
    have hmember : (exportJson codec s).member SessionKey.messages.label =
        if s.messages.isEmpty then none else some (messagesJson codec s.messages) :=
      member_exportJson s _
    rw [hmember]
    split
    next hempty =>
      rw [List.isEmpty_iff.mp hempty]
      rfl
    next => exact importMessages_messagesJson hmessages
  rw [importSessionBuild, codec.parse_print, Option.bind_eq_bind, Option.bind_some, hid, htitle,
    hcreated, hnumber, hmetadata, hevents, hmsgs, importMetadata, codec.parse_print, importEvents,
    sessionDeserializeEvents, codec.parse_print, Option.bind_some, numberValue, Option.map_some,
    Decimal.valueInt_of_int hlow hhigh]
  rfl

/-! ## What is stored again -/

/-- A call that was loaded is written as it was stored. -/
theorem callJson_normalize (tc : ToolCall) :
    callJson codec (tc.normalize codec) = callJson codec tc := by
  have harguments : argumentsJson codec false (tc.normalize codec).arguments =
      argumentsJson codec false tc.arguments := argumentsJson_print _
  have hfunction : functionJson codec Faults.none 0 0 (tc.normalize codec) =
      functionJson codec Faults.none 0 0 tc := by
    rw [functionJson, functionJson, functionFields, functionFields, Faults.none_apply, harguments]
    rfl
  rw [callJson, callJson, callFields, callFields, hfunction]
  rfl

/-- A message that was loaded is written as it was stored. -/
theorem messageJson_normalize (m : Message) :
    messageJson codec (m.normalize codec) = messageJson codec m := by
  have hencode : ∀ j tc, encodeCall codec Faults.none 0 j tc = some (callJson codec tc) :=
    fun j tc => encodeCall_eq (Faults.onlyIn_none _) 0 j tc
  have hcalls : collectFrom (encodeCall codec Faults.none 0) 0 (m.normalize codec).toolCalls =
      collectFrom (encodeCall codec Faults.none 0) 0 m.toolCalls := by
    rw [collectFrom_total hencode, collectFrom_total hencode, Message.normalize, List.map_map]
    exact List.map_congr_left fun tc _ => callJson_normalize tc
  have hempty : (m.normalize codec).toolCalls.isEmpty = m.toolCalls.isEmpty := List.isEmpty_map
  have htimestamp : (if (m.normalize codec).timestamp.isPositive = true then
        some (JsonValue.number (m.normalize codec).timestamp) else none) =
      if m.timestamp.isPositive = true then some (.number m.timestamp) else none := by
    rw [Message.normalize, Decimal.positivePart]
    by_cases h : m.timestamp.isPositive = true
    · rw [if_pos h]
    · rw [if_neg h, if_neg h]
      rfl
  rw [messageJson, messageJson, messageFields, messageFields, hcalls, hempty, htimestamp]
  rfl

section Compact

variable (hcodec : codec.Compact)

include hcodec

/-- Metadata that was loaded is written as it was stored. -/
theorem sessionSerializeMetadataNew_normalize (metadata : JsonValue) :
    sessionSerializeMetadataNew codec (normalizeMetadata codec metadata) =
      sessionSerializeMetadataNew codec metadata := by
  by_cases h : (codec.print metadata).utf8ByteSize ≤ 2
  · have hempty : normalizeMetadata codec metadata = .object [] := if_pos h
    rw [hempty, sessionSerializeMetadataNew, sessionSerializeMetadataNew, if_pos h,
      hcodec.print_emptyObject, ite_self]
  · have hkept : normalizeMetadata codec metadata = metadata := if_neg h
    rw [hkept]

/-- Events that were loaded are written as they were stored. -/
theorem sessionSerializeEventsNew_normalize (events : List JsonValue) :
    sessionSerializeEventsNew codec (normalizeEvents codec events) =
      sessionSerializeEventsNew codec events := by
  by_cases h : (codec.print (.array events)).utf8ByteSize ≤ 2
  · have hempty : normalizeEvents codec events = [] := if_pos h
    rw [hempty, sessionSerializeEventsNew, sessionSerializeEventsNew, if_pos h,
      hcodec.print_emptyArray, ite_self]
  · have hkept : normalizeEvents codec events = events := if_neg h
    rw [hkept]

/-- Leaving items out keeps the text of an array within its column. -/
theorem columnFits_sublist {xs ys : List JsonValue} (h : xs.Sublist ys)
    (hfits : columnFits (codec.print (.array ys)) = true) :
    columnFits (codec.print (.array xs)) = true := by
  rw [columnFits, decide_eq_true_eq] at hfits ⊢
  refine ⟨?_, (hcodec.print_sublist xs ys h).trans hfits.2⟩
  cases xs with
  | nil =>
    rw [hcodec.print_emptyArray]
    decide
  | cons v vs =>
    intro hnil
    have hlt := codec.two_lt_print_array v vs
    rw [hnil] at hlt
    exact absurd hlt (by decide)

/-- A session that was stored can be stored again, also without its system messages. -/
theorem storable_of_stored {s : Session} (h : s.storable codec = true) :
    (s.normalize codec).withoutSystem.storable codec = true := by
  rw [Session.storable, Bool.and_eq_true, Bool.and_eq_true] at h ⊢
  obtain ⟨⟨hmessages, hmetadata⟩, hevents⟩ := h
  have hsame : (s.normalize codec).messages.map (messageJson codec) =
      s.messages.map (messageJson codec) := by
    rw [Session.normalize, List.map_map]
    exact List.map_congr_left fun m _ => messageJson_normalize m
  refine ⟨⟨columnFits_sublist hcodec ?_ hmessages, ?_⟩, ?_⟩
  · rw [← hsame]
    exact List.filter_sublist.map (messageJson codec)
  · exact (sessionSerializeMetadataNew_normalize hcodec s.metadata).symm ▸ hmetadata
  · exact (sessionSerializeEventsNew_normalize hcodec s.events).symm ▸ hevents

end Compact

/-! ## Rows that are there -/

/-- A text that is imported adds the row of the session it is read as, or nothing. -/
theorem import_cases (fail : Faults SaveSite) (new : NewSession) (key : EncryptionKey)
    (rows : List SessionRow) (text : String) :
    sessionManagerImportSessionNew codec fail new key rows text = (none, rows) ∨
    ∃ s row, importSessionBuild codec new text = some s ∧
      sessionRowToStore codec fail key s = some row ∧ findRow SessionRow.id row.id rows = none ∧
      sessionManagerImportSessionNew codec fail new key rows text = (some s, rows ++ [row]) := by
  rw [sessionManagerImportSessionNew]
  cases hbuild : importSessionBuild codec new text with
  | none => exact Or.inl rfl
  | some s =>
    dsimp only
    cases hrow : sessionRowToStore codec fail key s with
    | none => exact Or.inl rfl
    | some row =>
      dsimp only
      rcases (insertRow_cases row rows :
          insertRow SessionRow.id row rows = (rows, false) ∨ _) with hinsert | ⟨hnone, hinsert⟩
      · rw [hinsert]
        exact Or.inl rfl
      · rw [hinsert]
        exact Or.inr ⟨s, row, rfl, hrow, hnone, rfl⟩

/-- **Importing any text only adds.** -/
theorem onlyAdds (key : EncryptionKey) : OnlyAdds codec key := by
  intro fail new rows text
  rcases @import_cases codec fail new key rows text with h | ⟨s, row, -, -, hnone, h⟩
  · rw [h]
    exact ⟨[], (List.append_nil rows).symm, fun row hrow => absurd hrow List.not_mem_nil,
      fun _ => rfl⟩
  · rw [h]
    refine ⟨[row], rfl, fun row' hrow' => ?_, fun hfalse => absurd hfalse (by simp)⟩
    obtain rfl := List.mem_singleton.mp hrow'
    exact hnone

/-! ## Rows that come to be there -/

/-- Without a loss, the row of a session holds it. -/
theorem written_of_sessionRowToStore {fail : Faults SaveSite} (h : fail.OnlyIn SaveSite.checked)
    {key : EncryptionKey} {s : Session} {row : SessionRow}
    (hlow : -2147483648 ≤ s.titleGenerationAttempted)
    (hhigh : s.titleGenerationAttempted ≤ 2147483647)
    (hrow : sessionRowToStore codec fail key s = some row) : Written codec key row := by
  have hsave : saveSessionCoreLocked codec fail key [] s = some [row] := by
    rw [saveSessionCoreLocked_eq, hrow]
    rfl
  have hsame := (abortsOr_saveSessionCoreLocked h key [] s).eq_some hsave
  rw [saveSessionCoreLocked_none] at hsame
  split at hsame
  next hstorable =>
    exact ⟨s, hstorable, hlow, hhigh, (List.cons.inj (Option.some.inj hsame)).1.symm⟩
  next => exact absurd hsame (by simp)

/-- The number of an imported session is an `int`. -/
theorem int_of_importSessionBuild {new : NewSession} {text : String} {s : Session}
    (h : importSessionBuild codec new text = some s) :
    -2147483648 ≤ s.titleGenerationAttempted ∧ s.titleGenerationAttempted ≤ 2147483647 := by
  have hint : ∀ x : Decimal, -2147483648 ≤ x.valueInt ∧ x.valueInt ≤ 2147483647 := by
    intro x
    rw [Decimal.valueInt]
    split
    · omega
    · split <;> omega
  rw [importSessionBuild, Option.bind_eq_bind, Option.bind_eq_some_iff] at h
  obtain ⟨json, -, hs⟩ := h
  obtain rfl := Option.some.inj hs
  change -2147483648 ≤ Option.getD (Option.map Decimal.valueInt _) (0 : Int) ∧
    Option.getD (Option.map Decimal.valueInt _) (0 : Int) ≤ 2147483647
  cases (json.member SessionKey.titleGenerationAttempted.label).bind numberValue with
  | none => exact ⟨by decide, by decide⟩
  | some x => exact hint x

/-- Rows that were written stay so when a text is imported, and so does their being distinct. -/
theorem written_of_import {fail : Faults SaveSite} (h : fail.OnlyIn SaveSite.checked)
    {new : NewSession} {key : EncryptionKey} {rows : List SessionRow} {text : String}
    (hkeys : (rows.map SessionRow.id).Nodup) (hrows : ∀ row ∈ rows, Written codec key row) :
    ((sessionManagerImportSessionNew codec fail new key rows text).2.map SessionRow.id).Nodup ∧
      ∀ row ∈ (sessionManagerImportSessionNew codec fail new key rows text).2,
        Written codec key row := by
  rcases @import_cases codec fail new key rows text with
    heq | ⟨s, row, hbuild, hrow, hnone, heq⟩
  · rw [heq]
    exact ⟨hkeys, hrows⟩
  · rw [heq]
    constructor
    · rw [List.map_append, List.map_singleton]
      rw [← List.concat_eq_append]
      exact hkeys.concat (findRow_eq_none_iff.mp hnone)
    · intro row' hrow'
      rcases List.mem_append.mp hrow' with hold | hnew
      · exact hrows row' hold
      · obtain rfl := List.mem_singleton.mp hnew
        obtain ⟨hlow, hhigh⟩ := int_of_importSessionBuild hbuild
        exact written_of_sessionRowToStore h hlow hhigh hrow

/-! ## There and back -/

/-- A session that is read from a written row stands in its normal form. -/
theorem Written.exists_session {key : EncryptionKey} {row : SessionRow}
    (h : Written codec key row) :
    ∃ s : Session, readSessionRow codec Faults.none key row = some (s.normalize codec) ∧
      s.storable codec = true ∧ -2147483648 ≤ s.titleGenerationAttempted ∧
      s.titleGenerationAttempted ≤ 2147483647 ∧ s.id = row.id := by
  obtain ⟨s, hstorable, hlow, hhigh, rfl⟩ := h
  exact ⟨s, readSessionRow_sessionRow key s, hstorable, hlow, hhigh, rfl⟩

/-- Leaving system messages out of a normal form leaves a normal form. -/
theorem normalize_withoutSystem (s : Session) :
    (s.normalize codec).withoutSystem.normalize codec = (s.normalize codec).withoutSystem := by
  have hmessages : (storedMessages (s.normalize codec).messages).map (Message.normalize codec) =
      storedMessages (s.normalize codec).messages := by
    conv_rhs => rw [← List.map_id (storedMessages (s.normalize codec).messages)]
    refine List.map_congr_left fun m hm => ?_
    obtain ⟨m', -, rfl⟩ := List.mem_map.mp (List.mem_of_mem_filter hm)
    exact m'.normalize_normalize
  rw [Session.withoutSystem, Session.normalize, hmessages]
  simp only [Session.normalize, normalizeMetadata_normalizeMetadata,
    normalizeEvents_normalizeEvents]

/-- **The import of an exported session** that is not under the empty id brings it back. -/
theorem undoesExport_of_ne (hcodec : codec.Compact) {key key' : EncryptionKey}
    {rows : List SessionRow} {row : SessionRow} (hkeys : (rows.map SessionRow.id).Nodup)
    (hmem : row ∈ rows) (hrow : Written codec key row) (hid : row.id ≠ "") :
    UndoesExport codec key key' rows row := by
  intro new rows' hfree
  obtain ⟨s, hread, hstorable, hlow, hhigh, hsid⟩ := hrow.exists_session
  have hfound : findRow SessionRow.id row.id rows = some row := findRow_of_mem hkeys hmem
  have hload : sessionManagerLoadSessionAlloc codec key rows row.id = some (s.normalize codec) := by
    rw [sessionManagerLoadSessionAlloc, if_neg hid, loadSessionLocked_none, hfound,
      Option.bind_some, hread]
  have hnormal : ∀ m ∈ (s.normalize codec).messages, m.normalize codec = m := by
    intro m hm
    obtain ⟨m', -, rfl⟩ := List.mem_map.mp hm
    exact m'.normalize_normalize
  have hbuild := @importSessionBuild_exportText codec new _ hnormal hlow hhigh
  have hrow' := @sessionRowToStore_none codec key' (s.normalize codec).withoutSystem
  rw [if_pos (storable_of_stored hcodec hstorable)] at hrow'
  have hkey : (sessionRow codec key' (s.normalize codec).withoutSystem).id = row.id := hsid
  refine ⟨s.normalize codec, codec.print (exportJson codec (s.normalize codec)),
    (s.normalize codec).withoutSystem,
    rows' ++ [sessionRow codec key' (s.normalize codec).withoutSystem], hread, ?_, ?_,
    ⟨rfl, rfl, rfl, rfl, rfl, rfl, rfl⟩, ?_⟩
  · rw [sessionManagerExportSessionNew, hload, Option.map_some]
  · rw [sessionManagerImportSessionNew, hbuild]
    dsimp only
    rw [hrow']
    dsimp only
    rw [insertRow_of_none (hkey ▸ hfree), if_pos rfl]
  · rw [loadSessionLocked_none, findRow_append, hfree, Option.none_or, findRow_cons_of_eq hkey,
      Option.bind_some, readSessionRow_sessionRow, normalize_withoutSystem]

/-- **Import undoes export exactly for the sessions that are not under the empty id**, and importing
any text only adds: the export does not find a session under the empty id, which an import may have
stored. -/
theorem importUndoesExport_iff (hcodec : codec.Compact) (key key' : EncryptionKey)
    (rows : List SessionRow) (hkeys : (rows.map SessionRow.id).Nodup) (row : SessionRow)
    (hmem : row ∈ rows) (hrow : Written codec key row) :
    UndoesExport codec key key' rows row ∧ OnlyAdds codec key' ↔ row.id ≠ "" := by
  constructor
  · rintro ⟨h, -⟩ hid
    obtain ⟨-, text, -, -, -, hexport, -⟩ := h ⟨"", ""⟩ [] rfl
    rw [hid, sessionManagerExportSessionNew, sessionManagerLoadSessionAlloc, if_pos rfl,
      Option.map_none] at hexport
    exact absurd hexport (by simp)
  · exact fun hid => ⟨undoesExport_of_ne hcodec hkeys hmem hrow hid, onlyAdds key'⟩

end Codec

/-- The vault of the examples. -/
def transferKey : EncryptionKey := ⟨"password", [1]⟩

/-- A session with a question and a system message. -/
def askedSession : Session where
  id := "s1"
  title := "Question"
  titleGenerationAttempted := 1
  createdAt := "2024-01-01"
  messages := [{ role := some "system", content := some "Be kind" },
    { role := some "user", content := some "time?" }]
  metadata := .object []
  events := []

/-- A session that was saved is brought back. -/
theorem importUndoesExport_askedSession :
    UndoesExport textCodec transferKey transferKey [sessionRow textCodec transferKey askedSession]
        (sessionRow textCodec transferKey askedSession) ∧ OnlyAdds textCodec transferKey :=
  (importUndoesExport_iff compact_textCodec transferKey transferKey
    [sessionRow textCodec transferKey askedSession] (List.nodup_singleton _)
    (sessionRow textCodec transferKey askedSession) (List.mem_singleton_self _)
    ⟨askedSession, by decide +kernel, by decide, by decide, rfl⟩).mpr (by decide)

/-- What importing an object with an empty id leaves in an empty database. -/
def emptyIdRows : List SessionRow :=
  (sessionManagerImportSessionNew textCodec Faults.none ⟨"1-1", "2024-01-01"⟩ transferKey []
    "\x7b\"id\":\"\"\x7d").2

/-- An imported session with the empty id is not exported. -/
theorem not_importUndoesExport_emptyId : (emptyIdRows.map SessionRow.id).Nodup ∧
    ∃ row ∈ emptyIdRows, Written textCodec transferKey row ∧
      ¬ (UndoesExport textCodec transferKey transferKey emptyIdRows row ∧
        OnlyAdds textCodec transferKey) := by
  obtain ⟨hkeys, hwritten⟩ := @written_of_import textCodec Faults.none (Faults.onlyIn_none _) ⟨"1-1", "2024-01-01"⟩
    transferKey [] "\x7b\"id\":\"\"\x7d" List.nodup_nil fun _ h => absurd h List.not_mem_nil
  have hone : emptyIdRows.map SessionRow.id = [""] := by decide +kernel
  have hmem : "" ∈ emptyIdRows.map SessionRow.id := by
    rw [hone]
    exact List.mem_singleton_self _
  obtain ⟨row, hrow, hid⟩ := List.mem_map.mp hmem
  refine ⟨hkeys, row, hrow, hwritten row hrow, fun h => ?_⟩
  obtain ⟨-, text, -, -, -, hexport, -⟩ := h.1 ⟨"", ""⟩ [] rfl
  rw [hid, sessionManagerExportSessionNew, sessionManagerLoadSessionAlloc, if_pos rfl,
    Option.map_none] at hexport
  exact absurd hexport (by simp)

end EchoAi
