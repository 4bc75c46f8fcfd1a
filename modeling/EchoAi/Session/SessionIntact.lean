import EchoAi.Session.SessionSerialize

/-!
# What a session loses on its way

A load or a save that succeeds may still have lost something: the array of a message's tool calls
when a load could not allocate it, and whatever a save could not add to the JSON of the messages.

* `Session.loaded`, `Session.received`: the session that a load yields, and the one that is read from
  the row that a save has written.
* `Session.Intact`: neither has lost anything.
* `received_loaded_eq_iff`: a session that stands in its normal form comes through a load and a save
  exactly when it does so intact.
-/

namespace EchoAi

variable {codec : JsonCodec}

/-! ## Loads -/

/-- The message that a load yields: it has no calls when their array could not be allocated. -/
def Message.loaded (fail : Faults DecodeSite) (i : Nat) (m : Message) : Message :=
  if fail (.toolCalls i) then { m with toolCalls := [] } else m

/-- The session that a load yields. -/
def Session.loaded (fail : Faults LoadSite) (s : Session) : Session :=
  { s with messages := s.messages.mapIdx (Message.loaded (fail.within .messages)) }

theorem eq_of_strDup {failed : Bool} {v w : Option String} (h : strDup failed v = some w) :
    w = v :=
  (Option.some.inj ((abortsOr_strDup failed v).eq_some h)).symm

theorem eq_of_decodeCalls {fail : Faults DecodeSite} {i : Nat} {arr : Option JsonValue}
    {tcs : List ToolCall} (h : decodeCalls codec fail i arr = some tcs) :
    tcs = if fail (.toolCalls i) then [] else readCalls codec arr := by
  cases hfail : fail (.toolCalls i) with
  | true =>
    cases arr with
    | none => exact (Option.some.inj h).symm
    | some arr =>
      rw [decodeCalls, hfail, if_pos rfl] at h
      exact (Option.some.inj h).symm
  | false =>
    rw [if_neg (by simp)]
    exact (Option.some.inj ((abortsOr_decodeCalls hfail arr).eq_some h)).symm

theorem eq_of_decodeMessage {fail : Faults DecodeSite} {i : Nat} {item : JsonValue} {m : Message}
    (h : decodeMessage codec fail i item = some m) : m = (readMessage codec item).loaded fail i := by
  obtain ⟨_, hrole, h⟩ := Option.bind_eq_some_iff.1 h
  obtain ⟨_, hcontent, h⟩ := Option.bind_eq_some_iff.1 h
  obtain ⟨_, hid, h⟩ := Option.bind_eq_some_iff.1 h
  obtain ⟨_, hparent, h⟩ := Option.bind_eq_some_iff.1 h
  obtain ⟨_, hgroup, h⟩ := Option.bind_eq_some_iff.1 h
  obtain ⟨_, hcallId, h⟩ := Option.bind_eq_some_iff.1 h
  obtain ⟨_, htool, h⟩ := Option.bind_eq_some_iff.1 h
  obtain ⟨_, herror, h⟩ := Option.bind_eq_some_iff.1 h
  obtain ⟨_, hthinking, h⟩ := Option.bind_eq_some_iff.1 h
  obtain ⟨_, hphase, h⟩ := Option.bind_eq_some_iff.1 h
  obtain ⟨_, hstate, h⟩ := Option.bind_eq_some_iff.1 h
  obtain ⟨_, hcalls, h⟩ := Option.bind_eq_some_iff.1 h
  obtain rfl := Option.some.inj h
  rw [eq_of_strDup hrole, eq_of_strDup hcontent, eq_of_strDup hid, eq_of_strDup hparent,
    eq_of_strDup hgroup, eq_of_strDup hcallId, eq_of_strDup htool, eq_of_strDup herror,
    eq_of_strDup hthinking, eq_of_strDup hphase, eq_of_strDup hstate, eq_of_decodeCalls hcalls,
    Message.loaded]
  split <;> rfl

theorem eq_of_sessionDeserializeMessages {fail : Faults DecodeSite} {text : String}
    {msgs : List Message} (h : sessionDeserializeMessages codec fail text = some msgs) :
    ∃ msgs₀, readMessages codec text = some msgs₀ ∧
      msgs = msgs₀.mapIdx (Message.loaded fail) := by
  simp only [sessionDeserializeMessages, Option.bind_eq_bind, Option.bind_eq_some_iff] at h
  obtain ⟨-, -, arr, harr, _, harray, -, -, hitems⟩ := h
  cases arr with
  | array items =>
    refine ⟨items.map (readMessage codec), ?_, ?_⟩
    · rw [readMessages, harr]
    · have hread := map_traverseFrom (g := id)
        (h := fun i item => (readMessage codec item).loaded fail i)
        (fun i item m hm => eq_of_decodeMessage hm) hitems
      rw [List.map_id] at hread
      refine hread.trans (List.ext_getElem? fun i => ?_)
      rw [List.getElem?_mapIdx, List.getElem?_mapIdx, List.getElem?_map, Nat.zero_add,
        Option.map_map]
      rfl
  | _ => exact absurd harray (by simp [JsonValue.isArray, attempt])

/-- What a column holds does not depend on the failures of a load that has read it. -/
theorem readColumn_eq_some {α β : Type} {failed : Bool} {key : EncryptionKey} {empty : α}
    {read : String → Option α} {read' : String → Option β} (f : β → α) (empty' : β)
    {t : Option Token} {a : α}
    (hread : ∀ text a, read text = some a → ∃ b, read' text = some b ∧ a = f b)
    (hempty : empty = f empty') (h : readColumn failed key empty read t = some a) :
    ∃ b, readColumn false key empty' read' t = some b ∧ a = f b := by
  cases t with
  | none => exact ⟨empty', rfl, (Option.some.inj h).symm.trans hempty⟩
  | some t =>
    rw [readColumn] at h
    split at h
    · exact absurd h (by simp)
    · rw [Option.bind_eq_some_iff] at h
      obtain ⟨text, htext, ha⟩ := h
      obtain ⟨b, hb, hab⟩ := hread text a ha
      refine ⟨b, ?_, hab⟩
      rw [readColumn, if_neg (by simp), htext, Option.bind_some, hb]

theorem eq_of_ite_none {α : Type} {failed : Bool} {x : Option α} {a : α}
    (h : (if failed then none else x) = some a) : x = some a := by
  split at h
  · exact absurd h (by simp)
  · exact h

/-- **A load yields the session of the row but for calls that it could not allocate.** -/
theorem exists_loaded_of_readSessionRow {fail : Faults LoadSite} {key : EncryptionKey}
    {row : SessionRow} {s : Session} (h : readSessionRow codec fail key row = some s) :
    ∃ s₀, readSessionRow codec Faults.none key row = some s₀ ∧ s = s₀.loaded fail := by
  simp only [readSessionRow, Option.bind_eq_bind, Option.bind_eq_some_iff, Option.pure_def,
    Option.some_inj] at h
  obtain ⟨-, -, title, htitle, messages, hmessages, metadata, hmetadata, events, hevents, rfl⟩ := h
  obtain ⟨_, htitle₀, rfl⟩ := readColumn_eq_some id ""
    (fun text a h => ⟨a, eq_of_ite_none h, rfl⟩) rfl htitle
  obtain ⟨messages₀, hmessages₀, rfl⟩ := readColumn_eq_some
    (fun msgs : List Message => msgs.mapIdx (Message.loaded (fail.within .messages))) []
    (fun text a h => eq_of_sessionDeserializeMessages h) rfl hmessages
  obtain ⟨_, hmetadata₀, rfl⟩ := readColumn_eq_some id
    (JsonValue.object []) (fun text a h => ⟨a, eq_of_ite_none h, rfl⟩) rfl hmetadata
  obtain ⟨_, hevents₀, rfl⟩ := readColumn_eq_some id []
    (fun text a h => ⟨a, eq_of_ite_none h, rfl⟩) rfl hevents
  refine ⟨⟨row.id, title, row.titleGenerationAttempted, row.createdAt, messages₀, metadata,
    events⟩, ?_, rfl⟩
  have hread : sessionDeserializeMessages codec Faults.none = readMessages codec :=
    funext sessionDeserializeMessages_none
  simp only [readSessionRow, Faults.none_apply, Faults.within_none, attempt_false,
    Bool.false_eq_true, if_false, Option.bind_eq_bind, Option.bind_some, hread, htitle₀, hmessages₀,
    hmetadata₀, hevents₀, Option.pure_def]

/-! ## Saves -/

/-- The session that is read from the row that a save has written. -/
def Session.received (codec : JsonCodec) (fail : Faults SaveSite) (s : Session) : Session :=
  { s with
    messages := s.messages.mapIdx (Message.received codec (fail.within .messages))
    metadata := normalizeMetadata codec s.metadata
    events := normalizeEvents codec s.events }

theorem eq_of_sealColumn {failed : Bool} {key : EncryptionKey} {text : String} {t : Token}
    (h : sealColumn failed key text = some t) : t = .sealed key text :=
  encryptionDecrypt_eq_some_iff.mp (encryptionDecrypt_encrypt (eq_of_ite_none h))

theorem eq_of_sealTitle {failed : Bool} {key : EncryptionKey} {title : String}
    {column : Option Token} (h : sealTitle failed key title = some column) :
    column = titleColumn key title := by
  have hfree := (abortsOr_sealTitle failed key title).eq_some h
  rw [sealTitle_false] at hfree
  exact (Option.some.inj hfree).symm

/-- **A save writes one row, from which the session is read but for what could not be added.** -/
theorem exists_received_of_saveSessionCoreLocked {fail : Faults SaveSite} {key : EncryptionKey}
    {rows rows' : List SessionRow} {s : Session}
    (h : saveSessionCoreLocked codec fail key rows s = some rows') :
    ∃ row, rows' = putRow SessionRow.id row rows ∧ row.id = s.id ∧
      readSessionRow codec Faults.none key row = some (s.received codec fail) := by
  simp only [saveSessionCoreLocked, Option.bind_eq_bind, Option.bind_eq_some_iff, Option.pure_def,
    Option.some_inj] at h
  obtain ⟨messagesText, htext, -, -, -, -, -, -, -, -, -, -, title, htitle, messages, hmessages,
    metadata, hmetadata, events, hevents, -, -, -, -, -, -, rfl⟩ := h
  refine ⟨_, rfl, rfl, ?_⟩
  have htitle' : readColumn false key "" (fun text => some text) title = some s.title := by
    rw [eq_of_sealTitle htitle]
    exact readColumn_titleColumn key s.title
  simp only [readSessionRow, Faults.within_none, Faults.none_apply, attempt_false,
    Option.bind_eq_bind, Option.bind_some, Bool.false_eq_true, if_false, htitle',
    eq_of_sealColumn hmessages, eq_of_sealColumn hmetadata, eq_of_sealColumn hevents,
    readColumn_sealed, sessionDeserializeMessages_none, readMessages_sessionSerialize htext,
    parse_sessionSerializeMetadataNew, sessionDeserializeEvents_serialize, Option.pure_def]
  rfl

/-! ## Intact sessions -/

/-- A load and a save of the session lose nothing. -/
structure Session.Intact (codec : JsonCodec) (load : Faults LoadSite) (save : Faults SaveSite)
    (s : Session) : Prop where
  calls : ∀ i m, s.messages[i]? = some m → m.toolCalls ≠ [] →
    load (.messages (.toolCalls i)) = false
  messages : EchoAi.Intact codec (save.within .messages) s.messages

section Intact

variable {load : Faults LoadSite} {save : Faults SaveSite} {s : Session}

theorem loaded_eq_self_iff {fail : Faults DecodeSite} {i : Nat} {m : Message} :
    m.loaded fail i = m ↔ (m.toolCalls ≠ [] → fail (.toolCalls i) = false) := by
  have hcalls : ({ m with toolCalls := [] } : Message) = m ↔ m.toolCalls = [] := by
    constructor
    · exact fun h => (congrArg Message.toolCalls h).symm
    · intro h
      rw [← h]
  rw [Message.loaded]
  cases fail (.toolCalls i) with
  | false => simp
  | true => simp [hcalls]

theorem mapIdx_eq_self_iff {α : Type} {f : Nat → α → α} {as : List α} :
    as.mapIdx f = as ↔ ∀ i a, as[i]? = some a → f i a = a := by
  constructor
  · intro h i a ha
    have hi := congrArg (fun l => l[i]?) h
    simpa [ha] using hi
  · intro h
    refine List.ext_getElem? fun i => ?_
    rw [List.getElem?_mapIdx]
    cases ha : as[i]? with
    | none => rfl
    | some a => exact congrArg some (h i a ha)

theorem session_loaded_eq_self_iff :
    s.loaded load = s ↔ ∀ i m, s.messages[i]? = some m → m.toolCalls ≠ [] →
      load (.messages (.toolCalls i)) = false := by
  have hmessages : s.loaded load = s ↔
      s.messages.mapIdx (Message.loaded (load.within .messages)) = s.messages := by
    constructor
    · exact fun h => congrArg Session.messages h
    · intro h
      rw [Session.loaded, h]
  rw [hmessages, mapIdx_eq_self_iff]
  exact forall₂_congr fun i m => imp_congr_right fun _ => loaded_eq_self_iff

theorem session_received_eq_normalize_iff :
    s.received codec save = s.normalize codec ↔
      EchoAi.Intact codec (save.within .messages) s.messages := by
  rw [← received_eq_normalize_iff]
  constructor
  · exact fun h => congrArg Session.messages h
  · intro h
    rw [Session.received, h]
    rfl

/-- Calls that a load has lost do not come back. -/
theorem toolCalls_received_of_lost {fail : Faults EncodeSite} {fail' : Faults DecodeSite} {i : Nat}
    {m : Message} (h : fail' (.toolCalls i) = true) :
    ((m.loaded fail' i).received codec fail i).toolCalls = [] := by
  rw [Message.loaded, if_pos h, Message.received]
  exact ite_self _

/-- An intact session comes through a load and a save in its normal form. -/
theorem Session.Intact.received_loaded (h : s.Intact codec load save) :
    (s.loaded load).received codec save = s.normalize codec := by
  rw [session_loaded_eq_self_iff.mpr h.calls, session_received_eq_normalize_iff.mpr h.messages]

/-- **A session in its normal form comes through a load and a save exactly when it does so
intact.** -/
theorem received_loaded_eq_iff (hs : s.normalize codec = s) :
    (s.loaded load).received codec save = s ↔ s.Intact codec load save := by
  constructor
  · intro h
    have hload : s.loaded load = s := by
      refine session_loaded_eq_self_iff.mpr fun i m hm hcalls => ?_
      rw [Bool.eq_false_iff]
      intro hfail
      have hi := congrArg (fun t : Session => t.messages[i]?) h
      simp only [Session.received, Session.loaded, List.getElem?_mapIdx, hm, Option.map_some,
        Option.some_inj] at hi
      refine hcalls ?_
      rw [← hi]
      exact toolCalls_received_of_lost hfail
    rw [hload] at h
    exact ⟨session_loaded_eq_self_iff.mp hload,
      session_received_eq_normalize_iff.mp (h.trans hs.symm)⟩
  · exact fun h => h.received_loaded.trans hs

end Intact

end EchoAi
