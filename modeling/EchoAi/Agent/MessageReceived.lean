import EchoAi.Agent.MessageJson

/-!
# What a stored message is read as

The writer leaves out what it could not add and does not look back, so a list that was written under
failing operations may be read as another list.  This module says as which one.

* `Message.received`: the message that is read where `m` was written under failing operations.
* `Message.normalize`: the same without failures.  An absent role or content is empty, and the
  arguments of every call are printed anew.
* `Intact`: no operation failed that brings something across which the reader would miss.
* `readMessages_sessionSerialize`, `received_eq_normalize_iff`: a text that was written is read as the
  received messages, and these are the normal forms exactly when the list was written intact.
-/

namespace EchoAi

open JsonValue

variable {codec : JsonCodec}

/-! ## Received messages -/

section Received

variable (codec : JsonCodec) (fail : Faults EncodeSite)

/-- A text that is there unless its operation failed. -/
def keptUnless {α : Type} (failed : Bool) (v : Option α) : Option α := if failed then none else v

/-- The tool call that is read where `tc` was written as the `j`-th call of the `i`-th message. -/
def ToolCall.received (i j : Nat) (tc : ToolCall) : ToolCall where
  id := keptUnless (fail (.callField i j .id)) (some (tc.id.getD ""))
  name := keptUnless (fail (.callField i j .function))
    (keptUnless (fail (.functionField i j .name)) (some (tc.name.getD "")))
  arguments := keptUnless (fail (.callField i j .function))
    (keptUnless (fail (.functionField i j .arguments))
      (some (codec.print (argumentsJson codec (fail (.parseArguments i j)) tc.arguments))))
  resultContent := keptUnless (fail (.callField i j .resultContent)) tc.resultContent
  resultError := keptUnless (fail (.callField i j .resultError)) tc.resultError

/-- The message that is read where `m` was written as the `i`-th one. -/
def Message.received (i : Nat) (m : Message) : Message where
  role := some (if fail (.field i .role) then "" else m.role.getD "")
  content := some (if fail (.field i .content) then "" else m.content.getD "")
  id := keptUnless (fail (.field i .id)) m.id
  parentId := keptUnless (fail (.field i .parentId)) m.parentId
  forkGroupId := keptUnless (fail (.field i .forkGroupId)) m.forkGroupId
  toolCalls := if fail (.field i .toolCalls) then []
    else collectFrom (fun j tc => keptUnless (fail (.call i j)) (some (tc.received codec fail i j)))
      0 m.toolCalls
  toolCallId := keptUnless (fail (.field i .toolCallId)) m.toolCallId
  toolName := keptUnless (fail (.field i .toolName)) m.toolName
  errorCategory := keptUnless (fail (.field i .errorCategory)) m.errorCategory
  timestamp := if fail (.field i .timestamp) then .zero else m.timestamp.positivePart
  thinking := keptUnless (fail (.field i .thinking)) m.thinking
  phase := keptUnless (fail (.field i .phase)) m.phase
  providerState := keptUnless (fail (.field i .providerState)) m.providerState

end Received

/-! ## Reading what was written -/

section Members

variable {κ : Type} [DecidableEq κ]

theorem lookup_filter_key {β : Type} (failed : κ → Bool) (fs : List (κ × β)) (k : κ) :
    (fs.filter fun f => !failed f.1).lookup k = keptUnless (failed k) (fs.lookup k) := by
  induction fs with
  | nil => cases hk : failed k <;> rfl
  | cons f fs ih =>
    obtain ⟨k', v⟩ := f
    rw [List.filter_cons, List.lookup_cons]
    by_cases hk : k = k'
    · subst hk
      rw [beq_self_eq_true]
      cases hfail : failed k with
      | true => rw [if_neg (by simp), ih, hfail]; rfl
      | false => rw [if_pos (by simp), List.lookup_cons, beq_self_eq_true]; rfl
    · rw [beq_false_of_ne hk]
      split
      · rw [List.lookup_cons, beq_false_of_ne hk]
        exact ih
      · exact ih

end Members

theorem map_fst_callFields (fail : Faults EncodeSite) (i j : Nat) (tc : ToolCall) :
    (callFields codec fail i j tc).map Prod.fst = CallKey.all := rfl

theorem map_fst_messageFields (fail : Faults EncodeSite) (i : Nat) (m : Message) :
    (messageFields codec fail i m).map Prod.fst = MessageKey.all := rfl

theorem stringValue_map (v : Option String) : (v.map JsonValue.string).bind stringValue = v := by
  cases v <;> rfl

/-- A text that was kept is read as it was written. -/
theorem bind_keptUnless (failed : Bool) (v : Option String) :
    (keptUnless failed (v.map JsonValue.string)).bind stringValue = keptUnless failed v := by
  cases failed with
  | true => rfl
  | false => exact stringValue_map v

section Read

variable {fail : Faults EncodeSite} {i : Nat}

theorem member_functionJson (j : Nat) (tc : ToolCall) (k : FunctionKey) :
    (functionJson codec fail i j tc).member k.label =
      keptUnless (fail (.functionField i j k)) ((functionFields codec fail i j tc).lookup k) := by
  rw [functionJson, member_ofFields FunctionKey.eq_of_sameLabel]
  exact lookup_filter_key (fun k => fail (.functionField i j k)) _ k

theorem readCall_encodeCall {j : Nat} {tc : ToolCall} {v : JsonValue}
    (h : encodeCall codec fail i j tc = some v) : readCall codec v = tc.received codec fail i j := by
  simp only [encodeCall, Option.bind_eq_bind, Option.bind_eq_some_iff, Option.pure_def,
    Option.some_inj] at h
  obtain ⟨-, -, rfl⟩ := h
  have hmember : ∀ k : CallKey, (ofFields CallKey.label ((presentFields
      (callFields codec fail i j tc)).filter fun f => !fail (.callField i j f.1))).member k.label =
      keptUnless (fail (.callField i j k)) ((callFields codec fail i j tc).lookup k).join := by
    intro k
    rw [member_ofFields CallKey.eq_of_sameLabel,
      lookup_filter_key (fun k => fail (.callField i j k)), lookup_presentFields]
    rw [map_fst_callFields]
    decide
  have hfunction : (keptUnless (fail (.callField i j .function))
      ((callFields codec fail i j tc).lookup .function).join) =
        keptUnless (fail (.callField i j .function)) (some (functionJson codec fail i j tc)) := rfl
  rw [readCall, ToolCall.received, textMember, textMember, textMember, hmember, hmember, hmember,
    hmember, hfunction]
  change ToolCall.mk ((keptUnless _ ((some (tc.id.getD "")).map JsonValue.string)).bind stringValue)
    _ _ ((keptUnless _ (tc.resultContent.map JsonValue.string)).bind stringValue)
    ((keptUnless _ (tc.resultError.map JsonValue.string)).bind stringValue) = _
  rw [bind_keptUnless, bind_keptUnless, bind_keptUnless]
  cases hfail : fail (.callField i j .function) with
  | true => rfl
  | false =>
    simp only [keptUnless, Bool.false_eq_true, if_false, Option.bind_some, textMember]
    rw [member_functionJson, member_functionJson]
    change ToolCall.mk _ ((keptUnless _ ((some (tc.name.getD "")).map JsonValue.string)).bind
      stringValue) ((keptUnless _ (some (argumentsJson codec _ tc.arguments))).map codec.print)
      _ _ = _
    rw [bind_keptUnless]
    cases fail (.functionField i j .arguments) <;> rfl

theorem readCalls_keptUnless (m : Message) :
    readCalls codec (keptUnless (fail (.field i .toolCalls))
        (if m.toolCalls.isEmpty then none
          else some (.array (collectFrom (encodeCall codec fail i) 0 m.toolCalls)))) =
      (m.received codec fail i).toolCalls := by
  rw [Message.received]
  cases fail (.field i .toolCalls) with
  | true => rfl
  | false =>
    cases hcalls : m.toolCalls with
    | nil => rfl
    | cons tc tcs =>
      have hread : ∀ j tc, (encodeCall codec fail i j tc).map (readCall codec) =
          keptUnless (fail (.call i j)) (some (tc.received codec fail i j)) := by
        intro j tc
        cases hv : encodeCall codec fail i j tc with
        | none =>
          cases hfail : fail (.call i j) with
          | true => rfl
          | false => rw [encodeCall, hfail] at hv; exact absurd hv (by simp)
        | some v =>
          cases hfail : fail (.call i j) with
          | true => rw [encodeCall, hfail] at hv; exact absurd hv (by simp)
          | false => rw [Option.map_some, readCall_encodeCall hv]; rfl
      change (collectFrom (encodeCall codec fail i) 0 (tc :: tcs)).map (readCall codec) = _
      rw [map_collectFrom]
      simp only [hread]
      rfl

/-- **A message that was written is read as the received one.** -/
theorem readMessage_encodeMessage {m : Message} {v : JsonValue}
    (h : encodeMessage codec fail i m = some v) :
    readMessage codec v = m.received codec fail i := by
  simp only [encodeMessage, addFields, Option.bind_eq_bind, Option.bind_eq_some_iff,
    Option.pure_def, Option.some_inj] at h
  obtain ⟨-, -, fs, ⟨-, -, rfl⟩, rfl⟩ := h
  have hmember : ∀ k : MessageKey, (ofFields MessageKey.label ((presentFields
      (messageFields codec fail i m)).filter fun f => !fail (.field i f.1))).member k.label =
      keptUnless (fail (.field i k)) ((messageFields codec fail i m).lookup k).join := by
    intro k
    rw [member_ofFields MessageKey.eq_of_sameLabel,
      lookup_filter_key (fun k => fail (.field i k)), lookup_presentFields]
    rw [map_fst_messageFields]
    decide
  have htext : ∀ (k : MessageKey) (w : Option String),
      (messageFields codec fail i m).lookup k = some (w.map .string) →
        textMember (ofFields MessageKey.label ((presentFields
          (messageFields codec fail i m)).filter fun f => !fail (.field i f.1))) k.label =
          keptUnless (fail (.field i k)) w := by
    intro k w hk
    rw [textMember, hmember, hk]
    exact bind_keptUnless _ w
  have htimestamp : ((keptUnless (fail (.field i .timestamp))
      (if m.timestamp.isPositive then some (JsonValue.number m.timestamp) else none)).bind
        numberValue).getD .zero =
      if fail (.field i .timestamp) then .zero else m.timestamp.positivePart := by
    rw [Decimal.positivePart]
    cases fail (.field i .timestamp) with
    | true => rfl
    | false => cases m.timestamp.isPositive <;> rfl
  have hgetD : ∀ (failed : Bool) (w : String),
      (keptUnless failed (some w)).getD "" = if failed then "" else w := by
    intro failed w
    cases failed <;> rfl
  rw [readMessage, hmember .timestamp, hmember .toolCalls,
    htext .id m.id rfl, htext .parentId m.parentId rfl, htext .forkGroupId m.forkGroupId rfl,
    htext .toolCallId m.toolCallId rfl, htext .toolName m.toolName rfl,
    htext .errorCategory m.errorCategory rfl, htext .thinking m.thinking rfl,
    htext .phase m.phase rfl, htext .providerState m.providerState rfl,
    htext .role (some (m.role.getD "")) rfl, htext .content (some (m.content.getD "")) rfl,
    hgetD, hgetD]
  change Message.mk _ _ _ _ _ (readCalls codec (keptUnless _ (if m.toolCalls.isEmpty then none
    else some (.array (collectFrom (encodeCall codec fail i) 0 m.toolCalls))))) _ _ _
    (((keptUnless _ (if m.timestamp.isPositive then some (JsonValue.number m.timestamp)
      else none)).bind numberValue).getD .zero) _ _ _ = _
  rw [readCalls_keptUnless, htimestamp]
  rfl

/-- An array that was written is read as the received messages. -/
theorem exists_items_of_messagesToJsonArray {msgs : List Message} {arr : JsonValue}
    (h : messagesToJsonArray codec fail msgs = some arr) :
    ∃ items, arr = .array items ∧
      items.map (readMessage codec) = msgs.mapIdx (Message.received codec fail) := by
  simp only [messagesToJsonArray, Option.bind_eq_bind, Option.bind_eq_some_iff, Option.pure_def,
    Option.some_inj] at h
  obtain ⟨-, -, items, hitems, rfl⟩ := h
  have hread := map_traverseFrom (g := readMessage codec) (h := Message.received codec fail)
    (fun i m v hv => readMessage_encodeMessage hv) hitems
  simp only [Nat.zero_add] at hread
  exact ⟨items, rfl, hread⟩

/-- **A text that was written is read as the received messages.** -/
theorem readMessages_sessionSerialize {msgs : List Message} {text : String}
    (h : sessionSerializeMessagesNew codec fail msgs = some text) :
    readMessages codec text = some (msgs.mapIdx (Message.received codec fail)) := by
  simp only [sessionSerializeMessagesNew, Option.bind_eq_bind, Option.bind_eq_some_iff,
    Option.pure_def, Option.some_inj] at h
  obtain ⟨arr, harr, -, -, rfl⟩ := h
  obtain ⟨items, rfl, hread⟩ := exists_items_of_messagesToJsonArray harr
  rw [readMessages, codec.parse_print]
  exact congrArg some hread

end Read

/-! ## Without failures -/

/-- A tool call after writing and reading: an absent id or name is empty, the arguments are printed
anew. -/
def ToolCall.normalize (codec : JsonCodec) (tc : ToolCall) : ToolCall :=
  { tc with
    id := some (tc.id.getD "")
    name := some (tc.name.getD "")
    arguments := some (codec.print (argumentsJson codec false tc.arguments)) }

/-- A message after writing and reading: an absent role or content is empty, and only a positive
timestamp is kept. -/
def Message.normalize (codec : JsonCodec) (m : Message) : Message :=
  { m with
    role := some (m.role.getD "")
    content := some (m.content.getD "")
    timestamp := m.timestamp.positivePart
    toolCalls := m.toolCalls.map (ToolCall.normalize codec) }

/-- The members of a call which the reader would miss. -/
def CallKey.Carried (tc : ToolCall) : CallKey → Prop
  | .id => True
  | .type => False
  | .function => True
  | .resultContent => tc.resultContent ≠ none
  | .resultError => tc.resultError ≠ none

/-- The members of a message which the reader would miss. -/
def MessageKey.Carried (m : Message) : MessageKey → Prop
  | .role => m.role.getD "" ≠ ""
  | .content => m.content.getD "" ≠ ""
  | .thinking => m.thinking ≠ none
  | .phase => m.phase ≠ none
  | .providerState => m.providerState ≠ none
  | .toolName => m.toolName ≠ none
  | .errorCategory => m.errorCategory ≠ none
  | .id => m.id ≠ none
  | .parentId => m.parentId ≠ none
  | .forkGroupId => m.forkGroupId ≠ none
  | .timestamp => m.timestamp.positivePart ≠ .zero
  | .toolCalls => m.toolCalls ≠ []
  | .toolCallId => m.toolCallId ≠ none

section Intact

variable (codec : JsonCodec) (fail : Faults EncodeSite)

/-- No operation failed that brings a part of the call across. -/
structure CallIntact (i j : Nat) (tc : ToolCall) : Prop where
  call : fail (.call i j) = false
  fields : ∀ k, CallKey.Carried tc k → fail (.callField i j k) = false
  functionFields : ∀ k, fail (.functionField i j k) = false
  arguments : argumentsJson codec (fail (.parseArguments i j)) tc.arguments =
    argumentsJson codec false tc.arguments

/-- No operation failed that brings a part of the message across. -/
structure MessageIntact (i : Nat) (m : Message) : Prop where
  fields : ∀ k, MessageKey.Carried m k → fail (.field i k) = false
  calls : ∀ j tc, m.toolCalls[j]? = some tc → CallIntact codec fail i j tc

/-- No operation failed that brings a part of the list across. -/
def Intact (msgs : List Message) : Prop :=
  ∀ i m, msgs[i]? = some m → MessageIntact codec fail i m

end Intact

section Iff

variable {fail : Faults EncodeSite} {i : Nat}

theorem keptUnless_eq_self_iff {α : Type} {failed : Bool} {v : Option α} :
    keptUnless failed v = v ↔ (v ≠ none → failed = false) := by
  cases failed with
  | false => simp [keptUnless]
  | true =>
    rw [keptUnless, if_pos rfl]
    constructor
    · exact fun h hne => absurd h.symm hne
    · intro h
      by_contra hne
      exact Bool.noConfusion (h fun hv => hne hv.symm)

theorem ite_eq_self_iff {α : Type} {failed : Bool} {default v : α} :
    (if failed then default else v) = v ↔ (v ≠ default → failed = false) := by
  cases failed with
  | false => simp
  | true =>
    rw [if_pos rfl]
    constructor
    · exact fun h hne => absurd h.symm hne
    · intro h
      by_contra hne
      exact Bool.noConfusion (h fun hv => hne hv.symm)

theorem received_eq_normalize_call_iff {j : Nat} {tc : ToolCall} :
    keptUnless (fail (.call i j)) (some (tc.received codec fail i j)) =
      some (tc.normalize codec) ↔ CallIntact codec fail i j tc := by
  constructor
  · intro h
    cases hcall : fail (.call i j) with
    | true =>
      rw [hcall] at h
      exact absurd h (by simp [keptUnless])
    | false =>
      rw [hcall, keptUnless, if_neg (by simp), Option.some_inj, ToolCall.received,
        ToolCall.normalize, ToolCall.mk.injEq] at h
      obtain ⟨hid, hname, harguments, hcontent, herror⟩ := h
      have hfunction : fail (.callField i j .function) = false := by
        cases hfail : fail (.callField i j .function) with
        | false => rfl
        | true =>
          rw [hfail] at hname
          exact absurd hname (by simp [keptUnless])
      simp only [hfunction, keptUnless, Bool.false_eq_true, if_false] at hname harguments
      have hkept : fail (.functionField i j .arguments) = false := by
        cases hfail : fail (.functionField i j .arguments) with
        | false => rfl
        | true =>
          rw [hfail] at harguments
          exact absurd harguments (by simp)
      refine ⟨hcall, ?_, ?_, ?_⟩
      · intro k hk
        cases k with
        | id => exact keptUnless_eq_self_iff.mp hid (Option.some_ne_none _)
        | type => exact hk.elim
        | function => exact hfunction
        | resultContent => exact keptUnless_eq_self_iff.mp hcontent hk
        | resultError => exact keptUnless_eq_self_iff.mp herror hk
      · intro k
        cases k with
        | name => exact keptUnless_eq_self_iff.mp hname (Option.some_ne_none _)
        | arguments => exact hkept
      · rw [hkept, if_neg (by simp), Option.some_inj] at harguments
        exact codec.print_injective harguments
  · intro h
    rw [h.call, keptUnless, if_neg (by simp), Option.some_inj, ToolCall.received,
      ToolCall.normalize, h.fields .id trivial, h.fields .function trivial,
      h.functionFields .name, h.functionFields .arguments, h.arguments,
      keptUnless_eq_self_iff.mpr (h.fields .resultContent),
      keptUnless_eq_self_iff.mpr (h.fields .resultError)]
    rfl

theorem received_eq_normalize_calls_iff {m : Message} :
    (m.received codec fail i).toolCalls = (m.normalize codec).toolCalls ↔
      (m.toolCalls ≠ [] → fail (.field i .toolCalls) = false) ∧
        ∀ j tc, m.toolCalls[j]? = some tc → CallIntact codec fail i j tc := by
  have hcalls : collectFrom (fun j tc => keptUnless (fail (.call i j))
      (some (tc.received codec fail i j))) 0 m.toolCalls = m.toolCalls.map (ToolCall.normalize codec) ↔
        ∀ j tc, m.toolCalls[j]? = some tc → CallIntact codec fail i j tc := by
    rw [collectFrom_eq_map_iff]
    simp only [Nat.zero_add, received_eq_normalize_call_iff]
  rw [← hcalls, Message.received, Message.normalize]
  dsimp only
  cases hfield : fail (.field i .toolCalls) with
  | false => simp
  | true =>
    rw [if_pos rfl]
    constructor
    · intro h
      have hnil : m.toolCalls = [] := List.map_eq_nil_iff.mp h.symm
      rw [hnil]
      exact ⟨fun hne => absurd rfl hne, rfl⟩
    · rintro ⟨hne, -⟩
      by_contra hnil
      refine Bool.noConfusion (hne fun hempty => hnil ?_)
      rw [hempty]
      rfl

/-- **A message is received in its normal form exactly when it was written intact.** -/
theorem received_eq_normalize_message_iff {m : Message} :
    m.received codec fail i = m.normalize codec ↔ MessageIntact codec fail i m := by
  constructor
  · intro h
    have hcalls := received_eq_normalize_calls_iff.mp (congrArg Message.toolCalls h)
    rw [Message.received, Message.normalize, Message.mk.injEq] at h
    obtain ⟨hrole, hcontent, hid, hparent, hgroup, -, hcallId, htool, herror, htime, hthinking,
      hphase, hstate⟩ := h
    refine ⟨fun k hk => ?_, hcalls.2⟩
    cases k with
    | role => exact ite_eq_self_iff.mp (Option.some.inj hrole) hk
    | content => exact ite_eq_self_iff.mp (Option.some.inj hcontent) hk
    | thinking => exact keptUnless_eq_self_iff.mp hthinking hk
    | phase => exact keptUnless_eq_self_iff.mp hphase hk
    | providerState => exact keptUnless_eq_self_iff.mp hstate hk
    | toolName => exact keptUnless_eq_self_iff.mp htool hk
    | errorCategory => exact keptUnless_eq_self_iff.mp herror hk
    | id => exact keptUnless_eq_self_iff.mp hid hk
    | parentId => exact keptUnless_eq_self_iff.mp hparent hk
    | forkGroupId => exact keptUnless_eq_self_iff.mp hgroup hk
    | timestamp => exact ite_eq_self_iff.mp htime hk
    | toolCalls => exact hcalls.1 hk
    | toolCallId => exact keptUnless_eq_self_iff.mp hcallId hk
  · intro h
    have hcalls : (m.received codec fail i).toolCalls = (m.normalize codec).toolCalls :=
      received_eq_normalize_calls_iff.mpr ⟨h.fields .toolCalls, h.calls⟩
    have hkept : ∀ (k : MessageKey) (v : Option String), (v ≠ none → MessageKey.Carried m k) →
        keptUnless (fail (.field i k)) v = v := fun k v hv =>
      keptUnless_eq_self_iff.mpr fun hne => h.fields k (hv hne)
    rw [Message.received] at hcalls ⊢
    dsimp only at hcalls
    rw [hcalls, ite_eq_self_iff.mpr (h.fields .role), ite_eq_self_iff.mpr (h.fields .content),
      ite_eq_self_iff.mpr (h.fields .timestamp), hkept .id _ id, hkept .parentId _ id,
      hkept .forkGroupId _ id, hkept .toolCallId _ id, hkept .toolName _ id,
      hkept .errorCategory _ id, hkept .thinking _ id, hkept .phase _ id, hkept .providerState _ id]
    rfl

/-- **A list is received in its normal form exactly when it was written intact.** -/
theorem received_eq_normalize_iff {msgs : List Message} :
    msgs.mapIdx (Message.received codec fail) = msgs.map (Message.normalize codec) ↔
      Intact codec fail msgs := by
  have hget : msgs.mapIdx (Message.received codec fail) = msgs.map (Message.normalize codec) ↔
      ∀ (i : Nat) (m : Message), msgs[i]? = some m →
        m.received codec fail i = m.normalize codec := by
    constructor
    · intro h i m hm
      have hi := congrArg (fun l => l[i]?) h
      simpa [hm] using hi
    · intro h
      refine List.ext_getElem? fun i => ?_
      rw [List.getElem?_mapIdx, List.getElem?_map]
      cases hm : msgs[i]? with
      | none => rfl
      | some m => exact congrArg some (h i m hm)
  rw [hget]
  exact forall₂_congr fun i m => imp_congr_right fun _ => received_eq_normalize_message_iff

end Iff

theorem intact_none (msgs : List Message) : Intact codec Faults.none msgs := fun _ _ _ =>
  ⟨fun _ _ => rfl, fun _ _ _ => ⟨rfl, fun _ _ => rfl, fun _ => rfl, rfl⟩⟩

/-- **Saving and loading a list of messages gives the list of their normal forms.** -/
theorem readMessages_print (msgs : List Message) :
    readMessages codec (codec.print (messagesJson codec msgs)) =
      some (msgs.map (Message.normalize codec)) := by
  rw [readMessages_sessionSerialize (sessionSerializeMessagesNew_none msgs),
    received_eq_normalize_iff.mpr (intact_none msgs)]

/-! ## Normal forms -/

theorem argumentsJson_print (v : JsonValue) :
    argumentsJson codec false (some (codec.print v)) = v := by
  rw [argumentsJson, if_neg (by simp), Option.bind_some, codec.parse_print]

theorem ToolCall.normalize_normalize (tc : ToolCall) :
    (tc.normalize codec).normalize codec = tc.normalize codec := by
  simp only [ToolCall.normalize, argumentsJson_print, Option.getD_some]

/-- Loading, saving and loading again changes nothing. -/
theorem Message.normalize_normalize (m : Message) :
    (m.normalize codec).normalize codec = m.normalize codec := by
  have hcalls : (m.toolCalls.map (ToolCall.normalize codec)).map (ToolCall.normalize codec) =
      m.toolCalls.map (ToolCall.normalize codec) := by
    rw [List.map_map]
    exact List.map_congr_left fun tc _ => tc.normalize_normalize
  simp only [Message.normalize, hcalls, Decimal.positivePart_positivePart, Option.getD_some]

end EchoAi
