import EchoAi.Llm.OpenaiEvents
import EchoAi.Roster
import Mathlib.Data.List.Pairwise
import Mathlib.Data.List.Perm.Basic

/-!
# The function calls of an OpenAI stream

An event about a function call names it by some of its three identifiers.

* `CallPart`, `streamParts`: what the events of a stream say about calls.
* `CallEntry`, `callRoster`: an entry of the parser, and what it learns from a part.
* `agrees_takeData`: the parser keeps the entries that the parts make.
* `Serves`: the service names each call in one way, and different calls differently.
* `Folds`: the response has each call once, with its last arguments.
* `Recognized`, `Settled`, `folds_iff`: it is so just when each part has an identifier that the entry
  of its call knows, and no text is added behind the last arguments of a call.
-/

namespace EchoAi.FunctionCalls

/-! ## What events say about calls -/

/-- The item of a call, a part of its arguments, or all of them. -/
inductive Saying where
  | item (name arguments : Option String)
  | delta (text : String)
  | done (arguments : String)
  deriving DecidableEq, Repr

/-- What an event says about a call, with the identifiers that it names it by. -/
structure CallPart where
  outputIndex : Int
  itemId : Option String
  callId : Option String
  saying : Saying
  deriving DecidableEq, Repr

namespace CallPart

def isItem (part : CallPart) : Bool :=
  match part.saying with
  | .item _ _ => true
  | _ => false

def name (part : CallPart) : Option String :=
  match part.saying with
  | .item name _ => name
  | _ => none

/-- All arguments of the call. -/
def complete (part : CallPart) : Option String :=
  match part.saying with
  | .item _ arguments => arguments
  | .delta _ => none
  | .done arguments => some arguments

def delta (part : CallPart) : Option String :=
  match part.saying with
  | .delta text => some text
  | _ => none

end CallPart

/-- What an item says. -/
def itemPart (outputIndex : Int) (item : JsonValue) : CallPart where
  outputIndex
  itemId := exactText item "id"
  callId := exactText item "call_id"
  saying := .item (exactText item "name") (exactText item "arguments")

def itemParts (outputIndex : Int) (item : JsonValue) : List CallPart :=
  if validNonemptyString (item.exactMember "type") = some "function_call" then
    [itemPart outputIndex item]
  else []

/-- What an event about arguments says. -/
def argumentPart (event : JsonValue) (done : Bool) (value : String) : CallPart where
  outputIndex := eventOutputIndex event
  itemId := exactText event "item_id"
  callId := exactText event "call_id"
  saying := if done then .done value else .delta value

def argumentParts (event : JsonValue) (done : Bool) : List CallPart :=
  match exactText event (if done then "arguments" else "delta") with
  | none => []
  | some value => [argumentPart event done value]

/-- What the items of a finished answer say, whose places are their output indices. -/
def completedParts : (index : Nat) → (items : List JsonValue) → List CallPart
  | _, [] => []
  | index, item :: items => itemParts index item ++ completedParts (index + 1) items

/-- What an event of a type says about calls. -/
def typeParts (type : String) (event : JsonValue) : List CallPart :=
  if type = "response.output_item.added" ∨ type = "response.output_item.done" then
    match event.exactMember "item" with
    | none => []
    | some item => itemParts (eventOutputIndex event) item
  else if type = "response.function_call_arguments.delta" then argumentParts event false
  else if type = "response.function_call_arguments.done" then argumentParts event true
  else if type = "response.completed" then
    match (event.exactMember "response").bind (·.exactMember "output") with
    | some (.array items) => completedParts 0 items
    | _ => []
  else []

/-- What an event says about calls. -/
def eventParts (json : WireJson) (data : List UInt8) : List CallPart :=
  if data = ascii "[DONE]" then []
  else
    match parseBoundedJson json data openaiMaxSseEventBytes with
    | none => []
    | some event =>
      match validNonemptyString (event.exactMember "type") with
      | none => []
      | some type => typeParts type event

/-- What a stream says about calls. -/
def streamParts (json : WireJson) (bytes : List UInt8) : List CallPart :=
  (streamData bytes).flatMap (eventParts json)

/-! ## The entries of the parser -/

/-- A call of the response with the entry that finds it. -/
structure CallEntry where
  outputIndex : Int
  itemId : Option String
  id : String
  name : String
  arguments : String
  deriving DecidableEq, Repr

/-- A new entry, with the identifiers of a part. -/
def CallEntry.fresh (part : CallPart) : CallEntry where
  outputIndex := part.outputIndex
  itemId := part.itemId
  id := part.callId.getD ""
  name := ""
  arguments := ""

/-- What an entry takes from a part.  Only an item tells it identifiers. -/
def CallEntry.learn (e : CallEntry) (part : CallPart) : CallEntry :=
  match part.saying with
  | .item name arguments =>
    { outputIndex := if e.outputIndex < 0 then part.outputIndex else e.outputIndex
      itemId := part.itemId.or e.itemId
      id := part.callId.getD e.id
      name := name.getD e.name
      arguments := arguments.getD e.arguments }
  | .delta text => { e with arguments := e.arguments ++ text }
  | .done arguments => { e with arguments }

/-- The entries, found as `map_matches` says. -/
def callRoster : Roster CallPart CallEntry where
  hits e part :=
    (decide (0 ≤ part.outputIndex) && e.outputIndex == part.outputIndex) ||
      (part.itemId.isSome && e.itemId == part.itemId) ||
      (part.callId.isSome && some e.id != some "" && some e.id == part.callId)
  start part := (CallEntry.fresh part).learn part
  learn := CallEntry.learn

def CallEntry.toCall (e : CallEntry) : ToolCall where
  id := some e.id
  name := some e.name
  arguments := some e.arguments

def CallEntry.toMap (i : Nat) (e : CallEntry) : FunctionCallMap where
  outputIndex := e.outputIndex
  responseIndex := i
  itemId := e.itemId

/-- The parser has the entries. -/
structure Agrees (p : EventParser) (entries : List CallEntry) : Prop where
  toolCalls : p.response.toolCalls = entries.map CallEntry.toCall
  calls : p.calls = entries.mapIdx CallEntry.toMap

theorem findIdx?_mapIdx {α β : Type} {f : Nat → α → β} {p : β → Bool} {q : α → Bool} {xs : List α}
    (h : ∀ i x, xs[i]? = some x → p (f i x) = q x) : (xs.mapIdx f).findIdx? p = xs.findIdx? q := by
  induction xs generalizing f with
  | nil => rfl
  | cons x xs ih =>
    rw [List.mapIdx_cons, List.findIdx?_cons, List.findIdx?_cons, h 0 x rfl,
      ih fun i y hy => h (i + 1) y hy]

namespace Agrees

variable {p q : EventParser} {entries : List CallEntry}

theorem start : Agrees {} [] := ⟨rfl, rfl⟩

/-- An event about other things keeps the entries. -/
theorem of_same (h : Agrees p entries)
    (hsame : q.response.toolCalls = p.response.toolCalls ∧ q.calls = p.calls) : Agrees q entries :=
  ⟨hsame.1.trans h.toolCalls, hsame.2.trans h.calls⟩

theorem findStreamCall (h : Agrees p entries) (part : CallPart) :
    findStreamCall p part.outputIndex part.itemId part.callId =
      entries.findIdx? (callRoster.hits · part) := by
  unfold EchoAi.findStreamCall
  rw [h.calls]
  refine findIdx?_mapIdx fun i e he => ?_
  have hcall : p.response.toolCalls.getD i {} = e.toCall := by
    rw [h.toolCalls, List.getD_eq_getElem?_getD, List.getElem?_map, he]
    rfl
  unfold mapMatches
  dsimp only [CallEntry.toMap]
  rw [hcall]
  rfl

/-- A new entry stands behind the others. -/
theorem addStreamCall (h : Agrees p entries) (outputIndex : Int)
    (itemId callId name arguments : Option String) :
    Agrees (addStreamCall p outputIndex itemId callId name arguments) (entries ++
      [⟨outputIndex, itemId, callId.getD "", name.getD "", arguments.getD ""⟩]) := by
  constructor
  · rw [List.map_append, ← h.toolCalls]
    rfl
  · rw [List.mapIdx_concat, ← h.calls]
    have hlength : p.response.toolCalls.length = entries.length := by
      rw [h.toolCalls, List.length_map]
    unfold EchoAi.addStreamCall
    dsimp only
    rw [hlength]
    rfl

/-- The map and the call of an entry. -/
theorem exists_of_getElem? (h : Agrees p entries) {i : Nat} {e : CallEntry}
    (he : entries[i]? = some e) :
    p.calls[i]? = some (e.toMap i) ∧ p.response.toolCalls[i]? = some e.toCall := by
  constructor
  · rw [h.calls, List.getElem?_mapIdx, he]
    rfl
  · rw [h.toolCalls, List.getElem?_map, he]
    rfl

/-- The entry that a part finds. -/
theorem exists_of_findIdx? (h : Agrees p entries) {hits : CallEntry → Bool} {i : Nat}
    (hfind : entries.findIdx? hits = some i) :
    ∃ e, entries[i]? = some e ∧ p.calls[i]? = some (e.toMap i) ∧
      p.response.toolCalls[i]? = some e.toCall := by
  obtain ⟨hlt, -⟩ := List.findIdx?_eq_some_iff_getElem.1 hfind
  have he := List.getElem?_eq_getElem hlt
  exact ⟨_, he, h.exists_of_getElem? he⟩

/-- The entry at a place is changed. -/
theorem set (h : Agrees p entries) {i : Nat} {e : CallEntry} {call : ToolCall}
    {map : FunctionCallMap} (hcall : call = e.toCall) (hmap : map = e.toMap i) :
    Agrees { p.setCall i call with calls := p.calls.set i map } (entries.set i e) := by
  constructor
  · rw [List.map_set, ← h.toolCalls, ← hcall]
    rfl
  · rw [List.mapIdx_set, ← h.calls, ← hmap]

/-- The arguments of the entry at a place are changed. -/
theorem setArguments (h : Agrees p entries) {i : Nat} {e : CallEntry} (he : entries[i]? = some e)
    (arguments : String) :
    Agrees (p.setCall i { e.toCall with arguments := some arguments })
      (entries.set i { e with arguments }) := by
  constructor
  · rw [List.map_set, ← h.toolCalls]
    rfl
  · obtain ⟨hlt, hget⟩ := List.getElem?_eq_some_iff.1 (h.exists_of_getElem? he).1
    have hsame : p.calls.set i (e.toMap i) = p.calls := by
      rw [← hget, List.set_getElem_self]
    rw [List.mapIdx_set, ← h.calls]
    exact hsame.symm

end Agrees

theorem replaceCallField_eq {field value out : Option String} {requireEmpty : Bool}
    (h : replaceCallField field value requireEmpty = some out) : out = value.or field := by
  unfold replaceCallField at h
  split_ifs at h with hvalue hbad
  · rw [hvalue]
    exact (Option.some.inj h).symm
  · obtain rfl := Option.some.inj h
    cases value with
    | none => exact absurd rfl hvalue
    | some text => rfl

theorem modify_eq_set {α : Type} {xs : List α} {i : Nat} {x : α} (f : α → α)
    (hx : xs[i]? = some x) : xs.modify i f = xs.set i (f x) := by
  rw [List.modify_eq_set_getElem?, hx]
  rfl

/-- `upsert_function_item` is about the entries. -/
theorem agrees_upsertFunctionItem {p q : EventParser} {entries : List CallEntry} {outputIndex : Int}
    {item : JsonValue} (h : Agrees p entries) (hq : upsertFunctionItem p outputIndex item = some q) :
    Agrees q (callRoster.file entries (itemPart outputIndex item)) := by
  have hfind := h.findStreamCall (itemPart outputIndex item)
  dsimp only [itemPart] at hfind
  simp only [upsertFunctionItem] at hq
  rw [hfind] at hq
  unfold Roster.file
  dsimp only [itemPart]
  split at hq
  · next hnone =>
    obtain rfl := Option.some.inj hq
    rw [hnone]
    have hadd := h.addStreamCall outputIndex (exactText item "id") (exactText item "call_id")
      (exactText item "name") (exactText item "arguments")
    have hstart : callRoster.start (itemPart outputIndex item) =
        ⟨outputIndex, exactText item "id", (exactText item "call_id").getD "",
          (exactText item "name").getD "", (exactText item "arguments").getD ""⟩ := by
      unfold callRoster CallEntry.learn CallEntry.fresh
      dsimp only [itemPart]
      rw [ite_self, Option.or_self]
      cases exactText item "call_id" <;> rfl
    rw [← hstart] at hadd
    exact hadd
  · next i hsome =>
    rw [hsome]
    dsimp only
    obtain ⟨e, he, hmap, hcall⟩ := h.exists_of_findIdx? hsome
    simp only [Option.bind_eq_bind, Option.bind_eq_some_iff] at hq
    obtain ⟨map, hmap', call, hcall', hq⟩ := hq
    obtain rfl := Option.some.inj (hmap.symm.trans hmap')
    obtain rfl := Option.some.inj (hcall.symm.trans hcall')
    split at hq
    · exact absurd hq.symm (Option.some_ne_none q)
    obtain ⟨itemId, hitemId, hq⟩ := Option.bind_eq_some_iff.1 hq
    obtain ⟨id, hid, hq⟩ := Option.bind_eq_some_iff.1 hq
    obtain ⟨name, hname, hq⟩ := Option.bind_eq_some_iff.1 hq
    obtain ⟨arguments, harguments, hq⟩ := Option.bind_eq_some_iff.1 hq
    obtain rfl := Option.some.inj hq
    rw [replaceCallField_eq hitemId, replaceCallField_eq hid, replaceCallField_eq hname,
      replaceCallField_eq harguments, modify_eq_set _ he]
    refine h.set ?_ rfl
    show _ = CallEntry.toCall (CallEntry.learn e (itemPart outputIndex item))
    unfold CallEntry.learn CallEntry.toCall
    dsimp only [itemPart]
    rw [Option.or_some, Option.or_some, Option.or_some]

/-- `parse_argument_delta` is about the entries. -/
theorem agrees_parseArgumentDelta {p q : EventParser} {entries : List CallEntry} {event : JsonValue}
    {done : Bool} (h : Agrees p entries) (hq : parseArgumentDelta p event done = some q) :
    Agrees q ((argumentParts event done).foldl callRoster.file entries) := by
  obtain ⟨value, hvalue, hq⟩ := Option.bind_eq_some_iff.1 hq
  unfold argumentParts
  rw [hvalue]
  dsimp only [List.foldl_cons, List.foldl_nil]
  have hlearn : ∀ e : CallEntry, e.learn (argumentPart event done value) =
      { e with arguments := argumentsBehind done (some e.arguments) value } := by
    intro e
    cases done <;> rfl
  have hfind : findStreamCall p (eventOutputIndex event) (exactText event "item_id")
      (exactText event "call_id") =
      entries.findIdx? (callRoster.hits · (argumentPart event done value)) :=
    h.findStreamCall (argumentPart event done value)
  unfold Roster.file
  dsimp only at hq
  rw [hfind] at hq
  cases hfound : entries.findIdx? (callRoster.hits · (argumentPart event done value)) with
  | some i =>
    rw [hfound] at hq
    dsimp only at hq ⊢
    obtain ⟨e, he, hmap, hcall⟩ := h.exists_of_findIdx? hfound
    simp only [Option.bind_eq_bind, Option.bind_eq_some_iff] at hq
    obtain ⟨map, hmap', call, hcall', hq⟩ := hq
    obtain rfl := Option.some.inj (hmap.symm.trans hmap')
    obtain rfl := Option.some.inj (hcall.symm.trans hcall')
    obtain rfl := Option.some.inj hq
    rw [modify_eq_set _ he]
    show Agrees _ (entries.set i (e.learn (argumentPart event done value)))
    rw [hlearn]
    exact h.setArguments he _
  | none =>
    rw [hfound] at hq
    dsimp only at hq ⊢
    have hadd : Agrees (addStreamCall p (eventOutputIndex event) (exactText event "item_id")
        (exactText event "call_id") none none)
        (entries ++ [CallEntry.fresh (argumentPart event done value)]) :=
      h.addStreamCall ..
    have hlength : p.calls.length = entries.length := by
      rw [h.calls, List.length_mapIdx]
    have he : (entries ++ [CallEntry.fresh (argumentPart event done value)])[p.calls.length]? =
        some (CallEntry.fresh (argumentPart event done value)) := by
      rw [hlength]
      exact List.getElem?_concat_length ..
    obtain ⟨hmap, hcall⟩ := hadd.exists_of_getElem? he
    simp only [Option.bind_eq_bind, Option.bind_eq_some_iff] at hq
    obtain ⟨map, hmap', call, hcall', hq⟩ := hq
    obtain rfl := Option.some.inj (hmap.symm.trans hmap')
    obtain rfl := Option.some.inj (hcall.symm.trans hcall')
    obtain rfl := Option.some.inj hq
    have hset := hadd.setArguments he (argumentsBehind done (some "") value)
    rw [hlength, List.set_append_right _ _ (Nat.le_refl _), Nat.sub_self, List.set_cons_zero,
      ← hlength] at hset
    show Agrees _ (entries ++ [(CallEntry.fresh (argumentPart event done value)).learn _])
    rw [hlearn]
    exact hset

/-! ## Events about other things -/

/-- The calls of the response and the entries that find them are the same. -/
def SameCalls (p q : EventParser) : Prop :=
  q.response.toolCalls = p.response.toolCalls ∧ q.calls = p.calls

namespace SameCalls

variable {json : WireJson} {p q r : EventParser}

theorem refl (p : EventParser) : SameCalls p p := ⟨rfl, rfl⟩

theorem trans (hpq : SameCalls p q) (hqr : SameCalls q r) : SameCalls p r :=
  ⟨hqr.1.trans hpq.1, hqr.2.trans hpq.2⟩

theorem closeThinkingBlock (p : EventParser) : SameCalls p (closeThinkingBlock p) := by
  unfold EchoAi.closeThinkingBlock
  split
  · exact ⟨rfl, rfl⟩
  · exact refl p

theorem emitThinkingText (p : EventParser) (text : String) :
    SameCalls p (emitThinkingText p text) := by
  unfold EchoAi.emitThinkingText
  split
  · exact refl p
  · dsimp only
    split
    · exact ⟨rfl, rfl⟩
    · exact ⟨rfl, rfl⟩

theorem emitSummaryText (p : EventParser) (text : String) : SameCalls p (emitSummaryText p text) := by
  unfold EchoAi.emitSummaryText
  split
  · exact emitThinkingText p text
  · dsimp only
    split
    · exact refl p
    · exact emitThinkingText p _

theorem parseTextDelta {event : JsonValue} (h : parseTextDelta p event = some q) : SameCalls p q := by
  obtain ⟨delta, -, h⟩ := Option.bind_eq_some_iff.1 h
  obtain rfl := Option.some.inj h
  exact closeThinkingBlock p

theorem parseSummaryDelta {event : JsonValue} (h : parseSummaryDelta p event = some q) :
    SameCalls p q := by
  obtain ⟨delta, -, h⟩ := Option.bind_eq_some_iff.1 h
  obtain rfl := Option.some.inj h
  exact emitSummaryText p delta

theorem parseSummaryDone (p : EventParser) (event : JsonValue) :
    SameCalls p (parseSummaryDone p event) := by
  unfold EchoAi.parseSummaryDone
  split
  · split
    · exact refl p
    · exact emitSummaryText p _
  · exact refl p

theorem captureMessagePhase {item : JsonValue} (h : captureMessagePhase p item = some q) :
    SameCalls p q := by
  unfold EchoAi.captureMessagePhase at h
  split at h
  · obtain rfl := Option.some.inj h
    exact refl p
  · obtain ⟨phase, -, h⟩ := Option.bind_eq_some_iff.1 h
    obtain rfl := Option.some.inj h
    exact ⟨rfl, rfl⟩

theorem setProviderState {reasoning : List JsonValue}
    (h : setProviderState json p reasoning = some q) : SameCalls p q := by
  obtain ⟨serialized, -, h⟩ := Option.bind_eq_some_iff.1 h
  obtain rfl := Option.some.inj h
  exact ⟨rfl, rfl⟩

theorem parseReasoningDone {item : JsonValue} (h : parseReasoningDone json p item = some q) :
    SameCalls p q := by
  obtain ⟨p', happend, h⟩ := Option.bind_eq_some_iff.1 h
  obtain ⟨reasoning, -, happend⟩ := Option.bind_eq_some_iff.1 happend
  refine (setProviderState happend).trans ?_
  obtain rfl := Option.some.inj h
  split
  · exact closeThinkingBlock p'
  · split
    · exact (emitSummaryText p' _).trans (closeThinkingBlock _)
    · exact closeThinkingBlock p'

end SameCalls

/-! ## Every event is about the entries -/

section Events

variable {json : WireJson} {p q : EventParser} {entries : List CallEntry}

theorem agrees_itemParts {outputIndex : Int} {item : JsonValue} (h : Agrees p entries)
    (hq : upsertFunctionItem p outputIndex item = some q)
    (htype : validNonemptyString (item.exactMember "type") = some "function_call") :
    Agrees q ((itemParts outputIndex item).foldl callRoster.file entries) := by
  rw [itemParts, if_pos htype]
  exact agrees_upsertFunctionItem h hq

theorem itemParts_of_ne {outputIndex : Int} {item : JsonValue}
    (htype : validNonemptyString (item.exactMember "type") ≠ some "function_call") :
    itemParts outputIndex item = [] :=
  if_neg htype

theorem agrees_mergeItems {index : Nat} {items reasoning : List JsonValue} (h : Agrees p entries)
    (hq : mergeItems p index items = some (q, reasoning)) :
    Agrees q ((completedParts index items).foldl callRoster.file entries) := by
  induction items generalizing p entries index reasoning with
  | nil =>
    obtain ⟨rfl, -⟩ := Prod.mk.inj (Option.some.inj hq)
    exact h
  | cons item items ih =>
    obtain ⟨type, htype, hq⟩ := Option.bind_eq_some_iff.1 hq
    rw [completedParts, List.foldl_append]
    split at hq
    · next hreasoning =>
      obtain ⟨⟨q', reasoning'⟩, hmerge, hq⟩ := Option.bind_eq_some_iff.1 hq
      obtain ⟨rfl, -⟩ := Prod.mk.inj (Option.some.inj hq)
      rw [itemParts_of_ne (by rw [htype, hreasoning]; decide)]
      exact ih h hmerge
    split at hq
    · next hcall =>
      obtain ⟨p', hitem, hq⟩ := Option.bind_eq_some_iff.1 hq
      exact ih (agrees_itemParts h hitem (htype.trans (congrArg some hcall))) hq
    · next hcall =>
      rw [itemParts_of_ne (by rw [htype]; exact fun heq => hcall (Option.some.inj heq))]
      split at hq
      · obtain ⟨p', hitem, hq⟩ := Option.bind_eq_some_iff.1 hq
        exact ih (h.of_same (SameCalls.captureMessagePhase hitem)) hq
      · exact ih h hq

theorem agrees_mergeCompletedOutput {response : JsonValue} (h : Agrees p entries)
    (hq : mergeCompletedOutput json p response = some q) :
    Agrees q ((match response.exactMember "output" with
      | some (.array items) => completedParts 0 items
      | _ => []).foldl callRoster.file entries) := by
  unfold mergeCompletedOutput at hq
  split at hq
  · next hnone =>
    rw [hnone]
    obtain rfl := Option.some.inj hq
    exact h
  · next items hitems =>
    rw [hitems]
    obtain ⟨⟨q', reasoning⟩, hmerge, hq⟩ := Option.bind_eq_some_iff.1 hq
    dsimp only at hq
    split at hq
    · obtain rfl := Option.some.inj hq
      exact agrees_mergeItems h hmerge
    · exact (agrees_mergeItems h hmerge).of_same (SameCalls.setProviderState hq)
  · exact absurd hq.symm (Option.some_ne_none q)

theorem agrees_parseCompleted {event : JsonValue} (h : Agrees p entries)
    (hq : parseCompleted json p event = some q) :
    Agrees q ((match (event.exactMember "response").bind (·.exactMember "output") with
      | some (.array items) => completedParts 0 items
      | _ => []).foldl callRoster.file entries) := by
  obtain ⟨response, hresponse, hq⟩ := Option.bind_eq_some_iff.1 hq
  rw [hresponse, Option.bind_some]
  split at hq
  · have hmarked : Agrees { p with terminalSeen := true, completed := true } entries :=
      h.of_same ⟨rfl, rfl⟩
    exact agrees_mergeCompletedOutput hmarked hq
  · exact absurd hq.symm (Option.some_ne_none q)

theorem agrees_parseOutputItem {event : JsonValue} {done : Bool} (h : Agrees p entries)
    (hq : parseOutputItem json p event done = some q) :
    Agrees q ((match event.exactMember "item" with
      | none => []
      | some item => itemParts (eventOutputIndex event) item).foldl callRoster.file entries) := by
  obtain ⟨item, hitem, hq⟩ := Option.bind_eq_some_iff.1 hq
  obtain ⟨type, htype, hq⟩ := Option.bind_eq_some_iff.1 hq
  rw [hitem]
  dsimp only
  split at hq
  · next hcall => exact agrees_itemParts h hq (htype.trans (congrArg some hcall))
  · next hcall =>
    rw [itemParts_of_ne (by rw [htype]; exact fun heq => hcall (Option.some.inj heq))]
    split at hq
    · exact h.of_same (SameCalls.parseReasoningDone hq)
    split at hq
    · exact h.of_same (SameCalls.captureMessagePhase hq)
    · obtain rfl := Option.some.inj hq
      exact h

/-- An event makes of the entries what its parts make of them. -/
theorem agrees_takeData {data : List UInt8} (h : Agrees p entries)
    (hq : takeData json p data = some q) :
    Agrees q ((eventParts json data).foldl callRoster.file entries) := by
  unfold takeData at hq
  unfold eventParts
  split at hq
  · next hdone =>
    rw [if_pos hdone]
    obtain rfl := Option.some.inj hq
    exact h.of_same ⟨rfl, rfl⟩
  · next hdone =>
    obtain ⟨event, hevent, hq⟩ := Option.bind_eq_some_iff.1 hq
    obtain ⟨type, htype, hq⟩ := Option.bind_eq_some_iff.1 hq
    rw [if_neg hdone, hevent]
    dsimp only
    rw [htype]
    dsimp only
    unfold typeParts
    by_cases hadded : type = "response.output_item.added"
    · rw [if_pos (Or.inl hadded)]
      rw [hadded, if_neg (by decide), if_neg (by decide), if_neg (by decide), if_pos rfl] at hq
      exact agrees_parseOutputItem h hq
    by_cases hitem : type = "response.output_item.done"
    · rw [if_pos (Or.inr hitem)]
      rw [hitem, if_neg (by decide), if_neg (by decide), if_neg (by decide), if_neg (by decide),
        if_pos rfl] at hq
      exact agrees_parseOutputItem h hq
    rw [if_neg (not_or.2 ⟨hadded, hitem⟩)]
    by_cases hdelta : type = "response.function_call_arguments.delta"
    · rw [if_pos hdelta]
      rw [hdelta, if_neg (by decide), if_neg (by decide), if_neg (by decide), if_neg (by decide),
        if_neg (by decide), if_pos rfl] at hq
      exact agrees_parseArgumentDelta h hq
    rw [if_neg hdelta]
    by_cases harguments : type = "response.function_call_arguments.done"
    · rw [if_pos harguments]
      rw [harguments, if_neg (by decide), if_neg (by decide), if_neg (by decide),
        if_neg (by decide), if_neg (by decide), if_neg (by decide), if_pos rfl] at hq
      exact agrees_parseArgumentDelta h hq
    rw [if_neg harguments]
    by_cases hcompleted : type = "response.completed"
    · rw [if_pos hcompleted]
      rw [hcompleted, if_neg (by decide), if_neg (by decide), if_neg (by decide),
        if_neg (by decide), if_neg (by decide), if_neg (by decide), if_neg (by decide),
        if_pos rfl] at hq
      exact agrees_parseCompleted h hq
    rw [if_neg hcompleted]
    refine h.of_same ?_
    rw [if_neg hadded, if_neg hitem, if_neg hdelta, if_neg harguments, if_neg hcompleted] at hq
    split at hq
    · exact SameCalls.parseTextDelta hq
    split at hq
    · exact SameCalls.parseSummaryDelta hq
    split at hq
    · obtain rfl := Option.some.inj hq
      exact SameCalls.parseSummaryDone p event
    split at hq
    · exact SameCalls.parseTextDelta hq
    split at hq
    · split at hq
      · exact absurd hq.symm (Option.some_ne_none q)
      · obtain rfl := Option.some.inj hq
        exact SameCalls.refl p
    split at hq
    · obtain rfl := Option.some.inj hq
      exact ⟨rfl, rfl⟩
    · obtain rfl := Option.some.inj hq
      exact SameCalls.refl p

theorem agrees_foldlM {datas : List (List UInt8)} (h : Agrees p entries)
    (hq : datas.foldlM (takeData json) p = some q) :
    Agrees q ((datas.flatMap (eventParts json)).foldl callRoster.file entries) := by
  induction datas generalizing p entries with
  | nil =>
    obtain rfl := Option.some.inj hq
    exact h
  | cons data datas ih =>
    rw [List.foldlM_cons] at hq
    obtain ⟨p', hdata, hrest⟩ := Option.bind_eq_some_iff.1 hq
    rw [List.flatMap_cons, List.foldl_append]
    exact ih (agrees_takeData h hdata) hrest

end Events

/-- The calls of an answer are the entries that the parts of its stream make, and all of them are
complete. -/
theorem toolCalls_of_streamRun {json : WireJson} {pieces : List (List UInt8)}
    {response : LLMResponse} {chunks : List String}
    (h : streamRun json pieces = some (response, chunks)) :
    response.toolCalls =
        (callRoster.fileAll (streamParts json pieces.flatten)).map CallEntry.toCall ∧
      ∀ e ∈ callRoster.fileAll (streamParts json pieces.flatten), e.id ≠ "" := by
  obtain ⟨p, hevents, ⟨-, -, -, hcomplete⟩, rfl, -⟩ := exists_of_streamRun h
  have hagrees := agrees_foldlM Agrees.start hevents
  have hcalls : (withContent (closeThinkingBlock p)).response.toolCalls = p.response.toolCalls :=
    (SameCalls.closeThinkingBlock p).1
  refine ⟨hcalls.trans hagrees.toolCalls, fun e he hid => ?_⟩
  have hcall : e.toCall ∈ p.response.toolCalls := by
    rw [hagrees.toolCalls]
    exact List.mem_map_of_mem he
  have hall := List.all_eq_true.1 hcomplete e.toCall hcall
  unfold CallEntry.toCall at hall
  rw [hid] at hall
  exact absurd hall (by simp)

/-! ## The service -/

/-- A function call, as the service names it. -/
structure FunctionCall where
  outputIndex : Int
  itemId : String
  callId : String
  deriving DecidableEq, Repr, Inhabited

/-- The identifiers of the part are those of the call. -/
def CallPart.IsOf (c : FunctionCall) (part : CallPart) : Prop :=
  (0 ≤ part.outputIndex → part.outputIndex = c.outputIndex) ∧
    (∀ id ∈ part.itemId, id = c.itemId) ∧ ∀ id ∈ part.callId, id = c.callId

instance (c : FunctionCall) (part : CallPart) : Decidable (part.IsOf c) :=
  inferInstanceAs (Decidable (_ ∧ _))

/-- The part has an identifier. -/
def CallPart.Named (part : CallPart) : Prop :=
  0 ≤ part.outputIndex ∨ part.itemId.isSome = true ∨ part.callId.isSome = true

instance (part : CallPart) : Decidable part.Named := inferInstanceAs (Decidable (_ ∨ _))

/-- The service names each call in one way and different calls differently, and every part has an
identifier of a call. -/
structure Serves (service : List FunctionCall) (parts : List CallPart) : Prop where
  distinct : service.Pairwise fun c d =>
    c.outputIndex ≠ d.outputIndex ∧ c.itemId ≠ d.itemId ∧ c.callId ≠ d.callId
  parts : ∀ part ∈ parts, part.Named ∧ ∃ c ∈ service, part.IsOf c

/-- The parts about a call. -/
def ofCall (parts : List CallPart) (c : FunctionCall) : List CallPart :=
  parts.filter fun part => part.IsOf c

/-- The last arguments that came as a whole, or else the parts of them together. -/
def argumentsOf (parts : List CallPart) : String :=
  match (parts.filterMap CallPart.complete).getLast? with
  | some arguments => arguments
  | none => String.join (parts.filterMap CallPart.delta)

/-- The last name. -/
def nameOf (parts : List CallPart) : String := (parts.filterMap CallPart.name).getLast?.getD ""

/-- The call of a response that a function call should be. -/
def finalCall (parts : List CallPart) (c : FunctionCall) : ToolCall where
  id := some c.callId
  name := some (nameOf (ofCall parts c))
  arguments := some (argumentsOf (ofCall parts c))

/-- There is one call for each function call that there are parts about, and it is as it should be.
-/
def Folds (service : List FunctionCall) (parts : List CallPart) (calls : List ToolCall) : Prop :=
  calls.Perm ((service.filter fun c => ofCall parts c ≠ []).map (finalCall parts))

/-! ## When the calls are right -/

/-- Another part has an identifier of this one.  An empty `call_id` does not count. -/
def CallPart.Shares (part other : CallPart) : Prop :=
  (0 ≤ part.outputIndex ∧ other.outputIndex = part.outputIndex) ∨
    (part.itemId.isSome = true ∧ other.itemId = part.itemId) ∨
    (part.callId.isSome = true ∧ part.callId ≠ some "" ∧ other.callId = part.callId)

/-- The parts that tell an entry the identifiers of its call: the first, and the items. -/
def tellers : List CallPart → List CallPart
  | [] => []
  | first :: parts => first :: parts.filter CallPart.isItem

/-- Every part but the first about a call has an identifier that the entry of the call was told. -/
def Recognized (service : List FunctionCall) (parts : List CallPart) : Prop :=
  ∀ front part back, parts = front ++ part :: back → ∀ c ∈ service, part.IsOf c →
    ofCall front c ≠ [] → ∃ other ∈ tellers (ofCall front c), part.Shares other

/-- No text is added behind the last arguments that came as a whole. -/
def Settles (parts : List CallPart) : Prop :=
  ∀ front part back, parts = front ++ part :: back → part.complete.isSome = true →
    (∀ other ∈ back, other.complete = none) → ∀ other ∈ back, ∀ text ∈ other.delta, text = ""

def Settled (service : List FunctionCall) (parts : List CallPart) : Prop :=
  ∀ c ∈ service, Settles (ofCall parts c)

/-! ### What entries know -/

/-- What the entry knows is about the call. -/
def CallEntry.IsOf (c : FunctionCall) (e : CallEntry) : Prop :=
  (0 ≤ e.outputIndex → e.outputIndex = c.outputIndex) ∧
    (∀ id ∈ e.itemId, id = c.itemId) ∧ (e.id ≠ "" → e.id = c.callId)

section Entries

variable {c d : FunctionCall} {e : CallEntry} {part : CallPart}

theorem CallEntry.IsOf.learn (h : e.IsOf c) (hpart : part.IsOf c) : (e.learn part).IsOf c := by
  unfold CallEntry.learn
  split
  · refine ⟨?_, ?_, ?_⟩
    · dsimp only
      split
      · exact hpart.1
      · exact h.1
    · intro id hid
      rcases Option.or_eq_some_iff.1 hid with hid | ⟨-, hid⟩
      · exact hpart.2.1 id hid
      · exact h.2.1 id hid
    · dsimp only
      cases hcall : part.callId with
      | none => exact h.2.2
      | some id => exact fun _ => hpart.2.2 id hcall
  · exact h
  · exact h

theorem CallEntry.isOf_fresh (hpart : part.IsOf c) : (CallEntry.fresh part).IsOf c := by
  refine ⟨hpart.1, hpart.2.1, ?_⟩
  unfold CallEntry.fresh
  dsimp only
  cases hcall : part.callId with
  | none => exact fun h => absurd rfl h
  | some id => exact fun _ => hpart.2.2 id hcall

theorem isOf_record {parts : List CallPart} (hparts : ∀ part ∈ parts, part.IsOf c)
    (he : callRoster.record parts = some e) : e.IsOf c := by
  induction parts using List.reverseRecOn generalizing e with
  | nil => exact absurd he.symm (Option.some_ne_none e)
  | append_singleton parts part ih =>
    rw [List.forall_mem_append, List.forall_mem_singleton] at hparts
    by_cases hnil : parts = []
    · subst hnil
      obtain rfl := Option.some.inj he
      exact (CallEntry.isOf_fresh hparts.2).learn hparts.2
    · rw [callRoster.record_concat hnil] at he
      obtain ⟨e', he', rfl⟩ := Option.map_eq_some_iff.1 he
      exact (ih hparts.1 he').learn hparts.2

theorem hits_iff : callRoster.hits e part = true ↔
    (0 ≤ part.outputIndex ∧ e.outputIndex = part.outputIndex) ∨
      (part.itemId.isSome = true ∧ e.itemId = part.itemId) ∨
      (part.callId.isSome = true ∧ e.id ≠ "" ∧ some e.id = part.callId) := by
  simp only [callRoster, Bool.or_eq_true, Bool.and_eq_true, decide_eq_true_eq, beq_iff_eq,
    bne_iff_ne, ne_eq, Option.some.injEq, and_assoc, or_assoc]

/-- An entry of a call is hit by parts of calls that have an identifier in common. -/
theorem shared_of_hits (he : e.IsOf c) (hpart : part.IsOf d) (h : callRoster.hits e part = true) :
    c.outputIndex = d.outputIndex ∨ c.itemId = d.itemId ∨ c.callId = d.callId := by
  rcases hits_iff.1 h with ⟨hindex, heq⟩ | ⟨hsome, heq⟩ | ⟨-, hne, heq⟩
  · exact Or.inl ((he.1 (heq ▸ hindex)).symm.trans (heq.trans (hpart.1 hindex)))
  · obtain ⟨id, hid⟩ := Option.isSome_iff_exists.1 hsome
    exact Or.inr (Or.inl ((he.2.1 id (heq.trans hid)).symm.trans (hpart.2.1 id hid)))
  · exact Or.inr (Or.inr ((he.2.2 hne).symm.trans (hpart.2.2 e.id heq.symm)))

/-- What a part knows, its item tells an entry. -/
theorem hits_learn_item {teller : CallPart} (he : e.IsOf c) (hteller : teller.IsOf c)
    (hpart : part.IsOf c) (hitem : teller.isItem = true) :
    callRoster.hits (e.learn teller) part = true ↔
      callRoster.hits e part = true ∨ part.Shares teller := by
  rw [hits_iff, hits_iff]
  unfold CallPart.Shares CallEntry.learn
  cases hsaying : teller.saying with
  | delta text =>
    rw [CallPart.isItem, hsaying] at hitem
    exact absurd hitem Bool.noConfusion
  | done arguments =>
    rw [CallPart.isItem, hsaying] at hitem
    exact absurd hitem Bool.noConfusion
  | item name arguments =>
    dsimp only
    have hindex : 0 ≤ part.outputIndex →
        ((if e.outputIndex < 0 then teller.outputIndex else e.outputIndex) = part.outputIndex ↔
          e.outputIndex = part.outputIndex ∨ teller.outputIndex = part.outputIndex) := by
      intro hle
      have hp := hpart.1 hle
      have he' := he.1
      split <;> omega
    have hitemId : part.itemId.isSome = true → (teller.itemId.or e.itemId = part.itemId ↔
        e.itemId = part.itemId ∨ teller.itemId = part.itemId) := by
      intro hsome
      obtain ⟨id, hid⟩ := Option.isSome_iff_exists.1 hsome
      have hid' := hpart.2.1 id hid
      rw [hid]
      cases hother : teller.itemId with
      | none => simp
      | some other =>
        have := hteller.2.1 other hother
        simp [this, hid']
    have hcallId : part.callId.isSome = true →
        (teller.callId.getD e.id ≠ "" ∧ some (teller.callId.getD e.id) = part.callId ↔
          (e.id ≠ "" ∧ some e.id = part.callId) ∨
            (part.callId ≠ some "" ∧ teller.callId = part.callId)) := by
      intro hsome
      obtain ⟨id, hid⟩ := Option.isSome_iff_exists.1 hsome
      have hid' := hpart.2.2 id hid
      rw [hid]
      cases hother : teller.callId with
      | none => simp
      | some other =>
        have := hteller.2.2 other hother
        simp only [Option.getD_some, Option.some.injEq, this, ← hid', ne_eq, and_true]
        constructor
        · exact Or.inr
        · rintro (⟨hne, rfl⟩ | hne)
          · exact hne
          · exact hne
    rw [and_congr_right hindex, and_congr_right hitemId, and_congr_right hcallId, and_or_left,
      and_or_left, and_or_left]
    exact (or_congr_right or_or_or_comm).trans or_or_or_comm

theorem hits_learn_other {teller : CallPart} (hitem : teller.isItem = false) :
    callRoster.hits (e.learn teller) part = callRoster.hits e part := by
  unfold CallEntry.learn
  cases hsaying : teller.saying with
  | item name arguments =>
    rw [CallPart.isItem, hsaying] at hitem
    exact absurd hitem Bool.noConfusion
  | delta text => rfl
  | done arguments => rfl

theorem hits_fresh (first : CallPart) :
    callRoster.hits (CallEntry.fresh first) part = true ↔ part.Shares first := by
  rw [hits_iff]
  unfold CallPart.Shares CallEntry.fresh
  dsimp only
  have hcallId : (first.callId.getD "" ≠ "" ∧ some (first.callId.getD "") = part.callId) ↔
      (part.callId.isSome = true → part.callId ≠ some "" ∧ first.callId = part.callId) ∧
        part.callId.isSome = true := by
    cases part.callId with
    | none => simp
    | some id =>
      cases first.callId with
      | none => simp
      | some other =>
        simp only [Option.getD_some, Option.isSome_some, Option.some.injEq, forall_const, and_true,
          ne_eq]
        constructor
        · rintro ⟨hne, rfl⟩
          exact ⟨hne, rfl⟩
        · rintro ⟨hne, rfl⟩
          exact ⟨hne, rfl⟩
  rw [hcallId]
  tauto

/-- The entry of some parts about a call is hit by the parts that share an identifier with what it
was told. -/
theorem hits_record_iff {parts : List CallPart} (hparts : ∀ other ∈ parts, other.IsOf c)
    (hpart : part.IsOf c) (he : callRoster.record parts = some e) :
    callRoster.hits e part = true ↔ ∃ other ∈ tellers parts, part.Shares other := by
  induction parts using List.reverseRecOn generalizing e with
  | nil => exact absurd he.symm (Option.some_ne_none e)
  | append_singleton parts teller ih =>
    rw [List.forall_mem_append, List.forall_mem_singleton] at hparts
    by_cases hnil : parts = []
    · subst hnil
      obtain rfl := Option.some.inj he
      have hfresh := (CallEntry.isOf_fresh hparts.2)
      have htellers : (∃ other ∈ tellers ([] ++ [teller]), part.Shares other) ↔
          part.Shares teller := by
        simp [tellers]
      rw [htellers]
      show callRoster.hits ((CallEntry.fresh teller).learn teller) part = true ↔ _
      cases hitem : teller.isItem with
      | true => rw [hits_learn_item hfresh hparts.2 hpart hitem, hits_fresh, or_self]
      | false => rw [hits_learn_other hitem, hits_fresh]
    · rw [callRoster.record_concat hnil] at he
      obtain ⟨e', he', rfl⟩ := Option.map_eq_some_iff.1 he
      have htellers : tellers (parts ++ [teller]) =
          tellers parts ++ [teller].filter CallPart.isItem := by
        cases parts with
        | nil => exact absurd rfl hnil
        | cons first parts => exact congrArg (first :: ·) (List.filter_append ..)
      have hold := ih hparts.1 he'
      show callRoster.hits (e'.learn teller) part = true ↔ _
      rw [htellers]
      cases hitem : teller.isItem with
      | true =>
        rw [hits_learn_item (isOf_record hparts.1 he') hparts.2 hpart hitem, hold,
          List.filter_cons_of_pos hitem, List.filter_nil]
        simp only [List.mem_append, List.mem_singleton, or_and_right, exists_or, exists_eq_left]
      | false =>
        have hnone : ¬teller.isItem = true := by rw [hitem]; exact Bool.noConfusion
        rw [hits_learn_other hitem, hold, List.filter_cons_of_neg hnone, List.filter_nil,
          List.append_nil]

/-- The name of an entry is the last one. -/
theorem name_record {parts : List CallPart} (he : callRoster.record parts = some e) :
    e.name = nameOf parts := by
  have hlearn : ∀ (e : CallEntry) (part : CallPart), (e.learn part).name = part.name.getD e.name := by
    intro e part
    unfold CallEntry.learn CallPart.name
    cases part.saying <;> rfl
  have hlast : ∀ (parts : List CallPart) (part : CallPart),
      nameOf (parts ++ [part]) = part.name.getD (nameOf parts) := by
    intro parts part
    unfold nameOf
    rw [List.filterMap_append]
    cases hname : part.name with
    | none => rw [List.filterMap_cons_none hname, List.filterMap_nil, List.append_nil]; rfl
    | some name =>
      rw [List.filterMap_cons_some hname, List.filterMap_nil, List.getLast?_concat]
      rfl
  induction parts using List.reverseRecOn generalizing e with
  | nil => exact absurd he.symm (Option.some_ne_none e)
  | append_singleton parts part ih =>
    rw [hlast]
    by_cases hnil : parts = []
    · subst hnil
      obtain rfl := Option.some.inj he
      exact hlearn _ part
    · rw [callRoster.record_concat hnil] at he
      obtain ⟨e', he', rfl⟩ := Option.map_eq_some_iff.1 he
      rw [← ih he']
      exact hlearn e' part

end Entries

/-! ### The arguments of an entry -/

/-- The arguments behind a part. -/
def argumentsAfter (arguments : String) (part : CallPart) : String :=
  match part.complete with
  | some arguments => arguments
  | none => arguments ++ part.delta.getD ""

theorem arguments_record {parts : List CallPart} {e : CallEntry}
    (he : callRoster.record parts = some e) : e.arguments = parts.foldl argumentsAfter "" := by
  have hlearn : ∀ (e : CallEntry) (part : CallPart),
      (e.learn part).arguments = argumentsAfter e.arguments part := by
    intro e part
    unfold CallEntry.learn argumentsAfter CallPart.complete CallPart.delta
    cases part.saying with
    | item name arguments =>
      cases arguments with
      | none => exact (String.append_empty).symm
      | some arguments => rfl
    | delta text => rfl
    | done arguments => rfl
  induction parts using List.reverseRecOn generalizing e with
  | nil => exact absurd he.symm (Option.some_ne_none e)
  | append_singleton parts part ih =>
    rw [List.foldl_concat]
    by_cases hnil : parts = []
    · subst hnil
      obtain rfl := Option.some.inj he
      exact hlearn _ part
    · rw [callRoster.record_concat hnil] at he
      obtain ⟨e', he', rfl⟩ := Option.map_eq_some_iff.1 he
      rw [← ih he']
      exact hlearn e' part

/-- Parts of arguments are put behind each other. -/
theorem foldl_of_deltas {parts : List CallPart} (h : ∀ part ∈ parts, part.complete = none)
    (arguments : String) :
    parts.foldl argumentsAfter arguments =
      arguments ++ String.join (parts.filterMap CallPart.delta) := by
  induction parts generalizing arguments with
  | nil => rw [List.filterMap_nil, String.join_nil, String.append_empty]; rfl
  | cons part parts ih =>
    rw [List.forall_mem_cons] at h
    have hafter : argumentsAfter arguments part = arguments ++ part.delta.getD "" := by
      unfold argumentsAfter
      rw [h.1]
    rw [List.foldl_cons, ih h.2, hafter]
    cases hdelta : part.delta with
    | none => rw [List.filterMap_cons_none hdelta, Option.getD_none, String.append_empty]
    | some text =>
      rw [List.filterMap_cons_some hdelta, String.join_cons, Option.getD_some, String.append_assoc]

theorem filterMap_eq_nil_of_none {parts : List CallPart}
    (h : ∀ part ∈ parts, part.complete = none) : parts.filterMap CallPart.complete = [] :=
  List.filterMap_eq_nil_iff.2 h

/-- The last arguments that came as a whole, and what is added behind them. -/
theorem arguments_of_split {front back : List CallPart} {part : CallPart} {arguments : String}
    (hpart : part.complete = some arguments) (hback : ∀ other ∈ back, other.complete = none) :
    argumentsOf (front ++ part :: back) = arguments ∧
      (front ++ part :: back).foldl argumentsAfter "" =
        arguments ++ String.join (back.filterMap CallPart.delta) := by
  constructor
  · unfold argumentsOf
    rw [List.filterMap_append, List.filterMap_cons_some hpart, filterMap_eq_nil_of_none hback,
      List.getLast?_concat]
  · rw [List.foldl_append, List.foldl_cons, foldl_of_deltas hback]
    unfold argumentsAfter
    rw [hpart]

theorem exists_last_complete {parts : List CallPart} (h : ¬∀ part ∈ parts, part.complete = none) :
    ∃ front part back, parts = front ++ part :: back ∧ part.complete.isSome = true ∧
      ∀ other ∈ back, other.complete = none := by
  induction parts using List.reverseRecOn with
  | nil => exact absurd (fun _ hmem => absurd hmem List.not_mem_nil) h
  | append_singleton parts last ih =>
    cases hlast : last.complete with
    | some arguments =>
      refine ⟨parts, last, [], rfl, ?_, fun _ hmem => absurd hmem List.not_mem_nil⟩
      rw [hlast]
      rfl
    | none =>
      have hparts : ¬∀ part ∈ parts, part.complete = none := fun hall =>
        h (List.forall_mem_append.2 ⟨hall, List.forall_mem_singleton.2 hlast⟩)
      obtain ⟨front, part, back, rfl, hpart, hback⟩ := ih hparts
      refine ⟨front, part, back ++ [last], by rw [List.append_assoc]; rfl, hpart, ?_⟩
      exact List.forall_mem_append.2 ⟨hback, List.forall_mem_singleton.2 hlast⟩

theorem join_eq_empty_iff {texts : List String} :
    String.join texts = "" ↔ ∀ text ∈ texts, text = "" := by
  induction texts with
  | nil => exact iff_of_true String.join_nil fun _ h => absurd h List.not_mem_nil
  | cons text texts ih =>
    rw [String.join_cons, List.forall_mem_cons, ← ih]
    exact String.append_eq_empty_iff

/-- The arguments of an entry are right just when no text is added behind the last ones. -/
theorem arguments_eq_iff {parts : List CallPart} :
    parts.foldl argumentsAfter "" = argumentsOf parts ↔ Settles parts := by
  have hsplit : ∀ {front back : List CallPart} {part : CallPart},
      parts = front ++ part :: back → part.complete.isSome = true →
      (∀ other ∈ back, other.complete = none) →
      (parts.foldl argumentsAfter "" = argumentsOf parts ↔
        ∀ other ∈ back, ∀ text ∈ other.delta, text = "") := by
    rintro front back part rfl hpart hback
    obtain ⟨arguments, harguments⟩ := Option.isSome_iff_exists.1 hpart
    obtain ⟨hof, hfold⟩ := @arguments_of_split front back part arguments harguments hback
    rw [hof, hfold, String.append_eq_left_iff, join_eq_empty_iff]
    simp only [List.mem_filterMap, forall_exists_index, and_imp]
    exact ⟨fun h other hother text htext => h text other hother htext,
      fun h text other hother htext => h other hother text htext⟩
  constructor
  · intro heq front part back hparts hpart hback
    exact (hsplit hparts hpart hback).1 heq
  · intro h
    by_cases hnone : ∀ part ∈ parts, part.complete = none
    · unfold argumentsOf
      rw [foldl_of_deltas hnone, filterMap_eq_nil_of_none hnone, String.empty_append]
      rfl
    · obtain ⟨front, part, back, hparts, hpart, hback⟩ := exists_last_complete hnone
      exact (hsplit hparts hpart hback).2 (h front part back hparts hpart hback)

/-! ### The calls of a served stream -/

/-- The call that a part is about. -/
def ownerOf (service : List FunctionCall) (part : CallPart) : FunctionCall :=
  (service.find? fun c => part.IsOf c).getD default

section Served

variable {service : List FunctionCall} {parts : List CallPart} {part : CallPart}
  {c d : FunctionCall}

theorem Serves.eq_of_shared (hs : Serves service parts) (hc : c ∈ service) (hd : d ∈ service)
    (h : c.outputIndex = d.outputIndex ∨ c.itemId = d.itemId ∨ c.callId = d.callId) : c = d := by
  by_contra hne
  have hsymm : Std.Symm fun c d : FunctionCall =>
      c.outputIndex ≠ d.outputIndex ∧ c.itemId ≠ d.itemId ∧ c.callId ≠ d.callId :=
    ⟨fun _ _ h => ⟨h.1.symm, h.2.1.symm, h.2.2.symm⟩⟩
  obtain ⟨hindex, hitemId, hcallId⟩ := hs.distinct.forall hc hd hne
  rcases h with h | h | h
  · exact hindex h
  · exact hitemId h
  · exact hcallId h

theorem Serves.isOf_unique (hs : Serves service parts) (hpart : part ∈ parts) (hc : c ∈ service)
    (hd : d ∈ service) (hpc : part.IsOf c) (hpd : part.IsOf d) : c = d := by
  refine hs.eq_of_shared hc hd ?_
  rcases (hs.parts part hpart).1 with hindex | hitemId | hcallId
  · exact Or.inl ((hpc.1 hindex).symm.trans (hpd.1 hindex))
  · obtain ⟨id, hid⟩ := Option.isSome_iff_exists.1 hitemId
    exact Or.inr (Or.inl ((hpc.2.1 id hid).symm.trans (hpd.2.1 id hid)))
  · obtain ⟨id, hid⟩ := Option.isSome_iff_exists.1 hcallId
    exact Or.inr (Or.inr ((hpc.2.2 id hid).symm.trans (hpd.2.2 id hid)))

theorem Serves.ownerOf_spec (hs : Serves service parts) (hpart : part ∈ parts) :
    ownerOf service part ∈ service ∧ part.IsOf (ownerOf service part) := by
  obtain ⟨-, c, hc, hpc⟩ := hs.parts part hpart
  unfold ownerOf
  cases hfind : service.find? fun c => part.IsOf c with
  | none => exact absurd (decide_eq_true hpc) (List.find?_eq_none.1 hfind c hc)
  | some d =>
    have hd := List.find?_some hfind
    exact ⟨List.mem_of_find?_eq_some hfind, of_decide_eq_true hd⟩

theorem Serves.ownerOf_eq_iff (hs : Serves service parts) (hpart : part ∈ parts)
    (hc : c ∈ service) : ownerOf service part = c ↔ part.IsOf c := by
  obtain ⟨howner, hspec⟩ := hs.ownerOf_spec hpart
  constructor
  · rintro rfl
    exact hspec
  · exact hs.isOf_unique hpart howner hc hspec

theorem Serves.itemsOf_eq (hs : Serves service parts) {front : List CallPart}
    (hfront : front ⊆ parts) (hc : c ∈ service) :
    Roster.itemsOf (ownerOf service) front c = ofCall front c :=
  List.filter_congr fun _ hmem => decide_eq_decide.2 (hs.ownerOf_eq_iff (hfront hmem) hc)

theorem isOf_of_mem_ofCall (h : part ∈ ofCall parts c) : part.IsOf c :=
  of_decide_eq_true (List.mem_filter.1 h).2

/-- Parts of different calls do not find each other's entries. -/
theorem Serves.pure (hs : Serves service parts) : callRoster.Pure (ownerOf service) parts := by
  intro c xs hxs part hpart hhits
  obtain ⟨e, he, hhits⟩ := (Option.any_eq_true _ _).1 hhits
  have hserved : ∀ x ∈ xs, x.IsOf c ∧ c ∈ service := by
    intro x hx
    obtain ⟨hmem, hspec⟩ := hs.ownerOf_spec (hxs x hx).1
    rw [(hxs x hx).2] at hmem hspec
    exact ⟨hspec, hmem⟩
  have hc : c ∈ service := by
    cases xs with
    | nil => exact absurd he.symm (Option.some_ne_none e)
    | cons x xs => exact (hserved x List.mem_cons_self).2
  obtain ⟨howner, hspec⟩ := hs.ownerOf_spec hpart
  have hentry := isOf_record (fun x hx => (hserved x hx).1) he
  exact (hs.eq_of_shared hc howner (shared_of_hits hentry hspec hhits)).symm

/-- The parts are recognized just when each finds the entry of its call. -/
theorem Serves.known_iff (hs : Serves service parts) :
    callRoster.Known (ownerOf service) parts ↔ Recognized service parts := by
  have hstep : ∀ {front back : List CallPart} {part : CallPart}, parts = front ++ part :: back →
      ∀ {c}, c ∈ service → part.IsOf c → ofCall front c ≠ [] →
      ((callRoster.record (ofCall front c)).any (callRoster.hits · part) = true ↔
        ∃ other ∈ tellers (ofCall front c), part.Shares other) := by
    intro front back part _ c _ hpart hne
    obtain ⟨e, he⟩ : ∃ e, callRoster.record (ofCall front c) = some e := by
      cases hlist : ofCall front c with
      | nil => exact absurd hlist hne
      | cons first more => exact ⟨_, rfl⟩
    rw [he, Option.any_some]
    exact hits_record_iff (fun _ hmem => isOf_of_mem_ofCall hmem) hpart he
  have hseen : ∀ {front : List CallPart}, front ⊆ parts → ∀ {c}, c ∈ service →
      (c ∈ front.map (ownerOf service) ↔ ofCall front c ≠ []) := by
    intro front hfront c hc
    rw [List.mem_map, ← hs.itemsOf_eq hfront hc, ne_eq, List.eq_nil_iff_forall_not_mem, not_forall]
    exact exists_congr fun part => by rw [not_not, Roster.mem_itemsOf]
  have hmem : ∀ {front back : List CallPart} {part : CallPart}, parts = front ++ part :: back →
      part ∈ parts := by
    intro front back part hparts
    rw [hparts]
    exact List.mem_append_right _ List.mem_cons_self
  constructor
  · intro h front part back hparts c hc hpart hne
    have hfront : front ⊆ parts := hparts ▸ List.subset_append_left _ _
    have howner := (hs.ownerOf_eq_iff (hmem hparts) hc).2 hpart
    have hhits := h front part back hparts (howner ▸ (hseen hfront hc).2 hne)
    rw [howner, hs.itemsOf_eq hfront hc] at hhits
    exact (hstep hparts hc hpart hne).1 hhits
  · intro h front part back hparts hfound
    have hfront : front ⊆ parts := hparts ▸ List.subset_append_left _ _
    obtain ⟨hc, hpart⟩ := hs.ownerOf_spec (hmem hparts)
    have hne := (hseen hfront hc).1 hfound
    rw [hs.itemsOf_eq hfront hc]
    exact (hstep hparts hc hpart hne).2 (h front part back hparts _ hc hpart hne)

/-- The function calls that there are parts about. -/
def served (service : List FunctionCall) (parts : List CallPart) : List FunctionCall :=
  service.filter fun c => ofCall parts c ≠ []

theorem Serves.owners_perm (hs : Serves service parts) :
    (parts.map (ownerOf service)).eraseDups.Perm (served service parts) := by
  have hnodup : service.Nodup :=
    hs.distinct.imp fun h heq => h.1 (congrArg FunctionCall.outputIndex heq)
  unfold served
  rw [List.perm_ext_iff_of_nodup (nodup_eraseDups _) (hnodup.filter _)]
  intro c
  rw [List.mem_eraseDups, List.mem_filter, decide_eq_true_eq]
  constructor
  · intro hmem
    obtain ⟨part, hpart, rfl⟩ := List.mem_map.1 hmem
    obtain ⟨hc, hspec⟩ := hs.ownerOf_spec hpart
    refine ⟨hc, List.ne_nil_of_mem (a := part) ?_⟩
    exact List.mem_filter.2 ⟨hpart, decide_eq_true hspec⟩
  · rintro ⟨hc, hne⟩
    obtain ⟨part, hpart⟩ := List.exists_mem_of_ne_nil _ hne
    obtain ⟨hmem, hspec⟩ := List.mem_filter.1 hpart
    rw [← (hs.ownerOf_eq_iff hmem hc).2 (of_decide_eq_true hspec)]
    exact List.mem_map_of_mem hmem

/-- The call of a response that the parts about a function call make. -/
def madeCall (parts : List CallPart) (c : FunctionCall) : Option ToolCall :=
  (callRoster.record (ofCall parts c)).map CallEntry.toCall

/-- When the parts are recognized, there is one entry for each call, with what its parts make. -/
theorem Serves.toolCalls_perm (hs : Serves service parts) (h : Recognized service parts) :
    (((callRoster.fileAll parts).map CallEntry.toCall).map some).Perm
      ((served service parts).map (madeCall parts)) := by
  have hfile := Roster.fileAll_of_known hs.pure (hs.known_iff.2 h)
  have hcalls : ((callRoster.fileAll parts).map CallEntry.toCall).map some =
      ((callRoster.fileAll parts).map some).map (Option.map CallEntry.toCall) := by
    rw [List.map_map, List.map_map]
    rfl
  rw [hcalls, hfile, List.map_map]
  refine (hs.owners_perm.map _).trans (List.Perm.of_eq (List.map_congr_left fun c hc => ?_))
  show (callRoster.record (Roster.itemsOf (ownerOf service) parts c)).map CallEntry.toCall = _
  rw [hs.itemsOf_eq (List.Subset.refl _) (List.mem_filter.1 hc).1]
  rfl

/-- The entry of a served call, which has a `call_id`. -/
theorem Serves.madeCall_eq (hs : Serves service parts) (h : Recognized service parts)
    (hid : ∀ e ∈ callRoster.fileAll parts, e.id ≠ "") (hc : c ∈ served service parts) :
    madeCall parts c = some { finalCall parts c with
      arguments := some ((ofCall parts c).foldl argumentsAfter "") } := by
  have hmem : madeCall parts c ∈ ((callRoster.fileAll parts).map CallEntry.toCall).map some :=
    (hs.toolCalls_perm h).mem_iff.2 (List.mem_map_of_mem hc)
  obtain ⟨call, hcall, hmade⟩ := List.mem_map.1 hmem
  obtain ⟨e', he', rfl⟩ := List.mem_map.1 hcall
  obtain ⟨e, he, hcalls⟩ := Option.map_eq_some_iff.1 hmade.symm
  have hids : e.id = e'.id := Option.some.inj (congrArg ToolCall.id hcalls)
  have hisOf := isOf_record (fun _ hpart => isOf_of_mem_ofCall hpart) he
  rw [← hmade, ← hcalls, CallEntry.toCall, hisOf.2.2 (hids ▸ hid e' he'), name_record he,
    arguments_record he]
  rfl

/-- The calls are right just when the parts are recognized and no text is added behind the last
arguments of a call. -/
theorem Serves.folds_iff_parts (hs : Serves service parts)
    (hid : ∀ e ∈ callRoster.fileAll parts, e.id ≠ "") :
    Folds service parts ((callRoster.fileAll parts).map CallEntry.toCall) ↔
      Recognized service parts ∧ Settled service parts := by
  have hfolds : Folds service parts ((callRoster.fileAll parts).map CallEntry.toCall) ↔
      (((callRoster.fileAll parts).map CallEntry.toCall).map some).Perm
        ((served service parts).map fun c => some (finalCall parts c)) := by
    have hmap : ((served service parts).map fun c => some (finalCall parts c)) =
        ((served service parts).map (finalCall parts)).map some := by
      rw [List.map_map]
      rfl
    rw [hmap, List.map_perm_map_iff (Option.some_injective _)]
    rfl
  have hrecognized : Folds service parts ((callRoster.fileAll parts).map CallEntry.toCall) →
      Recognized service parts := by
    intro h
    rw [← hs.known_iff, Roster.known_iff_length hs.pure, hs.owners_perm.length_eq]
    have hlength := h.length_eq
    rwa [List.length_map, List.length_map] at hlength
  refine ⟨fun h => ⟨hrecognized h, ?_⟩, ?_⟩
  · intro c hc
    by_cases hne : ofCall parts c = []
    · rw [hne]
      exact fun front part back heq => absurd heq.symm (by simp)
    have hserved : c ∈ served service parts := List.mem_filter.2 ⟨hc, decide_eq_true hne⟩
    have hmade := hs.madeCall_eq (hrecognized h) hid hserved
    have hperm := (hs.toolCalls_perm (hrecognized h)).symm.trans (hfolds.1 h)
    obtain ⟨d, hd, heq⟩ := List.mem_map.1 (hperm.mem_iff.1 (List.mem_map_of_mem hserved))
    rw [hmade] at heq
    obtain rfl : d = c := by
      refine hs.eq_of_shared (List.mem_filter.1 hd).1 hc (Or.inr (Or.inr ?_))
      exact Option.some.inj (congrArg ToolCall.id (Option.some.inj heq))
    rw [← arguments_eq_iff]
    exact (Option.some.inj (congrArg ToolCall.arguments (Option.some.inj heq))).symm
  · rintro ⟨h, hsettled⟩
    rw [hfolds]
    refine (hs.toolCalls_perm h).trans (List.Perm.of_eq (List.map_congr_left fun c hc => ?_))
    rw [hs.madeCall_eq h hid hc, arguments_eq_iff.2 (hsettled c (List.mem_filter.1 hc).1)]
    rfl

end Served

/-- **Streamed function calls**: the calls of an answer are right just when each part of its stream
has an identifier that the entry of its call was told, and no text is added behind the last
arguments of a call. -/
theorem folds_iff (json : WireJson) (pieces : List (List UInt8)) {response : LLMResponse}
    {chunks : List String} (service : List FunctionCall)
    (h : streamRun json pieces = some (response, chunks))
    (hs : Serves service (streamParts json pieces.flatten)) :
    Folds service (streamParts json pieces.flatten) response.toolCalls ↔
      Recognized service (streamParts json pieces.flatten) ∧
        Settled service (streamParts json pieces.flatten) := by
  obtain ⟨hcalls, hid⟩ := toolCalls_of_streamRun h
  rw [hcalls]
  exact hs.folds_iff_parts hid

/-- A finished answer that makes one call. -/
def lookEvents : List (List UInt8) :=
  [ascii ("\x7b\"type\":\"response.completed\",\"response\":\x7b\"output\":[\x7b" ++
    "\"type\":\"function_call\",\"call_id\":\"c\",\"name\":\"look\",\"arguments\":\"\"\x7d]\x7d\x7d")]

theorem fitsLine_lookEvents : ∀ data ∈ lookEvents, FitsLine data := by
  intro data hdata
  rw [lookEvents, List.mem_singleton] at hdata
  rw [hdata, ascii_append, ascii_ofList, ascii_ofList]
  constructor <;> decide +kernel

theorem folds_iff_look :
    Folds [⟨0, "f", "c"⟩] (streamParts byteJson [lookEvents.flatMap dataLine].flatten)
        [{ id := some "c", name := some "look", arguments := some "" }] ↔
      Recognized [⟨0, "f", "c"⟩] (streamParts byteJson [lookEvents.flatMap dataLine].flatten) ∧
        Settled [⟨0, "f", "c"⟩] (streamParts byteJson [lookEvents.flatMap dataLine].flatten) := by
  have hparts : streamParts byteJson [lookEvents.flatMap dataLine].flatten =
      [⟨0, none, some "c", .item (some "look") (some "")⟩] := by
    rw [streamParts, List.flatten_singleton, streamData_dataLines fitsLine_lookEvents, byteJson_eq,
      lookEvents, ascii_append, ascii_ofList, ascii_ofList]
    decide +kernel
  refine @folds_iff byteJson [lookEvents.flatMap dataLine] { content := some "", toolCalls :=
    [{ id := some "c", name := some "look", arguments := some "" }] } [] [⟨0, "f", "c"⟩] ?_ ?_
  · have hshort : (lookEvents.flatMap dataLine).length ≤ openaiMaxResponseBytes := by
      rw [lookEvents, ascii_append, ascii_ofList, ascii_ofList]
      decide +kernel
    rw [streamRun_dataLines fitsLine_lookEvents hshort, byteJson_eq, lookEvents, ascii_append,
      ascii_ofList, ascii_ofList]
    decide +kernel
  · rw [hparts]
    exact ⟨List.pairwise_singleton .., by decide⟩

/-! ## An identifier that is not learned -/

/-- The second event tells two identifiers of a call, and the third has only the new one. -/
def unlearnedEvents : List (List UInt8) :=
  [ascii ("\x7b\"type\":\"response.function_call_arguments.delta\",\"output_index\":0," ++
      "\"delta\":\"\"\x7d"),
    ascii ("\x7b\"type\":\"response.function_call_arguments.delta\",\"output_index\":0," ++
      "\"item_id\":\"f\",\"delta\":\"\"\x7d"),
    ascii ("\x7b\"type\":\"response.output_item.done\",\"item\":\x7b\"type\":\"function_call\"," ++
      "\"id\":\"f\",\"call_id\":\"c\",\"name\":\"look\",\"arguments\":\"\"\x7d\x7d"),
    ascii ("\x7b\"type\":\"response.completed\",\"response\":\x7b\"output\":[\x7b" ++
      "\"type\":\"function_call\",\"call_id\":\"c\",\"name\":\"look\",\"arguments\":\"\"\x7d]\x7d\x7d")]

theorem fitsLine_unlearnedEvents : ∀ data ∈ unlearnedEvents, FitsLine data := by
  simp only [unlearnedEvents, List.forall_mem_cons, ascii_append]
  refine ⟨?_, ?_, ?_, ?_, fun _ h => absurd h List.not_mem_nil⟩ <;>
    rw [ascii_ofList, ascii_ofList] <;> constructor <;> decide +kernel

/-- The call is there twice. -/
theorem not_folds_unlearned :
    ¬∀ (json : WireJson) (pieces : List (List UInt8)) (response : LLMResponse)
        (chunks : List String) (service : List FunctionCall),
      streamRun json pieces = some (response, chunks) →
      Serves service (streamParts json pieces.flatten) →
      Folds service (streamParts json pieces.flatten) response.toolCalls := by
  intro h
  have hparts : streamParts byteJson [unlearnedEvents.flatMap dataLine].flatten =
      [⟨0, none, none, .delta ""⟩, ⟨0, some "f", none, .delta ""⟩,
        ⟨-1, some "f", some "c", .item (some "look") (some "")⟩,
        ⟨0, none, some "c", .item (some "look") (some "")⟩] := by
    rw [streamParts, List.flatten_singleton, streamData_dataLines fitsLine_unlearnedEvents,
      byteJson_eq, unlearnedEvents]
    simp only [ascii_append]
    repeat rw [ascii_ofList]
    decide +kernel
  have hshort : (unlearnedEvents.flatMap dataLine).length ≤ openaiMaxResponseBytes := by
    simp only [unlearnedEvents, ascii_append]
    repeat rw [ascii_ofList]
    decide +kernel
  have hrun : (streamRun byteJson [unlearnedEvents.flatMap dataLine]).map
      (fun answer => answer.1.toolCalls.length) = some 2 := by
    rw [streamRun_dataLines fitsLine_unlearnedEvents hshort, byteJson_eq, unlearnedEvents]
    simp only [ascii_append]
    repeat rw [ascii_ofList]
    decide +kernel
  obtain ⟨⟨response, chunks⟩, hstream, hlength⟩ := Option.map_eq_some_iff.1 hrun
  have hserves : Serves [⟨0, "f", "c"⟩]
      (streamParts byteJson [unlearnedEvents.flatMap dataLine].flatten) := by
    rw [hparts]
    exact ⟨List.pairwise_singleton .., by decide⟩
  have hfolds := (h byteJson _ response chunks _ hstream hserves).length_eq
  rw [List.length_map] at hfolds
  have htwo : 2 ≤ 1 := (hlength.symm.trans hfolds).le.trans (List.length_filter_le _ _)
  exact absurd htwo (by decide)

end EchoAi.FunctionCalls
