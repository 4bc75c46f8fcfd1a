import EchoAi.Chains
import EchoAi.Session.Branch
import Mathlib.Data.List.Induction

/-!
# No chain is lost by branching

When nothing fails, forks and switches act on the chains of a session as `Chains.Step` says: a fork
records the live chain with its fork group and goes on with a new one, and a switch exchanges the
live chain with a recorded one.

* `Session.chains`: the chains of a stored session, each in the form in which it is loaded.
* `Session.Shaped`: the metadata prints the list of the branches and what is hung below it.
* `forkBranch_spec`, `switchBranch_spec`: what a successful call does to the stored session.
* `ChainsKept`: the law of branching over all runs; `chainsKept_of_shaped` says that it holds when the
  metadata is shaped, and `not_chainsKept_textMetadata` that otherwise it may not.
-/

namespace EchoAi

variable {codec : JsonCodec}

/-! ## The chains of a session -/

/-- The messages of a record, in the form in which they are loaded; absent when there is no array of
messages. -/
def recordChain (codec : JsonCodec) (rec : JsonValue) : Option (List Message) :=
  match rec.member "messages" with
  | some (.array items) => some (items.map fun item => (readMessage codec item).normalize codec)
  | _ => none

namespace Session

/-- The records of the chains that are not live. -/
def records (s : Session) : List JsonValue := s.branchList.children

/-- The live chain and the recorded ones. -/
def chains (codec : JsonCodec) (s : Session) : Chains (List Message) where
  live := s.messages.map (Message.normalize codec)
  stored := s.records.filterMap (recordChain codec)

/-- Metadata and branches are objects and the list of records is an array or an object, as far as they
are there. -/
structure Shaped (s : Session) : Prop where
  metadata : ∃ ms, s.metadata = .object ms
  branches : ∃ bs, s.branches = .object bs
  list : s.branchList.isContainer = true

end Session

theorem readMessage_messageJson (m : Message) :
    readMessage codec (messageJson codec m) = m.normalize codec := by
  have hjson : encodeMessage codec Faults.none 0 m = some (messageJson codec m) := by
    rw [encodeMessage]
    change (addFields (fun _ => false) MessageKey.checked _).bind _ = _
    rw [addFields_none]
    rfl
  rw [readMessage_encodeMessage hjson]
  exact received_eq_normalize_message_iff.mpr ⟨fun _ _ => rfl, fun _ _ _ =>
    ⟨rfl, fun _ _ => rfl, fun _ => rfl, rfl⟩⟩

theorem map_normalize_map_normalize (msgs : List Message) :
    (msgs.map (Message.normalize codec)).map (Message.normalize codec) =
      msgs.map (Message.normalize codec) := by
  rw [List.map_map]
  exact List.map_congr_left fun m _ => m.normalize_normalize

theorem messages_branchRecord (id createdAt : String) (snapshot : JsonValue) :
    (branchRecord id createdAt snapshot).member "messages" = some snapshot := by
  have hid : JsonValue.sameName "id" "messages" = false := by decide +kernel
  have hcreated : JsonValue.sameName "created_at" "messages" = false := by decide +kernel
  rw [branchRecord, JsonValue.member_object, JsonValue.findMember_pair_of_other hid,
    JsonValue.findMember_pair_of_other hcreated,
    JsonValue.findMember_pair_self]

/-- The record of a chain holds that chain. -/
theorem recordChain_branchRecord (id createdAt : String) (msgs : List Message) :
    recordChain codec (branchRecord id createdAt (messagesJson codec msgs)) =
      some (msgs.map (Message.normalize codec)) := by
  rw [recordChain, messages_branchRecord, messagesJson]
  dsimp only
  rw [List.map_map]
  refine congrArg some (List.map_congr_left fun m _ => ?_)
  rw [Function.comp_apply, readMessage_messageJson, Message.normalize_normalize]

theorem id_branchRecord (id createdAt : String) (snapshot : JsonValue) :
    (branchRecord id createdAt snapshot).member "id" = some (.string id) := by
  rw [branchRecord, JsonValue.member_object,
    JsonValue.findMember_pair_self]

/-! ## Shaped metadata -/

/-- An object survives the printing of the metadata. -/
theorem normalizeMetadata_object (ms : List (String × JsonValue)) :
    normalizeMetadata codec (.object ms) = .object ms := by
  cases ms with
  | nil => exact ite_self _
  | cons m ms => exact if_neg (Nat.not_le.mpr (codec.two_lt_print_object m ms))

theorem Session.normalize_of_object {s : Session} {ms : List (String × JsonValue)}
    (hmetadata : s.metadata = .object ms) (hevents : s.events = []) :
    s.normalize codec = { s with messages := s.messages.map (Message.normalize codec) } := by
  have hnone : normalizeEvents codec s.events = s.events := by
    rw [hevents]
    exact ite_self _
  have hsame : normalizeMetadata codec s.metadata = s.metadata := by
    rw [hmetadata, normalizeMetadata_object]
  rw [Session.normalize, hsame, hnone]

section Shaped

variable {s : Session}

theorem Session.Shaped.normalize (h : s.Shaped) :
    (s.normalize codec).metadata = s.metadata := by
  obtain ⟨ms, hms⟩ := h.metadata
  rw [Session.normalize, hms, normalizeMetadata_object]

/-- Saving and loading keeps the branches of a session. -/
theorem Session.Shaped.branches_normalize (h : s.Shaped) :
    (s.normalize codec).branches = s.branches := by
  rw [Session.branches, h.normalize, Session.branches]

theorem Session.Shaped.branchList_normalize (h : s.Shaped) :
    (s.normalize codec).branchList = s.branchList := by
  rw [Session.branchList, h.branches_normalize, Session.branchList]

theorem Session.Shaped.shaped_normalize (h : s.Shaped) : (s.normalize codec).Shaped := by
  refine ⟨?_, ?_, ?_⟩
  · rw [h.normalize]
    exact h.metadata
  · rw [h.branches_normalize]
    exact h.branches
  · rw [h.branchList_normalize]
    exact h.list

/-- Setting the list of a shaped session gives a shaped session with that list. -/
theorem Session.Shaped.setBranches (h : s.Shaped) {list : JsonValue}
    (hlist : list.isContainer = true) (birth : String) :
    (s.setBranches list birth).Shaped ∧ (s.setBranches list birth).branchList = list := by
  obtain ⟨ms, hms⟩ := h.metadata
  obtain ⟨bs, hbs⟩ := h.branches
  obtain ⟨bs', hput, hfind⟩ := JsonValue.exists_putMember bs "list" list
  have hname : JsonValue.sameName "active_created_at" "list" = false := by decide +kernel
  obtain ⟨ms', hput', hfind'⟩ := JsonValue.exists_putMember ms "branches"
    (((s.branches.putMember "list" list).eraseMember "active_created_at").addMember
      "active_created_at" (.string birth))
  have hmetadata : (s.setBranches list birth).metadata = .object ms' := by
    rw [Session.setBranches, hms]
    exact hput'
  have hbranches : (s.setBranches list birth).branches =
      ((s.branches.putMember "list" list).eraseMember "active_created_at").addMember
        "active_created_at" (.string birth) := by
    rw [Session.branches, hmetadata, JsonValue.member_object, hfind']
    rfl
  have hlist' : (s.setBranches list birth).branchList = list := by
    rw [Session.branchList, hbranches, JsonValue.member_addMember_ne _ hname,
      JsonValue.member_eraseMember_ne _ hname, hbs, hput, JsonValue.member_object, hfind]
    rfl
  refine ⟨⟨⟨ms', hmetadata⟩, ?_, ?_⟩, hlist'⟩
  · rw [hbranches, hbs, hput]
    exact ⟨_, rfl⟩
  · rw [hlist']
    exact hlist

end Shaped

/-! ## Calls in which nothing fails -/

/-- The first reading of the clock past `prev`, of those that are taken. -/
def firstPast (clock : Nat → String) (prev : String) : Nat → Nat → String
  | 0, i => clock i
  | n + 1, i => if clock i ≤ prev then firstPast clock prev n (i + 1) else clock i

theorem readPast_none (clock : Nat → String) (prev : String) (n i : Nat) :
    readPast Faults.none clock prev n i = some (firstPast clock prev n i) := by
  induction n generalizing i with
  | zero => rfl
  | succ n ih =>
    rw [readPast, firstPast]
    split
    · exact ih (i + 1)
    · rfl

/-- The birth of a chain that is born in an operation on `s`. -/
def nextBirth (minted : Minted) (s : Session) : String :=
  firstPast minted.clock (branchActiveCreatedAt s) 16 0

theorem branchNextCreatedAt_none (minted : Minted) (s : Session) :
    branchNextCreatedAt Faults.none minted s = some (nextBirth minted s) :=
  readPast_none minted.clock (branchActiveCreatedAt s) 16 0

/-- The record of the live chain. -/
def liveRecord (codec : JsonCodec) (minted : Minted) (s : Session) (msgs : List Message) :
    JsonValue :=
  branchRecord minted.recordId (branchActiveCreatedAt s) (messagesJson codec msgs)

/-- The session after a fork at the `fi`-th message `m`. -/
def Session.forked (codec : JsonCodec) (minted : Minted) (fi : Nat) (m : Message)
    (newContent : Option String) (s : Session) : Session :=
  { s with messages := s.messages.take fi ++ [m.forkCopy minted newContent] }.setBranches
    (s.branchList.addItem (liveRecord codec minted s (s.messages.set fi (m.tagged minted))))
    (nextBirth minted s)

/-- The birth of the chain of a record. -/
def recordBirth (minted : Minted) (s : Session) (rec : JsonValue) : String :=
  ((rec.member "created_at").bind JsonValue.stringValue).getD (nextBirth minted s)

/-- The session after a switch to the `i`-th record. -/
def Session.switched (codec : JsonCodec) (minted : Minted) (i : Nat) (rec : JsonValue)
    (items : List JsonValue) (s : Session) : Session :=
  { s with messages := items.map (readMessage codec) }.setBranches
    ((s.branchList.addItem (liveRecord codec minted s s.messages)).dropChild i)
    (recordBirth minted s rec)

section FaultFree

variable {minted : Minted} {key : EncryptionKey} {rows rows' : List SessionRow}
  {sessionId : String} {s : Session}

theorem branchListEnsure_none (s : Session) :
    branchListEnsure Faults.none s = some s.branchList := by
  rw [branchListEnsure, Faults.none_apply, Faults.none_apply, Bool.and_false, Bool.and_false]
  rfl

theorem branchRecordSnapshotLive_none (s : Session) (list : JsonValue) :
    branchRecordSnapshotLive codec Faults.none minted s list =
      some (list.addItem (liveRecord codec minted s s.messages)) := by
  rw [branchRecordSnapshotLive, Faults.within_none, messagesToJsonArray_none]
  rfl

theorem branchDoFork_none (s : Session) (fi : Nat) (m : Message) (newContent : Option String) :
    branchDoFork codec Faults.none minted s fi m newContent =
      some (s.forked codec minted fi m newContent) := by
  simp only [branchDoFork, branchListEnsure_none, branchRecordSnapshotLive_none,
    branchNextCreatedAt_none, Faults.none_apply, Bool.and_false, attempt_false,
    Option.bind_eq_bind, Option.bind_some, Option.pure_def]
  rfl

theorem switchBirth_none (s : Session) (rec : JsonValue) :
    switchBirth Faults.none minted s rec = some (recordBirth minted s rec) := by
  rw [switchBirth, recordBirth, branchNextCreatedAt_none]
  cases (rec.member "created_at").bind JsonValue.stringValue <;> rfl

theorem switchTo_none (s : Session) (i : Nat) (rec : JsonValue) (items : List JsonValue) :
    switchTo codec Faults.none minted s i rec (.array items) =
      some (s.switched codec minted i rec items) := by
  have hread : sessionDeserializeMessages codec Faults.none (codec.print (.array items)) =
      some (items.map (readMessage codec)) := by
    rw [sessionDeserializeMessages_none, readMessages, codec.parse_print]
  rw [switchTo, branchRecordSnapshotLive_none, Faults.within_none, hread]
  simp only [switchBirth_none, Option.bind_eq_bind, Option.bind_some, Faults.none_apply,
    attempt_false, Option.pure_def]
  rfl

theorem id_of_loadSessionLocked (h : loadSessionLocked codec Faults.none key rows sessionId =
    some s) : s.id = sessionId := by
  obtain ⟨row, hrow, hread⟩ := exists_row_of_loadSessionLocked h
  rw [id_of_readSessionRow hread]
  exact key_of_findRow hrow

/-- A saved session is stored in its normal form. -/
theorem load_of_saveSessionNolock {s' : Session}
    (h : saveSessionNolock codec Faults.none key rows s' = some rows') (hid : s'.id = sessionId) :
    loadSessionLocked codec Faults.none key rows' sessionId = some (s'.normalize codec) := by
  simp only [saveSessionNolock, Option.bind_eq_bind, Option.bind_eq_some_iff] at h
  obtain ⟨-, -, hsave⟩ := h
  rw [← hid]
  exact loadSession_save hsave

/-- **What a successful fork does to the stored session**, and the message that it answers with. -/
theorem forkBranch_forked {messageId : Option String} {index : Int} {newContent : Option String}
    {answer : ForkResult}
    (hs : loadSessionLocked codec Faults.none key rows sessionId = some s)
    (h : forkBranch codec Faults.none minted key rows sessionId messageId index newContent =
      (some answer, rows')) :
    ∃ fi m, branchFindForkIndex s messageId index = some fi ∧ s.messages[fi]? = some m ∧
      loadSessionLocked codec Faults.none key rows' sessionId =
        some ((s.forked codec minted fi m newContent).normalize codec) ∧
      answer.forkMessage = m.forkCopy minted newContent := by
  rw [forkBranch] at h
  split at h
  · exact absurd (Prod.mk.inj h).1 (by simp)
  · next m rows₁ hsaved =>
    obtain ⟨hanswer, rfl⟩ := Prod.mk.inj h
    simp only [forkSaved, Faults.within_none, hs, branchDoFork_none, Option.bind_eq_bind,
      Option.bind_some, Option.bind_eq_some_iff, Option.pure_def, Option.some_inj,
      Prod.mk.injEq] at hsaved
    obtain ⟨fi, hfi, m', hm, rows₂, hsave, rfl, rfl⟩ := hsaved
    have hid : s.id = sessionId := id_of_loadSessionLocked hs
    refine ⟨fi, m', hfi, hm, load_of_saveSessionNolock hsave hid, ?_⟩
    rw [← Option.some.inj hanswer]

theorem forkBranch_spec {messageId : Option String} {index : Int} {newContent : Option String}
    {answer : ForkResult}
    (hs : loadSessionLocked codec Faults.none key rows sessionId = some s)
    (h : forkBranch codec Faults.none minted key rows sessionId messageId index newContent =
      (some answer, rows')) :
    ∃ fi m, branchFindForkIndex s messageId index = some fi ∧ s.messages[fi]? = some m ∧
      loadSessionLocked codec Faults.none key rows' sessionId =
        some ((s.forked codec minted fi m newContent).normalize codec) := by
  obtain ⟨fi, m, hfi, hm, hload, -⟩ := forkBranch_forked hs h
  exact ⟨fi, m, hfi, hm, hload⟩

/-- **What a successful switch does to the stored session**: nothing, when the record reads like the
live chain, else the exchange of the two. -/
theorem switchBranch_spec {branchId : String}
    (hs : loadSessionLocked codec Faults.none key rows sessionId = some s)
    (h : switchBranch codec Faults.none minted key rows sessionId branchId = (true, rows')) :
    ∃ i rec items, branchRecordFind s.branchList branchId = some i ∧ s.records[i]? = some rec ∧
      rec.member "messages" = some (.array items) ∧
      (messagesJson codec s.messages = .array items ∧ rows' = rows ∨
        loadSessionLocked codec Faults.none key rows' sessionId =
          some ((s.switched codec minted i rec items).normalize codec)) := by
  rw [switchBranch] at h
  split at h
  · exact absurd (Prod.mk.inj h).1 (by simp)
  · next rows₁ hsaved =>
    obtain rfl : rows₁ = rows' := (Prod.mk.inj h).2
    simp only [switchSaved, Faults.within_none, hs, branchListEnsure_none,
      messagesToJsonArray_none, Faults.none_apply, attempt_false, Option.bind_eq_bind,
      Option.bind_some, Option.bind_eq_some_iff, Option.pure_def] at hsaved
    obtain ⟨i, hi, rec, hrec, snapshot, hsnapshot, _, harray, hsaved⟩ := hsaved
    cases snapshot with
    | array items =>
      refine ⟨i, rec, items, hi, hrec, hsnapshot, ?_⟩
      split at hsaved
      · next hsame =>
        exact Or.inl ⟨codec.print_injective hsame, (Option.some.inj hsaved).symm⟩
      · have hid : s.id = sessionId := id_of_loadSessionLocked hs
        rw [switchTo_none, Option.bind_some] at hsaved
        exact Or.inr (load_of_saveSessionNolock hsaved hid)
    | _ => exact absurd harray (by simp [JsonValue.isArray, attempt])

theorem saveSessionNolock_none {s' : Session} (hid : s'.id ≠ "") (hfits : s'.storable codec = true) :
    saveSessionNolock codec Faults.none key rows s' =
      some (putRow SessionRow.id (sessionRow codec key s') rows) := by
  have hnamed : (s'.id == "") = false := beq_eq_false_iff_ne.mpr hid
  rw [saveSessionNolock, Faults.within_none, saveSessionCoreLocked_none, if_pos hfits, hnamed]
  rfl

/-- A fork of a session that fits in its row. -/
theorem exists_forkSaved {messageId : Option String} {index : Int} {newContent : Option String}
    {fi : Nat} {m : Message} (hne : sessionId ≠ "")
    (hs : loadSessionLocked codec Faults.none key rows sessionId = some s)
    (hfi : branchFindForkIndex s messageId index = some fi) (hm : s.messages[fi]? = some m)
    (hfits : (s.forked codec minted fi m newContent).storable codec = true) :
    ∃ rows', forkSaved codec Faults.none minted key rows sessionId messageId index newContent =
        some (m, rows') ∧
      loadSessionLocked codec Faults.none key rows' sessionId =
        some ((s.forked codec minted fi m newContent).normalize codec) := by
  have hid : s.id = sessionId := id_of_loadSessionLocked hs
  have hnamed : (s.forked codec minted fi m newContent).id ≠ "" := hid ▸ hne
  have hsaved := @saveSessionNolock_none _ key rows _ hnamed hfits
  refine ⟨_, ?_, load_of_saveSessionNolock hsaved hid⟩
  simp only [forkSaved, Faults.within_none, hs, hfi, hm, branchDoFork_none, Option.bind_eq_bind,
    Option.bind_some, hsaved, Option.pure_def]

/-- A switch to another chain that fits in the row. -/
theorem exists_switchSaved {branchId : String} {i : Nat} {rec : JsonValue} {items : List JsonValue}
    (hne : sessionId ≠ "")
    (hs : loadSessionLocked codec Faults.none key rows sessionId = some s)
    (hi : branchRecordFind s.branchList branchId = some i) (hrec : s.records[i]? = some rec)
    (hitems : rec.member "messages" = some (.array items))
    (hother : messagesJson codec s.messages ≠ .array items)
    (hfits : (s.switched codec minted i rec items).storable codec = true) :
    ∃ rows', switchSaved codec Faults.none minted key rows sessionId branchId = some rows' ∧
      loadSessionLocked codec Faults.none key rows' sessionId =
        some ((s.switched codec minted i rec items).normalize codec) := by
  have hid : s.id = sessionId := id_of_loadSessionLocked hs
  have hnamed : (s.switched codec minted i rec items).id ≠ "" := hid ▸ hne
  have hsaved := @saveSessionNolock_none _ key rows _ hnamed hfits
  have hrec' : s.branchList.children[i]? = some rec := hrec
  have hprint : codec.print (messagesJson codec s.messages) ≠ codec.print (.array items) :=
    fun h => hother (codec.print_injective h)
  refine ⟨_, ?_, load_of_saveSessionNolock hsaved hid⟩
  simp only [switchSaved, Faults.within_none, hs, branchListEnsure_none, hi, hrec', hitems,
    messagesToJsonArray_none, Faults.none_apply, attempt_false, Option.bind_eq_bind,
    Option.bind_some, JsonValue.isArray, Bool.not_true, if_neg hprint, switchTo_none, hsaved]

/-- A message with a new id, and with a group if it had none. -/
def Message.retagged (minted : Minted) (forkGroupId : String) (m : Message) : Message :=
  { m with
    id := some minted.messageId
    forkGroupId := some (m.forkGroupId.getD forkGroupId) }

end FaultFree

/-! ## What a call does to the chains -/

/-- The chain `b` is `a` with the mark that a fork leaves at its fork point. -/
def ForkMarked (a b : List Message) : Prop :=
  ∃ (minted : Minted) (fi : Nat) (m : Message), a[fi]? = some m ∧ b = a.set fi (m.tagged minted)

theorem normalize_tagged (minted : Minted) (m : Message) :
    (m.tagged minted).normalize codec = (m.normalize codec).tagged minted := rfl

section Chains

variable {minted : Minted} {s : Session}

theorem Session.Shaped.forked (hs : s.Shaped) (fi : Nat) (m : Message)
    (newContent : Option String) :
    (s.forked codec minted fi m newContent).Shaped ∧
      (s.forked codec minted fi m newContent).records =
        s.records ++ [liveRecord codec minted s (s.messages.set fi (m.tagged minted))] := by
  obtain ⟨hchildren, hcontainer⟩ := JsonValue.children_addItem hs.list
    (liveRecord codec minted s (s.messages.set fi (m.tagged minted)))
  have hs' : Session.Shaped { s with
      messages := s.messages.take fi ++ [m.forkCopy minted newContent] } :=
    ⟨hs.metadata, hs.branches, hs.list⟩
  obtain ⟨hshaped, hlist⟩ := hs'.setBranches hcontainer (nextBirth minted s)
  refine ⟨hshaped, ?_⟩
  rw [Session.forked, Session.records, hlist, hchildren]
  rfl

theorem Session.Shaped.switched (hs : s.Shaped) {i : Nat} (hi : i < s.records.length)
    (rec : JsonValue) (items : List JsonValue) :
    (s.switched codec minted i rec items).Shaped ∧
      (s.switched codec minted i rec items).records =
        s.records.eraseIdx i ++ [liveRecord codec minted s s.messages] := by
  obtain ⟨hchildren, hcontainer⟩ := JsonValue.children_addItem hs.list
    (liveRecord codec minted s s.messages)
  obtain ⟨hdrop, hkept⟩ := JsonValue.children_dropChild
    (s.branchList.addItem (liveRecord codec minted s s.messages)) i
  have hs' : Session.Shaped { s with messages := items.map (readMessage codec) } :=
    ⟨hs.metadata, hs.branches, hs.list⟩
  obtain ⟨hshaped, hlist⟩ := hs'.setBranches (hkept.trans hcontainer) (recordBirth minted s rec)
  refine ⟨hshaped, ?_⟩
  rw [Session.switched, Session.records, hlist, hdrop, hchildren]
  exact List.eraseIdx_append_of_lt_length hi _

/-- Saving and loading keeps the chains. -/
theorem Session.Shaped.chains_normalize (hs : s.Shaped) :
    (s.normalize codec).chains codec = s.chains codec := by
  rw [Session.chains, Session.chains, Session.records, Session.records, hs.branchList_normalize]
  exact congrArg₂ Chains.mk (map_normalize_map_normalize s.messages) rfl

/-- **A fork acts on the chains as a fork.** -/
theorem step_forked (hs : s.Shaped) {fi : Nat} {m : Message} (hm : s.messages[fi]? = some m)
    (newContent : Option String) :
    Chains.Step ForkMarked true (s.chains codec)
      ((s.forked codec minted fi m newContent).chains codec) := by
  have hmark : ForkMarked (s.chains codec).live
      ((s.messages.set fi (m.tagged minted)).map (Message.normalize codec)) := by
    refine ⟨minted, fi, m.normalize codec, ?_, ?_⟩
    · rw [Session.chains, List.getElem?_map, hm, Option.map_some]
    · rw [List.map_set, normalize_tagged]
      rfl
  refine Chains.Step.fork hmark ?_
  rw [Session.chains, (hs.forked fi m newContent).2, List.filterMap_append, Session.chains]
  refine congrArg (_ ++ ·) ?_
  rw [List.filterMap_cons, liveRecord, recordChain_branchRecord, List.filterMap_nil]

/-- **A switch exchanges the live chain with the recorded one.** -/
theorem all_switched (hs : s.Shaped) {i : Nat} {rec : JsonValue} {items : List JsonValue}
    (hrec : s.records[i]? = some rec) (hitems : rec.member "messages" = some (.array items)) :
    ((s.switched codec minted i rec items).chains codec).all = (s.chains codec).all := by
  obtain ⟨hi, hget⟩ := List.getElem?_eq_some_iff.mp hrec
  have hchain : recordChain codec rec = some ((items.map (readMessage codec)).map
      (Message.normalize codec)) := by
    rw [recordChain, hitems, List.map_map]
    rfl
  have hperm : s.records.Perm (rec :: s.records.eraseIdx i) := by
    rw [← hget]
    exact (List.getElem_cons_eraseIdx_perm hi).symm
  have hstored : ((s.chains codec).stored : Multiset (List Message)) =
      (items.map (readMessage codec)).map (Message.normalize codec) ::ₘ
        ((s.records.eraseIdx i).filterMap (recordChain codec) : Multiset (List Message)) := by
    rw [Multiset.cons_coe, Multiset.coe_eq_coe]
    refine (hperm.filterMap (recordChain codec)).trans ?_
    rw [List.filterMap_cons, hchain]
  have hlast : (((s.switched codec minted i rec items).chains codec).stored :
      Multiset (List Message)) = (s.chains codec).live ::ₘ
        ((s.records.eraseIdx i).filterMap (recordChain codec) : Multiset (List Message)) := by
    rw [Session.chains, (hs.switched hi rec items).2, List.filterMap_append, List.filterMap_cons,
      liveRecord, recordChain_branchRecord, List.filterMap_nil, Multiset.cons_coe,
      Multiset.coe_eq_coe]
    exact List.perm_append_singleton _ _
  rw [Chains.all, Chains.all, hstored, hlast, Multiset.cons_swap]
  rfl

end Chains

/-! ## Runs of calls -/

/-- A call that changes the live chain. -/
inductive BranchCall where
  | fork (messageId : Option String) (index : Int) (newContent : Option String)
  | switch (branchId : String)

/-- Whether the call is a fork. -/
def BranchCall.isFork : BranchCall → Bool
  | fork .. => true
  | switch _ => false

section Runs

variable (codec) (key : EncryptionKey) (sessionId : String)

/-- Whether a call succeeds, and the rows it leaves. -/
def BranchCall.run (minted : Minted) (rows : List SessionRow) :
    BranchCall → Bool × List SessionRow
  | fork messageId index newContent =>
    let result := forkBranch codec Faults.none minted key rows sessionId messageId index newContent
    (result.1.isSome, result.2)
  | switch branchId => switchBranch codec Faults.none minted key rows sessionId branchId

/-- The rows after a sequence of calls. -/
def runCalls (rows : List SessionRow) (calls : List (Minted × BranchCall)) : List SessionRow :=
  calls.foldl (fun rows call => (call.2.run codec key sessionId call.1 rows).2) rows

end Runs

section Steps

variable {key : EncryptionKey} {sessionId : String} {minted : Minted}
  {rows rows' : List SessionRow} {s : Session}

theorem rows_of_fork_failed {messageId : Option String} {index : Int}
    {newContent : Option String} {fail : Faults BranchSite}
    (hanswer : ∀ m, forkAnswer fail minted m newContent ≠ none)
    (h : forkBranch codec fail minted key rows sessionId messageId index newContent =
      (none, rows')) : rows' = rows := by
  rw [forkBranch] at h
  split at h
  · exact (Prod.mk.inj h).2.symm
  · next m rows₁ _ => exact absurd (Prod.mk.inj h).1 (hanswer m)

theorem rows_of_switch_failed {branchId : String} {fail : Faults BranchSite}
    (h : switchBranch codec fail minted key rows sessionId branchId = (false, rows')) :
    rows' = rows := by
  rw [switchBranch] at h
  split at h
  · exact (Prod.mk.inj h).2.symm
  · exact absurd (Prod.mk.inj h).1 (by simp)

/-- What a call makes of the stored session: nothing, a fork or a switch.  The flag says whether it is
a fork. -/
inductive BranchStep (codec : JsonCodec) (minted : Minted) : Bool → Session → Session → Prop
  | stay {s : Session} : BranchStep codec minted false s s
  | fork {s : Session} {fi : Nat} {m : Message} (hm : s.messages[fi]? = some m)
      (newContent : Option String) :
      BranchStep codec minted true s ((s.forked codec minted fi m newContent).normalize codec)
  | switch {s : Session} {i : Nat} {rec : JsonValue} {items : List JsonValue}
      (hrec : s.records[i]? = some rec) (hitems : rec.member "messages" = some (.array items)) :
      BranchStep codec minted false s ((s.switched codec minted i rec items).normalize codec)

theorem BranchCall.branchStep_run (call : BranchCall) (minted : Minted)
    (hload : loadSessionLocked codec Faults.none key rows sessionId = some s) :
    ∃ s', loadSessionLocked codec Faults.none key
        (call.run codec key sessionId minted rows).2 sessionId = some s' ∧
      BranchStep codec minted ((call.run codec key sessionId minted rows).1 && call.isFork) s s' := by
  cases call with
  | fork messageId index newContent =>
    rw [BranchCall.run, BranchCall.isFork, Bool.and_true]
    cases hresult : forkBranch codec Faults.none minted key rows sessionId messageId index
        newContent with
    | mk answer rows' =>
      cases answer with
      | none =>
        obtain rfl := rows_of_fork_failed (fun m => by simp [forkAnswer]) hresult
        exact ⟨s, hload, BranchStep.stay⟩
      | some answer =>
        obtain ⟨fi, m, -, hm, hload'⟩ := forkBranch_spec hload hresult
        exact ⟨_, hload', BranchStep.fork hm newContent⟩
  | switch branchId =>
    rw [BranchCall.run, BranchCall.isFork, Bool.and_false]
    cases hresult : switchBranch codec Faults.none minted key rows sessionId branchId with
    | mk success rows' =>
      cases success with
      | false =>
        obtain rfl := rows_of_switch_failed hresult
        exact ⟨s, hload, BranchStep.stay⟩
      | true =>
        obtain ⟨i, rec, items, -, hrec, hitems, ⟨-, rfl⟩ | hload'⟩ :=
          switchBranch_spec hload hresult
        · exact ⟨s, hload, BranchStep.stay⟩
        · exact ⟨_, hload', BranchStep.switch hrec hitems⟩

/-- **The rule of runs**: what holds of the stored session before the calls and is kept by each of
them, holds after them. -/
theorem exists_load_runCalls (P : List (Minted × BranchCall) → Session → Prop) (h₀ : P [] s)
    (hstep : ∀ calls minted call forked s s', P calls s → BranchStep codec minted forked s s' →
      P (calls ++ [(minted, call)]) s')
    (hload : loadSessionLocked codec Faults.none key rows sessionId = some s)
    (calls : List (Minted × BranchCall)) :
    ∃ s', loadSessionLocked codec Faults.none key (runCalls codec key sessionId rows calls)
      sessionId = some s' ∧ P calls s' := by
  induction calls using List.reverseRecOn with
  | nil => exact ⟨s, hload, h₀⟩
  | append_singleton calls call ih =>
    obtain ⟨s₁, hload₁, h₁⟩ := ih
    obtain ⟨minted, call⟩ := call
    obtain ⟨s₂, hload₂, h₂⟩ := call.branchStep_run minted hload₁
    refine ⟨s₂, ?_, hstep calls minted call _ s₁ s₂ h₁ h₂⟩
    rw [runCalls, List.foldl_append]
    exact hload₂

/-- **A call acts on the chains of the stored session** as a fork when it is a successful fork, and
as an exchange otherwise. -/
theorem BranchStep.step {forked : Bool} {s' : Session} (h : BranchStep codec minted forked s s')
    (hs : s.Shaped) :
    s'.Shaped ∧ Chains.Step ForkMarked forked (s.chains codec) (s'.chains codec) := by
  cases h with
  | stay => exact ⟨hs, Chains.Step.exchange rfl⟩
  | @fork _ fi m hm newContent =>
    have hshaped : (s.forked codec minted fi m newContent).Shaped := (hs.forked fi m newContent).1
    refine ⟨hshaped.shaped_normalize, ?_⟩
    rw [hshaped.chains_normalize]
    exact step_forked hs hm newContent
  | @switch _ i rec items hrec hitems =>
    obtain ⟨hi, -⟩ := List.getElem?_eq_some_iff.mp hrec
    have hshaped : (s.switched codec minted i rec items).Shaped := (hs.switched hi rec items).1
    refine ⟨hshaped.shaped_normalize, Chains.Step.exchange ?_⟩
    rw [hshaped.chains_normalize]
    exact all_switched hs hrec hitems

/-- **A sequence of calls acts on the chains as a run.** -/
theorem run_runCalls (calls : List (Minted × BranchCall))
    (hload : loadSessionLocked codec Faults.none key rows sessionId = some s) (hs : s.Shaped) :
    ∃ s', loadSessionLocked codec Faults.none key (runCalls codec key sessionId rows calls)
        sessionId = some s' ∧ s'.Shaped ∧
      ∃ n, Chains.Run ForkMarked (s.chains codec) n (s'.chains codec) := by
  refine exists_load_runCalls (fun _ s' => s'.Shaped ∧
    ∃ n, Chains.Run ForkMarked (s.chains codec) n (s'.chains codec)) ⟨hs, 0, Chains.Run.refl⟩ ?_
    hload calls
  rintro _ minted _ forked s₁ s₂ ⟨hs₁, n, hrun⟩ h
  obtain ⟨hs₂, hstep⟩ := h.step hs₁
  exact ⟨hs₂, _, hrun.step hstep⟩

end Steps

/-! ## The law of branching -/

/-- What a successful fork makes of the stored session `s`: the live chain is recorded as it was, with
the fork group at its fork point, and the new one starts like it up to the copy of that message. -/
def ForkEffect (codec : JsonCodec) (minted : Minted) (messageId : Option String) (index : Int)
    (newContent : Option String) (s s' : Session) : Prop :=
  ∃ fi m rec, branchFindForkIndex s messageId index = some fi ∧ s.messages[fi]? = some m ∧
    s'.messages =
      (s.messages.take fi ++ [m.forkCopy minted newContent]).map (Message.normalize codec) ∧
    s'.records = s.records ++ [rec] ∧
    recordChain codec rec =
      some ((s.messages.set fi (m.tagged minted)).map (Message.normalize codec))

/-- No record has the minted id. -/
def FreshRecord (minted : Minted) (s : Session) : Prop :=
  ∀ rec ∈ s.records, (rec.member "id").bind JsonValue.stringValue ≠ some minted.recordId

section Law

variable (codec : JsonCodec) (key : EncryptionKey) (sessionId : String)

/-- What a successful switch makes of the stored session `s`: the chains stay the same, and switching
to the record that was made of the live chain brings it back. -/
def SwitchEffect (minted : Minted) (s : Session) (rows' : List SessionRow) : Prop :=
  ∃ s', loadSessionLocked codec Faults.none key rows' sessionId = some s' ∧
    (s'.chains codec).all = (s.chains codec).all ∧
    (FreshRecord minted s → ∀ minted' rows'',
      switchBranch codec Faults.none minted' key rows' sessionId minted.recordId = (true, rows'') →
        ∃ s'', loadSessionLocked codec Faults.none key rows'' sessionId = some s'' ∧
          s''.messages = s.messages.map (Message.normalize codec) ∧
          (s''.chains codec).all = (s.chains codec).all)

/-- **The law of branching** for a stored session: after any sequence of calls no chain is lost, a
successful fork adds one chain and leaves the others alone, and a successful switch only exchanges
which chain is live. -/
def ChainsKept (rows : List SessionRow) : Prop :=
  ∀ (calls : List (Minted × BranchCall)) (s₀ s : Session),
    loadSessionLocked codec Faults.none key rows sessionId = some s₀ →
    loadSessionLocked codec Faults.none key (runCalls codec key sessionId rows calls) sessionId =
      some s →
    (∃ n, Chains.Run ForkMarked (s₀.chains codec) n (s.chains codec)) ∧
    (∀ minted messageId index newContent answer rows',
      forkBranch codec Faults.none minted key (runCalls codec key sessionId rows calls) sessionId
        messageId index newContent = (some answer, rows') →
      ∃ s', loadSessionLocked codec Faults.none key rows' sessionId = some s' ∧
        ForkEffect codec minted messageId index newContent s s') ∧
    ∀ minted branchId rows',
      switchBranch codec Faults.none minted key (runCalls codec key sessionId rows calls) sessionId
        branchId = (true, rows') →
      SwitchEffect codec key sessionId minted s rows'

end Law

section Law

variable {key : EncryptionKey} {sessionId : String} {minted : Minted}
  {rows rows' : List SessionRow} {s : Session}

/-- Reading the JSON of messages gives their normal forms. -/
theorem map_readMessage_of_messagesJson {msgs : List Message} {items : List JsonValue}
    (h : messagesJson codec msgs = .array items) :
    items.map (readMessage codec) = msgs.map (Message.normalize codec) := by
  rw [← JsonValue.array.inj h, List.map_map]
  exact List.map_congr_left fun m _ => readMessage_messageJson m

theorem forkEffect_of_forkBranch {messageId : Option String} {index : Int}
    {newContent : Option String} {answer : ForkResult}
    (hload : loadSessionLocked codec Faults.none key rows sessionId = some s) (hs : s.Shaped)
    (h : forkBranch codec Faults.none minted key rows sessionId messageId index newContent =
      (some answer, rows')) :
    ∃ s', loadSessionLocked codec Faults.none key rows' sessionId = some s' ∧
      ForkEffect codec minted messageId index newContent s s' := by
  obtain ⟨fi, m, hfi, hm, hload'⟩ := forkBranch_spec hload h
  obtain ⟨hshaped, hrecords⟩ : (s.forked codec minted fi m newContent).Shaped ∧ _ :=
    hs.forked fi m newContent
  refine ⟨_, hload', fi, m, liveRecord codec minted s (s.messages.set fi (m.tagged minted)), hfi, hm,
    rfl, ?_, recordChain_branchRecord _ _ _⟩
  rw [Session.records, hshaped.branchList_normalize]
  exact hrecords

/-- The record of the live chain is the one that is found under a fresh id. -/
theorem eq_liveRecord_of_find {s' : Session} {i i' : Nat} {rec : JsonValue} {msgs : List Message}
    (hfresh : FreshRecord minted s)
    (hrecords : s'.records = s.records.eraseIdx i ++ [liveRecord codec minted s msgs])
    (hfind : branchRecordFind s'.branchList minted.recordId = some i')
    (hrec : s'.records[i']? = some rec) : rec = liveRecord codec minted s msgs := by
  obtain ⟨hi', hid, -⟩ := List.findIdx?_eq_some_iff_getElem.mp hfind
  obtain ⟨hlt, hget⟩ := List.getElem?_eq_some_iff.mp hrec
  have hmem : rec ∈ s.records.eraseIdx i ++ [liveRecord codec minted s msgs] := by
    rw [← hrecords, ← hget]
    exact List.getElem_mem hlt
  rw [List.mem_append, List.mem_singleton] at hmem
  rcases hmem with hmem | hmem
  · have hid' : ((rec.member "id").bind JsonValue.stringValue == some minted.recordId) = true := by
      rw [← hget]
      exact hid
    exact absurd (beq_iff_eq.mp hid') (hfresh rec (List.mem_of_mem_eraseIdx hmem))
  · exact hmem

theorem switchEffect_of_switchBranch {branchId : String}
    (hload : loadSessionLocked codec Faults.none key rows sessionId = some s) (hs : s.Shaped)
    (h : switchBranch codec Faults.none minted key rows sessionId branchId = (true, rows')) :
    SwitchEffect codec key sessionId minted s rows' := by
  obtain ⟨i, rec, items, -, hrec, hitems, hcase⟩ := switchBranch_spec hload h
  rcases hcase with ⟨-, rfl⟩ | hload'
  · -- nothing was recorded, so there is no record of the minted id
    refine ⟨s, hload, rfl, fun hfresh minted' rows'' hback => ?_⟩
    obtain ⟨i', rec', -, hfind, -⟩ := switchBranch_spec hload hback
    obtain ⟨hi', hid, -⟩ := List.findIdx?_eq_some_iff_getElem.mp hfind
    exact absurd (beq_iff_eq.mp hid) (hfresh _ (List.getElem_mem hi'))
  · obtain ⟨hi, -⟩ := List.getElem?_eq_some_iff.mp hrec
    obtain ⟨hshaped, hrecords⟩ : (s.switched codec minted i rec items).Shaped ∧ _ :=
      hs.switched hi rec items
    have hall : ((s.switched codec minted i rec items).chains codec).all = (s.chains codec).all :=
      all_switched hs hrec hitems
    have hchains : ((s.switched codec minted i rec items).normalize codec).chains codec =
        (s.switched codec minted i rec items).chains codec := hshaped.chains_normalize
    refine ⟨_, hload', ?_, fun hfresh minted' rows'' hback => ?_⟩
    · rw [hchains]
      exact hall
    · have hrecords' : ((s.switched codec minted i rec items).normalize codec).records =
          s.records.eraseIdx i ++ [liveRecord codec minted s s.messages] := by
        rw [Session.records, hshaped.branchList_normalize]
        exact hrecords
      obtain ⟨i', rec', items', hfind, hrec', hitems', hcase'⟩ := switchBranch_spec hload' hback
      obtain rfl := eq_liveRecord_of_find hfresh hrecords' hfind hrec'
      have hjson : messagesJson codec s.messages = .array items' :=
        Option.some.inj ((messages_branchRecord _ _ _).symm.trans hitems')
      have hitems : items'.map (readMessage codec) = s.messages.map (Message.normalize codec) :=
        map_readMessage_of_messagesJson hjson
      rcases hcase' with ⟨hsame, rfl⟩ | hload''
      · refine ⟨_, hload', ?_, ?_⟩
        · rw [← hitems, map_readMessage_of_messagesJson hsame]
          exact (map_normalize_map_normalize _).symm
        · rw [hchains]
          exact hall
      · obtain ⟨hi', -⟩ := List.getElem?_eq_some_iff.mp hrec'
        have hshaped' : ((s.switched codec minted i rec items).normalize codec).Shaped :=
          hshaped.shaped_normalize
        obtain ⟨hshaped'', -⟩ : (((s.switched codec minted i rec items).normalize codec).switched
            codec minted' i' (liveRecord codec minted s s.messages) items').Shaped ∧ _ :=
          hshaped'.switched hi' _ items'
        refine ⟨_, hload'', ?_, ?_⟩
        · change (items'.map (readMessage codec)).map (Message.normalize codec) = _
          rw [hitems, map_normalize_map_normalize]
        · rw [hshaped''.chains_normalize, all_switched hshaped' hrec' hitems', hchains]
          exact hall

/-- **Branching keeps the chains** of a session with shaped metadata, whatever the calls. -/
theorem chainsKept_of_shaped (hload : loadSessionLocked codec Faults.none key rows sessionId =
    some s) (hs : s.Shaped) : ChainsKept codec key sessionId rows := by
  intro calls s₀ s₁ hload₀ hload₁
  obtain rfl : s = s₀ := Option.some.inj (hload.symm.trans hload₀)
  obtain ⟨s₁', hload₁', hs₁, hrun⟩ := run_runCalls calls hload hs
  obtain rfl : s₁' = s₁ := Option.some.inj (hload₁'.symm.trans hload₁)
  refine ⟨hrun, ?_, ?_⟩
  · intro minted messageId index newContent answer rows' h
    exact forkEffect_of_forkBranch hload₁ hs₁ h
  · intro minted branchId rows' h
    exact switchEffect_of_switchBranch hload₁ hs₁ h

/-- A fork after which no record is there has lost a chain. -/
theorem not_chainsKept_of_lost {messageId : Option String} {index : Int}
    {newContent : Option String}
    (hload : loadSessionLocked codec Faults.none key rows sessionId = some s)
    (hsome : (forkBranch codec Faults.none minted key rows sessionId messageId index
      newContent).1.isSome = true)
    (hlost : (loadSessionLocked codec Faults.none key (forkBranch codec Faults.none minted key rows
      sessionId messageId index newContent).2 sessionId).map (fun s => s.records.length) = some 0) :
    ¬ ChainsKept codec key sessionId rows := by
  intro hkept
  obtain ⟨answer, hanswer⟩ := Option.isSome_iff_exists.mp hsome
  obtain ⟨-, hfork, -⟩ := hkept [] s s hload hload
  obtain ⟨s', hload', _, _, rec, -, -, -, hrecords, -⟩ :=
    hfork minted messageId index newContent answer _ (Prod.ext hanswer rfl)
  have hload'' : loadSessionLocked codec Faults.none key (forkBranch codec Faults.none minted key
      rows sessionId messageId index newContent).2 sessionId = some s' := hload'
  rw [hload'', Option.map_some, hrecords, List.length_append] at hlost
  exact absurd (Option.some.inj hlost) (by simp)

end Law

/-! ## Sessions that fit in a row -/

/-- A short text is stored. -/
theorem columnFits_print {v : JsonValue} (h : (JsonText.printValue v).length ≤ 1000000) :
    columnFits (textCodec.print v) = true := by
  have hlow := JsonText.length_le_utf8ByteSize (JsonText.printValue v)
  have hhigh := JsonText.utf8ByteSize_ofList_le (JsonText.printValue v)
  have hpos := JsonText.length_printValue_pos v
  rw [columnFits, decide_eq_true_eq]
  constructor
  · intro hempty
    have hzero : (textCodec.print v).utf8ByteSize = 0 := by
      rw [hempty]
      rfl
    have hsame : textCodec.print v = String.ofList (JsonText.printValue v) := rfl
    rw [hsame] at hzero
    omega
  · show (String.ofList (JsonText.printValue v)).utf8ByteSize ≤ intMax
    have hmax : 4 * 1000000 ≤ intMax := by decide
    omega

theorem storable_of_length {s : Session}
    (hmessages : (JsonText.printValue (messagesJson textCodec s.messages)).length ≤ 1000000)
    (hmetadata : (JsonText.printValue s.metadata).length ≤ 1000000)
    (hevents : (JsonText.printValue (.array s.events)).length ≤ 1000000) :
    s.storable textCodec = true := by
  have hcolumn : ∀ (empty : String) (v : JsonValue), columnFits empty = true →
      (JsonText.printValue v).length ≤ 1000000 →
      columnFits (if (textCodec.print v).utf8ByteSize ≤ 2 then empty else textCodec.print v) =
        true := by
    intro empty v hempty hv
    split
    · exact hempty
    · exact columnFits_print hv
  rw [Session.storable, Bool.and_eq_true, Bool.and_eq_true]
  exact ⟨⟨columnFits_print hmessages, hcolumn _ _ (by decide) hmetadata⟩,
    hcolumn _ _ (by decide) hevents⟩

/-! ## An example -/

/-- A session with one message and the given metadata. -/
def helloSession (metadata : JsonValue) : Session where
  id := "session_1"
  title := ""
  titleGenerationAttempted := 0
  createdAt := "2024-01-01"
  messages := [{ role := some "user", content := some "hello", id := some "message_1" }]
  metadata
  events := []

/-- The message `hello` under an id. -/
def helloTagged (id : String) (forkGroupId : Option String) : Message :=
  { role := some "user", content := some "hello", id := some id, forkGroupId }

def helloKey : EncryptionKey := ⟨"password", [1, 7]⟩

/-- The table with that session. -/
def helloRows (metadata : JsonValue) : List SessionRow :=
  [sessionRow textCodec helloKey (helloSession metadata)]

theorem load_helloRows (metadata : JsonValue) :
    loadSessionLocked textCodec Faults.none helloKey (helloRows metadata) "session_1" =
      some ((helloSession metadata).normalize textCodec) := by
  have hid : (sessionRow textCodec helloKey (helloSession metadata)).id = "session_1" := rfl
  rw [loadSessionLocked_none, helloRows, findRow_cons_of_eq hid, Option.bind_some,
    readSessionRow_sessionRow]

theorem shaped_helloSession : (helloSession (.object [])).Shaped :=
  ⟨⟨[], rfl⟩, ⟨[], rfl⟩, rfl⟩

/-- The chains of a new session are kept. -/
theorem chainsKept_newSession :
    ChainsKept textCodec helloKey "session_1" (helloRows (.object [])) :=
  chainsKept_of_shaped (load_helloRows (.object [])) shaped_helloSession.shaped_normalize

/-- A first fork. -/
def firstFork : Minted where
  messageId := "message_2"
  groupId := "group_1"
  recordId := "branch_1"
  clock _ := "2024-01-02"

/-- Under metadata that is a string the fork succeeds and records nothing. -/
theorem not_chainsKept_textMetadata :
    ¬ ∀ (codec : JsonCodec) (key : EncryptionKey) (sessionId : String) (rows : List SessionRow),
        ChainsKept codec key sessionId rows := by
  intro h
  let s := (helloSession (.string "abc")).normalize textCodec
  have hload : loadSessionLocked textCodec Faults.none helloKey (helloRows (.string "abc"))
      "session_1" = some s := load_helloRows (.string "abc")
  have hnamed : ("session_1" : String) ≠ "" := by decide
  have hfits : (s.forked textCodec firstFork 0 (helloTagged "message_1" none) none).storable
      textCodec = true :=
    storable_of_length (by decide +kernel) (by decide +kernel) (by decide +kernel)
  have hfi : branchFindForkIndex s none 0 = some 0 := rfl
  obtain ⟨rows', hsaved, hload'⟩ := exists_forkSaved hnamed hload hfi rfl hfits
  have hsome : (forkBranch textCodec Faults.none firstFork helloKey (helloRows (.string "abc"))
      "session_1" none 0 none).1.isSome = true := by
    rw [forkBranch, hsaved]
    rfl
  have hlost : (loadSessionLocked textCodec Faults.none helloKey
      (forkBranch textCodec Faults.none firstFork helloKey (helloRows (.string "abc"))
        "session_1" none 0 none).2 "session_1").map (fun s => s.records.length) = some 0 := by
    rw [forkBranch, hsaved]
    dsimp only
    rw [hload', Option.map_some]
    decide +kernel
  exact not_chainsKept_of_lost (load_helloRows (.string "abc")) hsome hlost
    (h textCodec helloKey "session_1" (helloRows (.string "abc")))

end EchoAi
