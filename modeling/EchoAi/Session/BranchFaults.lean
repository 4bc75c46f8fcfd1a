import EchoAi.Session.BranchChains

/-!
# Branch operations under failures

A fork, a switch or a tag loads the session, works on the copy and saves it.  A failure that is looked
at makes it give up; the others drop the tool calls of a message when it is loaded, or a part of a
message when it is written.

* `ComesThrough`: nothing of a list of messages is lost when it is loaded and written.
* `exists_of_forkSaved`, `exists_of_switchSaved`, `exists_of_tagSaved`: what an operation stores under
  any failures.
-/

namespace EchoAi

variable {codec : JsonCodec}

/-! ## Messages that come through -/

/-- Nothing of the messages is lost when they are loaded and written. -/
structure ComesThrough (codec : JsonCodec) (load : Faults DecodeSite) (write : Faults EncodeSite)
    (msgs : List Message) : Prop where
  calls : ∀ i m, msgs[i]? = some m → m.toolCalls ≠ [] → load (.toolCalls i) = false
  written : Intact codec write msgs

/-- **Messages are read as they were exactly when they come through.** -/
theorem received_loaded_messages_iff {load : Faults DecodeSite} {write : Faults EncodeSite}
    {msgs : List Message} :
    (msgs.mapIdx (Message.loaded load)).mapIdx (Message.received codec write) =
      msgs.map (Message.normalize codec) ↔ ComesThrough codec load write msgs := by
  constructor
  · intro h
    have hload : ∀ i m, msgs[i]? = some m → m.toolCalls ≠ [] → load (.toolCalls i) = false := by
      intro i m hm hcalls
      rw [Bool.eq_false_iff]
      intro hfail
      have hi := congrArg (fun l => l[i]?) h
      simp only [List.getElem?_mapIdx, List.getElem?_map, hm, Option.map_some,
        Option.some_inj] at hi
      have hnil := congrArg Message.toolCalls hi
      rw [toolCalls_received_of_lost hfail] at hnil
      exact hcalls (List.map_eq_nil_iff.mp hnil.symm)
    have hself : msgs.mapIdx (Message.loaded load) = msgs :=
      mapIdx_eq_self_iff.mpr fun i m hm => loaded_eq_self_iff.mpr (hload i m hm)
    rw [hself] at h
    exact ⟨hload, received_eq_normalize_iff.mp h⟩
  · intro h
    have hself : msgs.mapIdx (Message.loaded load) = msgs :=
      mapIdx_eq_self_iff.mpr fun i m hm => loaded_eq_self_iff.mpr (h.calls i m hm)
    rw [hself, received_eq_normalize_iff.mpr h.written]

/-- A change of a message that leaves its calls alone commutes with a load. -/
theorem set_mapIdx_loaded (load : Faults DecodeSite) (msgs : List Message) (i : Nat) (m : Message) :
    (msgs.mapIdx (Message.loaded load)).set i (m.loaded load i) =
      (msgs.set i m).mapIdx (Message.loaded load) := by
  refine List.ext_getElem? fun j => ?_
  rw [List.getElem?_set, List.getElem?_mapIdx, List.getElem?_mapIdx, List.getElem?_set,
    List.length_mapIdx]
  by_cases hij : i = j
  · subst hij
    rw [if_pos rfl, if_pos rfl]
    split <;> rfl
  · rw [if_neg hij, if_neg hij]

theorem take_mapIdx_loaded (load : Faults DecodeSite) (msgs : List Message) {i : Nat}
    (hi : i ≤ msgs.length) (m : Message) :
    (msgs.mapIdx (Message.loaded load)).take i ++ [m.loaded load i] =
      (msgs.take i ++ [m]).mapIdx (Message.loaded load) := by
  refine List.ext_getElem? fun j => ?_
  have hlength : ((msgs.mapIdx (Message.loaded load)).take i).length = (msgs.take i).length := by
    rw [List.length_take, List.length_take, List.length_mapIdx]
  rw [List.getElem?_mapIdx]
  by_cases hj : j < (msgs.take i).length
  · rw [List.getElem?_append_left (hlength ▸ hj), List.getElem?_append_left hj, List.getElem?_take,
      List.getElem?_take, List.getElem?_mapIdx]
    split <;> rfl
  · rw [List.getElem?_append_right (hlength ▸ Nat.not_lt.mp hj),
      List.getElem?_append_right (Nat.not_lt.mp hj), hlength]
    rw [List.length_take, Nat.min_eq_left hi] at hj ⊢
    by_cases hij : j = i
    · subst hij
      rw [Nat.sub_self]
      rfl
    · rw [List.getElem?_singleton, List.getElem?_singleton, if_neg (by omega), if_neg (by omega)]
      rfl

/-! ## Operations that fail -/

section Failing

variable {fail : Faults BranchSite} {minted : Minted} {key : EncryptionKey}
  {rows rows' : List SessionRow} {sessionId : String} {s : Session}

theorem eq_of_branchListEnsure {l : JsonValue} (h : branchListEnsure fail s = some l) :
    l = s.branchList := by
  simp only [branchListEnsure, Option.bind_eq_bind, Option.bind_eq_some_iff, Option.pure_def,
    Option.some_inj] at h
  obtain ⟨-, -, -, -, rfl⟩ := h
  rfl

theorem abortsOr_readPast (clock : Nat → String) (prev : String) (n i : Nat) :
    AbortsOr (readPast fail clock prev n i) (some (firstPast clock prev n i)) := by
  induction n generalizing i with
  | zero => exact AbortsOr.refl _
  | succ n ih =>
    rw [readPast, firstPast]
    split
    · exact AbortsOr.attempt_bind _ (ih (i + 1))
    · exact AbortsOr.refl _

theorem abortsOr_branchNextCreatedAt :
    AbortsOr (branchNextCreatedAt fail minted s) (some (nextBirth minted s)) :=
  AbortsOr.attempt_bind _ (AbortsOr.attempt_bind _
    (abortsOr_readPast minted.clock (branchActiveCreatedAt s) 16 0))

theorem eq_of_branchNextCreatedAt {now : String} (h : branchNextCreatedAt fail minted s = some now) :
    now = nextBirth minted s :=
  (Option.some.inj (abortsOr_branchNextCreatedAt.eq_some h)).symm

/-- A record of the live chain that was made holds what was written of the chain. -/
theorem exists_of_branchRecordSnapshotLive {list list' : JsonValue}
    (h : branchRecordSnapshotLive codec fail minted s list = some list') :
    ∃ items, list' = list.addItem
        (branchRecord minted.recordId (branchActiveCreatedAt s) (.array items)) ∧
      items.map (readMessage codec) =
        s.messages.mapIdx (Message.received codec (fail.within .snapshot)) := by
  simp only [branchRecordSnapshotLive, branchRecordCreate, Option.bind_eq_bind,
    Option.bind_eq_some_iff, Option.pure_def, Option.some_inj] at h
  obtain ⟨-, -, snapshot, hsnapshot, rec, ⟨-, -, -, -, -, -, -, -, rfl⟩, -, -, rfl⟩ := h
  obtain ⟨items, rfl, hread⟩ := exists_items_of_messagesToJsonArray hsnapshot
  exact ⟨items, rfl, hread⟩

theorem exists_loaded_of_loadSessionLocked {fail : Faults LoadSite}
    (h : loadSessionLocked codec fail key rows sessionId = some s) :
    ∃ s₀, loadSessionLocked codec Faults.none key rows sessionId = some s₀ ∧ s = s₀.loaded fail := by
  obtain ⟨row, hrow, hread⟩ := exists_row_of_loadSessionLocked h
  obtain ⟨s₀, hread₀, hs⟩ := exists_loaded_of_readSessionRow hread
  refine ⟨s₀, ?_, hs⟩
  rw [loadSessionLocked_none, hrow, Option.bind_some, hread₀]

theorem load_of_saveSessionNolock_failing {s' : Session}
    (h : saveSessionNolock codec fail key rows s' = some rows') (hid : s'.id = sessionId) :
    loadSessionLocked codec Faults.none key rows' sessionId =
      some (s'.received codec (fail.within .save)) := by
  simp only [saveSessionNolock, Option.bind_eq_bind, Option.bind_eq_some_iff] at h
  obtain ⟨-, -, hsave⟩ := h
  obtain ⟨row, rfl, hrow, hread⟩ := exists_received_of_saveSessionCoreLocked hsave
  have hfind : findRow SessionRow.id sessionId (putRow SessionRow.id row rows) = some row := by
    rw [← hid, ← hrow]
    exact findRow_putRow_self row rows
  rw [loadSessionLocked_none, hfind, Option.bind_some, hread]

theorem branchFindForkIndex_loaded (fail : Faults LoadSite) (s : Session)
    (messageId : Option String) (index : Int) :
    branchFindForkIndex (s.loaded fail) messageId index = branchFindForkIndex s messageId index := by
  have hids : (s.loaded fail).messages.map Message.id = s.messages.map Message.id := by
    refine List.ext_getElem? fun i => ?_
    rw [Session.loaded, List.getElem?_map, List.getElem?_map, List.getElem?_mapIdx, Option.map_map]
    refine Option.map_congr fun m _ => ?_
    rw [Function.comp_apply, Message.loaded]
    split <;> rfl
  have hfind : ∀ (msgs : List Message) (id : String), msgs.findIdx? (fun m => m.id == some id) =
      (msgs.map Message.id).findIdx? (fun id' => id' == some id) := by
    intro msgs id
    rw [List.findIdx?_map]
    rfl
  have hlength : (s.loaded fail).messages.length = s.messages.length := List.length_mapIdx
  rw [branchFindForkIndex, branchFindForkIndex, hlength]
  cases messageId with
  | none => rfl
  | some id => rw [Option.bind_some, Option.bind_some, hfind, hfind, hids]

theorem loaded_tagged (load : Faults DecodeSite) (i : Nat) (m : Message) :
    (m.tagged minted).loaded load i = (m.loaded load i).tagged minted := by
  rw [Message.loaded, Message.loaded]
  split <;> rfl

theorem loaded_forkCopy (load : Faults DecodeSite) (i : Nat) (newContent : Option String)
    (m : Message) :
    (m.forkCopy minted newContent).loaded load i = (m.loaded load i).forkCopy minted newContent := by
  rw [Message.loaded, Message.loaded]
  split <;> rfl

/-- The session that goes on with other messages after its live chain was recorded as `items`; `drop`
is what happens to the list of records then. -/
def Session.wentOn (minted : Minted) (drop : JsonValue → JsonValue) (messages : List Message)
    (items : List JsonValue) (birth : String) (s : Session) : Session :=
  { s with messages }.setBranches
    (drop (s.branchList.addItem
      (branchRecord minted.recordId (branchActiveCreatedAt s) (.array items)))) birth

/-- The load of a failing operation, as far as messages go. -/
def callsLost (fail : Faults BranchSite) : Faults DecodeSite := fun site =>
  fail (.load (.messages site))

/-- **A fork that is saved** stores what came through of the new live chain and of the record. -/
theorem exists_of_forkSaved {messageId : Option String} {index : Int} {newContent : Option String}
    {m' : Message}
    (h : forkSaved codec fail minted key rows sessionId messageId index newContent =
      some (m', rows')) :
    ∃ s fi m items, loadSessionLocked codec Faults.none key rows sessionId = some s ∧
      branchFindForkIndex s messageId index = some fi ∧ s.messages[fi]? = some m ∧
      items.map (readMessage codec) =
        ((s.messages.set fi (m.tagged minted)).mapIdx (Message.loaded (callsLost fail))).mapIdx
          (Message.received codec (fail.within .snapshot)) ∧
      loadSessionLocked codec Faults.none key rows' sessionId =
        some ((s.wentOn minted id
          ((s.messages.take fi ++ [m.forkCopy minted newContent]).mapIdx
            (Message.loaded (callsLost fail))) items (nextBirth minted s)).received codec
              (fail.within .save)) := by
  simp only [forkSaved, Option.bind_eq_bind, Option.bind_eq_some_iff, Option.pure_def,
    Option.some_inj, Prod.mk.injEq] at h
  obtain ⟨s₁, hload, fi, hfi, m₁, hm₁, s', hfork, rows₁, hsave, rfl, rfl⟩ := h
  obtain ⟨s, hload₀, rfl⟩ := exists_loaded_of_loadSessionLocked hload
  rw [branchFindForkIndex_loaded] at hfi
  rw [Session.loaded, List.getElem?_mapIdx, Option.map_eq_some_iff] at hm₁
  obtain ⟨m, hm, rfl⟩ := hm₁
  simp only [branchDoFork, Option.bind_eq_bind, Option.bind_eq_some_iff, Option.pure_def,
    Option.some_inj] at hfork
  obtain ⟨list, hlist, -, -, -, -, -, -, -, -, -, -, -, -, -, -, -, -, list', hlist', now, hnow, -, -,
    rfl⟩ := hfork
  obtain rfl := eq_of_branchListEnsure hlist
  obtain rfl := eq_of_branchNextCreatedAt hnow
  obtain ⟨items, rfl, hitems⟩ := exists_of_branchRecordSnapshotLive hlist'
  have hfi' : fi ≤ s.messages.length := (List.getElem?_eq_some_iff.mp hm).1.le
  refine ⟨s, fi, m, items, hload₀, hfi, hm, ?_, ?_⟩
  · rw [hitems, ← set_mapIdx_loaded, loaded_tagged]
    rfl
  · have hid : s.id = sessionId := id_of_loadSessionLocked hload₀
    rw [load_of_saveSessionNolock_failing hsave hid, ← take_mapIdx_loaded _ _ hfi', loaded_forkCopy]
    rfl

theorem eq_of_switchBirth {rec : JsonValue} {birth : String}
    (h : switchBirth fail minted s rec = some birth) : birth = recordBirth minted s rec := by
  rw [switchBirth] at h
  rw [recordBirth]
  split at h
  · next b hb =>
    rw [hb]
    exact (Option.some.inj h).symm
  · next hb =>
    rw [hb]
    exact eq_of_branchNextCreatedAt h

/-- **A switch that is saved** has found the record like the live chain, or it stores what came through of
both chains. -/
theorem exists_of_switchSaved {branchId : String}
    (h : switchSaved codec fail minted key rows sessionId branchId = some rows') :
    ∃ s i rec items live, loadSessionLocked codec Faults.none key rows sessionId = some s ∧
      branchRecordFind s.branchList branchId = some i ∧ s.records[i]? = some rec ∧
      rec.member "messages" = some (.array items) ∧
      messagesToJsonArray codec (fail.within .encodeLive)
        (s.messages.mapIdx (Message.loaded (callsLost fail))) = some live ∧
      (live = .array items ∧ rows' = rows ∨ live ≠ .array items ∧ ∃ written,
        written.map (readMessage codec) =
          (s.messages.mapIdx (Message.loaded (callsLost fail))).mapIdx
            (Message.received codec (fail.within .snapshot)) ∧
        loadSessionLocked codec Faults.none key rows' sessionId =
          some ((s.wentOn minted (fun list => list.dropChild i)
            ((items.map (readMessage codec)).mapIdx (Message.loaded (fail.within .target))) written
            (recordBirth minted s rec)).received codec (fail.within .save))) := by
  simp only [switchSaved, Option.bind_eq_bind, Option.bind_eq_some_iff, Option.pure_def] at h
  obtain ⟨s₁, hload, list, hlist, i, hi, rec, hrec, snapshot, hsnapshot, _, harray, _, -, live, hlive,
    _, -, h⟩ := h
  obtain ⟨s, hload₀, rfl⟩ := exists_loaded_of_loadSessionLocked hload
  obtain rfl := eq_of_branchListEnsure hlist
  cases snapshot with
  | array items =>
    refine ⟨s, i, rec, items, live, hload₀, hi, hrec, hsnapshot, hlive, ?_⟩
    split at h
    · next hsame => exact Or.inl ⟨codec.print_injective hsame, (Option.some.inj h).symm⟩
    · next hother =>
      obtain ⟨s', hswitch, hsave⟩ := Option.bind_eq_some_iff.mp h
      simp only [switchTo, Option.bind_eq_bind, Option.bind_eq_some_iff, Option.pure_def,
        Option.some_inj] at hswitch
      obtain ⟨list', hlist', messages, hmessages, birth, hbirth, _, -, rfl⟩ := hswitch
      obtain ⟨written, rfl, hwritten⟩ := exists_of_branchRecordSnapshotLive hlist'
      obtain rfl := eq_of_switchBirth hbirth
      obtain ⟨messages₀, hread, rfl⟩ := eq_of_sessionDeserializeMessages hmessages
      rw [readMessages, codec.parse_print, Option.some_inj] at hread
      have hid : s.id = sessionId := id_of_loadSessionLocked hload₀
      refine Or.inr ⟨fun hsame => hother (congrArg codec.print hsame), written, hwritten, ?_⟩
      rw [load_of_saveSessionNolock_failing hsave hid, ← hread]
      rfl
  | _ => exact absurd harray (by simp [JsonValue.isArray, attempt])

theorem loaded_retagged (load : Faults DecodeSite) (i : Nat) (forkGroupId : String) (m : Message) :
    (m.retagged minted forkGroupId).loaded load i =
      (m.loaded load i).retagged minted forkGroupId := by
  rw [Message.loaded, Message.loaded]
  split <;> rfl

/-- **A tag that is saved** stores what came through of the live chain. -/
theorem exists_of_tagSaved {index : Int} {forkGroupId : String}
    (h : tagSaved codec fail minted key rows sessionId index forkGroupId = some rows') :
    ∃ s m, loadSessionLocked codec Faults.none key rows sessionId = some s ∧
      ¬ (index < 0 ∨ s.messages.length ≤ index) ∧ s.messages[index.toNat]? = some m ∧
      loadSessionLocked codec Faults.none key rows' sessionId =
        some (Session.received codec (fail.within .save)
          { s with
            messages := (s.messages.set index.toNat (m.retagged minted forkGroupId)).mapIdx
              (Message.loaded (callsLost fail)) }) := by
  simp only [tagSaved, Option.bind_eq_bind, Option.bind_eq_some_iff] at h
  obtain ⟨s₁, hload, _, hindex, m₁, hm₁, _, -, _, -, _, -, hsave⟩ := h
  obtain ⟨s, hload₀, rfl⟩ := exists_loaded_of_loadSessionLocked hload
  rw [Session.loaded, List.getElem?_mapIdx, Option.map_eq_some_iff] at hm₁
  obtain ⟨m, hm, rfl⟩ := hm₁
  have hlength : (s.loaded (fail.within .load)).messages.length = s.messages.length :=
    List.length_mapIdx
  refine ⟨s, m, hload₀, ?_, hm, ?_⟩
  · rw [hlength] at hindex
    intro hout
    have hgiveUp : (decide (index < 0) || decide ((s.messages.length : Int) ≤ index)) = true := by
      rw [Bool.or_eq_true, decide_eq_true_iff, decide_eq_true_iff]
      exact hout
    rw [hgiveUp] at hindex
    exact absurd hindex (by simp)
  · have hid : s.id = sessionId := id_of_loadSessionLocked hload₀
    rw [load_of_saveSessionNolock_failing hsave hid, ← set_mapIdx_loaded, loaded_retagged]
    rfl

end Failing

end EchoAi
