import EchoAi.Session.BranchChains

/-!
# What is reported about the fork points

Every message of the live chain with a fork group is reported with the number of chains that have the
group, the position of the live chain among them and the ids of the records of the others.  The
records are taken in the order in which they stand in the list, at most `branchInfoRoom` of them.

* `branchGroupScan`, `branchEntry`, `sessionManagerBranchInfoAlloc`: the report as it is computed.
* `Describes`: what an entry should say, with the chains in the order of their births.
* `Session.Recorded`: every record is one that this module writes; kept by runs of forks and switches.
* `branchInfo_describes_iff`: the entry of a fork point says what it should exactly when there are at
  most `branchInfoRoom` records of its group and they stand in the order of their births.
-/

namespace EchoAi

/-! ## The report -/

/-- The length of the two arrays into which the records of a group are collected. -/
def branchInfoRoom : Nat := 64

/-- Whether a message of the record has the group. -/
def recordHasGroup (group : String) (rec : JsonValue) : Bool :=
  match rec.member "messages" with
  | some (.array items) =>
    items.any fun m => (m.member "fork_group_id").bind JsonValue.stringValue == some group
  | _ => false

/-- The birth and the id of a record, as far as they are texts. -/
structure GroupRecord where
  createdAt : Option String
  id : Option String

def groupRecord (rec : JsonValue) : GroupRecord where
  createdAt := (rec.member "created_at").bind JsonValue.stringValue
  id := (rec.member "id").bind JsonValue.stringValue

/-- The loop of `branch_group_chain_count`: the records with the group, until the room is used up. -/
def branchGroupScan (group : String) : Nat → List JsonValue → List GroupRecord
  | 0, _ => []
  | _ + 1, [] => []
  | room + 1, rec :: recs =>
    if recordHasGroup group rec then groupRecord rec :: branchGroupScan group room recs
    else branchGroupScan group (room + 1) recs

/-- The report on one fork point. -/
structure BranchEntry where
  messageId : String
  count : Nat
  active : Nat
  branchIds : List String
  deriving DecidableEq, Repr

namespace BranchEntry

/-- The entry as it is printed. -/
def json (e : BranchEntry) : JsonValue :=
  .object [("message_id", .string e.messageId), ("count", .number ⟨e.count, 0⟩),
    ("active", .number ⟨e.active, 0⟩), ("branch_ids", .array (e.branchIds.map .string))]

end BranchEntry

/-- The entry of a message `m` with the given group. -/
def branchEntry (s : Session) (m : Message) (group : String) : BranchEntry :=
  let scanned := branchGroupScan group branchInfoRoom s.records
  { messageId := m.id.getD ""
    count := scanned.length + 1
    active := scanned.countP (fun r => r.createdAt.any (· < branchActiveCreatedAt s)) + 1
    branchIds := scanned.filterMap GroupRecord.id }

/-- The entries of the live chain. -/
def branchEntries (s : Session) : List BranchEntry :=
  s.messages.filterMap fun m => m.forkGroupId.map (branchEntry s m)

/-- `session_manager_branch_info_alloc`. -/
def sessionManagerBranchInfoAlloc (codec : JsonCodec) (key : EncryptionKey)
    (rows : List SessionRow) (sessionId : String) : Option String := do
  let s ← loadSessionLocked codec Faults.none key rows sessionId
  return codec.print (.array ((branchEntries s).map BranchEntry.json))

/-! ## What the report should say -/

/-- The id of a record. -/
def chainId (rec : JsonValue) : String := ((rec.member "id").bind JsonValue.stringValue).getD ""

/-- The birth of the chain of a record. -/
def chainBirth (rec : JsonValue) : String :=
  ((rec.member "created_at").bind JsonValue.stringValue).getD ""

/-- Whether a message of the chain has the group. -/
def hasGroup (group : String) (chain : List Message) : Bool :=
  chain.any fun m => m.forkGroupId == some group

namespace Session

/-- The records of the chains that have the group. -/
def family (codec : JsonCodec) (s : Session) (group : String) : List JsonValue :=
  s.records.filter fun rec => (recordChain codec rec).any (hasGroup group)

/-- The births of all chains, the live one first. -/
def births (s : Session) : List String := branchActiveCreatedAt s :: s.records.map chainBirth

end Session

/-- What the entry of a message with a group should say: how many chains have the group, how many of
them are not younger than the live one, and the others by their births. -/
structure Describes (codec : JsonCodec) (s : Session) (m : Message) (group : String)
    (e : BranchEntry) : Prop where
  messageId : e.messageId = m.id.getD ""
  count : e.count = (s.family codec group).length + 1
  active : e.active =
    (s.family codec group).countP (fun rec => chainBirth rec < branchActiveCreatedAt s) + 1
  branchIds : ∃ recs : List JsonValue, recs.Perm (s.family codec group) ∧
    (recs.map chainBirth).Pairwise (· < ·) ∧ e.branchIds = recs.map chainId

/-! ## Complete records -/

/-- Every record is one that a fork or a switch writes, and their ids are distinct and among `ids`. -/
structure Session.Recorded (s : Session) (ids : List String) : Prop where
  shaped : s.Shaped
  complete : ∀ rec ∈ s.records, ∃ id createdAt items,
    rec = branchRecord id createdAt (.array items)
  nodup : (s.records.map chainId).Nodup
  ids : ∀ rec ∈ s.records, chainId rec ∈ ids

/-- A session without branches. -/
theorem recorded_of_unforked {s : Session} {ms : List (String × JsonValue)}
    (hms : s.metadata = .object ms) (hnone : JsonValue.findMember ms "branches" = none) :
    s.Recorded [] := by
  have hbranches : s.branches = .object [] := by
    rw [Session.branches, hms, JsonValue.member_object, hnone]
    rfl
  have hlist : s.branchList = .array [] := by
    rw [Session.branchList, hbranches]
    rfl
  have hrecords : s.records = [] := by
    rw [Session.records, hlist]
    rfl
  refine ⟨⟨⟨ms, hms⟩, ⟨[], hbranches⟩, ?_⟩, ?_, ?_, ?_⟩
  · rw [hlist]
    rfl
  · rw [hrecords]
    exact fun rec h => absurd h List.not_mem_nil
  · rw [hrecords]
    exact List.nodup_nil
  · rw [hrecords]
    exact fun rec h => absurd h List.not_mem_nil

section Recorded

variable {codec : JsonCodec} {minted : Minted} {s : Session} {ids : List String}

theorem chainId_branchRecord (id createdAt : String) (snapshot : JsonValue) :
    chainId (branchRecord id createdAt snapshot) = id := by
  rw [chainId, id_branchRecord]
  rfl

theorem createdAt_branchRecord (id createdAt : String) (snapshot : JsonValue) :
    (branchRecord id createdAt snapshot).member "created_at" = some (.string createdAt) := by
  have hid : JsonValue.sameName "id" "created_at" = false := by decide +kernel
  rw [branchRecord, JsonValue.member_object, JsonValue.findMember_pair_of_other hid,
    JsonValue.findMember_pair_self]

/-- Keeping some of the records and adding one of the live chain keeps the records complete, as long
as its id is fresh. -/
theorem Session.Recorded.append (h : s.Recorded ids) (hfresh : minted.recordId ∉ ids) {s' : Session}
    (hs' : s'.Shaped) {kept : List JsonValue} (hkept : kept.Sublist s.records) {msgs : List Message}
    (hrecords : s'.records = kept ++ [liveRecord codec minted s msgs]) :
    s'.Recorded (ids ++ [minted.recordId]) := by
  have hid : chainId (liveRecord codec minted s msgs) = minted.recordId :=
    chainId_branchRecord _ _ _
  refine ⟨hs', ?_, ?_, ?_⟩
  · rw [hrecords]
    intro rec hrec
    rw [List.mem_append, List.mem_singleton] at hrec
    rcases hrec with hrec | rfl
    · exact h.complete rec (hkept.subset hrec)
    · exact ⟨_, _, _, rfl⟩
  · rw [hrecords, List.map_append, List.map_singleton, hid, List.nodup_append]
    refine ⟨h.nodup.sublist (hkept.map chainId), List.nodup_singleton _, ?_⟩
    intro id hmem id' hid'
    obtain ⟨rec, hrec, rfl⟩ := List.mem_map.mp hmem
    rw [List.mem_singleton.mp hid']
    exact fun heq => hfresh (heq ▸ h.ids rec (hkept.subset hrec))
  · rw [hrecords]
    intro rec hrec
    rw [List.mem_append, List.mem_singleton] at hrec ⊢
    rcases hrec with hrec | rfl
    · exact Or.inl (h.ids rec (hkept.subset hrec))
    · exact Or.inr hid

/-- **A call keeps the records complete.** -/
theorem BranchStep.recorded {forked : Bool} {s' : Session}
    (hstep : BranchStep codec minted forked s s') (h : s.Recorded ids)
    (hfresh : minted.recordId ∉ ids) : s'.Recorded (ids ++ [minted.recordId]) := by
  have hshaped' : s'.Shaped := (hstep.step h.shaped).1
  cases hstep with
  | stay =>
    exact ⟨h.shaped, h.complete, h.nodup, fun rec hrec => List.mem_append_left _ (h.ids rec hrec)⟩
  | @fork _ fi m hm newContent =>
    obtain ⟨hshaped, hrecords⟩ : (s.forked codec minted fi m newContent).Shaped ∧ _ :=
      h.shaped.forked fi m newContent
    have hkept : ((s.forked codec minted fi m newContent).normalize codec).records =
        s.records ++ [liveRecord codec minted s (s.messages.set fi (m.tagged minted))] := by
      rw [Session.records, hshaped.branchList_normalize]
      exact hrecords
    exact h.append hfresh hshaped' (List.Sublist.refl _) hkept
  | @switch _ i rec items hrec hitems =>
    obtain ⟨hi, -⟩ := List.getElem?_eq_some_iff.mp hrec
    obtain ⟨hshaped, hrecords⟩ : (s.switched codec minted i rec items).Shaped ∧ _ :=
      h.shaped.switched hi rec items
    have hkept : ((s.switched codec minted i rec items).normalize codec).records =
        s.records.eraseIdx i ++ [liveRecord codec minted s s.messages] := by
      rw [Session.records, hshaped.branchList_normalize]
      exact hrecords
    exact h.append hfresh hshaped' (List.eraseIdx_sublist s.records i) hkept

/-- **After any sequence of calls the records are complete.** -/
theorem recorded_runCalls {key : EncryptionKey} {rows : List SessionRow} {sessionId : String}
    (calls : List (Minted × BranchCall))
    (hload : loadSessionLocked codec Faults.none key rows sessionId = some s)
    (h : s.Recorded ids) (hfresh : (ids ++ calls.map fun call => call.1.recordId).Nodup) :
    ∃ s', loadSessionLocked codec Faults.none key (runCalls codec key sessionId rows calls)
        sessionId = some s' ∧ s'.Recorded (ids ++ calls.map fun call => call.1.recordId) := by
  have hinit : (ids ++ ([] : List (Minted × BranchCall)).map fun call => call.1.recordId).Nodup →
      s.Recorded (ids ++ ([] : List (Minted × BranchCall)).map fun call => call.1.recordId) := by
    rw [List.map_nil, List.append_nil]
    exact fun _ => h
  have hrun := exists_load_runCalls (fun calls s' =>
    (ids ++ calls.map fun call => call.1.recordId).Nodup →
      s'.Recorded (ids ++ calls.map fun call => call.1.recordId)) hinit (by
    intro calls minted call forked s₁ s₂ h₁ hstep hnodup
    rw [List.map_append, ← List.append_assoc, List.map_singleton] at hnodup ⊢
    obtain ⟨hnodup₁, -, hdisjoint⟩ := List.nodup_append.mp hnodup
    exact hstep.recorded (h₁ hnodup₁) fun hmem =>
      hdisjoint _ hmem _ (List.mem_singleton_self _) rfl) hload calls
  obtain ⟨s', hload', hs'⟩ := hrun
  exact ⟨s', hload', hs' hfresh⟩

end Recorded

/-! ## What the report says -/

section Report

variable {codec : JsonCodec} {s : Session} {ids : List String}

/-- The loop collects the first records of the group. -/
theorem branchGroupScan_eq (group : String) (room : Nat) (recs : List JsonValue) :
    branchGroupScan group room recs =
      ((recs.filter (recordHasGroup group)).take room).map groupRecord := by
  induction recs generalizing room with
  | nil => cases room <;> rfl
  | cons rec recs ih =>
    cases room with
    | zero => rfl
    | succ room =>
      rw [branchGroupScan, List.filter_cons]
      split
      · rw [ih, List.take_succ_cons, List.map_cons]
      · exact ih (room + 1)

/-- A record has the group in its JSON exactly when a message of its chain has it. -/
theorem recordHasGroup_eq (group : String) (rec : JsonValue) :
    recordHasGroup group rec = (recordChain codec rec).any (hasGroup group) := by
  rw [recordHasGroup, recordChain]
  cases rec.member "messages" with
  | none => rfl
  | some messages =>
    cases messages with
    | array items =>
      dsimp only
      rw [Option.any_some, hasGroup, List.any_map]
      rfl
    | _ => rfl

variable (codec) in
theorem branchGroupScan_records (group : String) :
    branchGroupScan group branchInfoRoom s.records =
      ((s.family codec group).take branchInfoRoom).map groupRecord := by
  have hsame : recordHasGroup group = fun rec => (recordChain codec rec).any (hasGroup group) := by
    ext rec
    exact recordHasGroup_eq group rec
  rw [branchGroupScan_eq, Session.family, hsame]

/-- A list with distinct values under a function is determined by these values. -/
theorem eq_of_map_eq_of_subset {α β : Type} {f : α → β} {as bs : List α}
    (hinj : ∀ a ∈ as, ∀ b ∈ as, f a = f b → a = b) (hsubset : bs ⊆ as)
    (h : bs.map f = as.map f) : bs = as := by
  refine List.ext_getElem? fun i => ?_
  have hget : bs[i]?.map f = as[i]?.map f := by
    rw [← List.getElem?_map, h, List.getElem?_map]
  cases hb : bs[i]? with
  | none =>
    rw [hb, Option.map_none] at hget
    exact (Option.map_eq_none_iff.mp hget.symm).symm
  | some b =>
    rw [hb, Option.map_some] at hget
    obtain ⟨a, ha, heq⟩ := Option.map_eq_some_iff.mp hget.symm
    rw [ha, hinj a (List.mem_of_getElem? ha) b (hsubset (List.mem_of_getElem? hb)) heq]

variable (h : s.Recorded ids) (group : String)

include h in
/-- Of a complete record the count keeps the birth and the id. -/
theorem groupRecord_of_mem {rec : JsonValue} (hrec : rec ∈ s.records) :
    groupRecord rec = ⟨some (chainBirth rec), some (chainId rec)⟩ := by
  obtain ⟨id, createdAt, items, rfl⟩ := h.complete rec hrec
  rw [groupRecord, chainBirth, chainId, id_branchRecord, createdAt_branchRecord]
  rfl

include h in
theorem branchIds_branchEntry (m : Message) : (branchEntry s m group).branchIds =
    ((s.family codec group).take branchInfoRoom).map chainId := by
  show (branchGroupScan group branchInfoRoom s.records).filterMap GroupRecord.id = _
  rw [branchGroupScan_records codec, List.filterMap_map, ← List.filterMap_eq_map]
  refine List.filterMap_congr fun rec hrec => ?_
  rw [Function.comp_apply, groupRecord_of_mem h (List.mem_of_mem_filter (List.mem_of_mem_take hrec))]
  rfl

include h in
theorem active_branchEntry (m : Message) : (branchEntry s m group).active =
    ((s.family codec group).take branchInfoRoom).countP
      (fun rec => chainBirth rec < branchActiveCreatedAt s) + 1 := by
  rw [branchEntry, branchGroupScan_records codec, List.countP_map]
  refine congrArg (· + 1) (List.countP_congr fun rec hrec => ?_)
  rw [Function.comp_apply, groupRecord_of_mem h (List.mem_of_mem_filter (List.mem_of_mem_take hrec)),
    Option.any_some]

variable (codec) in
theorem count_branchEntry (m : Message) : (branchEntry s m group).count =
    min branchInfoRoom (s.family codec group).length + 1 := by
  rw [branchEntry, branchGroupScan_records codec, List.length_map, List.length_take]

include h in
/-- **The entry of a fork point says what it should** exactly when the records of its group have room
and stand in the order of their births. -/
theorem describes_branchEntry_iff (m : Message) :
    Describes codec s m group (branchEntry s m group) ↔
      (s.family codec group).length ≤ branchInfoRoom ∧
        ((s.family codec group).map chainBirth).Pairwise (· < ·) := by
  constructor
  · intro hd
    have hroom : (s.family codec group).length ≤ branchInfoRoom := by
      have hcount := (count_branchEntry codec group m).symm.trans hd.count
      omega
    obtain ⟨recs, hperm, hsorted, hids⟩ := hd.branchIds
    rw [branchIds_branchEntry h, List.take_of_length_le hroom] at hids
    have hinj : ∀ rec ∈ s.family codec group, ∀ rec' ∈ s.family codec group,
        chainId rec = chainId rec' → rec = rec' := by
      intro rec hrec rec' hrec'
      exact List.inj_on_of_nodup_map h.nodup (List.mem_of_mem_filter hrec)
        (List.mem_of_mem_filter hrec')
    rw [← eq_of_map_eq_of_subset hinj hperm.subset hids.symm]
    exact ⟨hperm.length_eq ▸ hroom, hsorted⟩
  · rintro ⟨hroom, hsorted⟩
    refine ⟨rfl, ?_, ?_, s.family codec group, List.Perm.refl _, hsorted, ?_⟩
    · rw [count_branchEntry codec, Nat.min_eq_right hroom]
    · rw [active_branchEntry h, List.take_of_length_le hroom]
    · rw [branchIds_branchEntry h, List.take_of_length_le hroom]

/-! ## Sessions that were forked and switched -/

/-- The report of a session is right about every fork point, after any forks and switches of a session
that was not forked before, as long as all chains have different births. -/
def InfoDescribes (codec : JsonCodec) : Prop :=
  ∀ (key : EncryptionKey) (sessionId : String) (rows : List SessionRow)
    (calls : List (Minted × BranchCall)) (s₀ s : Session) (ms : List (String × JsonValue)),
    loadSessionLocked codec Faults.none key rows sessionId = some s₀ →
    s₀.metadata = .object ms → JsonValue.findMember ms "branches" = none →
    (calls.map fun call => call.1.recordId).Nodup →
    loadSessionLocked codec Faults.none key (runCalls codec key sessionId rows calls) sessionId =
      some s →
    s.births.Nodup →
    ∀ m ∈ s.messages, ∀ group, m.forkGroupId = some group →
      Describes codec s m group (branchEntry s m group)

/-- **What is reported after any forks and switches**: one entry for each fork point, and the entry
says what it should exactly when the records of its group have room and stand in the order of their
births. -/
theorem branchInfo_describes_iff {key : EncryptionKey} {rows : List SessionRow} {sessionId : String}
    {s₀ : Session} {calls : List (Minted × BranchCall)}
    (hload₀ : loadSessionLocked codec Faults.none key rows sessionId = some s₀)
    (h₀ : s₀.Recorded ids) (hfresh : (ids ++ calls.map fun call => call.1.recordId).Nodup)
    (hload : loadSessionLocked codec Faults.none key (runCalls codec key sessionId rows calls)
      sessionId = some s) :
    sessionManagerBranchInfoAlloc codec key (runCalls codec key sessionId rows calls) sessionId =
        some (codec.print (.array ((branchEntries s).map BranchEntry.json))) ∧
      ∀ m ∈ s.messages, ∀ group, m.forkGroupId = some group →
        branchEntry s m group ∈ branchEntries s ∧
        (Describes codec s m group (branchEntry s m group) ↔
          (s.family codec group).length ≤ branchInfoRoom ∧
            ((s.family codec group).map chainBirth).Pairwise (· < ·)) := by
  obtain ⟨s', hload', hs'⟩ := recorded_runCalls calls hload₀ h₀ hfresh
  obtain rfl : s' = s := Option.some.inj (hload'.symm.trans hload)
  refine ⟨?_, ?_⟩
  · rw [sessionManagerBranchInfoAlloc, hload]
    rfl
  · intro m hm group hgroup
    refine ⟨?_, describes_branchEntry_iff hs' group m⟩
    rw [branchEntries, List.mem_filterMap]
    exact ⟨m, hm, by rw [hgroup, Option.map_some]⟩

end Report

/-! ## An example -/

/-- A fork, a switch back and a second fork at the same message. -/
def forkTwice : List (Minted × BranchCall) :=
  [(firstFork, .fork none 0 none),
   ({ messageId := "message_3", groupId := "group_2", recordId := "branch_2",
      clock := fun _ => "2024-01-03" }, .switch "branch_1"),
   ({ messageId := "message_4", groupId := "group_3", recordId := "branch_3",
      clock := fun _ => "2024-01-04" }, .fork none 0 none)]

theorem recorded_newSession : ((helloSession (.object [])).normalize textCodec).Recorded [] :=
  recorded_of_unforked shaped_helloSession.normalize rfl

/-- The record of a chain with the message `hello`. -/
def helloRecord (id createdAt messageId : String) : JsonValue :=
  branchRecord id createdAt (messagesJson textCodec [helloTagged messageId (some "group_1")])

/-- A session with that message as its live chain. -/
def helloBranched (messageId : String) (records : List JsonValue) (birth : String) : Session :=
  { helloSession (.object [("branches", .object [("list", .array records),
      ("active_created_at", .string birth)])]) with
    messages := [helloTagged messageId (some "group_1")] }

theorem normalize_helloBranched (messageId : String) (records : List JsonValue) (birth : String) :
    (helloBranched messageId records birth).normalize textCodec =
      helloBranched messageId records birth := by
  rw [Session.normalize_of_object rfl rfl]
  rfl

/-- A fork at the only message. -/
theorem load_fork_helloSession {minted : Minted} {rows : List SessionRow} {s s' : Session}
    {m : Message}
    (hload : loadSessionLocked textCodec Faults.none helloKey rows "session_1" = some s)
    (hmessages : s.messages = [m]) (hforked : s.forked textCodec minted 0 m none = s')
    (hfits : s'.storable textCodec = true) (hnormal : s'.normalize textCodec = s') :
    loadSessionLocked textCodec Faults.none helloKey ((BranchCall.fork none 0 none).run textCodec
      helloKey "session_1" minted rows).2 "session_1" = some s' := by
  subst hforked
  have hfi : branchFindForkIndex s none 0 = some 0 := by
    rw [branchFindForkIndex, hmessages]
    rfl
  have hm : s.messages[0]? = some m := by
    rw [hmessages]
    rfl
  obtain ⟨rows', hsaved, hload'⟩ := exists_forkSaved (by decide) hload hfi hm hfits
  rw [BranchCall.run, forkBranch, hsaved]
  exact hload'.trans (congrArg some hnormal)

/-- The switch back in `forkTwice`. -/
def switchBack : Minted where
  messageId := "message_3"
  groupId := "group_2"
  recordId := "branch_2"
  clock _ := "2024-01-03"

/-- The session after the first fork. -/
def forkedHello : Session :=
  helloBranched "message_2" [helloRecord "branch_1" "2024-01-01" "message_1"] "2024-01-02"

/-- The session after the switch back. -/
def returnedHello : Session :=
  helloBranched "message_1" [helloRecord "branch_2" "2024-01-02" "message_2"] "2024-01-01"

/-- The session after the second fork. -/
def reforkedHello : Session :=
  helloBranched "message_4" [helloRecord "branch_2" "2024-01-02" "message_2",
    helloRecord "branch_3" "2024-01-01" "message_1"] "2024-01-04"

theorem load_firstFork :
    loadSessionLocked textCodec Faults.none helloKey ((BranchCall.fork none 0 none).run textCodec
      helloKey "session_1" firstFork (helloRows (.object []))).2 "session_1" = some forkedHello := by
  have hnew : (helloSession (.object [])).normalize textCodec = helloSession (.object []) := by
    rw [Session.normalize_of_object rfl rfl]
    rfl
  have hload := load_helloRows (.object [])
  rw [hnew] at hload
  have hfits : forkedHello.storable textCodec = true :=
    storable_of_length (by decide +kernel) (by decide +kernel) (by decide +kernel)
  exact load_fork_helloSession hload rfl rfl hfits (normalize_helloBranched ..)

theorem load_switchBack {rows : List SessionRow}
    (hload : loadSessionLocked textCodec Faults.none helloKey rows "session_1" =
      some forkedHello) :
    loadSessionLocked textCodec Faults.none helloKey ((BranchCall.switch "branch_1").run textCodec
      helloKey "session_1" switchBack rows).2 "session_1" = some returnedHello := by
  have hother : messagesJson textCodec forkedHello.messages ≠
      .array ([helloTagged "message_1" (some "group_1")].map (messageJson textCodec)) := by
    intro hsame
    have hids := congrArg (fun json => json.children.map fun m =>
      (m.member "id").bind JsonValue.stringValue) hsame
    revert hids
    decide +kernel
  have hfind : branchRecordFind forkedHello.branchList "branch_1" = some 0 := rfl
  have hswitched : forkedHello.switched textCodec switchBack 0
      (helloRecord "branch_1" "2024-01-01" "message_1")
      ([helloTagged "message_1" (some "group_1")].map (messageJson textCodec)) =
        returnedHello := by
    rfl
  have hfits : returnedHello.storable textCodec = true :=
    storable_of_length (by decide +kernel) (by decide +kernel) (by decide +kernel)
  obtain ⟨rows', hsaved, hload'⟩ := exists_switchSaved (by decide) hload hfind rfl rfl hother
    (hswitched ▸ hfits)
  rw [BranchCall.run, switchBranch, hsaved]
  rw [hswitched] at hload'
  exact hload'.trans (congrArg some (normalize_helloBranched ..))

/-- The session after `forkTwice`. -/
theorem load_forkTwice :
    loadSessionLocked textCodec Faults.none helloKey
      (runCalls textCodec helloKey "session_1" (helloRows (.object [])) forkTwice) "session_1" =
      some reforkedHello := by
  have hfits : reforkedHello.storable textCodec = true :=
    storable_of_length (by decide +kernel) (by decide +kernel) (by decide +kernel)
  rw [runCalls, forkTwice, List.foldl_cons, List.foldl_cons, List.foldl_cons, List.foldl_nil]
  exact load_fork_helloSession (load_switchBack load_firstFork) rfl rfl hfits
    (normalize_helloBranched ..)

theorem nodup_forkTwice :
    (([] : List String) ++ forkTwice.map fun call => call.1.recordId).Nodup := by
  decide +kernel

/-- What is reported after `forkTwice`. -/
theorem branchInfo_forkTwice :
    ∃ s, loadSessionLocked textCodec Faults.none helloKey
        (runCalls textCodec helloKey "session_1" (helloRows (.object [])) forkTwice) "session_1" =
          some s ∧
      ∀ m ∈ s.messages, ∀ group, m.forkGroupId = some group →
        branchEntry s m group ∈ branchEntries s ∧
        (Describes textCodec s m group (branchEntry s m group) ↔
          (s.family textCodec group).length ≤ branchInfoRoom ∧
            ((s.family textCodec group).map chainBirth).Pairwise (· < ·)) := by
  exact ⟨_, load_forkTwice, (branchInfo_describes_iff (load_helloRows (.object [])) recorded_newSession
    nodup_forkTwice load_forkTwice).2⟩

/-- The record of the chain that was switched to first stands after the younger one. -/
theorem not_infoDescribes_forkTwice : ¬ InfoDescribes textCodec := by
  intro h
  have hload₀ := load_helloRows (.object [])
  have hdescribes := h helloKey "session_1" (helloRows (.object [])) forkTwice _ _ [] hload₀
    shaped_helloSession.normalize rfl nodup_forkTwice load_forkTwice (by decide +kernel)
    (helloTagged "message_4" (some "group_1")) (List.mem_singleton_self _) "group_1" rfl
  obtain ⟨s', hload', hs'⟩ := recorded_runCalls forkTwice hload₀ recorded_newSession nodup_forkTwice
  obtain rfl := Option.some.inj (load_forkTwice.symm.trans hload')
  obtain ⟨-, hsorted⟩ := (describes_branchEntry_iff hs' "group_1" _).mp hdescribes
  revert hsorted
  decide +kernel

end EchoAi
