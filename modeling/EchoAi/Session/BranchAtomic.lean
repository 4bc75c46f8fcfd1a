import EchoAi.Session.BranchFaults

/-!
# Branch operations are all or nothing

What is seen of the branches of a stored session is its live chain, its records and the birth of the
live chain.  An operation that fails should leave that as it was, and one that succeeds should leave
that of the completed operation.

* `BranchView`: what is seen of a stored session.
* `branchView_wentOn_iff`: when a session that has gone on shows the completed operation.
* `AllOrNothing`: the law; `allOrNothing_of_unharmed` says when it holds, and
  `not_allOrNothing_lostAnswer` that a failure after the save breaks it.
-/

namespace EchoAi

variable {codec : JsonCodec}

/-! ## Views -/

/-- A record as it reads. -/
structure RecordView where
  id : Option String
  createdAt : Option String
  chain : Option (List Message)

/-- What stands in a record. -/
def recordView (codec : JsonCodec) (rec : JsonValue) : RecordView where
  id := (rec.member "id").bind JsonValue.stringValue
  createdAt := (rec.member "created_at").bind JsonValue.stringValue
  chain :=
    match rec.member "messages" with
    | some (.array items) => some (items.map (readMessage codec))
    | _ => none

/-- The live chain, the records of the other ones and the birth of the live chain. -/
@[ext]
structure BranchView where
  live : List Message
  records : List RecordView
  birth : String

/-- The branches of a session. -/
def Session.branchView (codec : JsonCodec) (s : Session) : BranchView where
  live := s.messages
  records := s.records.map (recordView codec)
  birth := branchActiveCreatedAt s

theorem recordView_branchRecord (id createdAt : String) (items : List JsonValue) :
    recordView codec (branchRecord id createdAt (.array items)) =
      ⟨some id, some createdAt, some (items.map (readMessage codec))⟩ := by
  have hcreated : (branchRecord id createdAt (.array items)).member "created_at" =
      some (.string createdAt) := by
    have hid : JsonValue.sameName "id" "created_at" = false := by decide +kernel
    rw [branchRecord, JsonValue.member_object, JsonValue.findMember_pair_of_other hid,
      JsonValue.findMember_pair_self]
  rw [recordView, id_branchRecord, hcreated, messages_branchRecord]
  rfl

/-! ## Setting the branches -/

section SetBranches

variable {s : Session} {l l' : JsonValue} {birth : String}

/-- The branches hang below objects, so that they are printed with their names. -/
def Session.Hangs (s : Session) : Prop :=
  (∃ ms, s.metadata = .object ms) ∧ ∃ bs, s.branches = .object bs

/-- The object of the branches with another list and another birth. -/
def branchesWith (branches l : JsonValue) (birth : String) : JsonValue :=
  ((branches.putMember "list" l).eraseMember "active_created_at").addMember "active_created_at"
    (.string birth)

theorem sameName_active_list : JsonValue.sameName "active_created_at" "list" = false := by
  decide +kernel

theorem sameName_list_active : JsonValue.sameName "list" "active_created_at" = false := by
  decide +kernel

theorem list_branchesWith (bs : List (String × JsonValue)) :
    (branchesWith (.object bs) l birth).member "list" = some l := by
  obtain ⟨bs', hput, hfind⟩ := JsonValue.exists_putMember bs "list" l
  rw [branchesWith, JsonValue.member_addMember_ne _ sameName_active_list,
    JsonValue.member_eraseMember_ne _ sameName_active_list, hput, JsonValue.member_object, hfind]

/-- The birth that is read does not depend on the list. -/
theorem active_branchesWith (branches : JsonValue) :
    (branchesWith branches l birth).member "active_created_at" =
      (branchesWith branches l' birth).member "active_created_at" := by
  cases branches with
  | object bs =>
    obtain ⟨bs₁, hput, -⟩ := JsonValue.exists_putMember
      (bs.eraseP fun m => JsonValue.sameName m.1 "active_created_at") "list" l
    obtain ⟨bs₂, hput', -⟩ := JsonValue.exists_putMember
      (bs.eraseP fun m => JsonValue.sameName m.1 "active_created_at") "list" l'
    have hmember : JsonValue.findMember bs₁ "active_created_at" =
        JsonValue.findMember bs₂ "active_created_at" := by
      have h := JsonValue.member_putMember_ne
        (.object (bs.eraseP fun m => JsonValue.sameName m.1 "active_created_at"))
        sameName_list_active l
      have h' := JsonValue.member_putMember_ne
        (.object (bs.eraseP fun m => JsonValue.sameName m.1 "active_created_at"))
        sameName_list_active l'
      rw [hput] at h
      rw [hput'] at h'
      exact h.trans h'.symm
    rw [branchesWith, branchesWith, JsonValue.eraseMember_putMember bs sameName_list_active,
      JsonValue.eraseMember_putMember bs sameName_list_active, JsonValue.eraseMember, hput, hput',
      JsonValue.addMember, JsonValue.addMember, JsonValue.member_object, JsonValue.member_object,
      JsonValue.findMember_append, JsonValue.findMember_append, hmember]
  | _ => rfl

theorem branches_setBranches (h : ∃ ms, s.metadata = .object ms) :
    ((s.setBranches l birth).normalize codec).branches = branchesWith s.branches l birth := by
  obtain ⟨ms, hms⟩ := h
  obtain ⟨ms', hput, hfind⟩ := JsonValue.exists_putMember ms "branches"
    (branchesWith s.branches l birth)
  have hmetadata : (s.setBranches l birth).metadata = .object ms' := by
    rw [Session.setBranches, hms]
    exact hput
  rw [Session.branches, Session.normalize, hmetadata, normalizeMetadata_object,
    JsonValue.member_object, hfind, Option.getD_some]

theorem branches_setBranches_of_not (h : ¬ ∃ ms, s.metadata = .object ms) :
    ((s.setBranches l birth).normalize codec).branches = .object [] := by
  have hmember : ∀ v : JsonValue, (¬ ∃ ms, v = .object ms) →
      (normalizeMetadata codec v).member "branches" = none := by
    intro v hv
    rw [normalizeMetadata]
    split
    · rfl
    · cases v with
      | object ms => exact absurd ⟨ms, rfl⟩ hv
      | _ => rfl
  have hput : ¬ ∃ ms, (s.setBranches l birth).metadata = .object ms := by
    rw [Session.setBranches]
    rintro ⟨ms, hms⟩
    cases hs : s.metadata with
    | object ms' => exact h ⟨ms', hs⟩
    | _ =>
      rw [hs] at hms
      exact JsonValue.noConfusion hms
  rw [Session.branches, Session.normalize, hmember _ hput, Option.getD_none]

/-- The records that are read after the branches were set. -/
theorem records_setBranches (h : s.Hangs) :
    ((s.setBranches l birth).normalize codec).records = l.children := by
  obtain ⟨bs, hbs⟩ := h.2
  rw [Session.records, Session.branchList, branches_setBranches h.1, hbs, list_branchesWith,
    Option.getD_some]

theorem records_setBranches_of_not (h : ¬ s.Hangs) :
    ((s.setBranches l birth).normalize codec).records = [] := by
  by_cases hmetadata : ∃ ms, s.metadata = .object ms
  · have hlist : (branchesWith s.branches l birth).member "list" = none := by
      cases hbs : s.branches with
      | object bs => exact absurd ⟨hmetadata, bs, hbs⟩ h
      | _ => rfl
    rw [Session.records, Session.branchList, branches_setBranches hmetadata, hlist, Option.getD_none]
    rfl
  · rw [Session.records, Session.branchList, branches_setBranches_of_not hmetadata]
    rfl

theorem birth_setBranches_congr :
    branchActiveCreatedAt ((s.setBranches l birth).normalize codec) =
      branchActiveCreatedAt ((s.setBranches l' birth).normalize codec) := by
  have hactive : (((s.setBranches l birth).normalize codec).branches).member "active_created_at" =
      (((s.setBranches l' birth).normalize codec).branches).member "active_created_at" := by
    by_cases hmetadata : ∃ ms, s.metadata = .object ms
    · rw [branches_setBranches hmetadata, branches_setBranches hmetadata]
      exact active_branchesWith s.branches
    · rw [branches_setBranches_of_not hmetadata, branches_setBranches_of_not hmetadata]
  rw [branchActiveCreatedAt, branchActiveCreatedAt, hactive]
  rfl

end SetBranches

/-! ## What is seen of a result -/

section Views

variable {fail : Faults SaveSite} {minted : Minted} {s : Session}

theorem shaped_iff : s.Shaped ↔ s.Hangs ∧ s.branchList.isContainer = true :=
  ⟨fun h => ⟨⟨h.metadata, h.branches⟩, h.list⟩, fun h => ⟨h.1.1, h.1.2, h.2⟩⟩

/-- The records that are read after a session has gone on. -/
theorem records_wentOn {drop : JsonValue → JsonValue} {kept : List JsonValue}
    (hdrop : ∀ rec, (drop (s.branchList.addItem rec)).children =
      if s.branchList.isContainer then kept ++ [rec] else [])
    (messages : List Message) (items : List JsonValue) (birth : String) :
    (s.Shaped → ((s.wentOn minted drop messages items birth).normalize codec).records =
      kept ++ [branchRecord minted.recordId (branchActiveCreatedAt s) (.array items)]) ∧
    (¬ s.Shaped → ((s.wentOn minted drop messages items birth).normalize codec).records = []) := by
  have hhangs : ({ s with messages } : Session).Hangs ↔ s.Hangs := Iff.rfl
  constructor
  · intro h
    rw [Session.wentOn, records_setBranches (hhangs.mpr (shaped_iff.mp h).1), hdrop,
      if_pos (shaped_iff.mp h).2]
  · intro h
    by_cases hs : s.Hangs
    · have hlist : ¬ s.branchList.isContainer = true := fun hlist => h (shaped_iff.mpr ⟨hs, hlist⟩)
      rw [Session.wentOn, records_setBranches (hhangs.mpr hs), hdrop, if_neg hlist]
    · rw [Session.wentOn, records_setBranches_of_not (fun h => hs (hhangs.mp h))]

/-- **What is stored shows the completed operation** exactly when the live chain came through, and the
record as well if it is stored at all. -/
theorem branchView_wentOn_iff {drop : JsonValue → JsonValue} {kept : List JsonValue}
    (hdrop : ∀ rec, (drop (s.branchList.addItem rec)).children =
      if s.branchList.isContainer then kept ++ [rec] else [])
    {messages messages' : List Message} {items items' : List JsonValue} {birth : String} :
    ((s.wentOn minted drop messages items birth).received codec fail).branchView codec =
        ((s.wentOn minted drop messages' items' birth).normalize codec).branchView codec ↔
      messages.mapIdx (Message.received codec (fail.within .messages)) =
          messages'.map (Message.normalize codec) ∧
        (s.Shaped → items.map (readMessage codec) = items'.map (readMessage codec)) := by
  have hbirth : branchActiveCreatedAt ((s.wentOn minted drop messages items birth).normalize codec) =
      branchActiveCreatedAt ((s.wentOn minted drop messages' items' birth).normalize codec) :=
    birth_setBranches_congr
  have hrecords : ((s.wentOn minted drop messages items birth).normalize codec).records.map
        (recordView codec) =
      ((s.wentOn minted drop messages' items' birth).normalize codec).records.map
        (recordView codec) ↔
      (s.Shaped → items.map (readMessage codec) = items'.map (readMessage codec)) := by
    obtain ⟨hshaped, hnot⟩ := @records_wentOn codec minted s drop kept hdrop
      messages items birth
    obtain ⟨hshaped', hnot'⟩ := @records_wentOn codec minted s drop kept hdrop
      messages' items' birth
    by_cases h : s.Shaped
    · rw [hshaped h, hshaped' h, List.map_append, List.map_append, List.append_cancel_left_eq]
      simp only [List.map_cons, List.map_nil, recordView_branchRecord, List.cons.injEq, and_true,
        RecordView.mk.injEq, true_and, Option.some_inj, h, true_implies]
    · rw [hnot h, hnot' h]
      exact iff_of_true rfl fun h' => absurd h' h
  rw [← hrecords]
  constructor
  · intro h
    exact ⟨congrArg BranchView.live h, congrArg BranchView.records h⟩
  · rintro ⟨hlive, hrecs⟩
    exact BranchView.ext hlive hrecs hbirth

end Views

/-! ## All or nothing -/

/-- A branch operation. -/
inductive BranchOp where
  | fork (messageId : Option String) (index : Int) (newContent : Option String)
  | switch (branchId : String)
  | tag (index : Int) (forkGroupId : String)

/-- One of the four allocations fails that build the answer of a fork after its save. -/
def answerFails (fail : Faults BranchSite) : Bool :=
  fail .answerBranchId || fail .answerMessageId || fail .answerGroupId || fail .answerMessage

theorem forkAnswer_eq_none_iff {fail : Faults BranchSite} {minted : Minted} {m : Message}
    {newContent : Option String} :
    forkAnswer fail minted m newContent = none ↔ answerFails fail = true := by
  rw [forkAnswer, answerFails]
  cases fail .answerBranchId <;> cases fail .answerMessageId <;> cases fail .answerGroupId <;>
    cases fail .answerMessage <;> simp [attempt]

section Atomic

variable (codec : JsonCodec) (fail : Faults BranchSite) (minted : Minted) (key : EncryptionKey)
  (rows : List SessionRow) (sessionId : String)

/-- What is seen of the branches of the stored session. -/
def storedBranches : Option BranchView :=
  (loadSessionLocked codec Faults.none key rows sessionId).map (Session.branchView codec)

namespace BranchOp

/-- Whether an operation succeeds, and the rows it leaves. -/
def run : BranchOp → Bool × List SessionRow
  | fork messageId index newContent =>
    let (answer, rows) := forkBranch codec fail minted key rows sessionId messageId index newContent
    (answer.isSome, rows)
  | switch branchId => switchBranch codec fail minted key rows sessionId branchId
  | tag index forkGroupId =>
    let (answer, rows) := tagMessageNew codec fail minted key rows sessionId index forkGroupId
    (answer.isSome, rows)

/-- The operation gives up before its save is through. -/
def GivesUp : BranchOp → Prop
  | fork messageId index newContent =>
    forkSaved codec fail minted key rows sessionId messageId index newContent = none
  | switch branchId => switchSaved codec fail minted key rows sessionId branchId = none
  | tag index forkGroupId => tagSaved codec fail minted key rows sessionId index forkGroupId = none

/-- The stored session after the completed operation; absent when its target is not there. -/
def completed (s : Session) : BranchOp → Option Session
  | fork messageId index newContent => do
    let fi ← branchFindForkIndex s messageId index
    let m ← s.messages[fi]?
    return (s.forked codec minted fi m newContent).normalize codec
  | switch branchId => do
    let i ← branchRecordFind s.branchList branchId
    let rec ← s.records[i]?
    match rec.member "messages" with
    | some (.array items) =>
      if codec.print (messagesJson codec s.messages) = codec.print (.array items) then some s
      else some ((s.switched codec minted i rec items).normalize codec)
    | _ => none
  | tag index forkGroupId => do
    attempt (index < 0 || s.messages.length ≤ index)
    let m ← s.messages[index.toNat]?
    return Session.normalize codec
      { s with messages := s.messages.set index.toNat (m.retagged minted forkGroupId) }

/-- **All or nothing**: an operation that fails leaves the branches of the stored session as they were,
and one that succeeds leaves those of the completed operation. -/
structure AllOrNothing (op : BranchOp) : Prop where
  nothing : (op.run codec fail minted key rows sessionId).1 = false →
    storedBranches codec key (op.run codec fail minted key rows sessionId).2 sessionId =
      storedBranches codec key rows sessionId
  all : (op.run codec fail minted key rows sessionId).1 = true →
    ∃ s t, loadSessionLocked codec Faults.none key rows sessionId = some s ∧
      op.completed codec minted s = some t ∧
      storedBranches codec key (op.run codec fail minted key rows sessionId).2 sessionId =
        some (t.branchView codec)

/-- No failure that the operation overlooks does harm to the stored session `s`: the answer of a fork
can be built, what goes into the row comes through, and a switch compares the chains as they are. -/
def Unharmed (s : Session) : BranchOp → Prop
  | fork messageId index newContent =>
    ∀ fi m, branchFindForkIndex s messageId index = some fi → s.messages[fi]? = some m →
      answerFails fail = false ∧
      ComesThrough codec (callsLost fail) (fun site => fail (.save (.messages site)))
        (s.messages.take fi ++ [m.forkCopy minted newContent]) ∧
      (s.Shaped → ComesThrough codec (callsLost fail) (fail.within .snapshot)
        (s.messages.set fi (m.tagged minted)))
  | switch branchId =>
    ∀ i rec items live, branchRecordFind s.branchList branchId = some i → s.records[i]? = some rec →
      rec.member "messages" = some (.array items) →
      messagesToJsonArray codec (fail.within .encodeLive)
        (s.messages.mapIdx (Message.loaded (callsLost fail))) = some live →
      (live = .array items ↔ messagesJson codec s.messages = .array items) ∧
      (live ≠ .array items →
        ComesThrough codec (callsLost fail) (fail.within .snapshot) s.messages ∧
        ComesThrough codec (fail.within .target) (fun site => fail (.save (.messages site)))
          (items.map (readMessage codec)))
  | tag index forkGroupId =>
    ∀ m, s.messages[index.toNat]? = some m →
      ComesThrough codec (callsLost fail) (fun site => fail (.save (.messages site)))
        (s.messages.set index.toNat (m.retagged minted forkGroupId))

/-- The operation cannot hide what it does: a fork has a place for its record, and the record of a
switch gets an id of its own. -/
def Shows (s : Session) : BranchOp → Prop
  | fork .. => s.Shaped
  | switch _ => FreshRecord minted s
  | tag .. => True

end BranchOp

variable {codec fail minted key rows sessionId} {rows' : List SessionRow} {s : Session}

/-- What an operation that gives up leaves is nothing. -/
theorem BranchOp.AllOrNothing.of_false {op : BranchOp}
    (h : op.run codec fail minted key rows sessionId = (false, rows)) :
    op.AllOrNothing codec fail minted key rows sessionId := by
  constructor
  · rw [h]
    exact fun _ => rfl
  · rw [h]
    exact fun h => Bool.noConfusion h

/-- An operation that has succeeded is all or nothing when it shows as the completed one. -/
theorem BranchOp.allOrNothing_iff_of_true {op : BranchOp} {t : Session}
    (hload : loadSessionLocked codec Faults.none key rows sessionId = some s)
    (hrun : op.run codec fail minted key rows sessionId = (true, rows'))
    (hcompleted : op.completed codec minted s = some t) :
    op.AllOrNothing codec fail minted key rows sessionId ↔
      storedBranches codec key rows' sessionId = some (t.branchView codec) := by
  constructor
  · intro h
    obtain ⟨s', t', hload', hcompleted', hstored⟩ := h.all (by rw [hrun])
    obtain rfl : s = s' := Option.some.inj (hload.symm.trans hload')
    obtain rfl : t = t' := Option.some.inj (hcompleted.symm.trans hcompleted')
    rwa [hrun] at hstored
  · intro h
    constructor
    · rw [hrun]
      exact fun h => Bool.noConfusion h
    · rw [hrun]
      exact fun _ => ⟨s, t, hload, hcompleted, h⟩

/-- What a fork stores. -/
theorem storedBranches_forkSaved {messageId : Option String} {index : Int}
    {newContent : Option String} {m' : Message}
    (h : forkSaved codec fail minted key rows sessionId messageId index newContent =
      some (m', rows')) :
    ∃ s fi m, loadSessionLocked codec Faults.none key rows sessionId = some s ∧
      branchFindForkIndex s messageId index = some fi ∧ s.messages[fi]? = some m ∧
      (storedBranches codec key rows' sessionId =
          some (((s.forked codec minted fi m newContent).normalize codec).branchView codec) ↔
        ComesThrough codec (callsLost fail) (fun site => fail (.save (.messages site)))
            (s.messages.take fi ++ [m.forkCopy minted newContent]) ∧
          (s.Shaped → ComesThrough codec (callsLost fail) (fail.within .snapshot)
            (s.messages.set fi (m.tagged minted)))) ∧
      (s.Shaped → storedBranches codec key rows' sessionId ≠
        storedBranches codec key rows sessionId) := by
  obtain ⟨s, fi, m, items, hload, hfi, hm, hitems, hload'⟩ := exists_of_forkSaved h
  have hdrop : ∀ rec, (id (s.branchList.addItem rec)).children =
      if s.branchList.isContainer then s.records ++ [rec] else [] := by
    intro rec
    split
    · next hlist => exact (JsonValue.children_addItem hlist rec).1
    · next hlist =>
      cases hvalue : s.branchList with
      | array xs => exact absurd (by rw [hvalue]; rfl) hlist
      | object ms => exact absurd (by rw [hvalue]; rfl) hlist
      | _ => rfl
  refine ⟨s, fi, m, hload, hfi, hm, ?_, fun hs => ?_⟩
  · have hread : ((s.messages.set fi (m.tagged minted)).map (messageJson codec)).map
        (readMessage codec) =
        (s.messages.set fi (m.tagged minted)).map (Message.normalize codec) :=
      map_readMessage_of_messagesJson rfl
    have hforked : s.forked codec minted fi m newContent =
        s.wentOn minted id (s.messages.take fi ++ [m.forkCopy minted newContent])
          ((s.messages.set fi (m.tagged minted)).map (messageJson codec)) (nextBirth minted s) :=
      rfl
    rw [storedBranches, hload', Option.map_some, Option.some_inj, hforked,
      branchView_wentOn_iff hdrop, hitems, hread]
    exact and_congr received_loaded_messages_iff
      (imp_congr_right fun _ => received_loaded_messages_iff)
  · rw [storedBranches, storedBranches, hload', hload, Option.map_some, Option.map_some, Ne,
      Option.some_inj]
    intro hsame
    have hrecords := congrArg (fun v : BranchView => v.records.length) hsame
    have hnew := (@records_wentOn codec minted s id s.records hdrop
      ((s.messages.take fi ++ [m.forkCopy minted newContent]).mapIdx
        (Message.loaded (callsLost fail))) items (nextBirth minted s)).1 hs
    have hlength : (((s.wentOn minted id ((s.messages.take fi ++
        [m.forkCopy minted newContent]).mapIdx (Message.loaded (callsLost fail))) items
          (nextBirth minted s)).received codec (fail.within .save)).records.map
            (recordView codec)).length = (s.records.map (recordView codec)).length := hrecords
    rw [List.length_map, List.length_map] at hlength
    have hlength' := (congrArg List.length hnew).symm.trans hlength
    rw [List.length_append, List.length_singleton] at hlength'
    omega

theorem run_fork_of_some {messageId : Option String} {index : Int} {newContent : Option String}
    {m' : Message}
    (h : forkSaved codec fail minted key rows sessionId messageId index newContent =
      some (m', rows')) :
    (BranchOp.fork messageId index newContent).run codec fail minted key rows sessionId =
      (!answerFails fail, rows') := by
  have hanswer : (forkAnswer fail minted m' newContent).isSome = !answerFails fail := by
    cases hfails : answerFails fail with
    | true => rw [forkAnswer_eq_none_iff.mpr hfails]; rfl
    | false =>
      rw [Bool.not_false, Option.isSome_iff_ne_none, Ne, forkAnswer_eq_none_iff, hfails]
      exact Bool.false_ne_true
  rw [BranchOp.run, forkBranch, h]
  exact Prod.ext hanswer rfl

/-- **Forks.** -/
theorem allOrNothing_fork (messageId : Option String) (index : Int) (newContent : Option String) :
    ((BranchOp.fork messageId index newContent).GivesUp codec fail minted key rows sessionId ∨
        (∀ s, loadSessionLocked codec Faults.none key rows sessionId = some s →
          (BranchOp.fork messageId index newContent).Unharmed codec fail minted s) →
      (BranchOp.fork messageId index newContent).AllOrNothing codec fail minted key rows
        sessionId) ∧
    ((∀ s, loadSessionLocked codec Faults.none key rows sessionId = some s → s.Shaped) →
      (BranchOp.fork messageId index newContent).AllOrNothing codec fail minted key rows sessionId →
      (BranchOp.fork messageId index newContent).GivesUp codec fail minted key rows sessionId ∨
        ∀ s, loadSessionLocked codec Faults.none key rows sessionId = some s →
          (BranchOp.fork messageId index newContent).Unharmed codec fail minted s) := by
  cases hsaved : forkSaved codec fail minted key rows sessionId messageId index newContent with
  | none =>
    have hrun : (BranchOp.fork messageId index newContent).run codec fail minted key rows sessionId =
        (false, rows) := by
      rw [BranchOp.run, forkBranch, hsaved]
      rfl
    exact ⟨fun _ => BranchOp.AllOrNothing.of_false hrun, fun _ _ => Or.inl hsaved⟩
  | some out =>
    obtain ⟨s, fi, m, hload, hfi, hm, hiff, hchanged⟩ := storedBranches_forkSaved hsaved
    have hrun := run_fork_of_some hsaved
    have hcompleted : (BranchOp.fork messageId index newContent).completed codec minted s =
        some ((s.forked codec minted fi m newContent).normalize codec) := by
      rw [BranchOp.completed, hfi]
      show (s.messages[fi]?.bind fun m => _) = _
      rw [hm]
      rfl
    constructor
    · rintro (hgives | hunharmed)
      · exact absurd (hsaved.symm.trans hgives) (by simp)
      · obtain ⟨hanswer, hthrough⟩ := hunharmed s hload fi m hfi hm
        rw [hanswer, Bool.not_false] at hrun
        exact (BranchOp.allOrNothing_iff_of_true hload hrun hcompleted).mpr (hiff.mpr hthrough)
    · intro hshaped hatomic
      refine Or.inr fun s' hload' fi' m' hfi' hm' => ?_
      obtain rfl : s = s' := Option.some.inj (hload.symm.trans hload')
      obtain rfl : fi = fi' := Option.some.inj (hfi.symm.trans hfi')
      obtain rfl : m = m' := Option.some.inj (hm.symm.trans hm')
      cases hanswer : answerFails fail with
      | true =>
        rw [hanswer, Bool.not_true] at hrun
        have hsame := hatomic.nothing (by rw [hrun])
        rw [hrun] at hsame
        exact absurd hsame (hchanged (hshaped s hload))
      | false =>
        rw [hanswer, Bool.not_false] at hrun
        exact ⟨rfl, hiff.mp
          ((BranchOp.allOrNothing_iff_of_true hload hrun hcompleted).mp hatomic)⟩

/-- A session that has a record has a place for records. -/
theorem shaped_of_record {i : Nat} {rec : JsonValue} (h : s.records[i]? = some rec) : s.Shaped := by
  have hne : s.branchList.children ≠ [] := by
    intro hnil
    rw [Session.records, hnil] at h
    exact absurd h (by simp)
  have hlist : s.branchList.isContainer = true := by
    cases hvalue : s.branchList with
    | array xs => rfl
    | object ms => rfl
    | _ => exact absurd (by rw [hvalue]; rfl) hne
  have hbranches : ∃ bs, s.branches = .object bs := by
    cases hvalue : s.branches with
    | object bs => exact ⟨bs, rfl⟩
    | _ => exact absurd (by rw [Session.branchList, hvalue]; rfl) hne
  have hmetadata : ∃ ms, s.metadata = .object ms := by
    cases hvalue : s.metadata with
    | object ms => exact ⟨ms, rfl⟩
    | _ => exact absurd (by rw [Session.branchList, Session.branches, hvalue]; rfl) hne
  exact ⟨hmetadata, hbranches, hlist⟩

theorem children_dropChild_addItem {i : Nat} {rec : JsonValue} (h : s.records[i]? = some rec)
    (rec' : JsonValue) : ((s.branchList.addItem rec').dropChild i).children =
      if s.branchList.isContainer then s.records.eraseIdx i ++ [rec'] else [] := by
  have hlist := (shaped_of_record h).list
  rw [if_pos hlist, (JsonValue.children_dropChild _ i).1, (JsonValue.children_addItem hlist rec').1]
  exact List.eraseIdx_append_of_lt_length (List.getElem?_eq_some_iff.mp h).1 _

variable (codec) in
/-- The record of a fresh id shows that a session has gone on. -/
theorem records_ne_wentOn (hfresh : FreshRecord minted s) {i : Nat} {rec : JsonValue}
    (hrec : s.records[i]? = some rec) (messages : List Message) (items : List JsonValue)
    (birth : String) :
    s.records.map (recordView codec) ≠
      ((s.wentOn minted (fun list => list.dropChild i) messages items birth).normalize
        codec).records.map (recordView codec) := by
  intro hsame
  have hrecords := (@records_wentOn codec minted s (fun list => list.dropChild i)
    (s.records.eraseIdx i) (children_dropChild_addItem hrec) messages items birth).1
      (shaped_of_record hrec)
  have hmem : recordView codec
      (branchRecord minted.recordId (branchActiveCreatedAt s) (.array items)) ∈
      s.records.map (recordView codec) := by
    rw [hsame, hrecords, List.map_append]
    exact List.mem_append_right _ (List.mem_singleton_self _)
  obtain ⟨rec', hrec', hview⟩ := List.mem_map.mp hmem
  rw [recordView_branchRecord] at hview
  exact hfresh rec' hrec' (congrArg RecordView.id hview)

/-- What a switch stores, next to the completed switch. -/
theorem storedBranches_switchSaved {branchId : String}
    (h : switchSaved codec fail minted key rows sessionId branchId = some rows') :
    ∃ s i rec items live t, loadSessionLocked codec Faults.none key rows sessionId = some s ∧
      branchRecordFind s.branchList branchId = some i ∧ s.records[i]? = some rec ∧
      rec.member "messages" = some (.array items) ∧
      messagesToJsonArray codec (fail.within .encodeLive)
        (s.messages.mapIdx (Message.loaded (callsLost fail))) = some live ∧
      (BranchOp.switch branchId).completed codec minted s = some t ∧
      ((live = .array items ↔ messagesJson codec s.messages = .array items) →
        (storedBranches codec key rows' sessionId = some (t.branchView codec) ↔
          (live ≠ .array items →
            ComesThrough codec (callsLost fail) (fail.within .snapshot) s.messages ∧
            ComesThrough codec (fail.within .target) (fun site => fail (.save (.messages site)))
              (items.map (readMessage codec))))) ∧
      (FreshRecord minted s → storedBranches codec key rows' sessionId = some (t.branchView codec) →
        (live = .array items ↔ messagesJson codec s.messages = .array items)) := by
  obtain ⟨s, i, rec, items, live, hload, hi, hrec, hitems, hlive, hcase⟩ := exists_of_switchSaved h
  have hs : s.Shaped := shaped_of_record hrec
  have hdrop := children_dropChild_addItem hrec
  have hcompleted : (BranchOp.switch branchId).completed codec minted s =
      if codec.print (messagesJson codec s.messages) = codec.print (.array items) then some s
      else some ((s.switched codec minted i rec items).normalize codec) := by
    have hget : s.records[i]?.bind (fun rec =>
        match rec.member "messages" with
        | some (.array items) =>
          if codec.print (messagesJson codec s.messages) = codec.print (.array items) then some s
          else some ((s.switched codec minted i rec items).normalize codec)
        | _ => none) =
        if codec.print (messagesJson codec s.messages) = codec.print (.array items) then some s
        else some ((s.switched codec minted i rec items).normalize codec) := by
      rw [hrec, Option.bind_some, hitems]
    rw [BranchOp.completed, hi]
    exact hget
  have hswitched : s.switched codec minted i rec items =
      s.wentOn minted (fun list => list.dropChild i) (items.map (readMessage codec))
        (s.messages.map (messageJson codec)) (recordBirth minted s rec) := rfl
  have hread : (s.messages.map (messageJson codec)).map (readMessage codec) =
      s.messages.map (Message.normalize codec) := map_readMessage_of_messagesJson rfl
  by_cases hsame : messagesJson codec s.messages = .array items
  · -- the record holds the live chain, so that the completed switch does nothing
    rw [if_pos (congrArg codec.print hsame)] at hcompleted
    refine ⟨s, i, rec, items, live, s, hload, hi, hrec, hitems, hlive, hcompleted, fun hiff => ?_,
      fun hfresh hstored => ?_⟩
    · obtain ⟨-, rfl⟩ | ⟨hother, -⟩ := hcase
      · rw [storedBranches, hload]
        exact iff_of_true rfl fun hother => absurd (hiff.mpr hsame) hother
      · exact absurd (hiff.mpr hsame) hother
    · obtain ⟨hlike, -⟩ | ⟨-, written, -, hload'⟩ := hcase
      · exact iff_of_true hlike hsame
      · rw [storedBranches, hload', Option.map_some, Option.some_inj] at hstored
        exact absurd (congrArg BranchView.records hstored).symm
          (records_ne_wentOn codec hfresh hrec _ written _)
  · rw [if_neg fun hprint => hsame (codec.print_injective hprint)] at hcompleted
    refine ⟨s, i, rec, items, live, _, hload, hi, hrec, hitems, hlive, hcompleted, fun hiff => ?_,
      fun hfresh hstored => ?_⟩
    · have hother : live ≠ .array items := fun hlike => hsame (hiff.mp hlike)
      obtain ⟨hlike, -⟩ | ⟨-, written, hwritten, hload'⟩ := hcase
      · exact absurd hlike hother
      · rw [storedBranches, hload', Option.map_some, Option.some_inj, hswitched,
          branchView_wentOn_iff hdrop, hwritten, hread]
        constructor
        · exact fun hview _ => ⟨received_loaded_messages_iff.mp (hview.2 hs),
            received_loaded_messages_iff.mp hview.1⟩
        · exact fun hthrough => ⟨received_loaded_messages_iff.mpr (hthrough hother).2,
            fun _ => received_loaded_messages_iff.mpr (hthrough hother).1⟩
    · obtain ⟨hlike, rfl⟩ | ⟨hother, -⟩ := hcase
      · rw [storedBranches, hload, Option.map_some, Option.some_inj] at hstored
        exact absurd (congrArg BranchView.records hstored)
          (records_ne_wentOn codec hfresh hrec _ (s.messages.map (messageJson codec)) _)
      · exact iff_of_false hother hsame

/-- **Switches.** -/
theorem allOrNothing_switch (branchId : String) :
    ((BranchOp.switch branchId).GivesUp codec fail minted key rows sessionId ∨
        (∀ s, loadSessionLocked codec Faults.none key rows sessionId = some s →
          (BranchOp.switch branchId).Unharmed codec fail minted s) →
      (BranchOp.switch branchId).AllOrNothing codec fail minted key rows sessionId) ∧
    ((∀ s, loadSessionLocked codec Faults.none key rows sessionId = some s →
        FreshRecord minted s) →
      (BranchOp.switch branchId).AllOrNothing codec fail minted key rows sessionId →
      (BranchOp.switch branchId).GivesUp codec fail minted key rows sessionId ∨
        ∀ s, loadSessionLocked codec Faults.none key rows sessionId = some s →
          (BranchOp.switch branchId).Unharmed codec fail minted s) := by
  cases hsaved : switchSaved codec fail minted key rows sessionId branchId with
  | none =>
    have hrun : (BranchOp.switch branchId).run codec fail minted key rows sessionId =
        (false, rows) := by
      rw [BranchOp.run, switchBranch, hsaved]
    exact ⟨fun _ => BranchOp.AllOrNothing.of_false hrun, fun _ _ => Or.inl hsaved⟩
  | some rows' =>
    obtain ⟨s, i, rec, items, live, t, hload, hi, hrec, hitems, hlive, hcompleted, hiff, hverdict⟩ :=
      storedBranches_switchSaved hsaved
    have hrun : (BranchOp.switch branchId).run codec fail minted key rows sessionId =
        (true, rows') := by
      rw [BranchOp.run, switchBranch, hsaved]
    rw [BranchOp.allOrNothing_iff_of_true hload hrun hcompleted]
    constructor
    · rintro (hgives | hunharmed)
      · exact absurd (hsaved.symm.trans hgives) (by simp)
      · obtain ⟨hsame, hthrough⟩ := hunharmed s hload i rec items live hi hrec hitems hlive
        exact (hiff hsame).mpr hthrough
    · intro hfresh hstored
      refine Or.inr fun s' hload' i' rec' items' live' hi' hrec' hitems' hlive' => ?_
      obtain rfl : s = s' := Option.some.inj (hload.symm.trans hload')
      obtain rfl : i = i' := Option.some.inj (hi.symm.trans hi')
      obtain rfl : rec = rec' := Option.some.inj (hrec.symm.trans hrec')
      obtain rfl : items = items' := JsonValue.array.inj
        (Option.some.inj (hitems.symm.trans hitems'))
      obtain rfl : live = live' := Option.some.inj (hlive.symm.trans hlive')
      have hsame := hverdict (hfresh s hload) hstored
      exact ⟨hsame, (hiff hsame).mp hstored⟩

/-- **Tags.** -/
theorem allOrNothing_tag_iff (index : Int) (forkGroupId : String) :
    (BranchOp.tag index forkGroupId).AllOrNothing codec fail minted key rows sessionId ↔
      (BranchOp.tag index forkGroupId).GivesUp codec fail minted key rows sessionId ∨
        ∀ s, loadSessionLocked codec Faults.none key rows sessionId = some s →
          (BranchOp.tag index forkGroupId).Unharmed codec fail minted s := by
  cases hsaved : tagSaved codec fail minted key rows sessionId index forkGroupId with
  | none =>
    have hrun : (BranchOp.tag index forkGroupId).run codec fail minted key rows sessionId =
        (false, rows) := by
      rw [BranchOp.run, tagMessageNew, hsaved]
      rfl
    exact iff_of_true (BranchOp.AllOrNothing.of_false hrun) (Or.inl hsaved)
  | some rows' =>
    obtain ⟨s, m, hload, hindex, hm, hload'⟩ := exists_of_tagSaved hsaved
    have hrun : (BranchOp.tag index forkGroupId).run codec fail minted key rows sessionId =
        (true, rows') := by
      rw [BranchOp.run, tagMessageNew, hsaved]
      rfl
    have hin : (decide (index < 0) || decide ((s.messages.length : Int) ≤ index)) = false := by
      rw [Bool.eq_false_iff, Ne, Bool.or_eq_true, decide_eq_true_iff, decide_eq_true_iff]
      exact hindex
    have hcompleted : (BranchOp.tag index forkGroupId).completed codec minted s =
        some (Session.normalize codec
          { s with messages := s.messages.set index.toNat (m.retagged minted forkGroupId) }) := by
      rw [BranchOp.completed, hin, hm]
      rfl
    rw [BranchOp.allOrNothing_iff_of_true hload hrun hcompleted, storedBranches, hload',
      Option.map_some, Option.some_inj]
    constructor
    · intro hview
      refine Or.inr fun s' hload'' m' hm' => ?_
      obtain rfl : s = s' := Option.some.inj (hload.symm.trans hload'')
      obtain rfl : m = m' := Option.some.inj (hm.symm.trans hm')
      exact received_loaded_messages_iff.mp (congrArg BranchView.live hview)
    · rintro (hgives | hunharmed)
      · exact absurd (hsaved.symm.trans hgives) (by simp)
      · exact BranchView.ext (received_loaded_messages_iff.mpr (hunharmed s hload m hm)) rfl rfl

variable (codec fail minted key rows sessionId) in
/-- **Branch operations are all or nothing** when no failure that they overlook does harm; and they
are not otherwise, as far as they cannot hide what they do. -/
theorem allOrNothing_of_unharmed (op : BranchOp) :
    (op.GivesUp codec fail minted key rows sessionId ∨
        (∀ s, loadSessionLocked codec Faults.none key rows sessionId = some s →
          op.Unharmed codec fail minted s) →
      op.AllOrNothing codec fail minted key rows sessionId) ∧
    ((∀ s, loadSessionLocked codec Faults.none key rows sessionId = some s → op.Shows minted s) →
      op.AllOrNothing codec fail minted key rows sessionId →
      op.GivesUp codec fail minted key rows sessionId ∨
        ∀ s, loadSessionLocked codec Faults.none key rows sessionId = some s →
          op.Unharmed codec fail minted s) := by
  cases op with
  | fork messageId index newContent => exact allOrNothing_fork messageId index newContent
  | switch branchId => exact allOrNothing_switch branchId
  | tag index forkGroupId =>
    have hiff : (BranchOp.tag index forkGroupId).AllOrNothing codec fail minted key rows
        sessionId ↔ _ := allOrNothing_tag_iff index forkGroupId
    exact ⟨hiff.mpr, fun _ => hiff.mp⟩

end Atomic

/-! ## An example -/

theorem comesThrough_none (msgs : List Message) :
    ComesThrough textCodec (callsLost Faults.none) Faults.none msgs :=
  ⟨fun _ _ _ _ => rfl, intact_none msgs⟩

/-- A fork in which nothing fails. -/
theorem allOrNothing_firstFork :
    (BranchOp.fork none 0 none).AllOrNothing textCodec Faults.none firstFork helloKey
      (helloRows (.object [])) "session_1" := by
  refine (allOrNothing_of_unharmed textCodec Faults.none firstFork helloKey (helloRows (.object []))
    "session_1" (BranchOp.fork none 0 none)).1 (Or.inr fun s _ fi m _ _ => ⟨rfl, ?_, fun _ => ?_⟩)
  · exact comesThrough_none _
  · exact comesThrough_none _

/-- The answer of a fork is not needed for its save. -/
theorem forkSaved_answerLost (minted : Minted) (key : EncryptionKey) (rows : List SessionRow)
    (sessionId : String) (messageId : Option String) (index : Int) (newContent : Option String) :
    forkSaved codec (fun site => site == .answerBranchId) minted key rows sessionId messageId index
        newContent =
      forkSaved codec Faults.none minted key rows sessionId messageId index newContent := by
  have hload : Faults.within (fun site => site == BranchSite.answerBranchId) .load =
      Faults.none := rfl
  have hsave : Faults.within (fun site => site == BranchSite.answerBranchId) .save =
      Faults.none := rfl
  have hfork : ∀ s fi m, branchDoFork codec (fun site => site == .answerBranchId) minted s fi m
      newContent = branchDoFork codec Faults.none minted s fi m newContent := by
    intro s fi m
    simp only [branchDoFork, branchListEnsure, branchRecordSnapshotLive, branchRecordCreate]
    rfl
  rw [forkSaved, forkSaved, hload, Faults.within_none]
  simp only [hfork, saveSessionNolock, hsave, Faults.within_none]

theorem length_records_newSession :
    ((helloSession (.object [])).normalize textCodec).records.length = 0 := by
  rw [Session.records, shaped_helloSession.branchList_normalize]
  rfl

/-- A fork whose answer cannot be built returns -1 and is stored. -/
theorem not_allOrNothing_lostAnswer :
    ¬ ∀ (codec : JsonCodec) (fail : Faults BranchSite) (minted : Minted) (key : EncryptionKey)
        (rows : List SessionRow) (sessionId : String) (op : BranchOp),
        op.AllOrNothing codec fail minted key rows sessionId := by
  intro h
  have hatomic := h textCodec (fun site => site == .answerBranchId) firstFork helloKey
    (helloRows (.object [])) "session_1" (.fork none 0 none)
  let s := (helloSession (.object [])).normalize textCodec
  have hs : s.Shaped := shaped_helloSession.shaped_normalize
  have hload : loadSessionLocked textCodec Faults.none helloKey (helloRows (.object []))
      "session_1" = some s := load_helloRows (.object [])
  have hfi : branchFindForkIndex s none 0 = some 0 := rfl
  have hfits : (s.forked textCodec firstFork 0 (helloTagged "message_1" none) none).storable
      textCodec = true :=
    storable_of_length (by decide +kernel) (by decide +kernel) (by decide +kernel)
  have hm : s.messages[0]? = some (helloTagged "message_1" none) := rfl
  obtain ⟨rows', hsaved, hload'⟩ := exists_forkSaved (by decide) hload hfi hm hfits
  have hrun : (BranchOp.fork none 0 none).run textCodec (fun site => site == .answerBranchId)
      firstFork helloKey (helloRows (.object [])) "session_1" = (false, rows') := by
    rw [BranchOp.run, forkBranch, forkSaved_answerLost, hsaved]
    rfl
  have hnothing := hatomic.nothing (by rw [hrun])
  rw [hrun, storedBranches, storedBranches, hload', load_helloRows, Option.map_some,
    Option.map_some, Option.some_inj] at hnothing
  have hlength := congrArg (fun v => v.records.length) hnothing
  obtain ⟨hforked, hrecords⟩ := @Session.Shaped.forked textCodec firstFork s hs 0
    (helloTagged "message_1" none) none
  simp only [Session.branchView, List.length_map] at hlength
  rw [length_records_newSession, Session.records, hforked.branchList_normalize, ← Session.records,
    hrecords, List.length_append, List.length_singleton] at hlength
  omega

end EchoAi
