import EchoAi.Session.SessionIntact

/-!
# Branches of a conversation

The live chain of a session is its message list.  Every other chain lives as a record in the array
`branches.list` of the session's metadata, with its id, the time of its birth and its messages; the
birth of the live chain is `branches.active_created_at`.

* `forkBranch` records the live chain and goes on with a copy of one of its messages;
  `switchBranch` exchanges the live chain with a recorded one; `tagMessageNew` gives a live message a
  new identity.  Each loads the session, works on the copy and saves it.
* `Minted`: the ids that an operation draws and its readings of the clock.
* `BranchSite`: the operations that may fail.

A record is looked up among the children of the list, whatever the metadata looks like.  What is hung
below a value that is neither an object nor an array is never printed, and so it is not there any
more in a saved session.
-/

namespace EchoAi

/-- What an operation draws from outside: ids and readings of the clock. -/
structure Minted where
  messageId : String
  groupId : String
  recordId : String
  clock : Nat → String

/-- The operations on branches that may fail. -/
inductive BranchSite where
  | load (s : LoadSite)
  /-- creating the object of the branches -/
  | branches
  /-- creating the list of records -/
  | list
  | mintMessageId
  /-- minting the fork group, or copying the one that is there -/
  | group
  /-- copying the message at the fork point -/
  | copyMessage
  | copyId
  | copyGroup
  | copyContent
  /-- giving the message at the fork point the group -/
  | tagGroup
  /-- giving the message at the fork point an id -/
  | tagId
  | snapshot (s : EncodeSite)
  | activeCreatedAt
  /-- creating a record with its id -/
  | record
  /-- adding a member to a record -/
  | recordMember (name : String)
  | appendRecord
  /-- reading the clock -/
  | now (i : Nat)
  | setActive
  | save (s : SaveSite)
  | answerBranchId
  | answerMessageId
  | answerGroupId
  | answerMessage
  | printTarget
  | encodeLive (s : EncodeSite)
  | printLive
  /-- reading the messages of a record -/
  | target (s : DecodeSite)
  deriving DecidableEq, Repr

section Codec

variable (codec : JsonCodec) (fail : Faults BranchSite) (minted : Minted)

/-! ## Records -/

namespace Session

/-- The object of the branches, empty when there is none yet. -/
def branches (s : Session) : JsonValue := (s.metadata.member "branches").getD (.object [])

/-- The list of the records, empty when there is none yet. -/
def branchList (s : Session) : JsonValue := (s.branches.member "list").getD (.array [])

/-- The session with another list of records and another birth of the live chain. -/
def setBranches (s : Session) (list : JsonValue) (activeCreatedAt : String) : Session :=
  { s with
    metadata := s.metadata.putMember "branches"
      (((s.branches.putMember "list" list).eraseMember "active_created_at").addMember
        "active_created_at" (.string activeCreatedAt)) }

end Session

/-- `branch_list_ensure`. -/
def branchListEnsure (s : Session) : Option JsonValue := do
  attempt ((s.metadata.member "branches").isNone && fail .branches)
  attempt ((s.branches.member "list").isNone && fail .list)
  return s.branchList

/-- `branch_active_created_at`: the birth of the live chain, by default that of the session. -/
def branchActiveCreatedAt (s : Session) : String :=
  ((s.branches.member "active_created_at").bind JsonValue.stringValue).getD s.createdAt

/-- The first reading of the clock from the `i`-th on that is past `prev`, or the last of `n` more. -/
def readPast (clock : Nat → String) (prev : String) : Nat → Nat → Option String
  | 0, i => some (clock i)
  | n + 1, i =>
    if clock i ≤ prev then do
      attempt (fail (.now (i + 1)))
      readPast clock prev n (i + 1)
    else some (clock i)

/-- `branch_next_created_at`: a time past the birth of the live chain. -/
def branchNextCreatedAt (s : Session) : Option String := do
  attempt (fail (.now 0))
  attempt (fail .activeCreatedAt)
  readPast fail minted.clock (branchActiveCreatedAt s) 16 0

/-- The record of a chain. -/
def branchRecord (id createdAt : String) (snapshot : JsonValue) : JsonValue :=
  .object [("id", .string id), ("created_at", .string createdAt), ("messages", snapshot)]

/-- `branch_record_create`. -/
def branchRecordCreate (createdAt : String) (snapshot : JsonValue) : Option JsonValue := do
  attempt (fail .record)
  attempt (fail (.recordMember "id"))
  attempt (fail (.recordMember "created_at"))
  attempt (fail (.recordMember "messages"))
  return branchRecord minted.recordId createdAt snapshot

/-- `branch_record_snapshot_live`: the list with a record of the live chain. -/
def branchRecordSnapshotLive (s : Session) (list : JsonValue) : Option JsonValue := do
  attempt (fail .activeCreatedAt)
  let snapshot ← messagesToJsonArray codec (fail.within .snapshot) s.messages
  let rec ← branchRecordCreate fail minted (branchActiveCreatedAt s) snapshot
  attempt (fail .appendRecord)
  return list.addItem rec

/-- `branch_record_find`: the position of the record with an id. -/
def branchRecordFind (list : JsonValue) (branchId : String) : Option Nat :=
  list.children.findIdx? fun rec =>
    (rec.member "id").bind JsonValue.stringValue == some branchId

/-- `session_manager_save_session_nolock`. -/
def saveSessionNolock (key : EncryptionKey) (rows : List SessionRow) (s : Session) :
    Option (List SessionRow) := do
  attempt (s.id == "")
  saveSessionCoreLocked codec (fail.within .save) key rows s

/-! ## Forking -/

/-- `branch_find_fork_index`: by message id when it is given and found, else by index. -/
def branchFindForkIndex (s : Session) (messageId : Option String) (index : Int) : Option Nat :=
  match messageId.bind fun id => s.messages.findIdx? fun m => m.id == some id with
  | some i => some i
  | none => if 0 ≤ index ∧ index < s.messages.length then some index.toNat else none

/-- The group of a fork at a message: the one it has, else the minted one. -/
def Message.forkGroup (m : Message) : String := m.forkGroupId.getD minted.groupId

/-- The message at the fork point as it stays behind. -/
def Message.tagged (m : Message) : Message :=
  { m with id := some (m.id.getD minted.messageId), forkGroupId := some (m.forkGroup minted) }

/-- The message with which the new chain goes on. -/
def Message.forkCopy (newContent : Option String) (m : Message) : Message :=
  { m with
    id := some minted.messageId
    forkGroupId := some (m.forkGroup minted)
    content := newContent.or m.content }

/-- `branch_do_fork` up to its save: the session with the live chain recorded and cut at the fork
point. -/
def branchDoFork (s : Session) (fi : Nat) (m : Message) (newContent : Option String) :
    Option Session := do
  let list ← branchListEnsure fail s
  attempt (fail .mintMessageId)
  attempt (fail .group)
  attempt (fail .copyMessage)
  attempt (fail .copyId)
  attempt (fail .copyGroup)
  attempt (newContent.isSome && fail .copyContent)
  attempt (m.forkGroupId.isNone && fail .tagGroup)
  attempt (m.id.isNone && fail .tagId)
  let list' ← branchRecordSnapshotLive codec fail minted
    { s with messages := s.messages.set fi (m.tagged minted) } list
  let now ← branchNextCreatedAt fail minted s
  attempt (fail .setActive)
  return { s with messages := s.messages.take fi ++ [m.forkCopy minted newContent] }.setBranches
    list' now

/-- `SessionManagerForkResult`. -/
structure ForkResult where
  branchId : String
  forkMessageId : String
  forkGroupId : String
  forkMessage : Message
  deriving DecidableEq, Repr

/-- The answer of a fork, built after its save. -/
def forkAnswer (m : Message) (newContent : Option String) : Option ForkResult := do
  attempt (fail .answerBranchId)
  attempt (fail .answerMessageId)
  attempt (fail .answerGroupId)
  attempt (fail .answerMessage)
  return { branchId := minted.recordId, forkMessageId := minted.messageId,
           forkGroupId := m.forkGroup minted, forkMessage := m.forkCopy minted newContent }

section Store

variable (key : EncryptionKey) (rows : List SessionRow) (sessionId : String)

/-- A fork up to and including its save, with the message at the fork point. -/
def forkSaved (messageId : Option String) (index : Int) (newContent : Option String) :
    Option (Message × List SessionRow) := do
  let s ← loadSessionLocked codec (fail.within .load) key rows sessionId
  let fi ← branchFindForkIndex s messageId index
  let m ← s.messages[fi]?
  let s' ← branchDoFork codec fail minted s fi m newContent
  let rows' ← saveSessionNolock codec fail key rows s'
  return (m, rows')

/-- `session_manager_fork_branch`: its answer, absent when it returns -1, and the rows it leaves. -/
def forkBranch (messageId : Option String) (index : Int) (newContent : Option String) :
    Option ForkResult × List SessionRow :=
  match forkSaved codec fail minted key rows sessionId messageId index newContent with
  | none => (none, rows)
  | some (m, rows') => (forkAnswer fail minted m newContent, rows')

/-! ## Switching -/

/-- The birth of the chain of a record; a record without one is born now. -/
def switchBirth (s : Session) (rec : JsonValue) : Option String :=
  match (rec.member "created_at").bind JsonValue.stringValue with
  | some birth => some birth
  | none => branchNextCreatedAt fail minted s

/-- The session with the `i`-th record live and the live chain recorded. -/
def switchTo (s : Session) (i : Nat) (rec snapshot : JsonValue) : Option Session := do
  let list ← branchRecordSnapshotLive codec fail minted s s.branchList
  let messages ← sessionDeserializeMessages codec (fail.within .target) (codec.print snapshot)
  let birth ← switchBirth fail minted s rec
  attempt (fail .setActive)
  return { s with messages }.setBranches (list.dropChild i) birth

/-- `session_manager_switch_branch`: the rows it leaves, absent when it returns -1.  A switch to a chain
that reads like the live one does nothing. -/
def switchSaved (branchId : String) : Option (List SessionRow) := do
  let s ← loadSessionLocked codec (fail.within .load) key rows sessionId
  let list ← branchListEnsure fail s
  let i ← branchRecordFind list branchId
  let rec ← list.children[i]?
  let snapshot ← rec.member "messages"
  attempt (!snapshot.isArray)
  attempt (fail .printTarget)
  let live ← messagesToJsonArray codec (fail.within .encodeLive) s.messages
  attempt (fail .printLive)
  if codec.print live = codec.print snapshot then return rows
  else (switchTo codec fail minted s i rec snapshot).bind (saveSessionNolock codec fail key rows)

/-- `session_manager_switch_branch`: whether it returns 0, and the rows it leaves. -/
def switchBranch (branchId : String) : Bool × List SessionRow :=
  match switchSaved codec fail minted key rows sessionId branchId with
  | none => (false, rows)
  | some rows' => (true, rows')

/-! ## Tagging -/

/-- `session_manager_tag_message_new` up to and including its save. -/
def tagSaved (index : Int) (forkGroupId : String) : Option (List SessionRow) := do
  let s ← loadSessionLocked codec (fail.within .load) key rows sessionId
  attempt (index < 0 || s.messages.length ≤ index)
  let m ← s.messages[index.toNat]?
  attempt (fail .mintMessageId)
  attempt (m.forkGroupId.isNone && fail .tagGroup)
  attempt (fail .answerMessageId)
  saveSessionNolock codec fail key rows
    { s with
      messages := s.messages.set index.toNat
        { m with id := some minted.messageId, forkGroupId := some (m.forkGroupId.getD forkGroupId) } }

/-- `session_manager_tag_message_new`: the new id, absent when it returns NULL, and the rows it
leaves. -/
def tagMessageNew (index : Int) (forkGroupId : String) : Option String × List SessionRow :=
  match tagSaved codec fail minted key rows sessionId index forkGroupId with
  | none => (none, rows)
  | some rows' => (some minted.messageId, rows')

end Store

end Codec

end EchoAi
