import EchoAi.Server.WebSocket
import EchoAi.Splicing

/-!
# Frames in one buffer and in several

What the reader does to a buffer of whole frames, and what becomes of the frames when the stream is
cut between them in one way or another.

* `readFrames`, `wsReadCb_stream`: the reader on whole frames.
* `messages`, `writes`, `visible`: what a client sees and the agent hears of it.
* `ClientFrame.Undisturbed`, `serves_iff`: when one buffer is served as it should be.
* `ClientFrame.Heard`, `WholeFrames`, `wsReads_cut`: when the cut of a stream makes no difference.

A ping or a pong ends the work on a buffer, and a frame that is not there as a whole is forgotten, so
neither holds without a condition (`not_serves_ping_hi`, `not_wsReads_cut`).
-/

namespace EchoAi

/-! ## The reader on whole frames -/

/-- The reader on whole frames. -/
def readFrames (ws : WSClient) : List ClientFrame → WSClient × List WsAction
  | [] => (ws, [])
  | f :: fs =>
    if f.opcode = 0x8 then wsNotifyClose ws
    else if f.opcode = 0x9 then (ws, wsSendControl ws 0xA f.payload)
    else if f.opcode = 0xA then (ws, [.lastPong])
    else if f.opcode = 0x1 ∨ f.opcode = 0x2 then
      ((readFrames ws fs).1, wsDeliver ws f.data ++ (readFrames ws fs).2)
    else readFrames ws fs

theorem wsReadLoop_stream (ws : WSClient) (fs : List ClientFrame) (fuel : Nat)
    (hfuel : (ClientFrame.stream fs).length ≤ fuel) :
    wsReadLoop ws fuel (ClientFrame.stream fs) = readFrames ws fs := by
  induction fs generalizing fuel with
  | nil => exact wsReadLoop_nil ws fuel
  | cons f fs ih =>
    rw [ClientFrame.stream_cons, List.length_append] at hfuel
    have hpos := f.length_bytes_pos
    obtain ⟨fuel, rfl⟩ : ∃ n, fuel = n + 1 := ⟨fuel - 1, by omega⟩
    rw [ClientFrame.stream_cons, wsReadLoop_frame, ih fuel (by omega), readFrames]

/-- A buffer of whole frames is read frame by frame. -/
theorem wsReadCb_stream (ws : WSClient) (fs : List ClientFrame) :
    wsReadCb ws (.bytes (ClientFrame.stream fs)) = readFrames ws fs :=
  wsReadLoop_stream ws fs _ le_rfl

/-! ## What is seen of it -/

/-- The texts that `on_message` gets. -/
def messages (actions : List WsAction) : List (List UInt8) :=
  actions.filterMap fun a => match a with | .message text => some text | _ => none

/-- The frames that go out. -/
def writes (actions : List WsAction) : List (List UInt8) :=
  actions.filterMap fun a => match a with | .write frame => some frame | _ => none

/-- The messages and the frames that go out, in their order. -/
def visible (actions : List WsAction) : List WsAction :=
  actions.filter fun a => match a with | .message _ => true | .write _ => true | _ => false

theorem messages_append (as bs : List WsAction) :
    messages (as ++ bs) = messages as ++ messages bs :=
  List.filterMap_append

theorem writes_append (as bs : List WsAction) : writes (as ++ bs) = writes as ++ writes bs :=
  List.filterMap_append

theorem visible_append (as bs : List WsAction) : visible (as ++ bs) = visible as ++ visible bs :=
  List.filter_append as bs

theorem messages_wsNotifyClose (ws : WSClient) : messages (wsNotifyClose ws).2 = [] := by
  rw [wsNotifyClose]
  split
  · rfl
  · rfl

theorem writes_wsNotifyClose (ws : WSClient) : writes (wsNotifyClose ws).2 = [] := by
  rw [wsNotifyClose]
  split
  · rfl
  · rfl

section Open

variable {ws : WSClient} (hhandle : ws.handle = true) (honMessage : ws.onMessage = true)

include hhandle in
theorem wsSendControl_of_le (opcode : UInt8) {payload : List UInt8} (hlen : payload.length ≤ 125) :
    wsSendControl ws opcode payload = [.write (controlFrame opcode payload)] := by
  have hshort : decide (125 < payload.length) = false := decide_eq_false (by omega)
  rw [wsSendControl, hhandle, hshort]
  rfl

theorem wsSendControl_of_lt (opcode : UInt8) {payload : List UInt8} (hlen : 125 < payload.length) :
    wsSendControl ws opcode payload = [] := by
  rw [wsSendControl, decide_eq_true hlen, Bool.or_true, if_pos rfl]

include honMessage in
theorem wsDeliver_eq (text : List UInt8) : wsDeliver ws text = [.message text] := by
  rw [wsDeliver, honMessage, if_pos rfl]

end Open

theorem controlFrame_inj {opcode : UInt8} {p q : List UInt8} :
    controlFrame opcode p = controlFrame opcode q ↔ p = q := by
  constructor
  · intro h
    rw [controlFrame, controlFrame, List.cons_inj_right] at h
    exact (List.cons.inj h).2
  · exact congrArg _

/-! ## One buffer -/

namespace ClientFrame

/-- A frame carries text or binary data. -/
def IsData (f : ClientFrame) : Prop := f.opcode = 0x1 ∨ f.opcode = 0x2

/-- A frame is a ping or a pong. -/
def IsControl (f : ClientFrame) : Prop := f.opcode = 0x9 ∨ f.opcode = 0xA

instance (f : ClientFrame) : Decidable f.IsData := inferInstanceAs (Decidable (_ ∨ _))

instance (f : ClientFrame) : Decidable f.IsControl := inferInstanceAs (Decidable (_ ∨ _))

/-- The frames before the first close. -/
def untilClose (fs : List ClientFrame) : List ClientFrame := fs.takeWhile fun f => f.opcode ≠ 0x8

/-- The messages that a frame should bring. -/
def message (f : ClientFrame) : List (List UInt8) := if f.IsData then [f.data] else []

/-- The pongs that should answer a frame. -/
def pong (f : ClientFrame) : List (List UInt8) :=
  if f.opcode = 0x9 then [controlFrame 0xA f.data] else []

/-- The frames behind the first ping or pong. -/
def behindControl (fs : List ClientFrame) : List ClientFrame :=
  (fs.dropWhile fun f => ¬f.IsControl).tail

theorem behindControl_of_control {f : ClientFrame} (hf : f.IsControl) (fs : List ClientFrame) :
    behindControl (f :: fs) = fs := by
  rw [behindControl, List.dropWhile_cons_of_neg (by simpa using hf), List.tail_cons]

theorem behindControl_of_not_control {f : ClientFrame} (hf : ¬f.IsControl)
    (fs : List ClientFrame) : behindControl (f :: fs) = behindControl fs := by
  rw [behindControl, List.dropWhile_cons_of_pos (by simpa using hf), behindControl]

/-- The first ping or pong, if it is a ping, is short and its data are sent as they are: every byte
of the key that is used is zero. -/
def EchoesFirst (fs : List ClientFrame) : Prop :=
  ∀ f ∈ fs.find? (fun f => f.IsControl), f.opcode = 0x9 →
    f.data.length ≤ 125 ∧ ∀ i < f.data.length, cyclicByte f.key i = 0

/-- The control frames do not disturb: the first one is echoed as it should be, and no data and no
ping stand behind it. -/
def Undisturbed (fs : List ClientFrame) : Prop :=
  EchoesFirst fs ∧ ∀ f ∈ behindControl fs, ¬f.IsData ∧ f.opcode ≠ 0x9

theorem undisturbed_of_not_control {f : ClientFrame} (hf : ¬f.IsControl)
    (fs : List ClientFrame) : Undisturbed (f :: fs) ↔ Undisturbed fs := by
  rw [Undisturbed, EchoesFirst, behindControl_of_not_control hf,
    List.find?_cons_of_neg (by simpa using hf), Undisturbed, EchoesFirst]

theorem undisturbed_of_control {f : ClientFrame} (hf : f.IsControl) (fs : List ClientFrame) :
    Undisturbed (f :: fs) ↔
      (f.opcode = 0x9 → f.data.length ≤ 125 ∧ ∀ i < f.data.length, cyclicByte f.key i = 0) ∧
        ∀ g ∈ fs, ¬g.IsData ∧ g.opcode ≠ 0x9 := by
  rw [Undisturbed, EchoesFirst, behindControl_of_control hf,
    List.find?_cons_of_pos (by simpa using hf)]
  simp only [Option.mem_def, Option.some.injEq, forall_eq']

theorem message_eq_nil_iff (f : ClientFrame) : f.message = [] ↔ ¬f.IsData := by
  rw [message]
  split
  · simp [*]
  · simp [*]

theorem pong_eq_nil_iff (f : ClientFrame) : f.pong = [] ↔ f.opcode ≠ 0x9 := by
  rw [pong]
  split
  · simp [*]
  · simp [*]

/-- Frames that should bring nothing. -/
theorem quiet_iff (fs : List ClientFrame) :
    (∀ f ∈ fs, ¬f.IsData ∧ f.opcode ≠ 0x9) ↔ fs.flatMap message = [] ∧ fs.flatMap pong = [] := by
  simp only [List.flatMap_eq_nil_iff, message_eq_nil_iff, pong_eq_nil_iff, forall_and]

end ClientFrame

open ClientFrame

section Serve

variable (ws : WSClient)

/-- A connection serves a buffer as it should: it brings the messages of the frames before the first
close, and every ping among them gets a pong with its data. -/
def Serves (fs : List ClientFrame) : Prop :=
  messages (wsReadCb ws (.bytes (stream fs))).2 = (untilClose fs).flatMap message ∧
    writes (wsReadCb ws (.bytes (stream fs))).2 = (untilClose fs).flatMap pong

variable {ws}

/-- A ping at the front of a buffer. -/
theorem serves_ping (hhandle : ws.handle = true) (f : ClientFrame) (fs : List ClientFrame)
    (hf : f.opcode = 0x9) :
    messages (wsSendControl ws 0xA f.payload) = (f :: fs).flatMap message ∧
        writes (wsSendControl ws 0xA f.payload) = (f :: fs).flatMap pong ↔
      Undisturbed (f :: fs) := by
  have hdata : ¬f.IsData := by
    rw [IsData, hf]
    decide
  have hmessage : f.message = [] := (message_eq_nil_iff f).2 hdata
  have hpong : f.pong = [controlFrame 0xA f.data] := by rw [pong, if_pos hf]
  rw [undisturbed_of_control (Or.inl hf), quiet_iff, List.flatMap_cons, List.flatMap_cons, hmessage,
    hpong, List.nil_append]
  by_cases hlen : f.data.length ≤ 125
  · have hsend := @wsSendControl_of_le ws hhandle 0xA f.payload (by rw [length_payload]; exact hlen)
    have hsame : f.payload = f.data ↔ ∀ i < f.data.length, cyclicByte f.key i = 0 :=
      xorCyclic_eq_self_iff f.key f.data
    rw [hsend]
    show [] = fs.flatMap message ∧
      [controlFrame 0xA f.payload] = controlFrame 0xA f.data :: fs.flatMap pong ↔ _
    rw [List.cons.injEq, controlFrame_inj, hsame]
    constructor
    · rintro ⟨hmessages, hkey, hpongs⟩
      exact ⟨fun _ => ⟨hlen, hkey⟩, hmessages.symm, hpongs.symm⟩
    · rintro ⟨hecho, hmessages, hpongs⟩
      exact ⟨hmessages.symm, (hecho hf).2, hpongs.symm⟩
  · have hsend := @wsSendControl_of_lt ws 0xA f.payload (by rw [length_payload]; omega)
    rw [hsend]
    constructor
    · rintro ⟨_, hpongs⟩
      exact absurd hpongs.symm (List.cons_ne_nil _ _)
    · rintro ⟨hecho, _⟩
      exact absurd (hecho hf).1 hlen

/-- A pong at the front of a buffer. -/
theorem serves_pong (f : ClientFrame) (fs : List ClientFrame) (hf : f.opcode = 0xA) :
    [] = (f :: fs).flatMap message ∧ [] = (f :: fs).flatMap pong ↔ Undisturbed (f :: fs) := by
  have hdata : ¬f.IsData := by
    rw [IsData, hf]
    decide
  have hping : f.opcode ≠ 0x9 := by
    rw [hf]
    decide
  rw [undisturbed_of_control (Or.inr hf), quiet_iff, List.flatMap_cons, List.flatMap_cons,
    (message_eq_nil_iff f).2 hdata, (pong_eq_nil_iff f).2 hping, List.nil_append, List.nil_append]
  constructor
  · rintro ⟨hmessages, hpongs⟩
    exact ⟨fun h => absurd h hping, hmessages.symm, hpongs.symm⟩
  · rintro ⟨_, hmessages, hpongs⟩
    exact ⟨hmessages.symm, hpongs.symm⟩

/-- A buffer of whole frames is served as it should be just when, among the frames before the first
close, the first control frame is echoed unharmed and nothing that wants an answer stands behind
it. -/
theorem serves_iff (hhandle : ws.handle = true) (honMessage : ws.onMessage = true)
    (fs : List ClientFrame) : Serves ws fs ↔ Undisturbed (untilClose fs) := by
  rw [Serves, wsReadCb_stream]
  induction fs with
  | nil => simp [readFrames, untilClose, messages, writes, Undisturbed, EchoesFirst, behindControl]
  | cons f fs ih =>
    by_cases hclose : f.opcode = 0x8
    · have huntil : untilClose (f :: fs) = [] := by simp [untilClose, hclose]
      rw [readFrames, if_pos hclose, huntil, messages_wsNotifyClose, writes_wsNotifyClose]
      simp [Undisturbed, EchoesFirst, behindControl]
    have huntil : untilClose (f :: fs) = f :: untilClose fs := by simp [untilClose, hclose]
    rw [readFrames, if_neg hclose, huntil]
    by_cases hping : f.opcode = 0x9
    · rw [if_pos hping]
      exact serves_ping hhandle f (untilClose fs) hping
    rw [if_neg hping]
    by_cases hpong : f.opcode = 0xA
    · rw [if_pos hpong]
      exact serves_pong f (untilClose fs) hpong
    rw [if_neg hpong, undisturbed_of_not_control (by rw [IsControl, not_or]; exact ⟨hping, hpong⟩),
      ← ih, List.flatMap_cons, List.flatMap_cons, (pong_eq_nil_iff f).2 hping, List.nil_append]
    by_cases hdata : f.opcode = 0x1 ∨ f.opcode = 0x2
    · have hmessage : f.message = [f.data] := by rw [message, if_pos (show f.IsData from hdata)]
      rw [if_pos hdata, wsDeliver_eq honMessage, messages_append, writes_append, hmessage]
      show [f.data] ++ _ = [f.data] ++ _ ∧ [] ++ _ = _ ↔ _
      rw [List.append_cancel_left_eq, List.nil_append]
    · rw [if_neg hdata, (message_eq_nil_iff f).2 hdata, List.nil_append]

end Serve

/-- An open connection. -/
def openConnection : WSClient := { handle := true, onMessage := true, onClose := true }

/-- A text frame with the text `hi`. -/
def hiFrame : ClientFrame :=
  { first := 0x81, form := .seven, key := #v[1, 2, 3, 4], data := ascii "hi", fits := by decide }

/-- A ping with one byte of data. -/
def pingFrame : ClientFrame :=
  { first := 0x89, form := .seven, key := #v[1, 2, 3, 4], data := [7], fits := by decide }

/-- A pong without data. -/
def pongFrame : ClientFrame :=
  { first := 0x8A, form := .seven, key := #v[1, 2, 3, 4], data := [], fits := by decide }

/-- Text and then a pong are served. -/
theorem serves_hi_pong : Serves openConnection [hiFrame, pongFrame] := by
  refine (serves_iff rfl rfl _).2 ?_
  show Undisturbed [hiFrame, pongFrame]
  rw [undisturbed_of_not_control (by decide), undisturbed_of_control (by decide)]
  exact ⟨fun h => absurd h (by decide), by simp⟩

/-- A ping in front of a text: the pong carries the byte under its key, and the text is lost. -/
theorem not_serves_ping_hi : ¬Serves openConnection [pingFrame, hiFrame] ∧
    writes (wsReadCb openConnection (.bytes (stream [pingFrame, hiFrame]))).2 = [[0x8A, 1, 6]] ∧
    messages (wsReadCb openConnection (.bytes (stream [pingFrame, hiFrame]))).2 = [] := by
  unfold Serves
  decide

/-! ## A stream cut into buffers -/

section Cut

variable (ws : WSClient)

/-- What a frame in a buffer of its own brings. -/
def alone (f : ClientFrame) : List WsAction := visible (wsReadCb ws (.bytes f.bytes)).2

/-- A frame that brings nothing in a buffer of its own: it has no data, and it is not a ping that
can be answered. -/
def ClientFrame.Silent (f : ClientFrame) : Prop :=
  ¬f.IsData ∧ (f.opcode = 0x9 → 125 < f.data.length)

/-- No frame is overheard: behind the first ping or pong stands nothing that would bring something.
-/
def ClientFrame.Heard (fs : List ClientFrame) : Prop := ∀ f ∈ behindControl fs, f.Silent

/-- The buffers are made of whole frames, each so that none of its frames is overheard. -/
def WholeFrames (fs : List ClientFrame) (bufs : List (List UInt8)) : Prop :=
  ∃ groups : List (List ClientFrame),
    groups.flatten = fs ∧ bufs = groups.map stream ∧ ∀ group ∈ groups, Heard group

theorem stream_singleton (f : ClientFrame) : stream [f] = f.bytes := by
  rw [stream_cons]
  exact List.append_nil _

theorem alone_eq (f : ClientFrame) : alone ws f = visible (readFrames ws [f]).2 := by
  rw [alone, ← stream_singleton, wsReadCb_stream]

variable {ws}

/-- A frame that does not end the work on a buffer comes before the ones behind it. -/
theorem visible_readFrames_cons {f : ClientFrame} (hclose : f.opcode ≠ 0x8)
    (hcontrol : ¬f.IsControl) (fs : List ClientFrame) :
    visible (readFrames ws (f :: fs)).2 = alone ws f ++ visible (readFrames ws fs).2 := by
  rw [IsControl, not_or] at hcontrol
  rw [alone_eq, readFrames, readFrames, if_neg hclose, if_neg hclose, if_neg hcontrol.1,
    if_neg hcontrol.1, if_neg hcontrol.2, if_neg hcontrol.2]
  by_cases hdata : f.opcode = 0x1 ∨ f.opcode = 0x2
  · rw [if_pos hdata, if_pos hdata]
    show visible (_ ++ _) = visible (wsDeliver ws f.data ++ []) ++ _
    rw [visible_append, List.append_nil]
  · rw [if_neg hdata, if_neg hdata]
    rfl

/-- A ping or a pong ends the work on a buffer. -/
theorem visible_readFrames_control {f : ClientFrame} (hcontrol : f.IsControl)
    (fs : List ClientFrame) : visible (readFrames ws (f :: fs)).2 = alone ws f := by
  rw [alone_eq]
  rcases hcontrol with hping | hpong
  · simp [readFrames, hping]
  · simp [readFrames, hpong]

/-- What one buffer brings is the beginning of what its frames bring one by one. -/
theorem visible_readFrames_isPrefix {fs : List ClientFrame} (hopen : ∀ f ∈ fs, f.opcode ≠ 0x8) :
    visible (readFrames ws fs).2 <+: (fs.map (alone ws)).flatten := by
  induction fs with
  | nil => exact List.nil_prefix
  | cons f fs ih =>
    rw [List.map_cons, List.flatten_cons]
    by_cases hcontrol : f.IsControl
    · rw [visible_readFrames_control hcontrol]
      exact List.prefix_append _ _
    · rw [visible_readFrames_cons (hopen f (List.mem_cons_self ..)) hcontrol]
      exact List.prefix_append_right_inj _ |>.2
        (ih fun g hg => hopen g (List.mem_cons_of_mem _ hg))

/-- A frame is silent just when it brings nothing in a buffer of its own. -/
theorem alone_eq_nil_iff (hhandle : ws.handle = true) (honMessage : ws.onMessage = true)
    {f : ClientFrame} (hclose : f.opcode ≠ 0x8) : alone ws f = [] ↔ f.Silent := by
  rw [alone_eq, readFrames, if_neg hclose, Silent]
  by_cases hping : f.opcode = 0x9
  · have hdata : ¬f.IsData := by
      rw [IsData, hping]
      decide
    rw [if_pos hping]
    by_cases hlen : f.data.length ≤ 125
    · have hsend := @wsSendControl_of_le ws hhandle 0xA f.payload
        (by rw [length_payload]; exact hlen)
      rw [hsend]
      constructor
      · exact fun h => absurd h (List.cons_ne_nil _ _)
      · exact fun h => absurd (h.2 hping) (by omega)
    · have hsend := @wsSendControl_of_lt ws 0xA f.payload (by rw [length_payload]; omega)
      rw [hsend]
      exact ⟨fun _ => ⟨hdata, fun _ => by omega⟩, fun _ => rfl⟩
  rw [if_neg hping]
  by_cases hpong : f.opcode = 0xA
  · have hdata : ¬f.IsData := by
      rw [IsData, hpong]
      decide
    rw [if_pos hpong]
    exact ⟨fun _ => ⟨hdata, fun h => absurd h hping⟩, fun _ => rfl⟩
  rw [if_neg hpong]
  by_cases hdata : f.opcode = 0x1 ∨ f.opcode = 0x2
  · rw [if_pos hdata, wsDeliver_eq honMessage]
    constructor
    · exact fun h => absurd h (List.cons_ne_nil _ _)
    · exact fun h => absurd hdata h.1
  · rw [if_neg hdata]
    exact ⟨fun _ => ⟨hdata, fun h => absurd h hping⟩, fun _ => rfl⟩

/-- One buffer brings what its frames bring one by one just when none of them is overheard. -/
theorem visible_readFrames_eq_iff (hhandle : ws.handle = true) (honMessage : ws.onMessage = true)
    {fs : List ClientFrame} (hopen : ∀ f ∈ fs, f.opcode ≠ 0x8) :
    visible (readFrames ws fs).2 = (fs.map (alone ws)).flatten ↔ Heard fs := by
  induction fs with
  | nil => simp [readFrames, visible, Heard, behindControl]
  | cons f fs ih =>
    rw [List.forall_mem_cons] at hopen
    rw [List.map_cons, List.flatten_cons]
    by_cases hcontrol : f.IsControl
    · rw [visible_readFrames_control hcontrol, Heard, behindControl_of_control hcontrol,
        List.self_eq_append_right, List.flatten_eq_nil_iff]
      simp only [List.forall_mem_map]
      exact forall₂_congr fun g hg => alone_eq_nil_iff hhandle honMessage (hopen.2 g hg)
    · rw [visible_readFrames_cons hopen.1 hcontrol, List.append_cancel_left_eq, ih hopen.2, Heard,
        Heard, behindControl_of_not_control hcontrol]

/-- Frames that are no close leave the connection as it is. -/
theorem readFrames_fst {fs : List ClientFrame} (hopen : ∀ f ∈ fs, f.opcode ≠ 0x8) :
    (readFrames ws fs).1 = ws := by
  induction fs with
  | nil => rfl
  | cons f fs ih =>
    rw [List.forall_mem_cons] at hopen
    rw [readFrames, if_neg hopen.1]
    split
    · rfl
    split
    · rfl
    split
    · exact ih hopen.2
    · exact ih hopen.2

/-- Buffers of whole frames, one after the other. -/
theorem visible_wsReads_stream {groups : List (List ClientFrame)}
    (hopen : ∀ group ∈ groups, ∀ f ∈ group, f.opcode ≠ 0x8) :
    visible (wsReads ws (groups.map stream)).2 =
      (groups.map fun group => visible (readFrames ws group).2).flatten := by
  induction groups with
  | nil => rfl
  | cons group groups ih =>
    rw [List.forall_mem_cons] at hopen
    simp only [List.map_cons, List.flatten_cons, wsReads, wsReadCb_stream, readFrames_fst hopen.1,
      visible_append, ih hopen.2]

/-- Each frame in a buffer of its own. -/
theorem visible_wsReads_bytes {fs : List ClientFrame} (hopen : ∀ f ∈ fs, f.opcode ≠ 0x8) :
    visible (wsReads ws (fs.map bytes)).2 = (fs.map (alone ws)).flatten := by
  have hsingle : fs.map bytes = (fs.map fun f => [f]).map stream := by
    rw [List.map_map]
    exact List.map_congr_left fun f _ => (stream_singleton f).symm
  rw [hsingle, visible_wsReads_stream]
  · rw [List.map_map]
    exact congrArg List.flatten (List.map_congr_left fun f _ => (alone_eq ws f).symm)
  · intro group hgroup g hg
    obtain ⟨f, hf, rfl⟩ := List.mem_map.1 hgroup
    rw [List.mem_singleton.1 hg]
    exact hopen f hf

/-- A cut between frames makes no difference just when no frame is overheard. -/
theorem wsReads_groups_iff (hhandle : ws.handle = true) (honMessage : ws.onMessage = true)
    {groups : List (List ClientFrame)} (hopen : ∀ f ∈ groups.flatten, f.opcode ≠ 0x8) :
    visible (wsReads ws (groups.map stream)).2 =
        visible (wsReads ws (groups.flatten.map bytes)).2 ↔
      ∀ group ∈ groups, Heard group := by
  have hgroups : ∀ group ∈ groups, ∀ f ∈ group, f.opcode ≠ 0x8 := fun group hgroup f hf =>
    hopen f (List.mem_flatten.2 ⟨group, hgroup, hf⟩)
  have halone : (groups.flatten.map (alone ws)).flatten =
      (groups.map fun group => (group.map (alone ws)).flatten).flatten := by
    rw [List.map_flatten, List.flatten_flatten, List.map_map]
    rfl
  rw [visible_wsReads_stream hgroups, visible_wsReads_bytes hopen, halone,
    flatten_map_eq_iff_of_length_le fun group hgroup =>
      (visible_readFrames_isPrefix (hgroups group hgroup)).length_le]
  exact forall₂_congr fun group hgroup =>
    visible_readFrames_eq_iff hhandle honMessage (hgroups group hgroup)

/-- Buffers of whole frames of which none is overheard bring what the frames bring one by one; and
of the buffers that are cut between frames, only these do. -/
theorem wsReads_cut (hhandle : ws.handle = true) (honMessage : ws.onMessage = true)
    {fs : List ClientFrame} (hopen : ∀ f ∈ fs, f.opcode ≠ 0x8) (bufs : List (List UInt8)) :
    (WholeFrames fs bufs → visible (wsReads ws bufs).2 = visible (wsReads ws (fs.map bytes)).2) ∧
      ∀ groups : List (List ClientFrame), groups.flatten = fs → bufs = groups.map stream →
        visible (wsReads ws bufs).2 = visible (wsReads ws (fs.map bytes)).2 →
          WholeFrames fs bufs := by
  constructor
  · rintro ⟨groups, rfl, rfl, hheard⟩
    exact (wsReads_groups_iff hhandle honMessage hopen).2 hheard
  · rintro groups rfl rfl hsame
    exact ⟨groups, rfl, rfl, (wsReads_groups_iff hhandle honMessage hopen).1 hsame⟩

end Cut

/-- A pong in a buffer of its own and a text behind it make no difference. -/
theorem wsReads_pong_hi :
    visible (wsReads openConnection [pongFrame.bytes, hiFrame.bytes]).2 =
        visible (wsReads openConnection ([pongFrame, hiFrame].map bytes)).2 ∧
      WholeFrames [pongFrame, hiFrame] [pongFrame.bytes, hiFrame.bytes] := by
  have hopen : ∀ f ∈ [pongFrame, hiFrame], f.opcode ≠ 0x8 := by decide
  have hcut := @wsReads_cut openConnection rfl rfl [pongFrame, hiFrame] hopen
    [pongFrame.bytes, hiFrame.bytes]
  exact ⟨rfl, hcut.2 [[pongFrame], [hiFrame]] rfl rfl rfl⟩

/-- A text frame cut behind its third byte comes as another text. -/
theorem not_wsReads_cut :
    ([hiFrame.bytes.take 3, hiFrame.bytes.drop 3]).flatten = stream [hiFrame] ∧
      messages (wsReads openConnection [hiFrame.bytes.take 3, hiFrame.bytes.drop 3]).2 =
        [[0x04, 0x69, 0x6B]] ∧
      messages (wsReads openConnection ([hiFrame].map bytes)).2 = [ascii "hi"] := by
  decide

end EchoAi
