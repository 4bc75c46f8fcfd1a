import EchoAi.Chronicle
import EchoAi.Json.Wire
import EchoAi.Mailbox
import EchoAi.Splitting

/-!
# The pipes to the browser

Commands go out on one pipe and messages come in on another, each with a NUL behind it.  Any number
of calls are under way together; one thread reads.

* `CdpClient`, `cdpStoreResponse`, `cdpHandleLine`: what the calls and the reader share.
* `Command`, `Call`: a command and how far its call has come.
* `Transport`, `step`: everything between two sections under the lock, in any order.
* `Move`, `move_of_step`: what a step can do.

Memory may run out where the reader says so.  Nothing is said about time: a call may give up whenever
it waits.
-/

namespace EchoAi.Cdp

/-- `CDP_MAX_PENDING` -/
def maxPending : Nat := 32

/-- `READ_CHUNK` -/
def readChunk : Nat := 65536

/-- `CdpPending` -/
structure CdpPending where
  id : Int
  json : List UInt8
  deriving DecidableEq

/-- `CdpClient`: what is behind its lock, and the line that the reader has begun. -/
structure CdpClient where
  shutdown : Bool
  dead : Bool
  nextId : Int
  pending : List CdpPending
  lineBuf : List UInt8

/-- `cdp_set_dead` -/
def cdpSetDead (c : CdpClient) (dead : Bool) : CdpClient := { c with dead }

/-- `cdp_store_response` -/
def cdpStoreResponse (c : CdpClient) (id : Int) (json : List UInt8) : CdpClient :=
  { c with pending := Mailbox.deposit maxPending ⟨id, json⟩ c.pending }

section Lines

variable (J : WireJson) (wild : Decimal → Int)

/-- `(int)x`; what comes of a number that is no `int` is up to the machine. -/
def intOf (x : Decimal) : Int :=
  if -2147483648 ≤ x.truncate ∧ x.truncate ≤ 2147483647 then x.truncate else wild x

/-- `cdp_handle_line`, which fails where the line cannot be copied. -/
def cdpHandleLine (copied : Bool) (c : CdpClient) (line : List UInt8) : Option CdpClient :=
  match J.parse line with
  | none => some c
  | some msg =>
    match (msg.member "id").bind JsonValue.numberValue with
    | none => some c
    | some x => if copied then some (cdpStoreResponse c (intOf wild x) line) else none

/-- The command that a message says it answers. -/
def messageId (line : List UInt8) : Option Int :=
  ((J.parse line).bind fun msg => (msg.member "id").bind JsonValue.numberValue).map (intOf wild)

/-- The messages that are kept for the calls. -/
def numbered (lines : List (List UInt8)) : List CdpPending :=
  lines.filterMap fun line => (messageId J wild line).map (⟨·, line⟩)

/-- What becomes of the client when a line is handled. -/
def keep (c : CdpClient) (line : List UInt8) : CdpClient :=
  (messageId J wild line).elim c fun id => cdpStoreResponse c id line

theorem cdpHandleLine_cases {copied : Bool} {c : CdpClient} {line : List UInt8} :
    cdpHandleLine J wild copied c line = some (keep J wild c line) ∨
      cdpHandleLine J wild copied c line = none := by
  unfold cdpHandleLine keep messageId
  cases J.parse line with
  | none => exact Or.inl rfl
  | some msg =>
    cases hid : (msg.member "id").bind JsonValue.numberValue with
    | none => simp [hid]
    | some x => cases copied <;> simp [hid]

end Lines

/-! ## Calls -/

/-- The arguments of `cdp_client_call`. -/
structure Command where
  method : String
  params : Option JsonValue
  sessionId : Option String

/-- How far a call has come. -/
inductive Phase where
  | writing
  | waiting
  | returned (answer : Option (List UInt8))
  deriving DecidableEq

/-- A call that has its number, of whose line `off` bytes are written. -/
structure Call where
  command : Command
  id : Int
  off : Nat
  phase : Phase

/-- The answer of a call that has one. -/
def Call.answer? (call : Call) : Option (List UInt8) :=
  match call.phase with
  | .returned answer => answer
  | _ => none

/-- The message of a command. -/
def commandJson (command : Command) (id : Int) : JsonValue :=
  .object (("id", .number ⟨id, 0⟩) :: ("method", .string command.method) ::
    ((command.sessionId.map fun s => ("sessionId", JsonValue.string s)).toList ++
      (command.params.map fun params => ("params", params)).toList))

variable (J : WireJson) (wild : Decimal → Int)

/-- The line of a command. -/
def commandLine (command : Command) (id : Int) : Option (List UInt8) :=
  (J.print (commandJson command id)).map fun text => cString text.toUTF8.data.toList

/-- The line of a call. -/
def Call.line (call : Call) : Option (List UInt8) := commandLine J call.command call.id

/-- What a call writes: its line with a NUL behind it. -/
def Call.framed (call : Call) : List UInt8 := ((call.line J).map (· ++ [0])).getD []

/-! ## The threads -/

/-- Where the thread of `cdp_reader_main` is: before its look at the flags, before `poll`, among the
lines that it has, or at its end. -/
inductive Reader where
  | top
  | polling
  | framing
  | exited
  deriving DecidableEq

/-- The client with all calls that ever had a number, the bytes that were written and read, and the
lines that were handled. -/
structure Transport where
  client : CdpClient
  reader : Reader
  calls : List Call
  sent : List UInt8
  received : List UInt8
  handled : List (List UInt8)

/-- What one of the threads does next. -/
inductive Event where
  | call (command : Command)
  | write (i n : Nat)
  | writeFails (i : Nat)
  | look (i : Nat)
  | timeOut (i : Nat)
  | check
  | quiet
  | readFails
  | receive (chunk : List UInt8) (appended : Bool)
  | frame (copied : Bool)
  | close

/-- The client and its reader before the first call. -/
def start : Transport where
  client := { shutdown := false, dead := false, nextId := 0, pending := [], lineBuf := [] }
  reader := .top
  calls := []
  sent := []
  received := []
  handled := []

/-- The next part of a call that has its number. -/
def callStep (t : Transport) (i : Nat) (call : Call) : Event → Option Transport
  | .write _ n =>
    if call.phase = .writing ∧ 0 < n ∧ call.off + n ≤ (call.framed J).length then
      let phase := if call.off + n < (call.framed J).length then Phase.writing else .waiting
      some { t with
        calls := t.calls.set i { call with off := call.off + n, phase }
        sent := t.sent ++ ((call.framed J).drop call.off).take n }
    else none
  | .writeFails _ =>
    if call.phase = .writing then
      some { t with
        client := cdpSetDead t.client true
        calls := t.calls.set i { call with phase := .returned none } }
    else none
  | .look _ =>
    if call.phase = .waiting then
      if t.client.dead then
        some { t with calls := t.calls.set i { call with phase := .returned none } }
      else
        match t.client.pending.find? (·.id = call.id) with
        | some e =>
          some { t with
            client := { t.client with pending := t.client.pending.eraseP (·.id = call.id) }
            calls := t.calls.set i { call with phase := .returned (some e.json) } }
        | none => some t
    else none
  | .timeOut _ =>
    if call.phase = .waiting then
      some { t with calls := t.calls.set i { call with phase := .returned none } }
    else none
  | _ => none

/-- The next part of `cdp_client_call`, `cdp_reader_main` or `cdp_client_close`.  A number that is
no `int` any more is not counted on. -/
def step (t : Transport) : Event → Option Transport
  | .call command =>
    if t.client.dead then some t
    else if t.client.nextId = 2147483647 then none
    else
      let id := t.client.nextId
      let phase := if (commandLine J command id).isSome then Phase.writing else .returned none
      some { t with
        client := { t.client with nextId := id + 1 }
        calls := t.calls ++ [{ command, id, off := 0, phase }] }
  | .write i n => (t.calls[i]?).bind fun call => callStep J t i call (.write i n)
  | .writeFails i => (t.calls[i]?).bind fun call => callStep J t i call (.writeFails i)
  | .look i => (t.calls[i]?).bind fun call => callStep J t i call (.look i)
  | .timeOut i => (t.calls[i]?).bind fun call => callStep J t i call (.timeOut i)
  | .check =>
    if t.reader ≠ .top then none
    else if t.client.shutdown || t.client.dead then
      some { t with client := cdpSetDead t.client true, reader := .exited }
    else some { t with reader := .polling }
  | .quiet => if t.reader = .polling then some { t with reader := .top } else none
  | .readFails =>
    if t.reader = .polling then
      some { t with client := cdpSetDead t.client true, reader := .exited }
    else none
  | .receive chunk appended =>
    if t.reader = .polling ∧ chunk ≠ [] ∧ chunk.length ≤ readChunk then
      if appended then
        some { t with
          client := { t.client with lineBuf := t.client.lineBuf ++ chunk }
          reader := .framing
          received := t.received ++ chunk }
      else some { t with client := cdpSetDead t.client true, reader := .exited }
    else none
  | .frame copied =>
    if t.reader ≠ .framing then none
    else if 0 ∉ t.client.lineBuf then some { t with reader := .top }
    else
      let line := cString t.client.lineBuf
      match cdpHandleLine J wild copied t.client line with
      | none => some { t with client := cdpSetDead t.client true, reader := .top }
      | some c =>
        some { t with
          client := { c with lineBuf := (t.client.lineBuf.dropWhile (· ≠ 0)).tail }
          handled := t.handled ++ [line] }
  | .close => some { t with client := { t.client with shutdown := true, dead := true } }

/-! ## Moves -/

/-- What a step can do. -/
inductive Move : Transport → Event → Transport → Prop
  | stays (t : Transport) (event : Event) : Move t event t
  | opens (t : Transport) (command : Command) (halive : t.client.dead = false) :
    Move t (.call command) { t with
      client := { t.client with nextId := t.client.nextId + 1 }
      calls := t.calls ++ [{
        command, id := t.client.nextId, off := 0,
        phase := if (commandLine J command t.client.nextId).isSome then .writing
          else .returned none }] }
  | writes (t : Transport) (event : Event) (i : Nat) (call : Call) (n : Nat)
    (hcall : t.calls[i]? = some call) (hphase : call.phase = .writing) (hn : 0 < n)
    (hle : call.off + n ≤ (call.framed J).length) :
    Move t event { t with
      calls := t.calls.set i { call with
        off := call.off + n
        phase := if call.off + n < (call.framed J).length then .writing else .waiting }
      sent := t.sent ++ ((call.framed J).drop call.off).take n }
  | ends (t : Transport) (event : Event) (i : Nat) (call : Call) (dead : Bool)
    (hcall : t.calls[i]? = some call)
    (hphase : call.phase = .writing ∧ dead = true ∨ call.phase = .waiting)
    (hdead : t.client.dead = true → dead = true) :
    Move t event { t with
      client := { t.client with dead }
      calls := t.calls.set i { call with phase := .returned none } }
  | takes (t : Transport) (event : Event) (i : Nat) (call : Call) (e : CdpPending)
    (hcall : t.calls[i]? = some call)
    (hphase : call.phase = .waiting) (hfind : t.client.pending.find? (·.id = call.id) = some e) :
    Move t event { t with
      client := { t.client with pending := t.client.pending.eraseP (·.id = call.id) }
      calls := t.calls.set i { call with phase := .returned (some e.json) } }
  | turns (t : Transport) (event : Event) (reader : Reader) (dead : Bool)
    (hreader : reader ≠ .framing)
    (hstop : t.reader = .framing → 0 ∉ t.client.lineBuf ∨ dead = true)
    (hdead : t.client.dead = true → dead = true) :
    Move t event { t with client := { t.client with dead }, reader }
  | receives (t : Transport) (event : Event) (chunk : List UInt8)
    (hreader : t.reader = .polling) :
    Move t event { t with
      client := { t.client with lineBuf := t.client.lineBuf ++ chunk }
      reader := .framing
      received := t.received ++ chunk }
  | handles (t : Transport) (event : Event) (line rest : List UInt8)
    (hreader : t.reader = .framing) (hbuf : t.client.lineBuf = line ++ 0 :: rest) (hline : 0 ∉ line) :
    Move t event { t with
      client := { keep J wild t.client line with lineBuf := rest }
      handled := t.handled ++ [line] }
  | closes (t : Transport) (event : Event) :
    Move t event { t with client := { t.client with shutdown := true, dead := true } }

variable {J wild} {t t' : Transport}

theorem move_of_callStep {i : Nat} {call : Call} (hcall : t.calls[i]? = some call) {event : Event}
    (h : callStep J t i call event = some t') : Move J wild t event t' := by
  cases event with
  | write j n =>
    rw [callStep] at h
    split at h
    · next hwrite =>
      obtain rfl := Option.some.inj h
      exact .writes t _ i call n hcall hwrite.1 hwrite.2.1 hwrite.2.2
    · exact absurd h (by simp)
  | writeFails j =>
    rw [callStep] at h
    split at h
    · next hphase =>
      obtain rfl := Option.some.inj h
      exact .ends t _ i call true hcall (Or.inl ⟨hphase, rfl⟩) fun _ => rfl
    · exact absurd h (by simp)
  | look j =>
    rw [callStep] at h
    split at h
    · next hphase =>
      split at h
      · obtain rfl := Option.some.inj h
        exact .ends t _ i call t.client.dead hcall (Or.inr hphase) id
      · split at h
        · next e hfind =>
          obtain rfl := Option.some.inj h
          exact .takes t _ i call e hcall hphase hfind
        · obtain rfl := Option.some.inj h
          exact .stays t _
    · exact absurd h (by simp)
  | timeOut j =>
    rw [callStep] at h
    split at h
    · next hphase =>
      obtain rfl := Option.some.inj h
      exact .ends t _ i call t.client.dead hcall (Or.inr hphase) id
    · exact absurd h (by simp)
  | _ => exact absurd h (by simp [callStep])

theorem exists_call_of_bind {i : Nat} {event : Event}
    (h : ((t.calls[i]?).bind fun call => callStep J t i call event) = some t') :
    Move J wild t event t' := by
  obtain ⟨call, hcall, hstep⟩ := Option.bind_eq_some_iff.mp h
  exact move_of_callStep hcall hstep

/-- **Every step is one of the moves.** -/
theorem move_of_step {event : Event} (h : step J wild t event = some t') : Move J wild t event t' := by
  cases event with
  | call command =>
    rw [step] at h
    split at h
    · obtain rfl := Option.some.inj h
      exact .stays t _
    · next halive =>
      split at h
      · exact absurd h (by simp)
      · obtain rfl := Option.some.inj h
        exact .opens t command (by simpa using halive)
  | write i n => exact exists_call_of_bind h
  | writeFails i => exact exists_call_of_bind h
  | look i => exact exists_call_of_bind h
  | timeOut i => exact exists_call_of_bind h
  | check =>
    rw [step] at h
    split at h
    · exact absurd h (by simp)
    · next htop =>
      rw [not_not] at htop
      split at h
      · obtain rfl := Option.some.inj h
        exact .turns t _ .exited true (by simp) (fun _ => Or.inr rfl) fun _ => rfl
      · obtain rfl := Option.some.inj h
        exact .turns t _ .polling t.client.dead (by simp) (by simp [htop]) id
  | quiet =>
    rw [step] at h
    split at h
    · next hpolling =>
      obtain rfl := Option.some.inj h
      exact .turns t _ .top t.client.dead (by simp) (by simp [hpolling]) id
    · exact absurd h (by simp)
  | readFails =>
    rw [step] at h
    split at h
    · obtain rfl := Option.some.inj h
      exact .turns t _ .exited true (by simp) (fun _ => Or.inr rfl) fun _ => rfl
    · exact absurd h (by simp)
  | receive chunk appended =>
    rw [step] at h
    split at h
    · next hpolling =>
      split at h
      · obtain rfl := Option.some.inj h
        exact .receives t _ chunk hpolling.1
      · obtain rfl := Option.some.inj h
        exact .turns t _ .exited true (by simp) (fun _ => Or.inr rfl) fun _ => rfl
    · exact absurd h (by simp)
  | frame copied =>
    rw [step] at h
    split at h
    · exact absurd h (by simp)
    · next hframing =>
      rw [not_not] at hframing
      split at h
      · next hnone =>
        obtain rfl := Option.some.inj h
        exact .turns t _ .top t.client.dead (by simp) (fun _ => Or.inl hnone) id
      · next hsome =>
        rw [not_not] at hsome
        obtain ⟨line, rest, hbuf, hline⟩ := List.eq_append_cons_of_mem hsome
        have hstring : cString t.client.lineBuf = line := by
          rw [hbuf, cString, takeWhile_ne_append_cons hline]
        have hrest : (t.client.lineBuf.dropWhile (· ≠ 0)).tail = rest := by
          rw [hbuf, dropWhile_ne_append_cons hline, List.tail_cons]
        simp only [hstring, hrest] at h
        rcases @cdpHandleLine_cases J wild copied t.client line with hkeep | hfail
        · rw [hkeep] at h
          obtain rfl := Option.some.inj h
          exact .handles t _ line rest hframing hbuf hline
        · rw [hfail] at h
          obtain rfl := Option.some.inj h
          exact .turns t _ .top true (by simp) (fun _ => Or.inr rfl) fun _ => rfl
  | close =>
    obtain rfl := Option.some.inj h
    exact .closes t _

end EchoAi.Cdp
