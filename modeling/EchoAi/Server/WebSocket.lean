import EchoAi.Bytes

/-!
# Reading WebSocket frames

The server reads frames from one buffer at a time and keeps nothing from one buffer to the next.

* `WsFrameHeader`, `wsFrameHeader`: the header of a frame in front of the bytes that follow.
* `WSClient`, `WsAction`: a connection and what reading does to it.
* `wsSendControl`, `wsReadLoop`, `wsReadCb`, `wsReads`: the answer to a ping, the frames of one
  buffer, one call of the reader, and the calls one after the other.
* `ClientFrame`: a masked frame as a client sends it, with `wsFrameHeader_bytes` and
  `wsReadLoop_frame` for what the reader makes of it.

Memory and the event loop do not run out: a frame that is written goes out.
-/

namespace EchoAi

/-! ## The reader -/

/-- The header of a frame; the key is there just when the frame is masked. -/
structure WsFrameHeader where
  opcode : UInt8
  payloadLen : Nat
  maskKey : Option (Vector UInt8 4)
  deriving DecidableEq, Repr

/-- The payload length, with the bytes behind it: seven bits, or two or eight further bytes. -/
def wsPayloadLen (second : UInt8) (rest : List UInt8) : Option (Nat × List UInt8) :=
  if second &&& 0x7F = 126 then do
    let (len, rest) ← takeBytes 2 rest
    return (beValue len, rest)
  else if second &&& 0x7F = 127 then do
    let (len, rest) ← takeBytes 8 rest
    return (beValue len, rest)
  else some ((second &&& 0x7F).toNat, rest)

/-- The mask key, with the bytes behind it. -/
def wsMaskKey (second : UInt8) (rest : List UInt8) : Option (Option (Vector UInt8 4) × List UInt8) :=
  if second &&& 0x80 = 0 then some (none, rest)
  else
    match rest with
    | k₀ :: k₁ :: k₂ :: k₃ :: rest => some (some #v[k₀, k₁, k₂, k₃], rest)
    | _ => none

/-- `ws_frame_header` on the bytes that are left, with the bytes behind the header. -/
def wsFrameHeader : (bs : List UInt8) → Option (WsFrameHeader × List UInt8)
  | first :: second :: rest => do
    let (payloadLen, rest) ← wsPayloadLen second rest
    let (maskKey, rest) ← wsMaskKey second rest
    return ({ opcode := first &&& 0x0F, payloadLen, maskKey }, rest)
  | _ => none

/-- The part of a connection that reading looks at: its socket and its two callbacks. -/
structure WSClient where
  handle : Bool
  onMessage : Bool
  onClose : Bool
  deriving DecidableEq, Repr

/-- What reading does to the outside of a connection. -/
inductive WsAction where
  /-- `on_message` is called with a text -/
  | message (text : List UInt8)
  /-- bytes go out on the socket -/
  | write (frame : List UInt8)
  /-- the keepalive deadline moves -/
  | lastPong
  /-- the ping timer stops -/
  | stopPing
  /-- `on_close` is called -/
  | close
  /-- the socket is torn down -/
  | clientClose
  deriving DecidableEq, Repr

/-- An unmasked control frame. -/
def controlFrame (opcode : UInt8) (payload : List UInt8) : List UInt8 :=
  (0x80 ||| opcode) :: UInt8.ofNat payload.length :: payload

/-- `ws_send_control`. -/
def wsSendControl (ws : WSClient) (opcode : UInt8) (payload : List UInt8) : List WsAction :=
  if !ws.handle || decide (125 < payload.length) then [] else [.write (controlFrame opcode payload)]

/-- The close callback runs once. -/
def wsNotifyClose (ws : WSClient) : WSClient × List WsAction :=
  if ws.onClose then ({ ws with onClose := false }, [.stopPing, .close]) else (ws, [.stopPing])

/-- The payload as `on_message` gets it. -/
def wsUnmask (maskKey : Option (Vector UInt8 4)) (payload : List UInt8) : List UInt8 :=
  match maskKey with
  | some key => xorCyclic key payload
  | none => payload

/-- The call of `on_message`. -/
def wsDeliver (ws : WSClient) (text : List UInt8) : List WsAction :=
  if ws.onMessage then [.message text] else []

/-- The loop of `ws_read_cb` over the bytes that are left.  A frame takes two bytes at least, so
fuel for each byte is enough. -/
def wsReadLoop (ws : WSClient) : (fuel : Nat) → (bs : List UInt8) → WSClient × List WsAction
  | 0, _ => (ws, [])
  | fuel + 1, bs =>
    match wsFrameHeader bs with
    | none => (ws, [])
    | some (header, rest) =>
      if rest.length < header.payloadLen then (ws, [])
      else
        let payload := rest.take header.payloadLen
        let rest := rest.drop header.payloadLen
        if header.opcode = 0x8 then wsNotifyClose ws
        -- the payload goes back as it came, and what is left of the buffer is not looked at
        else if header.opcode = 0x9 then (ws, wsSendControl ws 0xA payload)
        else if header.opcode = 0xA then (ws, [.lastPong])
        else if header.opcode = 0x1 ∨ header.opcode = 0x2 then
          let (ws', later) := wsReadLoop ws fuel rest
          (ws', wsDeliver ws (wsUnmask header.maskKey payload) ++ later)
        else wsReadLoop ws fuel rest

/-- What a read of the socket brings. -/
inductive ReadResult where
  | failed
  | bytes (bs : List UInt8)
  deriving DecidableEq, Repr

/-- `ws_read_cb`. -/
def wsReadCb (ws : WSClient) : ReadResult → WSClient × List WsAction
  | .failed => let (ws, actions) := wsNotifyClose ws; (ws, actions ++ [.clientClose])
  | .bytes bs => wsReadLoop ws bs.length bs

/-- Calls of the reader with one buffer after the other. -/
def wsReads (ws : WSClient) : List (List UInt8) → WSClient × List WsAction
  | [] => (ws, [])
  | buf :: bufs =>
    let (ws, now) := wsReadCb ws (.bytes buf)
    let (ws, later) := wsReads ws bufs
    (ws, now ++ later)

/-! ## Frames of a client -/

/-- The three ways to write the length of a payload. -/
inductive LengthForm where
  | seven
  | sixteen
  | sixtyFour
  deriving DecidableEq, Repr

/-- The lengths that a form can write lie below this. -/
def LengthForm.bound : LengthForm → Nat
  | .seven => 126
  | .sixteen => 256 ^ 2
  | .sixtyFour => 256 ^ 8

/-- The seven bits of a header that tell the form, or the length itself. -/
def LengthForm.bits (form : LengthForm) (len : Nat) : Nat :=
  match form with
  | .seven => len
  | .sixteen => 126
  | .sixtyFour => 127

/-- The bytes of the length behind the first two bytes of a header. -/
def LengthForm.extended (form : LengthForm) (len : Nat) : List UInt8 :=
  match form with
  | .seven => []
  | .sixteen => beBytes 2 len
  | .sixtyFour => beBytes 8 len

/-- A masked frame of a client: its first byte (`FIN`, the reserved bits and the opcode), the form
of its length, its key and its data before masking. -/
structure ClientFrame where
  first : UInt8
  form : LengthForm
  key : Vector UInt8 4
  data : List UInt8
  fits : data.length < form.bound

namespace ClientFrame

/-- The opcode of a frame. -/
def opcode (f : ClientFrame) : UInt8 := f.first &&& 0x0F

/-- The data as it goes over the wire. -/
def payload (f : ClientFrame) : List UInt8 := xorCyclic f.key f.data

/-- A frame on the wire. -/
def bytes (f : ClientFrame) : List UInt8 :=
  f.first :: UInt8.ofNat (128 + f.form.bits f.data.length) ::
    (f.form.extended f.data.length ++ (f.key.toList ++ f.payload))

/-- Frames on the wire, one behind the other. -/
def stream (fs : List ClientFrame) : List UInt8 := (fs.map bytes).flatten

theorem stream_cons (f : ClientFrame) (fs : List ClientFrame) :
    stream (f :: fs) = f.bytes ++ stream fs := rfl

@[simp] theorem length_payload (f : ClientFrame) : f.payload.length = f.data.length :=
  length_xorCyclic f.key f.data

theorem length_bytes_pos (f : ClientFrame) : 0 < f.bytes.length := by
  rw [bytes, List.length_cons]
  omega

end ClientFrame

/-! ## What the reader makes of a frame -/

theorem LengthForm.bits_lt (form : LengthForm) {len : Nat} (hlen : len < form.bound) :
    form.bits len < 128 := by
  cases form with
  | seven =>
    have hlen : len < 126 := hlen
    show len < 128
    omega
  | sixteen => show 126 < 128; omega
  | sixtyFour => show 127 < 128; omega

/-- The lower seven bits of the second byte of a masked frame. -/
theorem toNat_second_and {n : Nat} (hn : n < 128) :
    (UInt8.ofNat (128 + n) &&& 0x7F).toNat = n := by
  have hbyte : (UInt8.ofNat (128 + n)).toNat = 128 + n := by
    rw [UInt8.toNat_ofNat']
    omega
  have hand : (128 + n) &&& 127 = (128 + n) % 2 ^ 7 := Nat.and_two_pow_sub_one_eq_mod _ 7
  rw [UInt8.toNat_and, hbyte]
  show (128 + n) &&& 127 = n
  omega

/-- The mask bit of the second byte of a masked frame. -/
theorem second_masked {n : Nat} (hn : n < 128) : UInt8.ofNat (128 + n) &&& 0x80 ≠ 0 := by
  have hall : ∀ i : Fin 128, UInt8.ofNat (128 + i.val) &&& 0x80 ≠ 0 := by decide +kernel
  exact hall ⟨n, hn⟩

theorem wsPayloadLen_form (form : LengthForm) {len : Nat} (hlen : len < form.bound)
    (rest : List UInt8) :
    wsPayloadLen (UInt8.ofNat (128 + form.bits len)) (form.extended len ++ rest) =
      some (len, rest) := by
  have hbits := toNat_second_and (form.bits_lt hlen)
  cases form with
  | seven =>
    have hlen : len < 126 := hlen
    have hbits : (UInt8.ofNat (128 + len) &&& 0x7F).toNat = len := hbits
    have h126 : UInt8.ofNat (128 + len) &&& 0x7F ≠ 126 := fun h => by
      rw [h] at hbits
      have hval : (126 : UInt8).toNat = 126 := rfl
      omega
    have h127 : UInt8.ofNat (128 + len) &&& 0x7F ≠ 127 := fun h => by
      rw [h] at hbits
      have hval : (127 : UInt8).toNat = 127 := rfl
      omega
    show wsPayloadLen (UInt8.ofNat (128 + len)) rest = _
    rw [wsPayloadLen, if_neg h126, if_neg h127, hbits]
  | sixteen =>
    have hform : UInt8.ofNat (128 + 126) &&& 0x7F = 126 := by decide
    have htake := takeBytes_append (beBytes 2 len) rest (length_beBytes 2 len)
    show wsPayloadLen (UInt8.ofNat (128 + 126)) (beBytes 2 len ++ rest) = _
    rw [wsPayloadLen, if_pos hform, htake, Option.bind_eq_bind, Option.bind_some]
    show some (beValue (beBytes 2 len), rest) = some (len, rest)
    rw [beValue_beBytes hlen]
  | sixtyFour =>
    have hform : UInt8.ofNat (128 + 127) &&& 0x7F = 127 := by decide
    have htake := takeBytes_append (beBytes 8 len) rest (length_beBytes 8 len)
    have hother : UInt8.ofNat (128 + 127) &&& 0x7F ≠ 126 := by decide
    show wsPayloadLen (UInt8.ofNat (128 + 127)) (beBytes 8 len ++ rest) = _
    rw [wsPayloadLen, if_neg hother, if_pos hform, htake, Option.bind_eq_bind, Option.bind_some]
    show some (beValue (beBytes 8 len), rest) = some (len, rest)
    rw [beValue_beBytes hlen]

theorem wsMaskKey_key {second : UInt8} (hmasked : second &&& 0x80 ≠ 0) (key : Vector UInt8 4)
    (rest : List UInt8) : wsMaskKey second (key.toList ++ rest) = some (some key, rest) := by
  rcases key with ⟨⟨keyBytes⟩, hkey⟩
  match keyBytes, hkey with
  | [k₀, k₁, k₂, k₃], _ =>
    unfold wsMaskKey
    rw [if_neg hmasked]
    rfl

/-- The header of a client's frame is read back. -/
theorem wsFrameHeader_bytes (f : ClientFrame) (rest : List UInt8) :
    wsFrameHeader (f.bytes ++ rest) =
      some ({ opcode := f.opcode, payloadLen := f.data.length, maskKey := some f.key },
        f.payload ++ rest) := by
  have hlen := wsPayloadLen_form f.form f.fits (f.key.toList ++ (f.payload ++ rest))
  have hkey := wsMaskKey_key (second_masked (f.form.bits_lt f.fits)) f.key (f.payload ++ rest)
  rw [ClientFrame.bytes, List.cons_append, List.cons_append, List.append_assoc, List.append_assoc,
    wsFrameHeader, hlen]
  simp only [Option.bind_eq_bind, Option.bind_some, hkey]
  rfl

/-- The reader on a buffer that starts with a client's frame. -/
theorem wsReadLoop_frame (ws : WSClient) (fuel : Nat) (f : ClientFrame) (rest : List UInt8) :
    wsReadLoop ws (fuel + 1) (f.bytes ++ rest) =
      if f.opcode = 0x8 then wsNotifyClose ws
      else if f.opcode = 0x9 then (ws, wsSendControl ws 0xA f.payload)
      else if f.opcode = 0xA then (ws, [.lastPong])
      else if f.opcode = 0x1 ∨ f.opcode = 0x2 then
        ((wsReadLoop ws fuel rest).1, wsDeliver ws f.data ++ (wsReadLoop ws fuel rest).2)
      else wsReadLoop ws fuel rest := by
  have hlong : ¬(f.payload ++ rest).length < f.data.length := by
    rw [List.length_append, f.length_payload]
    omega
  have htake : (f.payload ++ rest).take f.data.length = f.payload := by
    rw [← f.length_payload, List.take_left]
  have hdrop : (f.payload ++ rest).drop f.data.length = rest := by
    rw [← f.length_payload, List.drop_left]
  have hdata : wsUnmask (some f.key) f.payload = f.data := xorCyclic_xorCyclic f.key f.data
  rw [wsReadLoop, wsFrameHeader_bytes]
  simp only [if_neg hlong, htake, hdrop, hdata]

theorem wsReadLoop_nil (ws : WSClient) (fuel : Nat) : wsReadLoop ws fuel [] = (ws, []) := by
  cases fuel with
  | zero => rfl
  | succ fuel => rfl

end EchoAi
