import EchoAi.Faults
import EchoAi.Server.WebSocket

/-!
# Sending WebSocket frames

The server sends a text as one frame, and its own reader finds the text behind the header.

* `wsHeaderSize`, `wsHeader`: the space that is allocated for a header, and the header.
* `wsSend`: sending a text.
* `FrameOf`: a frame is its header and the text, and the header fits and is read back.
* `wsSend_framed`: what is sent is the frame of the text.
-/

namespace EchoAi

/-! ## The sender -/

/-- `header_size` of `ws_send`. -/
def wsHeaderSize (len : Nat) : Nat :=
  2 + (if 125 < len then 2 else 0) + (if 65535 < len then 8 else 0)

/-- The header in front of so many bytes: `FIN` and the opcode of a text, and the length. -/
def wsHeader (len : Nat) : List UInt8 :=
  0x81 ::
    if len ≤ 125 then [UInt8.ofNat len]
    else if len ≤ 65535 then [126, UInt8.ofNat (len >>> 8), UInt8.ofNat (len &&& 0xFF)]
    else 127 :: [7, 6, 5, 4, 3, 2, 1, 0].map fun i => UInt8.ofNat (len >>> (i * 8))

/-- What can fail while a frame is sent. -/
inductive SendSite
  | frame
  | req
  | write
  deriving DecidableEq

/-- `ws_send`: whether it returned 0, and what goes out. -/
def wsSend (fail : Faults SendSite) (ws : WSClient) (data : List UInt8) : Bool × List WsAction :=
  if !ws.handle then (false, [])
  else if 2 ^ 64 - 1 - wsHeaderSize data.length < data.length then (false, [])
  else if fail .frame then (false, [])
  else
    let frame := wsHeader data.length ++ data
    if fail .req then (false, [])
    else if fail .write then (false, [])
    else (true, [.write frame])

/-! ## The header is read back -/

/-- The form in which the sender writes a length. -/
def formOf (len : Nat) : LengthForm :=
  if len ≤ 125 then .seven else if len ≤ 65535 then .sixteen else .sixtyFour

theorem lt_bound_formOf {len : Nat} (hlen : len < 2 ^ 64) : len < (formOf len).bound := by
  rw [formOf]
  split
  · next h => exact Nat.lt_succ_of_le h
  · split
    · next h => exact Nat.lt_succ_of_le h
    · exact hlen

/-- The sender and the reader's frames write a length alike. -/
theorem wsHeader_eq (len : Nat) :
    wsHeader len =
      0x81 :: UInt8.ofNat ((formOf len).bits len) :: (formOf len).extended len := by
  rw [wsHeader, formOf]
  split
  · rfl
  · split
    · have hlow : UInt8.ofNat (len &&& 0xFF) = UInt8.ofNat (len / 256 ^ 0) := by
        have hmod : len &&& 0xFF = len % 2 ^ 8 := Nat.and_two_pow_sub_one_eq_mod len 8
        rw [hmod, Nat.pow_zero, Nat.div_one]
        exact UInt8.ofNat_mod_size
      have hhigh : UInt8.ofNat (len >>> 8) = UInt8.ofNat (len / 256 ^ 1) := by
        rw [Nat.shiftRight_eq_div_pow]
        rfl
      rw [hlow, hhigh]
      rfl
    · have hbyte : ∀ i, UInt8.ofNat (len >>> (i * 8)) = UInt8.ofNat (len / 256 ^ i) := by
        intro i
        rw [Nat.shiftRight_eq_div_pow, Nat.mul_comm, Nat.pow_mul]
      simp only [List.map_cons, List.map_nil, hbyte]
      rfl

/-- The lower seven bits of a second byte without the mask bit. -/
theorem second_unmasked {n : Nat} (hn : n < 128) :
    UInt8.ofNat n &&& 0x7F = UInt8.ofNat (128 + n) &&& 0x7F ∧ UInt8.ofNat n &&& 0x80 = 0 := by
  have hall : ∀ i : Fin 128, UInt8.ofNat i.val &&& 0x7F = UInt8.ofNat (128 + i.val) &&& 0x7F ∧
      UInt8.ofNat i.val &&& 0x80 = 0 := by decide +kernel
  exact hall ⟨n, hn⟩

/-- The length is read from the lower seven bits on. -/
theorem wsPayloadLen_congr {second second' : UInt8} (h : second &&& 0x7F = second' &&& 0x7F)
    (rest : List UInt8) : wsPayloadLen second rest = wsPayloadLen second' rest := by
  rw [wsPayloadLen, wsPayloadLen, h]

theorem wsMaskKey_unmasked {second : UInt8} (h : second &&& 0x80 = 0) (rest : List UInt8) :
    wsMaskKey second rest = some (none, rest) := by
  unfold wsMaskKey
  exact if_pos h

/-- A header is read back, whatever stands behind it. -/
theorem wsFrameHeader_wsHeader {len : Nat} (hlen : len < 2 ^ 64) (rest : List UInt8) :
    wsFrameHeader (wsHeader len ++ rest) =
      some ({ opcode := 1, payloadLen := len, maskKey := none }, rest) := by
  have hbound := lt_bound_formOf hlen
  obtain ⟨hlow, hmask⟩ := second_unmasked ((formOf len).bits_lt hbound)
  have hpayload := wsPayloadLen_form (formOf len) hbound rest
  rw [← wsPayloadLen_congr hlow] at hpayload
  rw [wsHeader_eq, List.cons_append, List.cons_append, wsFrameHeader, hpayload]
  simp only [Option.bind_eq_bind, Option.bind_some, wsMaskKey_unmasked hmask]
  rfl

/-! ## What is sent -/

/-- The header fits into what is allocated for it. -/
theorem length_wsHeader_le (len : Nat) : (wsHeader len).length ≤ wsHeaderSize len := by
  rw [wsHeader, wsHeaderSize]
  by_cases hseven : len ≤ 125
  · rw [if_pos hseven, List.length_cons, List.length_singleton]
    omega
  by_cases hsixteen : len ≤ 65535
  · rw [if_neg hseven, if_pos hsixteen, if_pos (by omega)]
    exact Nat.le_add_right 4 _
  · rw [if_neg hseven, if_neg hsixteen, if_pos (by omega), if_pos (by omega)]
    exact Nat.le_add_right 10 2

theorem wsHeaderSize_le (len : Nat) : wsHeaderSize len ≤ 12 := by
  rw [wsHeaderSize]
  split <;> split <;> omega

/-- A frame of a text: the header fits into the space that was allocated for it, the text follows,
and the reader finds an unmasked text frame of that length and stops at the text. -/
structure FrameOf (data frame : List UInt8) : Prop where
  whole : ∃ header, frame = header ++ data ∧ header.length ≤ wsHeaderSize data.length
  allocated : wsHeaderSize data.length + data.length < 2 ^ 64
  header : wsFrameHeader frame =
    some ({ opcode := 1, payloadLen := data.length, maskKey := none }, data)

/-- **What is sent is the frame of the text**, and every text is sent whose frame has a size. -/
theorem wsSend_framed (ws : WSClient) (data : List UInt8) :
    (∀ fail frame, .write frame ∈ (wsSend fail ws data).2 → FrameOf data frame) ∧
      (ws.handle = true → wsHeaderSize data.length + data.length < 2 ^ 64 →
        ∃ frame, wsSend Faults.none ws data = (true, [.write frame])) := by
  constructor
  · intro fail frame hframe
    rw [wsSend] at hframe
    split at hframe
    · exact absurd hframe List.not_mem_nil
    split at hframe
    · exact absurd hframe List.not_mem_nil
    next hroom =>
    split at hframe
    · exact absurd hframe List.not_mem_nil
    dsimp only at hframe
    split at hframe
    · exact absurd hframe List.not_mem_nil
    split at hframe
    · exact absurd hframe List.not_mem_nil
    obtain rfl : frame = wsHeader data.length ++ data := by simpa using hframe
    have hsize := wsHeaderSize_le data.length
    have hlen : wsHeaderSize data.length + data.length < 2 ^ 64 := by omega
    exact ⟨⟨wsHeader data.length, rfl, length_wsHeader_le data.length⟩, hlen,
      wsFrameHeader_wsHeader (by omega) data⟩
  · intro hhandle hlen
    refine ⟨wsHeader data.length ++ data, ?_⟩
    have hroom : ¬2 ^ 64 - 1 - wsHeaderSize data.length < data.length := by omega
    rw [wsSend, hhandle, if_neg (by decide), if_neg hroom]
    rfl

end EchoAi
