/-
# Messages on the wire

`NetMessage::Serialize` writes a header of nine bytes, which are the network magic, the type and the size of
the payload, and then the payload.  `NetMessage::Deserialize` reads one message from the front of a buffer.
`MsgType` is an `enum class` over `uint8_t`; the cast in `Deserialize` takes every byte, so a message may have
a type that no enumerator names (`HandleMessage` then only adds to the peer's misbehaviour).

A message is sent as `NetMessage(type, payload)`, which sets the magic.  The other constructor, with magic 0,
makes the message that `Deserialize` fills.
-/
import Moneu.ChainParams

namespace Moneu.Net

/-! ## 1. The message -/

def MAX_PROTOCOL_MSG_SIZE : UInt32 := 8 * 1024 * 1024

/-- `kHeader` of `HandleRead`; the literal 9 in `Deserialize`. -/
def kHeader : Nat := 9

/-- `GetNetworkMagic`: `memcpy` on a little-endian machine. -/
def getNetworkMagic : UInt32 := readLE32 NetParams.MAINNET_MAGIC

abbrev MsgType := UInt8

structure NetMessage where
  magic : UInt32
  type : MsgType
  payload : List UInt8
  deriving DecidableEq

namespace NetMessage

def new (t : MsgType) (p : List UInt8) : NetMessage := ⟨getNetworkMagic, t, p⟩

@[simp]
theorem payload_new (t : MsgType) (p : List UInt8) : (new t p).payload = p := rfl

def serialize (msg : NetMessage) : List UInt8 :=
  let payloadSize := UInt32.ofNat msg.payload.length
  writeLE32 msg.magic ++ msg.type :: (writeLE32 payloadSize ++ msg.payload)

/-- `NetMessage::Deserialize` on `data`, `data + len`. -/
def deserialize (data : List UInt8) : Option NetMessage :=
  if data.length < 9 then none
  else
    let magic := readLE32 data
    if magic ≠ getNetworkMagic then none
    else
      let payloadSize := readLE32 (data.drop 5)
      if payloadSize > MAX_PROTOCOL_MSG_SIZE then none
      else if data.length < 9 + payloadSize.toNat then none
      else some ⟨magic, data.getD 4 0, (data.drop 9).take payloadSize.toNat⟩

/-! ## 2. The header -/

@[simp]
theorem length_serialize (msg : NetMessage) : msg.serialize.length = kHeader + msg.payload.length := by
  simp only [serialize, List.length_append, List.length_cons, length_writeLE32, kHeader]
  omega

theorem length_serialize_pos (msg : NetMessage) : 0 < msg.serialize.length := by
  rw [length_serialize, kHeader]
  omega

theorem readLE32_serialize (msg : NetMessage) (after : List UInt8) :
    readLE32 (msg.serialize ++ after) = msg.magic := by
  rw [serialize, List.append_assoc, readLE32_writeLE32]

theorem drop_five_serialize (msg : NetMessage) (after : List UInt8) :
    (msg.serialize ++ after).drop 5 =
      writeLE32 (UInt32.ofNat msg.payload.length) ++ (msg.payload ++ after) := by
  have hmagic := length_writeLE32 msg.magic
  rw [serialize, List.append_assoc, List.drop_append, List.drop_eq_nil_of_le (by omega), hmagic]
  simp

/-- **The size in the header is the size of the payload**, of which 32 bits are enough. -/
theorem payloadSize_serialize (msg : NetMessage) (after : List UInt8) (hsize : msg.payload.length < 2 ^ 32) :
    (readLE32 ((msg.serialize ++ after).drop 5)).toNat = msg.payload.length := by
  rw [drop_five_serialize, readLE32_writeLE32, UInt32.toNat_ofNat', Nat.mod_eq_of_lt hsize]

theorem readLE32_drop_five_of_within {msg : NetMessage} {bytes after : List UInt8} (hlong : kHeader ≤ bytes.length)
    (hwithin : bytes <+: msg.serialize ++ after) :
    readLE32 (bytes.drop 5) = readLE32 ((msg.serialize ++ after).drop 5) := by
  obtain ⟨more, hmore⟩ := hwithin
  rw [kHeader] at hlong
  rw [← hmore, List.drop_append_of_le_length (by omega), readLE32, readLE32,
    List.take_append_of_le_length (by rw [List.length_drop]; omega)]

/-! ## 3. The round trip -/

theorem deserialize_serialize_new (t : MsgType) (p : List UInt8) (hsize : p.length ≤ MAX_PROTOCOL_MSG_SIZE.toNat) :
    deserialize (new t p).serialize = some (new t p) := by
  have hmax : MAX_PROTOCOL_MSG_SIZE.toNat < 2 ^ 32 := MAX_PROTOCOL_MSG_SIZE.toNat_lt
  have hlen := length_serialize (new t p)
  have hmagic := readLE32_serialize (new t p) []
  have hpayload : (readLE32 ((new t p).serialize.drop 5)).toNat = p.length := by
    simpa using payloadSize_serialize (new t p) [] (by rw [payload_new]; omega)
  have hfits : ¬ readLE32 ((new t p).serialize.drop 5) > MAX_PROTOCOL_MSG_SIZE := by
    rw [gt_iff_lt, UInt32.lt_iff_toNat_lt, hpayload]
    omega
  have hdrop : (new t p).serialize.drop 9 = p := by
    have hfive := drop_five_serialize (new t p) []
    rw [List.append_nil, List.append_nil] at hfive
    rw [show 9 = 5 + 4 by rfl, ← List.drop_drop, hfive, List.drop_left' (length_writeLE32 _), new]
  have htype : (new t p).serialize.getD 4 0 = t := by
    rw [serialize, List.getD_eq_getElem?_getD, List.getElem?_append_right (by rw [length_writeLE32]),
      length_writeLE32]
    rfl
  rw [List.append_nil] at hmagic
  rw [kHeader] at hlen
  rw [deserialize, if_neg (by omega), hmagic]
  dsimp only
  rw [if_neg (by simp [new]), if_neg hfits, if_neg (by rw [hpayload, hlen]; simp [new]), hdrop, htype, hpayload,
    List.take_length]
  rfl

end NetMessage

end Moneu.Net
