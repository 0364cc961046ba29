/-
# Reading from a peer

`StartRead` asks the socket for up to `READ_CHUNK_SIZE` bytes, gives what came to `HandleRead`, and asks
again while the peer is connected.  `HandleRead` appends the bytes to `recvBuffer`, takes complete messages
off its front and passes each to `HandleMessage`.

The handlers are a PARAMETER (`handle`): they work on the peer's other data, may change its misbehaviour and
may disconnect it, and they have no access to `recvBuffer`.  What `HandleRead` does itself is recorded as the
list of its calls (`Call`), so that its own verdict on the peer is told from the handlers'.

The bytes of a stream come in pieces of any size, and the cut of the stream (`Framing.Cut`) says what is to
be done.  One turn of the loop takes one message of the cut (`readLoop_message`), the loop takes all of them
(`readLoop_stream`), and the next piece goes on from the bytes kept (`reads_stream`).  The test of the
buffer's size comes before the messages are taken off: it is passed because the bytes kept are fewer than
those of one message, and a message leaves room for one more piece.
-/
import Moneu.Lib.Framing
import Moneu.Net.NetMessage

namespace Moneu.Net

open Framing

/-! ## 1. The code -/

def READ_CHUNK_SIZE : Nat := 64 * 1024

/-- What the message handlers read and change of a `Node`. -/
structure Peer (σ : Type) where
  connected : Bool
  misbehavior : Int32
  other : σ

/-- The part of a `Node` that receives. -/
structure Node (σ : Type) where
  peer : Peer σ
  lastRecv : Int64
  bytesRecv : UInt64
  recvBuffer : List UInt8

/-- What `HandleRead` calls. -/
inductive Call where
  | handleMessage (msg : NetMessage)
  | addMisbehavior (score : Int32)
  | disconnectNode (reason : String)
  deriving DecidableEq

section Code

variable {σ : Type}

def Node.addMisbehavior (node : Node σ) (score : Int32) : Node σ :=
  { node with peer := { node.peer with misbehavior := node.peer.misbehavior + score } }

def Node.isBanned (node : Node σ) : Bool := node.peer.misbehavior ≥ 100

/-- `DisconnectNode`, as far as the node itself goes. -/
def Node.disconnect (node : Node σ) : Node σ :=
  { node with peer := { node.peer with connected := false } }

/-- `AddMisbehavior` and then `DisconnectNode`. -/
def Node.expel (node : Node σ) (score : Int32) (reason : String) : Node σ × List Call :=
  ((node.addMisbehavior score).disconnect, [.addMisbehavior score, .disconnectNode reason])

/-- The branch of a message that cannot be read.  Its bytes stay in the buffer. -/
def Node.invalidMessage (node : Node σ) : Node σ × List Call :=
  let node := node.addMisbehavior 10
  if node.isBanned then (node.disconnect, [.addMisbehavior 10, .disconnectNode "misbehavior limit"])
  else (node, [.addMisbehavior 10])

/-- The loop of `HandleRead`.  Every turn but the last takes at least nine bytes off the buffer, so as many
turns as there are bytes are enough. -/
def readLoop (handle : NetMessage → Peer σ → Peer σ) : Nat → Node σ → Node σ × List Call
  | 0, node => (node, [])
  | turns + 1, node =>
    if node.recvBuffer.length < kHeader then (node, [])
    else
      let payloadSize := readLE32 (node.recvBuffer.drop 5)
      if payloadSize > MAX_PROTOCOL_MSG_SIZE then node.expel 20 "declared payload too large"
      else
        let total := kHeader + payloadSize.toNat
        if node.recvBuffer.length < total then (node, [])
        else
          match NetMessage.deserialize (node.recvBuffer.take total) with
          | none => node.invalidMessage
          | some msg =>
            let node := { node with
              recvBuffer := node.recvBuffer.drop total, peer := handle msg node.peer }
            if node.peer.connected then
              let r := readLoop handle turns node
              (r.1, .handleMessage msg :: r.2)
            else (node, [.handleMessage msg])

/-- `HandleRead` of the bytes that came, at the time `now`. -/
def handleRead (handle : NetMessage → Peer σ → Peer σ) (node : Node σ) (now : Int64) (bytes : List UInt8) :
    Node σ × List Call :=
  if bytes.length = 0 then (node, [])
  else
    let node := { node with
      lastRecv := now
      bytesRecv := node.bytesRecv + UInt64.ofNat bytes.length
      recvBuffer := node.recvBuffer ++ bytes }
    if node.recvBuffer.length > MAX_PROTOCOL_MSG_SIZE.toNat + kHeader then
      node.expel 20 "oversized message stream"
    else readLoop handle node.recvBuffer.length node

/-- `StartRead`: the pieces that come from the socket, each with its time, go to `HandleRead` one after
another while the peer is connected. -/
def reads (handle : NetMessage → Peer σ → Peer σ) :
    Node σ → List (Int64 × List UInt8) → Node σ × List Call
  | node, [] => (node, [])
  | node, (now, bytes) :: more =>
    let r := handleRead handle node now bytes
    if r.1.peer.connected then
      let r' := reads handle r.1 more
      (r'.1, r.2 ++ r'.2)
    else r

end Code

/-! ## 2. One turn of the loop -/

/-- A message as it is sent, with a payload that leaves room for one more piece in the buffer. -/
structure Sendable (msg : NetMessage) : Prop where
  built : ∃ t p, msg = NetMessage.new t p
  size : msg.payload.length ≤ MAX_PROTOCOL_MSG_SIZE.toNat - READ_CHUNK_SIZE

namespace Sendable

variable {msg : NetMessage}

theorem size_le (h : Sendable msg) : msg.payload.length ≤ MAX_PROTOCOL_MSG_SIZE.toNat :=
  Nat.le_trans h.size (Nat.sub_le _ _)

theorem payloadSize (h : Sendable msg) {bytes after : List UInt8} (hlong : kHeader ≤ bytes.length)
    (hwithin : bytes <+: msg.serialize ++ after) :
    (readLE32 (bytes.drop 5)).toNat = msg.payload.length := by
  have hmax : MAX_PROTOCOL_MSG_SIZE.toNat < 2 ^ 32 := MAX_PROTOCOL_MSG_SIZE.toNat_lt
  have hsize := h.size_le
  rw [NetMessage.readLE32_drop_five_of_within hlong hwithin,
    NetMessage.payloadSize_serialize msg after (by omega)]

theorem payloadSize_le (h : Sendable msg) {bytes after : List UInt8} (hlong : kHeader ≤ bytes.length)
    (hwithin : bytes <+: msg.serialize ++ after) :
    ¬ readLE32 (bytes.drop 5) > MAX_PROTOCOL_MSG_SIZE := by
  have hsize := h.size_le
  rw [gt_iff_lt, UInt32.lt_iff_toNat_lt, h.payloadSize hlong hwithin]
  omega

theorem deserialize (h : Sendable msg) : NetMessage.deserialize msg.serialize = some msg := by
  have hsize := h.size_le
  obtain ⟨t, p, rfl⟩ := h.built
  exact NetMessage.deserialize_serialize_new t p hsize

end Sendable

section Turn

variable {σ : Type} {handle : NetMessage → Peer σ → Peer σ} {node : Node σ} {msg : NetMessage}

theorem readLoop_of_short (turns : Nat) (hshort : node.recvBuffer.length < kHeader) :
    readLoop handle turns node = (node, []) := by
  cases turns with
  | zero => rfl
  | succ turns => rw [readLoop, if_pos hshort]

theorem readLoop_of_part (turns : Nat) {after : List UInt8} (hmsg : Sendable msg)
    (hwithin : node.recvBuffer <+: msg.serialize ++ after)
    (hshort : node.recvBuffer.length < msg.serialize.length) : readLoop handle turns node = (node, []) := by
  by_cases hlong : kHeader ≤ node.recvBuffer.length
  · rw [NetMessage.length_serialize] at hshort
    cases turns with
    | zero => rfl
    | succ turns =>
      rw [readLoop, if_neg (by omega)]
      dsimp only
      rw [if_neg (hmsg.payloadSize_le hlong hwithin), hmsg.payloadSize hlong hwithin, if_pos hshort]
  · exact readLoop_of_short turns (by omega)

/-- **A complete message is taken off and handled**, and the loop goes on unless its handler disconnects. -/
theorem readLoop_message (turns : Nat) {after : List UInt8} (hmsg : Sendable msg)
    (hbuffer : node.recvBuffer = msg.serialize ++ after)
    (hkeep : (handle msg node.peer).connected = true) :
    readLoop handle (turns + 1) node =
      let r := readLoop handle turns { node with recvBuffer := after, peer := handle msg node.peer }
      (r.1, .handleMessage msg :: r.2) := by
  have hlen := NetMessage.length_serialize msg
  have hlong : kHeader ≤ node.recvBuffer.length := by
    rw [hbuffer, List.length_append]
    omega
  have hwithin : node.recvBuffer <+: msg.serialize ++ after := by rw [hbuffer]
  rw [readLoop, if_neg (by omega)]
  dsimp only
  rw [if_neg (hmsg.payloadSize_le hlong hwithin), hmsg.payloadSize hlong hwithin, ← hlen, hbuffer,
    if_neg (by rw [List.length_append]; omega), List.take_left, List.drop_left, hmsg.deserialize]
  dsimp only
  rw [if_pos hkeep]

end Turn

/-! ## 3. The stream -/

section Stream

variable {σ : Type} {handle : NetMessage → Peer σ → Peer σ} {msgs : List NetMessage}

/-- **What is done of a stream after `bytes` of it**: the complete messages are handled in order, the rest is
kept, and nothing else is called. -/
structure Framed (msgs : List NetMessage) (bytes : List UInt8) (r : Node σ × List Call) : Prop where
  connected : r.1.peer.connected = true
  cut : ∃ done pending, Cut NetMessage.serialize msgs bytes done pending r.1.recvBuffer ∧
    r.2 = done.map .handleMessage

theorem readLoop_stream (hkeep : ∀ msg peer, peer.connected = true → (handle msg peer).connected = true) :
    ∀ (turns : Nat) (node : Node σ) {msgs : List NetMessage}, (∀ msg ∈ msgs, Sendable msg) →
      node.peer.connected = true → node.recvBuffer.length ≤ turns →
      node.recvBuffer <+: msgs.flatMap NetMessage.serialize →
      Framed msgs node.recvBuffer (readLoop handle turns node) := by
  intro turns
  induction turns with
  | zero =>
    intro node msgs hmsgs hconn hturns hwithin
    have hnil : node.recvBuffer = [] := List.eq_nil_of_length_eq_zero (by omega)
    refine ⟨hconn, [], msgs, ?_, rfl⟩
    rw [readLoop, hnil]
    exact .start fun msg _ => msg.length_serialize_pos
  | succ turns ih =>
    intro node msgs hmsgs hconn hturns hwithin
    -- Either the first message is complete, or the loop waits for it.
    cases msgs with
    | nil =>
      have hnil : node.recvBuffer = [] := List.prefix_nil.1 hwithin
      rw [readLoop_of_short (turns + 1) (by rw [hnil]; decide)]
      exact ⟨hconn, [], [], .wait hwithin (by simp), rfl⟩
    | cons msg msgs =>
      have hmsg := hmsgs msg List.mem_cons_self
      by_cases hlong : msg.serialize.length ≤ node.recvBuffer.length
      · obtain ⟨after, hbuffer, hafter⟩ := eq_append_of_within hwithin hlong
        have hpeer := hkeep msg node.peer hconn
        have hpos := msg.length_serialize_pos
        rw [hbuffer, List.length_append] at hturns
        have hrest := ih { node with recvBuffer := after, peer := handle msg node.peer }
          (fun m hm => hmsgs m (List.mem_cons_of_mem _ hm)) hpeer (by dsimp only; omega) hafter
        obtain ⟨done, pending, hcut, hcalls⟩ := hrest.cut
        rw [readLoop_message turns hmsg hbuffer hpeer, hbuffer]
        refine ⟨hrest.connected, msg :: done, pending, hcut.cons, ?_⟩
        dsimp only
        rw [hcalls, List.map_cons]
      · have hshort : node.recvBuffer.length < msg.serialize.length := by omega
        rw [readLoop_of_part (turns + 1) hmsg (List.flatMap_cons ▸ hwithin) hshort]
        refine ⟨hconn, [], msg :: msgs, .wait hwithin ?_, rfl⟩
        intro m hm
        obtain rfl : msg = m := Option.some.inj hm
        exact hshort

/-- **The bytes kept and one more piece pass the test of the size.** -/
theorem length_append_le {bytes rest piece : List UInt8} {done pending : List NetMessage}
    (hmsgs : ∀ msg ∈ msgs, Sendable msg) (hcut : Cut NetMessage.serialize msgs bytes done pending rest)
    (hpiece : piece.length ≤ READ_CHUNK_SIZE) :
    (rest ++ piece).length ≤ MAX_PROTOCOL_MSG_SIZE.toNat + kHeader := by
  have hroom : READ_CHUNK_SIZE ≤ MAX_PROTOCOL_MSG_SIZE.toNat := by decide
  rw [List.length_append]
  cases pending with
  | nil =>
    obtain rfl : rest = [] := List.prefix_nil.1 hcut.within
    rw [List.length_nil]
    omega
  | cons msg pending =>
    have hmsg := hmsgs msg (by rw [hcut.msgs_eq]; simp)
    have hsize := hmsg.size
    have hshort := hcut.short msg rfl
    rw [NetMessage.length_serialize] at hshort
    omega

theorem handleRead_stream (hkeep : ∀ msg peer, peer.connected = true → (handle msg peer).connected = true)
    (hmsgs : ∀ msg ∈ msgs, Sendable msg) {node : Node σ} (now : Int64) {bytes piece : List UInt8}
    {done pending : List NetMessage} (hconn : node.peer.connected = true)
    (hcut : Cut NetMessage.serialize msgs bytes done pending node.recvBuffer)
    (hpos : 1 ≤ piece.length) (hpiece : piece.length ≤ READ_CHUNK_SIZE)
    (hwithin : bytes ++ piece <+: msgs.flatMap NetMessage.serialize) :
    Framed pending (node.recvBuffer ++ piece) (handleRead handle node now piece) := by
  have hpending : ∀ msg ∈ pending, Sendable msg := by
    intro msg hmsg
    exact hmsgs msg (hcut.msgs_eq ▸ List.mem_append_right done hmsg)
  have hsize := length_append_le hmsgs hcut hpiece
  rw [handleRead, if_neg (by omega)]
  dsimp only
  rw [if_neg (by omega)]
  have hloop := readLoop_stream hkeep (node.recvBuffer ++ piece).length
    { node with
      lastRecv := now
      bytesRecv := node.bytesRecv + UInt64.ofNat piece.length
      recvBuffer := node.recvBuffer ++ piece }
    hpending hconn (Nat.le_refl _) (hcut.more_within hwithin)
  exact hloop

theorem reads_from (hkeep : ∀ msg peer, peer.connected = true → (handle msg peer).connected = true)
    (hmsgs : ∀ msg ∈ msgs, Sendable msg) :
    ∀ {pieces : List (Int64 × List UInt8)} {node : Node σ} {bytes : List UInt8}
      {done pending : List NetMessage}, node.peer.connected = true →
      Cut NetMessage.serialize msgs bytes done pending node.recvBuffer →
      (∀ piece ∈ pieces, 1 ≤ piece.2.length ∧ piece.2.length ≤ READ_CHUNK_SIZE) →
      bytes ++ (pieces.map Prod.snd).flatten <+: msgs.flatMap NetMessage.serialize →
      ∃ done' pending', Cut NetMessage.serialize msgs (bytes ++ (pieces.map Prod.snd).flatten)
          (done ++ done') pending' (reads handle node pieces).1.recvBuffer ∧
        (reads handle node pieces).2 = done'.map .handleMessage ∧
        (reads handle node pieces).1.peer.connected = true := by
  intro pieces
  induction pieces with
  | nil =>
    intro node bytes done pending hconn hcut _ _
    refine ⟨[], pending, ?_, rfl, hconn⟩
    rw [List.map_nil, List.flatten_nil, List.append_nil, List.append_nil]
    exact hcut
  | cons piece pieces ih =>
    intro node bytes done pending hconn hcut hpieces hwithin
    obtain ⟨now, piece⟩ := piece
    obtain ⟨hpos, hpiece⟩ := hpieces _ List.mem_cons_self
    rw [List.map_cons, List.flatten_cons, ← List.append_assoc] at hwithin ⊢
    have hread := handleRead_stream hkeep hmsgs now hconn hcut hpos hpiece
      ((List.prefix_append _ _).trans hwithin)
    obtain ⟨done₁, pending₁, hcut₁, hcalls₁⟩ := hread.cut
    obtain ⟨done₂, pending₂, hcut₂, hcalls₂, hconn₂⟩ := ih hread.connected (hcut.append hcut₁)
      (fun p hp => hpieces p (List.mem_cons_of_mem _ hp)) hwithin
    rw [reads]
    dsimp only
    rw [if_pos hread.connected]
    refine ⟨done₁ ++ done₂, pending₂, ?_, ?_, hconn₂⟩
    · rwa [← List.append_assoc]
    · rw [hcalls₁, hcalls₂, List.map_append]

theorem reads_new (hkeep : ∀ msg peer, peer.connected = true → (handle msg peer).connected = true)
    (hmsgs : ∀ msg ∈ msgs, Sendable msg) {node : Node σ} {pieces : List (Int64 × List UInt8)}
    (hconn : node.peer.connected = true) (hempty : node.recvBuffer = [])
    (hpieces : ∀ piece ∈ pieces, 1 ≤ piece.2.length ∧ piece.2.length ≤ READ_CHUNK_SIZE)
    (hwithin : (pieces.map Prod.snd).flatten <+: msgs.flatMap NetMessage.serialize) :
    Framed msgs (pieces.map Prod.snd).flatten (reads handle node pieces) := by
  have hstart : Cut NetMessage.serialize msgs [] [] msgs node.recvBuffer := by
    rw [hempty]
    exact .start fun msg _ => msg.length_serialize_pos
  obtain ⟨done, pending, hcut, hcalls, hconn'⟩ := reads_from hkeep hmsgs hconn hstart hpieces hwithin
  exact ⟨hconn', done, pending, hcut, hcalls⟩

/-- **Framing does not depend on how the stream is cut.**  Every initial part of the bytes of a list of messages,
in pieces of any sizes, gives the handlers exactly the messages that are complete in it, in their order.  The
rest of the bytes is in the buffer.  `HandleRead` itself says nothing against the peer. -/
theorem wire_framing (handle : NetMessage → Peer σ → Peer σ)
    (hkeep : ∀ msg peer, peer.connected = true → (handle msg peer).connected = true)
    (msgs : List NetMessage) (hmsgs : ∀ msg ∈ msgs, Sendable msg) (bytes : List UInt8)
    (hwithin : bytes <+: msgs.flatMap NetMessage.serialize) (pieces : List (Int64 × List UInt8))
    (hpieces : ∀ piece ∈ pieces, 1 ≤ piece.2.length ∧ piece.2.length ≤ READ_CHUNK_SIZE)
    (hsplit : (pieces.map Prod.snd).flatten = bytes) (node : Node σ)
    (hconn : node.peer.connected = true) (hempty : node.recvBuffer = []) :
    Framed msgs bytes (reads handle node pieces) := by
  subst hsplit
  exact reads_new hkeep hmsgs hconn hempty hpieces hwithin

end Stream

/-- A ping in two pieces, the first of them inside the header; the second piece ends inside the next message. -/
theorem wire_framing_two_pieces :
    Framed [NetMessage.new 3 [7], NetMessage.new 2 []]
      [0xB6, 0xFD, 0xFA, 0x84, 3, 1, 0, 0, 0, 7, 0xB6, 0xFD]
      (reads (fun _ peer => peer) ⟨⟨true, 0, ()⟩, 0, 0, []⟩
        [(5, [0xB6, 0xFD, 0xFA, 0x84, 3, 1]), (6, [0, 0, 0, 7, 0xB6, 0xFD])]) := by
  apply wire_framing
  case hkeep => exact fun _ _ h => h
  case hmsgs =>
    intro msg hmsg
    rcases List.mem_pair.1 hmsg with rfl | rfl
    · exact ⟨⟨_, _, rfl⟩, by decide⟩
    · exact ⟨⟨_, _, rfl⟩, by decide⟩
  case hwithin => decide
  case hpieces => decide
  case hsplit => rfl
  case hconn => rfl
  case hempty => rfl

end Moneu.Net
