/-
# Writing to a peer

`PushMessage` appends a serialized message to the peer's `sendQueue` under the send lock.  `MessageLoop`
passes over the peers again and again: it swaps the queue out under the lock, writes from its own copy
OUTSIDE the lock as long as the socket takes bytes, and puts what is left back in front of what was queued
meanwhile.  The socket may take a part of a message, so `sendOffset` says how much of the first one is gone,
and it outlives the pass.

The state is one peer with the pass over it between two of its actions (`Pass`), and the bytes its socket has
taken.  The calls of `PushMessage`, the actions of the pass, the socket's answers, the clock and other threads
that disconnect the peer come in any order (`SendEvent`).

What the queues mean is `Framing.backlog`.  Every action keeps the equation `wire ++ backlog = stream`
(`Exact`), up to the action that gives the peer up.  That action throws the pass's own queue away: from then on
nothing is written, and the bytes written are still the beginning of the stream (`Sends`).
-/
import Moneu.Net.HandleRead

namespace Moneu.Net

open Framing

/-! ## 1. The code -/

def SEND_STALL_TIMEOUT_SEC : Int64 := 60

/-- What `write_some` returns: the number of bytes taken, or an error. -/
inductive Answer where
  | wrote (n : Nat)
  /-- `would_block` or `try_again`. -/
  | wouldBlock
  | failed
  deriving DecidableEq

/-- Where `MessageLoop` is in its pass over the peer, with the queue `toSend` it has swapped out. -/
inductive Pass where
  /-- Before `if (!node->connected) continue`. -/
  | idle
  /-- Before a turn of `while (!toSend.empty())`. -/
  | writing (toSend : List (List UInt8))
  /-- After the turn that found the socket blocked. -/
  | blocked (toSend : List (List UInt8))
  deriving DecidableEq

/-- The part of a `Node` that sends. -/
structure Sender where
  connected : Bool
  sendQueue : List (List UInt8)
  sendOffset : Nat
  sendStallSince : Int64
  bytesSent : UInt64
  lastSend : Int64
  pass : Pass
  /-- The bytes the socket has taken. -/
  wire : List UInt8
  deriving DecidableEq

inductive SendEvent where
  | pushMessage (msg : NetMessage)
  /-- The head of a pass, up to the swap. -/
  | swap
  /-- A turn of the writing loop, with the socket's answer if it is asked. -/
  | turn (answer : Answer) (now : Int64)
  /-- What follows on a blocked socket. -/
  | putBack (now : Int64)
  /-- `DisconnectNode` by another thread. -/
  | disconnect

namespace Sender

/-- A new connection. -/
def new : Sender := ⟨true, [], 0, 0, 0, 0, .idle, []⟩

def pushMessage (s : Sender) (msg : NetMessage) : Sender :=
  { s with sendQueue := s.sendQueue ++ [msg.serialize] }

/-- The pass is over and `toSend` is gone. -/
def giveUp (s : Sender) : Sender := { s with connected := false, pass := .idle }

/-- A pass begins with the queue of the peer. -/
def swap (s : Sender) : Sender :=
  if s.connected then
    match s.sendQueue with
    | [] => { s with sendStallSince := 0 }
    | data :: queue => { s with sendQueue := [], pass := .writing (data :: queue) }
  else s

/-- The socket is asked to take what is left of `data`, the first of `toSend`. -/
def writeSome (s : Sender) (data : List UInt8) (toSend : List (List UInt8)) (answer : Answer)
    (now : Int64) : Sender :=
  match answer with
  | .wouldBlock => { s with pass := .blocked toSend }
  | .failed => s.giveUp
  | .wrote n =>
    let taken := (data.drop s.sendOffset).take n
    { s with
      wire := s.wire ++ taken
      sendOffset := s.sendOffset + taken.length
      bytesSent := s.bytesSent + UInt64.ofNat taken.length
      lastSend := now
      sendStallSince := 0 }

/-- One turn of `while (!toSend.empty())`, or the end of the loop. -/
def turn (s : Sender) (toSend : List (List UInt8)) (answer : Answer) (now : Int64) : Sender :=
  match toSend with
  | [] => { s with sendStallSince := 0, pass := .idle }
  | data :: rest =>
    if s.sendOffset ≥ data.length then { s with sendOffset := 0, pass := .writing rest }
    else s.writeSome data (data :: rest) answer now

/-- The branch `if (blocked)`. -/
def putBack (s : Sender) (toSend : List (List UInt8)) (now : Int64) : Sender :=
  if s.sendStallSince = 0 then
    { s with sendStallSince := now, sendQueue := toSend ++ s.sendQueue, pass := .idle }
  else if now - s.sendStallSince ≥ SEND_STALL_TIMEOUT_SEC then s.giveUp
  else { s with sendQueue := toSend ++ s.sendQueue, pass := .idle }

/-- One event.  An action of the pass that is not the next one does nothing. -/
def step (s : Sender) : SendEvent → Sender
  | .pushMessage msg => s.pushMessage msg
  | .disconnect => { s with connected := false }
  | .swap =>
    match s.pass with
    | .idle => s.swap
    | _ => s
  | .turn answer now =>
    match s.pass with
    | .writing toSend => s.turn toSend answer now
    | _ => s
  | .putBack now =>
    match s.pass with
    | .blocked toSend => s.putBack toSend now
    | _ => s

def run (s : Sender) (events : List SendEvent) : Sender := events.foldl step s

end Sender

/-! ## 2. What the queues mean -/

/-- The message an event pushes. -/
def SendEvent.message? : SendEvent → Option NetMessage
  | .pushMessage msg => some msg
  | _ => none

/-- The messages in the order in which their `PushMessage` calls take the lock. -/
def pushedMessages (events : List SendEvent) : List NetMessage := events.filterMap SendEvent.message?

/-- The queue the pass has. -/
def Pass.toSend : Pass → List (List UInt8)
  | .idle => []
  | .writing toSend => toSend
  | .blocked toSend => toSend

namespace Sender

variable {s : Sender} {msgs : List NetMessage}

/-- The pass's queue and `sendQueue`, without the first `sendOffset` bytes. -/
def unsent (s : Sender) : List UInt8 := backlog (s.pass.toSend ++ s.sendQueue) s.sendOffset

/-- The peer is connected, or a pass over it is under way. -/
def Active (s : Sender) : Prop := s.connected = true ∨ s.pass ≠ .idle

instance : Decidable s.Active := inferInstanceAs (Decidable (_ ∨ _))

/-- **Written and unsent bytes are the stream**, of the messages `msgs` that were pushed. -/
structure Exact (msgs : List NetMessage) (s : Sender) : Prop where
  placed : Placed (s.pass.toSend ++ s.sendQueue) s.sendOffset
  bytes_eq : s.wire ++ s.unsent = msgs.flatMap NetMessage.serialize

/-- The equation holds as long as the sender is active, and what is written is never wrong. -/
structure Sends (msgs : List NetMessage) (s : Sender) : Prop where
  exact_of_active : s.Active → Exact msgs s
  written : s.wire <+: msgs.flatMap NetMessage.serialize

theorem Exact.sends (h : Exact msgs s) : Sends msgs s :=
  ⟨fun _ => h, ⟨s.unsent, h.bytes_eq⟩⟩

theorem Exact.giveUp (h : Exact msgs s) : Sends msgs s.giveUp := by
  refine ⟨?_, h.sends.written⟩
  rintro (hconn | hpass)
  · cases hconn
  · exact absurd rfl hpass

/-- The equation depends on the queues together, the offset and the wire. -/
theorem Exact.congr {s' : Sender} (h : Exact msgs s)
    (hqueue : s'.pass.toSend ++ s'.sendQueue = s.pass.toSend ++ s.sendQueue)
    (hoffset : s'.sendOffset = s.sendOffset) (hwire : s'.wire = s.wire) : Exact msgs s' := by
  refine ⟨?_, ?_⟩
  · rw [hqueue, hoffset]
    exact h.placed
  · rw [unsent, hqueue, hoffset, hwire]
    exact h.bytes_eq

/-! ## 3. One action -/

theorem Exact.pushMessage (h : Exact msgs s) (msg : NetMessage) :
    Exact (msgs ++ [msg]) (s.pushMessage msg) := by
  have hqueue : (s.pushMessage msg).pass.toSend ++ (s.pushMessage msg).sendQueue =
      (s.pass.toSend ++ s.sendQueue) ++ [msg.serialize] := (List.append_assoc _ _ _).symm
  refine ⟨?_, ?_⟩
  · rw [hqueue]
    exact h.placed.append _
  · have hmore := h.placed.backlog_append [msg.serialize]
    rw [unsent, hqueue]
    show s.wire ++ backlog _ s.sendOffset = _
    rw [hmore, ← List.append_assoc, List.flatMap_append, ← h.bytes_eq, unsent, List.flatten_singleton,
      List.flatMap_singleton]

theorem Exact.swap (h : Exact msgs s) (hpass : s.pass = .idle) : Exact msgs s.swap := by
  unfold Sender.swap
  split
  case isTrue =>
    split
    case h_1 => exact h.congr rfl rfl rfl
    case h_2 data queue hqueue =>
      refine h.congr ?_ rfl rfl
      rw [hpass, hqueue]
      exact List.append_nil _
  case isFalse => exact h

theorem Exact.of_writing {data : List UInt8} {rest : List (List UInt8)} (h : Exact msgs s)
    (hpass : s.pass = .writing (data :: rest)) :
    Placed (data :: (rest ++ s.sendQueue)) s.sendOffset ∧
      s.wire ++ backlog (data :: (rest ++ s.sendQueue)) s.sendOffset =
        msgs.flatMap NetMessage.serialize := by
  obtain ⟨hplaced, hbytes⟩ := h
  rw [unsent, hpass] at hbytes
  rw [hpass] at hplaced
  exact ⟨hplaced, hbytes⟩

theorem Exact.writeSome {data : List UInt8} {rest : List (List UInt8)} (h : Exact msgs s)
    (hpass : s.pass = .writing (data :: rest)) (answer : Answer) (now : Int64) :
    Sends msgs (s.writeSome data (data :: rest) answer now) := by
  cases answer with
  | wouldBlock =>
    refine Exact.sends (h.congr ?_ rfl rfl)
    rw [hpass]
    rfl
  | failed => exact h.giveUp
  | wrote n =>
    obtain ⟨hplaced, hbytes⟩ := h.of_writing hpass
    rw [hplaced.backlog_write n, ← List.append_assoc] at hbytes
    refine Exact.sends ⟨?_, ?_⟩
    · simp only [Sender.writeSome, hpass]
      exact hplaced.write n
    · simp only [Sender.writeSome, unsent, hpass]
      exact hbytes

theorem Exact.turn {toSend : List (List UInt8)} (h : Exact msgs s) (hpass : s.pass = .writing toSend)
    (answer : Answer) (now : Int64) : Sends msgs (s.turn toSend answer now) := by
  cases toSend with
  | nil =>
    refine Exact.sends (h.congr ?_ rfl rfl)
    rw [hpass]
    rfl
  | cons data rest =>
    rw [Sender.turn]
    split
    case isTrue hall =>
      obtain ⟨hplaced, hbytes⟩ := h.of_writing hpass
      rw [hplaced.backlog_pop hall] at hbytes
      exact Exact.sends ⟨Nat.zero_le _, hbytes⟩
    case isFalse => exact h.writeSome hpass answer now

/-- **What is left goes back to the front**, or is given up with the peer. -/
theorem Exact.putBack {toSend : List (List UInt8)} (h : Exact msgs s) (hpass : s.pass = .blocked toSend)
    (now : Int64) : Sends msgs (s.putBack toSend now) := by
  unfold Sender.putBack
  split
  case isTrue =>
    refine Exact.sends (h.congr ?_ rfl rfl)
    rw [hpass]
    rfl
  case isFalse =>
    split
    case isTrue => exact h.giveUp
    case isFalse =>
      refine Exact.sends (h.congr ?_ rfl rfl)
      rw [hpass]
      rfl

/-! ## 4. Every interleaving -/

/-- A sender that has been given up stays so, and its queue does not matter any more. -/
theorem Sends.of_not_active {s' : Sender} (h : Sends msgs s) (more : List NetMessage)
    (hactive : ¬ s'.Active) (hwire : s'.wire = s.wire) : Sends (msgs ++ more) s' := by
  refine ⟨fun hs' => absurd hs' hactive, ?_⟩
  rw [hwire, List.flatMap_append]
  exact h.written.trans (List.prefix_append _ _)

theorem Sends.step (h : Sends msgs s) (event : SendEvent) :
    Sends (msgs ++ event.message?.toList) (s.step event) := by
  by_cases hactive : s.Active
  · have hexact := h.exact_of_active hactive
    cases event with
    | pushMessage msg => exact (hexact.pushMessage msg).sends
    | disconnect =>
      show Sends (msgs ++ []) _
      rw [List.append_nil]
      exact Exact.sends (hexact.congr rfl rfl rfl)
    | swap =>
      show Sends (msgs ++ []) _
      rw [List.append_nil, Sender.step]
      split
      case h_1 hpass => exact (hexact.swap hpass).sends
      case h_2 => exact h
    | turn answer now =>
      show Sends (msgs ++ []) _
      rw [List.append_nil, Sender.step]
      split
      case h_1 toSend hpass => exact hexact.turn hpass answer now
      case h_2 => exact h
    | putBack now =>
      show Sends (msgs ++ []) _
      rw [List.append_nil, Sender.step]
      split
      case h_1 toSend hpass => exact hexact.putBack hpass now
      case h_2 => exact h
  · obtain ⟨hconn, hpass⟩ := not_or.1 hactive
    rw [not_not] at hpass
    refine h.of_not_active _ ?_ ?_
    · cases event <;> simp_all [Sender.step, Sender.swap, Sender.pushMessage, Active]
    · cases event <;> simp_all [Sender.step, Sender.swap, Sender.pushMessage]

theorem Sends.run (h : Sends msgs s) (events : List SendEvent) :
    Sends (msgs ++ pushedMessages events) (s.run events) := by
  induction events generalizing s msgs with
  | nil =>
    rw [pushedMessages, List.filterMap_nil, List.append_nil]
    exact h
  | cons event events ih =>
    have hrest := ih (h.step event)
    rw [List.append_assoc] at hrest
    have hpushed : event.message?.toList ++ pushedMessages events = pushedMessages (event :: events) := by
      rw [pushedMessages, pushedMessages, List.filterMap_cons]
      cases event.message? <;> rfl
    rwa [hpushed] at hrest

/-- **Every interleaving**, from a new connection. -/
theorem sends_new (events : List SendEvent) : Sends (pushedMessages events) (new.run events) := by
  have hnew : Sends [] new := Exact.sends ⟨Nat.zero_le _, rfl⟩
  exact hnew.run events

/-- **The send path keeps the stream.**  At every moment the socket has taken a beginning of the serialized
messages in the order of the lock.  As long as the peer is connected, or a pass over it is under way, the rest
of them is exactly the queues without the first `sendOffset` bytes. -/
theorem send_path (events : List SendEvent) :
    (new.run events).wire <+: (pushedMessages events).flatMap NetMessage.serialize ∧
      ((new.run events).Active → (new.run events).wire ++ (new.run events).unsent =
        (pushedMessages events).flatMap NetMessage.serialize) := by
  have hsends := sends_new events
  exact ⟨hsends.written, fun hactive => (hsends.exact_of_active hactive).bytes_eq⟩

/-- A message that is written in parts, and another one pushed while the pass is blocked. -/
def interruptedSend : List SendEvent :=
  [.pushMessage (.new 3 [7]), .swap, .turn (.wrote 4) 100, .turn .wouldBlock 100, .pushMessage (.new 2 []),
    .putBack 100]

theorem send_path_interrupted :
    (new.run interruptedSend).wire = [0xB6, 0xFD, 0xFA, 0x84] ∧
      (new.run interruptedSend).wire ++ (new.run interruptedSend).unsent =
        (NetMessage.new 3 [7]).serialize ++ (NetMessage.new 2 []).serialize := by
  refine ⟨by decide, ?_⟩
  have hpath := (send_path interruptedSend).2 (by decide)
  rwa [show (pushedMessages interruptedSend).flatMap NetMessage.serialize =
    (NetMessage.new 3 [7]).serialize ++ (NetMessage.new 2 []).serialize by decide] at hpath

/-- A socket that stays blocked for sixty seconds. -/
def stalledSend : List SendEvent :=
  [.pushMessage (.new 3 [7]), .swap, .turn .wouldBlock 100, .putBack 100, .swap, .turn .wouldBlock 160,
    .putBack 160]

/-- **The queue of a stalled peer is lost**: nothing is written, and nothing is left to write. -/
theorem stalled_peer_loses_queue :
    (new.run stalledSend).wire ++ (new.run stalledSend).unsent ≠
      (pushedMessages stalledSend).flatMap NetMessage.serialize := by
  decide

end Sender

/-! ## 5. From one node to another -/

/-- **What one node pushes, the other handles.**  The link hands on a beginning of what the sender's socket has
taken, in pieces of its own.  The receiver handles a beginning of the messages, each once and in the order of
the lock, and drops nobody; and it handles ALL of them when nothing is left on the way. -/
theorem delivery {σ : Type} (handle : NetMessage → Peer σ → Peer σ)
    (hkeep : ∀ msg peer, peer.connected = true → (handle msg peer).connected = true)
    (events : List SendEvent) (hmsgs : ∀ msg ∈ pushedMessages events, Sendable msg)
    (pieces : List (Int64 × List UInt8))
    (hpieces : ∀ piece ∈ pieces, 1 ≤ piece.2.length ∧ piece.2.length ≤ READ_CHUNK_SIZE)
    (hlink : (pieces.map Prod.snd).flatten <+: (Sender.new.run events).wire) (node : Node σ)
    (hconn : node.peer.connected = true) (hempty : node.recvBuffer = []) :
    ∃ done, done <+: pushedMessages events ∧ (reads handle node pieces).2 = done.map .handleMessage ∧
      (reads handle node pieces).1.peer.connected = true ∧
      ((Sender.new.run events).Active → (Sender.new.run events).unsent = [] →
        (pieces.map Prod.snd).flatten = (Sender.new.run events).wire → done = pushedMessages events) := by
  have hsends := Sender.sends_new events
  have hread := reads_new hkeep hmsgs hconn hempty hpieces (hlink.trans hsends.written)
  obtain ⟨done, pending, hcut, hcalls⟩ := hread.cut
  refine ⟨done, ⟨pending, hcut.msgs_eq.symm⟩, hcalls, hread.connected, fun hactive hunsent hall => ?_⟩
  have hbytes := (hsends.exact_of_active hactive).bytes_eq
  rw [hunsent, List.append_nil, ← hall, hcut.bytes_eq, hcut.msgs_eq, List.flatMap_append] at hbytes
  have hrest := List.append_cancel_left hbytes
  -- A message that is not done would still miss some of its bytes.
  cases pending with
  | nil => rw [hcut.msgs_eq, List.append_nil]
  | cons msg pending =>
    have hshort := hcut.short msg rfl
    rw [hrest, List.flatMap_cons, List.length_append] at hshort
    omega

/-- A ping in two pieces. -/
theorem delivery_ping : ∃ done, done <+: [NetMessage.new 3 [7]] ∧
    (reads (fun _ peer => peer) ⟨⟨true, 0, ()⟩, 0, 0, []⟩
      [(5, [0xB6, 0xFD]), (6, [0xFA, 0x84, 3, 1, 0, 0, 0, 7])]).2 = done.map .handleMessage := by
  obtain ⟨done, hdone, hcalls, -⟩ := delivery (fun _ (peer : Peer Unit) => peer) (fun _ _ h => h)
    [.pushMessage (.new 3 [7]), .swap, .turn (.wrote 4) 100, .turn (.wrote 6) 100]
    (fun msg hmsg => ⟨⟨3, [7], List.mem_singleton.mp hmsg⟩, by rw [List.mem_singleton.mp hmsg]; decide⟩)
    [(5, [0xB6, 0xFD]), (6, [0xFA, 0x84, 3, 1, 0, 0, 0, 7])] (by decide) (by decide)
    ⟨⟨true, 0, ()⟩, 0, 0, []⟩ rfl rfl
  exact ⟨done, hdone, hcalls⟩

end Moneu.Net
