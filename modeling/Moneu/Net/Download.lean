/-
# Limits of the block download

`mBlocksInFlight` says which blocks have been asked for, from whom and when.  It may hold 1024 entries,
16 of them for one peer.  Every handler takes `mInFlightMutex` for each of its accesses and other
threads run in between, so the events here are these accesses, in any order; an `inv` is a sequence of
them (`handleInv_run`).

`ShouldRequestBlock` checks both limits.  `ReRequestStalledParent` gives an existing entry to another peer
and checks neither: the window is safe, but a peer that has 16 entries gets a seventeenth
(`stalled_parent_exceeds`).  That is the only way (`bounded_iff`).
-/
import Moneu.Lib.Index
import Moneu.Lib.Turns
import Moneu.Primitives.Bytes

namespace Moneu.Net.Download

/-! ## 1. The code -/

def MAX_BLOCKS_IN_FLIGHT_PER_PEER : Nat := 16
def BLOCK_DOWNLOAD_WINDOW : Nat := 1024
def BLOCK_IN_FLIGHT_TIMEOUT_SEC : Int64 := 1800
def BLOCK_PARENT_REREQUEST_SEC : Int64 := 5
def MAX_INV_SIZE : Nat := 50000

structure InFlightEntry where
  peer : UInt64
  requestedAt : Int64

/-- `mBlocksInFlight`; the key is the block hash as a string. -/
abbrev InFlight := AList fun _ : List UInt8 => InFlightEntry

def countBlocksInFlight (m : InFlight) (peer : UInt64) : Nat :=
  m.entries.countP fun entry => entry.2.peer = peer

/-- The loop at the head of `ShouldRequestBlock`. -/
def expire (m : InFlight) (now : Int64) : InFlight :=
  (m.entries.filter fun entry => now - entry.2.requestedAt > BLOCK_IN_FLIGHT_TIMEOUT_SEC).foldl
    (fun m entry => m.erase entry.1) m

def shouldRequestBlock (m : InFlight) (hash : List UInt8) (peer : UInt64) (now : Int64) :
    Bool × InFlight :=
  let m := expire m now
  if hash ∈ m then (false, m)
  else if m.entries.length ≥ BLOCK_DOWNLOAD_WINDOW then (false, m)
  else if countBlocksInFlight m peer ≥ MAX_BLOCKS_IN_FLIGHT_PER_PEER then (false, m)
  else (true, m.insert hash ⟨peer, now⟩)

def reRequestStalledParent (m : InFlight) (peer : UInt64) (parent : List UInt8) (now : Int64) : InFlight :=
  match m.lookup parent with
  | none => m
  | some entry =>
    if entry.peer = peer then m
    else if now - entry.requestedAt < BLOCK_PARENT_REREQUEST_SEC then m
    else m.insert parent ⟨peer, now⟩

def clearInFlight (m : InFlight) (hash : List UInt8) : InFlight := m.erase hash

def clearInFlightForPeer (m : InFlight) (peer : UInt64) : InFlight :=
  (m.entries.filter fun entry => entry.2.peer = peer).foldl (fun m entry => m.erase entry.1) m

/-- One access to the table. -/
inductive Event where
  /-- A block is announced in an `inv`. -/
  | request (hash : List UInt8) (peer : UInt64) (now : Int64)
  /-- A block arrives. -/
  | arrived (hash : List UInt8)
  /-- A block arrives whose parent is not known. -/
  | reRequest (peer : UInt64) (parent : List UInt8) (now : Int64)
  /-- A peer is disconnected, or its requests have timed out. -/
  | dropPeer (peer : UInt64)

def step (m : InFlight) : Event → InFlight
  | .request hash peer now => (shouldRequestBlock m hash peer now).2
  | .arrived hash => clearInFlight m hash
  | .reRequest peer parent now => reRequestStalledParent m peer parent now
  | .dropPeer peer => clearInFlightForPeer m peer

def run (m : InFlight) (events : List Event) : InFlight := events.foldl step m

/-- The loop of `HandleInv` over the block items, with the clock at each; `n` is
`blocksFromThisPeer`. -/
def invLoop (haveBlock : List UInt8 → Bool) (peer : UInt64) (n : Nat) (m : InFlight) :
    List (List UInt8 × Int64) → InFlight
  | [] => m
  | (hash, now) :: rest =>
    if n ≥ MAX_BLOCKS_IN_FLIGHT_PER_PEER then invLoop haveBlock peer n m rest
    else if haveBlock hash then invLoop haveBlock peer n m rest
    else match shouldRequestBlock m hash peer now with
      | (false, m) => invLoop haveBlock peer n m rest
      | (true, m) => invLoop haveBlock peer (n + 1) m rest

/-- The hashes of the block items of an `inv` payload. -/
def invBlocks (payload : List UInt8) : List (List UInt8) :=
  let count := (readLE32 payload).toNat
  if payload.length < 4 ∨ count > MAX_INV_SIZE ∨ payload.length < 4 + count * 33 then []
  else (List.range count).filterMap fun i =>
    if payload.getD (4 + i * 33) 0 = 2 then some ((payload.drop (4 + i * 33 + 1)).take 32) else none

/-- `HandleInv`; the clock is read for each item. -/
def handleInv (haveBlock : List UInt8 → Bool) (clock : Nat → Int64) (m : InFlight) (peer : UInt64)
    (payload : List UInt8) : InFlight :=
  invLoop haveBlock peer (countBlocksInFlight m peer) m
    ((invBlocks payload).zipIdx.map fun item => (item.1, clock item.2))

/-! ## 2. What an access does to the counts -/

/-- Within the limits. -/
structure Bounded (m : InFlight) : Prop where
  window : m.entries.length ≤ BLOCK_DOWNLOAD_WINDOW
  peers : ∀ peer, countBlocksInFlight m peer ≤ MAX_BLOCKS_IN_FLIGHT_PER_PEER

variable {m : InFlight}

theorem Bounded.sublist {m' : InFlight} (h : Bounded m) (hsub : m'.entries.Sublist m.entries) : Bounded m' :=
  ⟨hsub.length_le.trans h.window, fun peer => hsub.countP_le.trans (h.peers peer)⟩

theorem foldl_erase_sublist : ∀ (es : List (Sigma fun _ : List UInt8 => InFlightEntry)) (m : InFlight),
    (es.foldl (fun m entry => m.erase entry.1) m).entries.Sublist m.entries
  | [], _ => List.Sublist.refl _
  | entry :: es, m => (foldl_erase_sublist es (m.erase entry.1)).trans (List.kerase_sublist ..)

theorem Bounded.shouldRequestBlock (h : Bounded m) (hash : List UInt8) (peer : UInt64) (now : Int64) :
    Bounded (shouldRequestBlock m hash peer now).2 := by
  have hexpired : Bounded (expire m now) := h.sublist (foldl_erase_sublist ..)
  unfold Download.shouldRequestBlock
  dsimp only
  split
  case isTrue => exact hexpired
  case isFalse hnew =>
    split
    case isTrue => exact hexpired
    case isFalse hwindow =>
      split
      case isTrue => exact hexpired
      case isFalse hpeer =>
        refine ⟨?_, fun other => ?_⟩
        · rw [AList.entries_insert_of_notMem hnew, List.length_cons]
          omega
        · rw [countBlocksInFlight, AList.entries_insert_of_notMem hnew, List.countP_cons]
          have hother := hexpired.peers other
          by_cases hsame : peer = other
          · subst hsame
            rw [countBlocksInFlight] at hpeer
            split
            all_goals omega
          · rw [if_neg (by simpa using hsame)]
            exact hother

/-- A re-request that gives the entry to the peer. -/
def Reassigns (m : InFlight) (peer : UInt64) (parent : List UInt8) (now : Int64) : Prop :=
  ∃ entry, m.lookup parent = some entry ∧ entry.peer ≠ peer ∧
    ¬ now - entry.requestedAt < BLOCK_PARENT_REREQUEST_SEC

theorem reRequest_counts (peer : UInt64) (parent : List UInt8) (now : Int64) :
    (reRequestStalledParent m peer parent now = m ∧ ¬ Reassigns m peer parent now) ∨
      Reassigns m peer parent now ∧
      (reRequestStalledParent m peer parent now).entries.length = m.entries.length ∧
      countBlocksInFlight (reRequestStalledParent m peer parent now) peer = countBlocksInFlight m peer + 1 ∧
      ∀ other, other ≠ peer → countBlocksInFlight (reRequestStalledParent m peer parent now) other ≤
        countBlocksInFlight m other := by
  unfold reRequestStalledParent
  cases hlookup : m.lookup parent with
  | none => exact .inl ⟨rfl, fun ⟨e, he, _⟩ => by rw [hlookup] at he; cases he⟩
  | some entry =>
    dsimp only
    split
    case isTrue hsame =>
      exact .inl ⟨rfl, fun ⟨e, he, hne, _⟩ => by rw [hlookup] at he; cases he; exact hne hsame⟩
    case isFalse hother =>
      split
      case isTrue hsoon =>
        exact .inl ⟨rfl, fun ⟨e, he, _, hlate⟩ => by rw [hlookup] at he; cases he; exact hlate hsoon⟩
      case isFalse hlate =>
        refine .inr ⟨⟨entry, hlookup, hother, hlate⟩, ?_⟩
        obtain ⟨before, after, hsplit, herase⟩ := Index.entries_split hlookup
        have hafter : (m.insert parent ⟨peer, now⟩).entries = ⟨parent, ⟨peer, now⟩⟩ :: (before ++ after) := by
          rw [AList.entries_insert]
          exact congrArg _ herase
        refine ⟨?_, ?_, fun other hne => ?_⟩
        · rw [hafter, hsplit]
          simp
          omega
        · rw [countBlocksInFlight, countBlocksInFlight, hafter, hsplit]
          simp [hother]
        · rw [countBlocksInFlight, countBlocksInFlight, hafter, hsplit]
          simp only [List.countP_cons_of_neg, decide_eq_true_eq, hne.symm, not_false_eq_true,
            List.countP_append]
          exact Nat.add_le_add_left (List.sublist_cons_self ..).countP_le _

/-! ## 3. Every order of events -/

/-- The condition on an event: nobody is given an entry while having all it may have. -/
def Fits (m : InFlight) : Event → Prop
  | .reRequest peer parent now =>
    Reassigns m peer parent now → countBlocksInFlight m peer < MAX_BLOCKS_IN_FLIGHT_PER_PEER
  | _ => True

/-- **One event keeps the limits exactly if it fits.** -/
theorem Bounded.step_iff (h : Bounded m) (event : Event) : Bounded (step m event) ↔ Fits m event := by
  cases event with
  | request hash peer now => exact iff_of_true (h.shouldRequestBlock hash peer now) trivial
  | arrived hash => exact iff_of_true (h.sublist (List.kerase_sublist ..)) trivial
  | dropPeer peer => exact iff_of_true (h.sublist (foldl_erase_sublist ..)) trivial
  | reRequest peer parent now =>
    change Bounded (reRequestStalledParent m peer parent now) ↔ (_ → _)
    rcases reRequest_counts peer parent now with ⟨hsame, hnot⟩ | ⟨hre, hlen, hpeer, hothers⟩
    · rw [hsame]
      exact iff_of_true h fun hre => absurd hre hnot
    · constructor
      · intro hafter _
        have hle := hafter.peers peer
        omega
      · intro hroom
        refine ⟨hlen ▸ h.window, fun other => ?_⟩
        by_cases hne : other = peer
        · subst hne
          have hlt := hroom hre
          omega
        · exact (hothers other hne).trans (h.peers other)

/-- **The limits, over every run.**  They hold at every moment exactly if every event fits the state in
which it happens. -/
theorem bounded_iff (events : List Event) :
    (∀ before, before <+: events → Bounded (run ∅ before)) ↔
      ∀ before event, before ++ [event] <+: events → Fits (run ∅ before) event :=
  forall_run_iff ⟨by decide, by simp [countBlocksInFlight]⟩ (fun _ event h => h.step_iff event) events

/-- **An `inv` is a sequence of these events**, each of them a request from that peer. -/
theorem handleInv_run (haveBlock : List UInt8 → Bool) (peer : UInt64) :
    ∀ (items : List (List UInt8 × Int64)) (n : Nat) (m : InFlight),
      ∃ asked : List (List UInt8 × Int64), asked.Sublist items ∧
      invLoop haveBlock peer n m items = run m (asked.map fun item => .request item.1 peer item.2)
  | [], _, _ => ⟨[], .slnil, rfl⟩
  | (hash, now) :: rest, n, m => by
    have hskip : ∃ asked : List (List UInt8 × Int64), asked.Sublist ((hash, now) :: rest) ∧
        invLoop haveBlock peer n m rest = run m (asked.map fun item => .request item.1 peer item.2) := by
      obtain ⟨asked, hsub, hrun⟩ := handleInv_run haveBlock peer rest n m
      exact ⟨asked, hsub.cons _, hrun⟩
    have hask : ∀ n', ∃ asked : List (List UInt8 × Int64), asked.Sublist ((hash, now) :: rest) ∧
        invLoop haveBlock peer n' (shouldRequestBlock m hash peer now).2 rest =
          run m (asked.map fun item => .request item.1 peer item.2) := by
      intro n'
      obtain ⟨asked, hsub, hrun⟩ :=
        handleInv_run haveBlock peer rest n' (shouldRequestBlock m hash peer now).2
      exact ⟨(hash, now) :: asked, hsub.cons_cons _, hrun⟩
    rw [invLoop]
    split
    case isTrue => exact hskip
    case isFalse =>
      split
      case isTrue => exact hskip
      case isFalse =>
        split
        case h_1 m' hanswer =>
          have hm : m' = (shouldRequestBlock m hash peer now).2 := by rw [hanswer]
          exact hm ▸ hask n
        case h_2 m' hanswer =>
          have hm : m' = (shouldRequestBlock m hash peer now).2 := by rw [hanswer]
          exact hm ▸ hask (n + 1)

/-- The payload of an `inv` of `n` blocks, whose hashes begin with `first`, `first + 1`, .... -/
def invOf (first n : Nat) : List UInt8 :=
  leBytes 4 n ++ (List.range n).flatMap fun i => 2 :: UInt8.ofNat (first + i) :: List.replicate 31 0

/-- Peer 1 has announced sixteen blocks and peer 2 one; five seconds later peer 1 sends a child of that
one, which is given to it too. -/
theorem stalled_parent_exceeds :
    countBlocksInFlight (reRequestStalledParent
      (handleInv (fun _ => false) (fun _ => 0) (handleInv (fun _ => false) (fun _ => 0) ∅ 1 (invOf 0 16))
        2 (invOf 16 1)) 1 (16 :: List.replicate 31 0) 5) 1 = 17 := by
  decide +kernel

end Moneu.Net.Download
