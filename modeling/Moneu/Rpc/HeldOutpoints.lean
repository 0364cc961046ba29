/-
# Held outpoints and their holders

The wallet keeps a map of the outpoints its pending transactions take (`mHeldOutpoints`).  It is edited
BY ID when a first attempt is withdrawn, when a transaction is signed and when a block confirms one, and
BY OUTPOINT when a call fails.  Nobody tells the wallet when the pool drops a transaction.

The state is a node with any number of `sendtoaddress` calls under way, each between two of its turns;
blocks, the pool's other callers and the turns come in any order (`NodeEvent`).  The map is right
(`Custody`) as long as every event meets `Meets`, and then every held outpoint has a live holder and
every transaction that was sent and is in the pool has its inputs held (`LiveHolders`).
-/
import Moneu.Consensus.PoolIndex
import Moneu.Lib.Custody
import Moneu.Rpc.HeldMap
import Moneu.Rpc.SendToAddress

namespace Moneu

open NetParams

/-! ## 1. What is in the pool -/

namespace Mempool

def inputsOf (p : Mempool) (txid : Bytes32) : Option (List OutPoint) :=
  (p.index.lookup txid).map fun e => outpoints e.tx

/-- **A transaction that was added is in the pool.** -/
theorem inputsOf_addTransaction [Doubles] {p p' : Mempool} {now fee : Int64} {tx : Transaction}
    (h : p.addTransaction now tx fee = (p', .ret true)) :
    p'.inputsOf tx.getHash = some (outpoints tx) := by
  rcases addTransaction_cases p now tx fee with ⟨-, -, hout⟩ | ⟨-, hpool, hout⟩
  · rw [h] at hout
    exact absurd rfl hout
  · rw [h] at hpool hout
    have hmem : p'.hasTransaction tx.getHash = true := (Outcome.ret.inj hout).symm
    obtain ⟨e, he⟩ := Option.isSome_iff_exists.mp (AList.lookup_isSome.mpr (of_decide_eq_true hmem))
    have hpool : p' = ((p.expireLocked now).entered now tx fee).trimLocked now := hpool
    have hentered : p'.index.lookup tx.getHash = some e := he
    rw [hpool] at hentered
    have hentry := (cuts_trimLocked _ now).loses.lookup hentered
    rw [entered, lookup_insertEntry, if_pos rfl] at hentry
    rw [inputsOf, he, ← hentry]
    rfl

end Mempool

/-! ## 2. A node with running calls -/

/-- A node, the `sendtoaddress` calls that are running, and the txids that such calls have returned. -/
structure LiveNode extends MoneuNode where
  calls : AList fun _ : Nat => Call
  sent : List Bytes32

/-- What can happen next. -/
inductive NodeEvent where
  /-- `AcceptBlock`. -/
  | block (faults : Bytes32 → Option ConnectFault) (now : UInt64) (b : Block)
  /-- `SyncMempoolWithChain`. -/
  | sync (clock : Nat → Int64)
  /-- `AddTransaction` on another thread.  What such a thread has checked before changes nothing. -/
  | add (now : Int64) (tx : Transaction) (fee : Int64)
  /-- A call comes in. -/
  | send (id : Nat) (r : SendRequest)
  /-- A running call takes its next turn. -/
  | turn (id : Nat) (saves : Bool) (now : Int64)

/-- The transaction a call is building. -/
def Call.building (c : Call) : Option Transaction :=
  match c.phase with
  | .begun | .informed | .aimed _ => none
  | .created tx | .released tx | .reaimed tx _ | .settled tx | .signed tx | .checked tx _
  | .failing tx _ => some tx

/-- The transaction whose inputs a call should find held. -/
def Call.holding (c : Call) : Option Transaction :=
  match c.phase with
  | .created tx | .settled tx | .signed tx | .checked tx _ => some tx
  | _ => none

/-- The transaction a call is giving up. -/
def Call.failed (c : Call) : Option Transaction :=
  match c.phase with
  | .failing tx _ => some tx
  | _ => none

namespace LiveNode

/-- A call after its turn. -/
def advance (n : LiveNode) (id : Nat) : MoneuNode × Turned → LiveNode
  | (m, .goes c) => { n with toMoneuNode := m, calls := n.calls.insert id c }
  | (m, .returns tx) =>
    { toMoneuNode := m, calls := n.calls.erase id, sent := tx.getHash :: n.sent }
  | (m, .throws _) => { n with toMoneuNode := m, calls := n.calls.erase id }

section Steps

variable [Ed25519] [Doubles] [WalletCrypto]

def step (n : LiveNode) : NodeEvent → LiveNode
  | .block faults now b =>
    { n with chainState := (n.chainState.acceptBlock faults now b).1 }
  | .sync clock => { n with toMoneuNode := (n.toMoneuNode.syncMempoolWithChain clock).1 }
  | .add now tx fee => { n with mempool := (n.mempool.addTransaction now tx fee).1 }
  | .send id r =>
    match r.check n.wallet with
    | .error _ => n
    | .ok _ => if id ∈ n.calls then n else { n with calls := n.calls.insert id (Call.new r) }
  | .turn id saves now =>
    match n.calls.lookup id with
    | none => n
    | some c => n.advance id (n.toMoneuNode.turn c saves now)

def run (n : LiveNode) (events : List NodeEvent) : LiveNode := events.foldl step n

end Steps

/-- A node that has just been started: nothing is held, and no call is running. -/
structure Started (n : LiveNode) : Prop where
  held : n.wallet.heldOutpoints = ∅
  calls : n.calls = ∅
  sent : n.sent = []

variable {n : LiveNode} {cl : Claim OutPoint Bytes32}

def claimOf (c : Call) : Option (Claim OutPoint Bytes32) :=
  c.holding.map fun tx => ⟨Mempool.outpoints tx, tx.getHash⟩

/-- The claims of the running calls and of the transactions that were sent and are in the pool. -/
def claims (n : LiveNode) : Nat ⊕ Bytes32 → Option (Claim OutPoint Bytes32)
  | .inl id => (n.calls.lookup id).bind claimOf
  | .inr txid =>
    if txid ∈ n.sent then (n.mempool.inputsOf txid).map fun spends => ⟨spends, txid⟩ else none

/-- The inputs of a transaction that is being given up. -/
def Loose (n : LiveNode) (o : OutPoint) : Prop :=
  ∃ id c tx, n.calls.lookup id = some c ∧ c.failed = some tx ∧ o ∈ Mempool.outpoints tx

/-- **The map is right.** -/
def Right (n : LiveNode) : Prop := Custody (fun o => n.wallet.heldOutpoints.lookup o) n.claims n.Loose

theorem Started.right (h : Started n) : Right n := by
  refine Custody.empty (fun o => ?_) fun c => ?_
  · rw [h.held, AList.lookup_empty]
  · rcases c with id | txid
    · rw [claims, h.calls, AList.lookup_empty]
      rfl
    · rw [claims, h.sent, if_neg List.not_mem_nil]

theorem holding_building {c : Call} {tx : Transaction} (h : c.holding = some tx) :
    c.building = some tx := by
  unfold Call.holding at h
  unfold Call.building
  split at h <;> simp_all

theorem claims_inl {id : Nat} (h : n.claims (.inl id) = some cl) :
    ∃ c tx, n.calls.lookup id = some c ∧ c.holding = some tx ∧
      cl = ⟨Mempool.outpoints tx, tx.getHash⟩ := by
  obtain ⟨c, hc, hclaim⟩ := Option.bind_eq_some_iff.mp h
  obtain ⟨tx, htx, rfl⟩ := Option.map_eq_some_iff.mp hclaim
  exact ⟨c, tx, hc, htx, rfl⟩

theorem claims_inr {txid : Bytes32} (h : n.claims (.inr txid) = some cl) : txid ∈ n.sent ∧ ∃ spends,
      n.mempool.inputsOf txid = some spends ∧ cl = ⟨spends, txid⟩ := by
  rw [claims] at h
  split at h
  case isTrue hsent =>
    obtain ⟨spends, hspends, rfl⟩ := Option.map_eq_some_iff.mp h
    exact ⟨hsent, spends, hspends, rfl⟩
  case isFalse => cases h

/-- The txid `txid` stands for a transaction with the inputs `spends` that is in the pool or that a
running call is building. -/
def Around (n : LiveNode) (txid : Bytes32) (spends : List OutPoint) : Prop :=
  n.mempool.inputsOf txid = some spends ∨
    ∃ id c tx, n.calls.lookup id = some c ∧ c.building = some tx ∧ tx.getHash = txid ∧
      Mempool.outpoints tx = spends

/-- No two of these transactions have one txid and different inputs. -/
def OneMeaning (n : LiveNode) : Prop :=
  ∀ txid spends spends', Around n txid spends → Around n txid spends' → spends = spends'

/-- The pool neither loses a transaction that this wallet sent nor takes one in again. -/
def Keeps (n : LiveNode) (p : Mempool) : Prop :=
  ∀ txid ∈ n.sent, p.inputsOf txid = n.mempool.inputsOf txid

/-- The txids that `SyncMempoolWithChain` finds in the queues of the chain. -/
def synced (n : LiveNode) : List Bytes32 :=
  (n.chainState.takeMempoolSync.2.1 ++ n.chainState.takeMempoolSync.2.2).map Transaction.getHash

/-- Nobody else wants an input of `tx`: no running call that is still on its way, and no transaction in
the pool that this wallet sent. -/
structure Alone (n : LiveNode) (tx : Transaction) : Prop where
  calls : ∀ id c tx', n.calls.lookup id = some c → c.holding = some tx' →
    ∀ o ∈ Mempool.outpoints tx', o ∉ Mempool.outpoints tx
  pool : ∀ txid ∈ n.sent, ∀ spends, n.mempool.inputsOf txid = some spends →
    ∀ o ∈ spends, o ∉ Mempool.outpoints tx

section Condition

variable [Ed25519] [Doubles] [WalletCrypto]

/-- The condition on a turn of the call `c`. -/
def TurnMeets (n : LiveNode) (now : Int64) (c : Call) : Prop :=
  match c.phase with
  | .checked tx actualFee => Keeps n (n.mempool.addTransaction now tx actualFee).1
  | .failing tx _ => Alone n tx
  | _ => True

/-- **The condition on an event.**
* No two transactions around have one txid and different inputs.
* The pool loses a transaction that this wallet sent only because a block confirmed it, and takes none
  in again.
* A block neither confirms nor disconnects a transaction that a call is still building.
* A call that fails shares no input with another call or with a transaction sent before. -/
def Meets (n : LiveNode) (event : NodeEvent) : Prop :=
  OneMeaning n ∧
    match event with
    | .block _ _ _ | .send _ _ => True
    | .sync clock =>
      (∀ txid ∈ n.sent, (n.step (.sync clock)).mempool.inputsOf txid =
        if txid ∈ n.synced then none else n.mempool.inputsOf txid) ∧
      ∀ id c tx, n.calls.lookup id = some c → c.holding = some tx → tx.getHash ∉ n.synced
    | .add now tx fee => Keeps n (n.mempool.addTransaction now tx fee).1
    | .turn id _ now => ∀ c, n.calls.lookup id = some c → TurnMeets n now c

/-- Every event of the run meets the condition in the state in which it happens. -/
def Along (n : LiveNode) : List NodeEvent → Prop
  | [] => True
  | event :: events => Meets n event ∧ Along (n.step event) events

end Condition

theorem around_of_claims {d : Nat ⊕ Bytes32} (h : n.claims d = some cl) : Around n cl.id cl.keys := by
  rcases d with id | txid
  · obtain ⟨c, tx, hc, htx, rfl⟩ := claims_inl h
    exact .inr ⟨id, c, tx, hc, holding_building htx, rfl, rfl⟩
  · obtain ⟨-, spends, hspends, rfl⟩ := claims_inr h
    exact .inl hspends

theorem OneMeaning.keys_mem (h : OneMeaning n) {c d : Nat ⊕ Bytes32} {dl : Claim OutPoint Bytes32}
    (hc : n.claims c = some cl) (hd : n.claims d = some dl) (hid : dl.id = cl.id) :
    ∀ o ∈ dl.keys, o ∈ cl.keys := by
  have hkeys := h _ _ _ (around_of_claims hc) (hid ▸ around_of_claims hd)
  intro o ho
  rw [hkeys]
  exact ho

/-! ## 5. One turn of a call -/

section Turns

variable {n : LiveNode} {m : MoneuNode} {id : Nat} {c c' : Call}

variable {o : OutPoint} {tx : Transaction} {p : Mempool}

theorem claims_goes (hpool : m.mempool = n.mempool) (d : Nat ⊕ Bytes32) :
    (n.advance id (m, .goes c')).claims d = if d = .inl id then claimOf c' else n.claims d := by
  rcases d with id' | txid
  · by_cases hid : id' = id
    · subst hid
      simp [claims, advance]
    · have hne : (Sum.inl id' : Nat ⊕ Bytes32) ≠ .inl id := fun h => hid (Sum.inl.inj h)
      rw [if_neg hne]
      simp only [claims, advance]
      rw [AList.lookup_insert_ne hid]
  · rw [if_neg (by simp)]
    simp only [claims, advance, hpool]

/-- What was loose stays loose, unless the call whose turn it was let it go. -/
theorem loose_goes (hc : n.calls.lookup id = some c) (hfailed : c.failed = none) (h : n.Loose o) :
    (n.advance id (m, .goes c')).Loose o := by
  obtain ⟨id', d, tx, hd, htx, ho⟩ := h
  have hne : id' ≠ id := by
    rintro rfl
    rw [hc, Option.some.injEq] at hd
    rw [← hd, hfailed] at htx
    cases htx
  exact ⟨id', d, tx, (AList.lookup_insert_ne hne).trans hd, htx, ho⟩

theorem loose_failing (hfailed : c'.failed = some tx) (ho : o ∈ Mempool.outpoints tx) :
    (n.advance id (m, .goes c')).Loose o :=
  ⟨id, c', tx, AList.lookup_insert .., hfailed, ho⟩

theorem claims_call (hc : n.calls.lookup id = some c) : n.claims (.inl id) = claimOf c := by
  rw [claims, hc]
  rfl

theorem Right.goes (h : Right n) (hc : n.calls.lookup id = some c) (hfailed : c.failed = none)
    (hpool : m.mempool = n.mempool) (hheld : m.wallet.heldOutpoints = n.wallet.heldOutpoints)
    (hclaim : claimOf c' = claimOf c) : Right (n.advance id (m, .goes c')) := by
  refine Custody.mono h (fun o => ?_) (fun d => ?_) fun o => loose_goes hc hfailed
  · change m.wallet.heldOutpoints.lookup o = _
    rw [hheld]
  · rw [claims_goes hpool]
    split
    case isTrue heq => rw [heq, claims_call hc, hclaim]
    case isFalse => rfl

/-- **A turn of `CreateTransaction`** that returns a transaction. -/
theorem Right.creates (h : Right n) (hc : n.calls.lookup id = some c) (hfailed : c.failed = none)
    (hclaim : claimOf c = none) (hclaim' : claimOf c' = some ⟨Mempool.outpoints tx, tx.getHash⟩)
    (hpool : m.mempool = n.mempool)
    (hfree : ∀ o ∈ Mempool.outpoints tx, n.wallet.heldOutpoints.lookup o = none)
    (hheld : ∀ o, m.wallet.heldOutpoints.lookup o = if o ∈ Mempool.outpoints tx then some tx.getHash else n.wallet.heldOutpoints.lookup o) :
    Right (n.advance id (m, .goes c')) := by
  refine Custody.take h ⟨Mempool.outpoints tx, tx.getHash⟩ hfree hheld
    ((claims_call hc).trans hclaim) (fun d => ?_) fun o => loose_goes hc hfailed
  rw [claims_goes hpool, hclaim']

/-- **A turn of `ReleaseOutpointsFor`**, which gives up what the call claims. -/
theorem Right.releases (h : Right n) (hone : OneMeaning n) (hc : n.calls.lookup id = some c)
    (hfailed : c.failed = none) (hclaim : claimOf c = some ⟨Mempool.outpoints tx, tx.getHash⟩)
    (hclaim' : claimOf c' = none) (hpool : m.mempool = n.mempool)
    (hheld : ∀ o, m.wallet.heldOutpoints.lookup o = if n.wallet.heldOutpoints.lookup o = some tx.getHash then none else n.wallet.heldOutpoints.lookup o) :
    Right (n.advance id (m, .goes c')) := by
  have hclaims := (claims_call hc).trans hclaim
  refine Custody.release h hclaims (fun d dl hd hid => hone.keys_mem hclaims hd hid) hheld
    (fun d => ?_) fun o => loose_goes hc hfailed
  rw [claims_goes hpool, hclaim']

/-- **A turn of `SignTransaction`** that succeeds. -/
theorem Right.signs (h : Right n) (hone : OneMeaning n) (hc : n.calls.lookup id = some c)
    (hfailed : c.failed = none) {signed : Transaction}
    (hclaim : claimOf c = some ⟨Mempool.outpoints tx, tx.getHash⟩)
    (hclaim' : claimOf c' = some ⟨Mempool.outpoints signed, signed.getHash⟩)
    (hpool : m.mempool = n.mempool) (hinputs : Mempool.outpoints signed = Mempool.outpoints tx)
    (hheld : ∀ o, m.wallet.heldOutpoints.lookup o = if n.wallet.heldOutpoints.lookup o = some tx.getHash then some signed.getHash else n.wallet.heldOutpoints.lookup o) :
    Right (n.advance id (m, .goes c')) := by
  have hclaims := (claims_call hc).trans hclaim
  refine Custody.rename h hclaims (fun d dl hd hid => hone.keys_mem hclaims hd hid) hheld
    (fun d => ?_) fun o => loose_goes hc hfailed
  rw [claims_goes hpool, hclaim', hinputs]

/-- **A turn that fails** while the call has a claim; what is held for it may have moved. -/
theorem Right.fails (h : Right n) (hone : OneMeaning n) (hc : n.calls.lookup id = some c)
    (hfailed : c.failed = none) {signed : Transaction}
    (hclaim : claimOf c = some ⟨Mempool.outpoints tx, tx.getHash⟩) (hclaim' : claimOf c' = none)
    (hfailed' : c'.failed = some signed) (hpool : m.mempool = n.mempool)
    (hinputs : Mempool.outpoints signed = Mempool.outpoints tx) {txid : Bytes32}
    (hheld : ∀ o, m.wallet.heldOutpoints.lookup o = if n.wallet.heldOutpoints.lookup o = some tx.getHash then some txid else n.wallet.heldOutpoints.lookup o) :
    Right (n.advance id (m, .goes c')) := by
  have hclaims := (claims_call hc).trans hclaim
  -- first the claim moves to the new id, then it is given up
  have hmoved : Custody (fun o => m.wallet.heldOutpoints.lookup o)
      (fun d => if d = .inl id then some ⟨Mempool.outpoints tx, txid⟩ else n.claims d) n.Loose :=
    Custody.rename h hclaims (fun d dl hd hid => hone.keys_mem hclaims hd hid) hheld (fun _ => rfl)
      fun _ ho => ho
  refine Custody.loosen (c := .inl id) hmoved (if_pos rfl) (fun _ => rfl) (fun d => ?_) fun o ho => ?_
  · rw [claims_goes hpool, hclaim']
    split <;> rfl
  · rcases ho with ho | ho
    · exact loose_goes hc hfailed ho
    · exact loose_failing hfailed' (hinputs ▸ ho)

theorem claims_erase (hpool : m.mempool = n.mempool) (error : Thrown) (d : Nat ⊕ Bytes32) :
    (n.advance id (m, .throws error)).claims d = if d = .inl id then none else n.claims d := by
  rcases d with id' | txid
  · by_cases hid : id' = id
    · subst hid
      simp [claims, advance]
    · have hne : (Sum.inl id' : Nat ⊕ Bytes32) ≠ .inl id := fun h => hid (Sum.inl.inj h)
      rw [if_neg hne]
      simp only [claims, advance]
      rw [AList.lookup_erase_ne hid]
  · rw [if_neg (by simp)]
    simp only [claims, advance, hpool]

/-- What is loose on account of another call stays loose when a call ends. -/
theorem loose_erase {calls : AList fun _ : Nat => Call} (hcalls : calls = n.calls.erase id) {id' : Nat}
    {d : Call} (hd : n.calls.lookup id' = some d) (hne : id' ≠ id) (htx : d.failed = some tx)
    (ho : o ∈ Mempool.outpoints tx) {sent : List Bytes32} :
    Loose { toMoneuNode := m, calls, sent } o :=
  ⟨id', d, tx, by rw [hcalls]; exact (AList.lookup_erase_ne hne).trans hd, htx, ho⟩

theorem Right.ends (h : Right n) (hc : n.calls.lookup id = some c) (hfailed : c.failed = none)
    (hclaim : claimOf c = none) (hpool : m.mempool = n.mempool)
    (hheld : m.wallet.heldOutpoints = n.wallet.heldOutpoints) (error : Thrown) :
    Right (n.advance id (m, .throws error)) := by
  refine Custody.mono h (fun o => ?_) (fun d => ?_) ?_
  · change m.wallet.heldOutpoints.lookup o = _
    rw [hheld]
  · rw [claims_erase hpool]
    split
    case isTrue heq => rw [heq, claims_call hc, hclaim]
    case isFalse => rfl
  · rintro o ⟨id', d, tx, hd, htx, ho⟩
    refine loose_erase rfl hd ?_ htx ho
    rintro rfl
    rw [hc, Option.some.injEq] at hd
    rw [← hd, hfailed] at htx
    cases htx

/-- **A turn of `ReleaseOutpointsOf`**: nobody else wants what is dropped. -/
theorem Right.unwinds (h : Right n) (halone : Alone n tx) (hc : n.calls.lookup id = some c)
    (hfailed : c.failed = some tx) (hclaim : claimOf c = none) (error : Thrown) :
    Right (n.advance id ({ n.toMoneuNode with wallet := n.wallet.releaseOutpointsOf tx },
      .throws error)) := by
  refine Custody.drop h (Mempool.outpoints tx) ?_ (WalletManager.lookup_releaseOutpointsOf tx)
    (fun d => ?_) ?_
  · rintro (id' | txid) cl hcl
    · obtain ⟨d, tx', hd, htx', rfl⟩ := claims_inl hcl
      exact halone.calls id' d tx' hd htx'
    · obtain ⟨hsent, spends, hspends, rfl⟩ := claims_inr hcl
      exact halone.pool txid hsent spends hspends
  · refine (claims_erase rfl error d).trans ?_
    split
    case isTrue heq => rw [heq, claims_call hc, hclaim]
    case isFalse => rfl
  · rintro o ⟨id', d, tx', hd, htx', ho⟩ hnot
    refine loose_erase rfl hd ?_ htx' ho
    rintro rfl
    rw [hc, Option.some.injEq] at hd
    rw [← hd, hfailed, Option.some.injEq] at htx'
    exact hnot (htx' ▸ ho)

/-- The pool changes without losing a transaction that was sent or taking one in. -/
theorem Keeps.claims (h : Keeps n p) (d : Nat ⊕ Bytes32) :
    LiveNode.claims { n with mempool := p } d = n.claims d := by
  rcases d with id' | txid
  · rfl
  · simp only [LiveNode.claims]
    split
    case isTrue hsent => rw [h txid hsent]
    case isFalse => rfl

theorem Right.keeps (h : Right n) (hkeeps : Keeps n p) :
    Right { n with mempool := p } :=
  Custody.mono h (fun _ => rfl) hkeeps.claims fun _ ho => ho

/-- **A turn of `AddTransaction`** that succeeds: the claim passes to the pool. -/
theorem Right.submits [Doubles] (h : Right n) (hone : OneMeaning n) (hc : n.calls.lookup id = some c)
    (hfailed : c.failed = none) {now fee : Int64}
    (hclaim : claimOf c = some ⟨Mempool.outpoints tx, tx.getHash⟩)
    (hadd : n.mempool.addTransaction now tx fee = (p, .ret true)) (hkeeps : Keeps n p) :
    Right (n.advance id ({ n.toMoneuNode with mempool := p }, .returns tx)) := by
  have hclaims := (claims_call hc).trans hclaim
  refine Custody.pass h hclaims (.inr tx.getHash) (by simp) ?_ (fun _ => rfl) ?_ ?_
  · intro dl hdl
    obtain ⟨-, spends, -, rfl⟩ := claims_inr hdl
    exact ⟨rfl, hone.keys_mem hclaims hdl rfl⟩
  · rintro (id' | txid)
    · by_cases hid : id' = id
      · subst hid
        simp [claims, advance]
      · have hne : (Sum.inl id' : Nat ⊕ Bytes32) ≠ .inl id := fun h => hid (Sum.inl.inj h)
        rw [if_neg hne, if_neg (by simp)]
        simp only [claims, advance]
        rw [AList.lookup_erase_ne hid]
    · rw [if_neg (by simp)]
      by_cases htxid : txid = tx.getHash
      · subst htxid
        rw [if_pos rfl]
        simp only [claims, advance, List.mem_cons, true_or, ↓reduceIte,
          Mempool.inputsOf_addTransaction hadd]
        rfl
      · have hne : (Sum.inr txid : Nat ⊕ Bytes32) ≠ .inr tx.getHash := fun h => htxid (Sum.inr.inj h)
        rw [if_neg hne]
        simp only [claims, advance, List.mem_cons, htxid, false_or]
        split
        case isTrue hsent => rw [hkeeps txid hsent]
        case isFalse => rfl
  · rintro o ⟨id', d, tx', hd, htx', ho⟩
    refine loose_erase rfl hd ?_ htx' ho
    rintro rfl
    rw [hc, Option.some.injEq] at hd
    rw [← hd, hfailed] at htx'
    cases htx'

section Dispatch

variable [WalletCrypto]

theorem Right.attempt (h : Right n) (hc : n.calls.lookup id = some c) {height : UInt32}
    (hphase : c.phase = .aimed height) : Right (n.advance id (n.toMoneuNode.attempt c height)) := by
  have hclaim : claimOf c = none := by simp [claimOf, Call.holding, hphase]
  have hfailed : c.failed = none := by simp [Call.failed, hphase]
  unfold MoneuNode.attempt
  split
  case h_1 w what hrun =>
    refine h.ends hc hfailed hclaim ?_ ?_ _
    · rfl
    · exact WalletManager.heldOutpoints_of_threw hrun
  case h_2 w tx hrun =>
    obtain ⟨hfree, hheld⟩ := WalletManager.lookup_heldOutpoints_of_ret hrun
    exact h.creates hc hfailed hclaim rfl rfl hfree hheld

theorem Right.attemptAgain (h : Right n) (hc : n.calls.lookup id = some c) {height : UInt32}
    (hphase : c.phase = .reaimed tx height) :
    Right (n.advance id (n.toMoneuNode.attemptAgain c tx height)) := by
  have hclaim : claimOf c = none := by simp [claimOf, Call.holding, hphase]
  have hfailed : c.failed = none := by simp [Call.failed, hphase]
  unfold MoneuNode.attemptAgain
  split
  case h_1 w what hrun =>
    exact h.goes hc hfailed rfl (WalletManager.heldOutpoints_of_threw hrun) hclaim.symm
  case h_2 w tx' hrun =>
    obtain ⟨hfree, hheld⟩ := WalletManager.lookup_heldOutpoints_of_ret hrun
    exact h.creates hc hfailed hclaim rfl rfl hfree hheld

theorem Right.settle (h : Right n) (hone : OneMeaning n) (hc : n.calls.lookup id = some c)
    (hphase : c.phase = .created tx) :
    Right (n.advance id (n.toMoneuNode.settle c tx)) := by
  have hclaim : claimOf c = some ⟨Mempool.outpoints tx, tx.getHash⟩ := by
    simp [claimOf, Call.holding, hphase]
  have hfailed : c.failed = none := by simp [Call.failed, hphase]
  unfold MoneuNode.settle
  dsimp only
  split
  case h_1 =>
    split
    case isTrue =>
      exact h.releases hone hc hfailed hclaim rfl rfl
        (WalletManager.lookup_releaseOutpointsFor tx.getHash)
    case isFalse => exact h.goes hc hfailed rfl rfl hclaim.symm
  case h_2 =>
    split
    case isTrue =>
      exact h.releases hone hc hfailed hclaim rfl rfl
        (WalletManager.lookup_releaseOutpointsFor tx.getHash)
    case isFalse => exact h.goes hc hfailed rfl rfl hclaim.symm

theorem Right.sign (h : Right n) (hone : OneMeaning n) (hc : n.calls.lookup id = some c)
    (hphase : c.phase = .settled tx) (saves : Bool) :
    Right (n.advance id (n.toMoneuNode.sign c tx saves)) := by
  have hclaim : claimOf c = some ⟨Mempool.outpoints tx, tx.getHash⟩ := by
    simp [claimOf, Call.holding, hphase]
  have hfailed : c.failed = none := by simp [Call.failed, hphase]
  unfold MoneuNode.sign
  split
  case h_1 w signed hrun =>
    obtain ⟨hinputs, txid, htxid, hheld⟩ := WalletManager.renames_signTransaction hrun
    obtain rfl := htxid rfl
    exact h.signs hone hc hfailed hclaim rfl rfl hinputs hheld
  case h_2 w signed hrun =>
    obtain ⟨hinputs, txid, -, hheld⟩ := WalletManager.renames_signTransaction hrun
    exact h.fails hone hc hfailed hclaim rfl rfl rfl hinputs hheld
  case h_3 w signed what hrun =>
    obtain ⟨hinputs, txid, -, hheld⟩ := WalletManager.renames_signTransaction hrun
    exact h.fails hone hc hfailed hclaim rfl rfl rfl hinputs hheld

omit [WalletCrypto] in
theorem Right.gives_up (h : Right n) (hc : n.calls.lookup id = some c) (hfailed : c.failed = none)
    (hclaim : claimOf c = some ⟨Mempool.outpoints tx, tx.getHash⟩) (error : Thrown) :
    Right (n.advance id (n.toMoneuNode, .goes { c with phase := .failing tx error })) := by
  refine Custody.loosen h ((claims_call hc).trans hclaim) (fun _ => rfl) (fun d => ?_) fun o ho => ?_
  · rw [claims_goes rfl]
    rfl
  · rcases ho with ho | ho
    · exact loose_goes hc hfailed ho
    · exact loose_failing rfl ho

omit [WalletCrypto] in
theorem Right.verify [Ed25519] (h : Right n) (hc : n.calls.lookup id = some c)
    (hphase : c.phase = .signed tx) :
    Right (n.advance id (n.toMoneuNode, n.toMoneuNode.verify c tx)) := by
  have hclaim : claimOf c = some ⟨Mempool.outpoints tx, tx.getHash⟩ := by
    simp [claimOf, Call.holding, hphase]
  have hfailed : c.failed = none := by simp [Call.failed, hphase]
  unfold MoneuNode.verify
  split
  case h_1 => exact h.goes hc hfailed rfl rfl hclaim.symm
  case h_2 => exact h.gives_up hc hfailed hclaim _
  case h_3 => exact h.gives_up hc hfailed hclaim _

end Dispatch

end Turns

/-! ## 6. Runs -/

section Runs

variable [Ed25519] [Doubles] {n : LiveNode}

variable {id : Nat}

omit [Ed25519] in
theorem Right.submit (h : Right n) (hone : OneMeaning n) {c : Call} (hc : n.calls.lookup id = some c)
    {tx : Transaction} {actualFee now : Int64} (hphase : c.phase = .checked tx actualFee)
    (hkeeps : Keeps n (n.mempool.addTransaction now tx actualFee).1) :
    Right (n.advance id (n.toMoneuNode.submit c tx actualFee now)) := by
  have hclaim : claimOf c = some ⟨Mempool.outpoints tx, tx.getHash⟩ := by
    simp [claimOf, Call.holding, hphase]
  have hfailed : c.failed = none := by simp [Call.failed, hphase]
  unfold MoneuNode.submit
  split
  case h_1 p hadd =>
    rw [hadd] at hkeeps
    exact h.submits hone hc hfailed hclaim hadd hkeeps
  case h_2 p hadd =>
    rw [hadd] at hkeeps
    have hkept : Right { n with mempool := p } := h.keeps hkeeps
    exact hkept.gives_up hc hfailed hclaim _
  case h_3 p what hadd =>
    rw [hadd] at hkeeps
    have hkept : Right { n with mempool := p } := h.keeps hkeeps
    exact hkept.gives_up hc hfailed hclaim _

variable [WalletCrypto]

theorem Right.turn (h : Right n) (hone : OneMeaning n) {c : Call} (hc : n.calls.lookup id = some c)
    {saves : Bool} {now : Int64} (hmeets : TurnMeets n now c) :
    Right (n.advance id (n.toMoneuNode.turn c saves now)) := by
  unfold TurnMeets at hmeets
  unfold MoneuNode.turn
  cases hphase : c.phase with
  | begun | informed | released tx =>
    have hclaim : claimOf c = none := by simp [claimOf, Call.holding, hphase]
    exact h.goes hc (by simp [Call.failed, hphase]) rfl rfl hclaim.symm
  | aimed height => exact h.attempt hc hphase
  | created tx => exact h.settle hone hc hphase
  | reaimed tx height => exact h.attemptAgain hc hphase
  | settled tx => exact h.sign hone hc hphase saves
  | signed tx => exact h.verify hc hphase
  | checked tx actualFee =>
    rw [hphase] at hmeets
    exact h.submit hone hc hphase hmeets
  | failing tx error =>
    rw [hphase] at hmeets
    exact h.unwinds hmeets hc (by simp [Call.failed, hphase])
      (by simp [claimOf, Call.holding, hphase]) error

theorem Right.sync (h : Right n) {clock : Nat → Int64}
    (hpool : ∀ txid ∈ n.sent, (n.step (.sync clock)).mempool.inputsOf txid =
      if txid ∈ n.synced then none else n.mempool.inputsOf txid)
    (hcalls : ∀ id c tx, n.calls.lookup id = some c → c.holding = some tx →
      tx.getHash ∉ n.synced) : Right (n.step (.sync clock)) := by
  refine Custody.strike h n.synced (fun o => ?_) ?_ ?_ fun o ho => ho
  · change (((n.wallet.releaseAll n.chainState.takeMempoolSync.2.1).releaseAll
      n.chainState.takeMempoolSync.2.2).heldOutpoints.lookup o) = _
    rw [← WalletManager.releaseAll_append, WalletManager.lookup_releaseAll, synced]
  · rintro (id | txid) cl hcl hnot
    · exact hcl
    · obtain ⟨hsent, spends, hspends, rfl⟩ := claims_inr hcl
      change (if txid ∈ n.sent then _ else _) = _
      rw [if_pos hsent, hpool txid hsent, if_neg hnot, hspends]
      rfl
  · rintro (id | txid) cl hcl
    · obtain ⟨c, tx, hc, htx, rfl⟩ := claims_inl hcl
      exact ⟨hcl, hcalls id c tx hc htx⟩
    · obtain ⟨hsent, spends, hspends, rfl⟩ := claims_inr hcl
      have hsent : txid ∈ n.sent := hsent
      rw [hpool txid hsent] at hspends
      split at hspends
      case isTrue => cases hspends
      case isFalse hnot =>
        refine ⟨?_, hnot⟩
        rw [claims, if_pos hsent, hspends]
        rfl

omit [Ed25519] [Doubles] [WalletCrypto] in
theorem Right.enters (h : Right n) (hnew : id ∉ n.calls) (c : Call) (hclaim : claimOf c = none) :
    Right { n with calls := n.calls.insert id c } := by
  refine Custody.mono h (fun _ => rfl) ?_ ?_
  · rintro (id' | txid)
    · by_cases hid : id' = id
      · subst hid
        simp only [claims, AList.lookup_insert, AList.lookup_eq_none.mpr hnew]
        exact hclaim
      · simp only [claims]
        rw [AList.lookup_insert_ne hid]
    · rfl
  · rintro o ⟨id', d, tx, hd, htx, ho⟩
    have hne : id' ≠ id := by
      rintro rfl
      exact hnew (AList.lookup_isSome.mp (by rw [hd]; rfl))
    exact ⟨id', d, tx, (AList.lookup_insert_ne hne).trans hd, htx, ho⟩

theorem Right.step (h : Right n) {event : NodeEvent} (hmeets : Meets n event) :
    Right (n.step event) := by
  obtain ⟨hone, hmeets⟩ := hmeets
  cases event with
  | block faults now b => exact h
  | sync clock => exact h.sync hmeets.1 hmeets.2
  | add now tx fee => exact h.keeps hmeets
  | send id r =>
    unfold LiveNode.step
    dsimp only
    split
    case h_1 => exact h
    case h_2 =>
      split
      case isTrue => exact h
      case isFalse hnew => exact h.enters hnew (Call.new r) rfl
  | turn id saves now =>
    unfold LiveNode.step
    dsimp only
    split
    case h_1 => exact h
    case h_2 c hc => exact h.turn hone hc (hmeets c hc)

theorem Right.run (h : Right n) {events : List NodeEvent} (halong : Along n events) :
    Right (n.run events) := by
  induction events generalizing n with
  | nil => exact h
  | cons event events ih => exact ih (h.step halong.1) halong.2

end Runs

end LiveNode

end Moneu
