/-
# The queues of a reorganisation

Every block that is taken off the chain or put on it leaves its transactions, without the coinbase, in a queue
for the pool.  The blocks come off tip first, and their transactions are queued last first; `TakeMempoolSync`
turns the queue around.  When the queue is over its size, transactions are dropped from its front, which is the
END of the chain.

So the pool is given the old branch in chain order, up to the first transaction that no longer fits
(`activateBestChain_queues`).
-/
import Moneu.Lib.Backlog
import Moneu.Chain.TxIndex
import Moneu.Node.Admission

namespace Moneu

open NetParams BlockData ChainState Backlog

/-- The transactions of a block that a pool can hold. -/
def Block.payments (b : Block) : List Transaction := b.transactions.filter fun tx => !tx.isCoinbase

/-- The bytes of a list of transactions. -/
abbrev serializedBytes (txs : List Transaction) : Nat := weight (Transaction.getSerializedSize true) txs

/-- What is kept of a list of transactions that are queued one after another. -/
abbrev keptQueue (txs : List Transaction) : List Transaction :=
  trim (Transaction.getSerializedSize true) MAX_DISCONNECTED_TX_BYTES txs

/-! ## 1. The queue after one block -/

/-- `mSyncDisconnectedBytes` is the size of the queue. -/
def ExactBytes (s : ChainState) : Prop := s.syncDisconnectedBytes = serializedBytes s.syncDisconnected

/-- **The eviction loop** on a queue of known size. -/
theorem evict_eq (l : List Transaction) :
    evict l (serializedBytes l) = (keptQueue l, serializedBytes (keptQueue l)) := by
  induction l with
  | nil => rfl
  | cons tx l ih =>
    have hbytes : serializedBytes (tx :: l) - tx.getSerializedSize true = serializedBytes l := by
      simp [weight]
    have hkept : keptQueue (tx :: l) =
        if serializedBytes (tx :: l) > MAX_DISCONNECTED_TX_BYTES then keptQueue l else tx :: l := rfl
    rw [evict, hbytes, ih, hkept]
    split
    · rfl
    · rfl

theorem queueDisconnected_eq {s : ChainState} (h : ExactBytes s) (b : Block) :
    (s.queueDisconnected b).syncDisconnected = keptQueue (s.syncDisconnected ++ b.payments.reverse) ∧
      ExactBytes (s.queueDisconnected b) := by
  have htxs : (b.transactions.reverse.filter fun tx => !tx.isCoinbase) = b.payments.reverse :=
    List.filter_reverse ..
  have hbytes : s.syncDisconnectedBytes +
      ((b.payments.reverse).map (Transaction.getSerializedSize true)).sum =
        serializedBytes (s.syncDisconnected ++ b.payments.reverse) := by
    rw [h]
    exact (weight_append ..).symm
  unfold ExactBytes queueDisconnected
  rw [htxs]
  simp only [hbytes, evict_eq, and_self]

/-- **`ConnectBlockLocked`** leaves the disconnected transactions alone, and queues those of a block that it
connects. -/
theorem connectBlock_queues (s : ChainState) (b : Block) :
    (s.connectBlock b none).1.syncDisconnected = s.syncDisconnected ∧
      (s.connectBlock b none).1.syncDisconnectedBytes = s.syncDisconnectedBytes ∧
      ((s.connectBlock b none).2 = .ret true →
        (s.connectBlock b none).1.syncConnected = s.syncConnected ++ b.payments) := by
  rw [connectBlock_none]
  split
  · exact ⟨rfl, rfl, by simp⟩
  · split
    · exact ⟨rfl, rfl, by simp⟩
    · exact ⟨rfl, rfl, by simp⟩
    · rename_i u undo _
      unfold connected committed
      dsimp only
      split
      · exact ⟨rfl, rfl, fun _ => rfl⟩
      · exact ⟨rfl, rfl, fun _ => rfl⟩

/-- **`DisconnectTipLocked`** queues the block that it takes off, or leaves the queues alone. -/
theorem disconnectTip_queues (s : ChainState) :
    (s.disconnectTip.2 = false ∧ SameQueues s s.disconnectTip.1) ∨
      ∃ b, s.disconnectTip.2 = true ∧ s.loadBlock s.bestChain.blockHash = some b ∧
        SameQueues (s.queueDisconnected b) s.disconnectTip.1 := by
  have hsame : ∀ s : ChainState, SameQueues s s := fun s => ⟨rfl, rfl, rfl⟩
  unfold disconnectTip loadBlock
  split
  · exact .inl ⟨rfl, hsame s⟩
  · dsimp only
    split
    · exact .inl ⟨rfl, hsame s⟩
    · rename_i e he
      split
      · exact .inl ⟨rfl, hsame s⟩
      · rename_i b hb
        rw [hb]
        split
        · exact .inl ⟨rfl, hsame s⟩
        · split
          · exact .inl ⟨rfl, rfl, rfl, rfl⟩
          · split
            · exact .inl ⟨rfl, rfl, rfl, rfl⟩
            · exact .inr ⟨b, rfl, rfl, rfl, rfl, rfl⟩

/-! ## 2. The queue after a loop -/

theorem ExactBytes.of_same {s s' : ChainState} (h : ExactBytes s) (hsame : SameQueues s s') :
    ExactBytes s' := by
  unfold ExactBytes
  rw [hsame.bytes, hsame.disconnected]
  exact h

theorem ExactBytes.disconnectTip {s : ChainState} (h : ExactBytes s) : ExactBytes s.disconnectTip.1 := by
  rcases disconnectTip_queues s with ⟨-, hsame⟩ | ⟨b, -, -, hsame⟩
  · exact h.of_same hsame
  · exact (queueDisconnected_eq h b).2.of_same hsame

/-- **The blocks that the disconnect loop takes off** are queued one after another. -/
theorem Inv.queues_disconnectTo (fork : Fork) : ∀ (fuel : Nat) {s : ChainState} {p : List Block}
    (gone : List Bytes32), Inv s p → ExactBytes s → ∀ {s' : ChainState} {gone' : List Bytes32} {ok : Bool},
      ChainState.disconnectTo fork fuel s gone = (s', gone', ok) →
      ∃ pre q, p = pre ++ q ∧ Inv s' q ∧ s'.syncConnected = s.syncConnected ∧
        s'.syncDisconnected =
          pre.foldl (fun l b => keptQueue (l ++ b.payments.reverse)) s.syncDisconnected
  | 0, s, p, gone, h, hexact, s', gone', ok, hrun => by
    cases hrun
    exact ⟨[], p, rfl, h, rfl, rfl⟩
  | fuel + 1, s, p, gone, h, hexact, s', gone', ok, hrun => by
    unfold ChainState.disconnectTo at hrun
    by_cases hstop : s.atFork fork = true ∨ s.bestChain.height = 0
    · refine ⟨[], p, rfl, ?_⟩
      rcases hstop with hfork | hzero
      · rw [if_pos hfork] at hrun
        cases hrun
        exact ⟨h, rfl, rfl⟩
      · rw [if_pos hzero] at hrun
        split at hrun <;> cases hrun <;> exact ⟨h, rfl, rfl⟩
    · rw [not_or] at hstop
      rw [if_neg hstop.1, if_neg hstop.2] at hrun
      obtain ⟨b, p, rfl⟩ := h.toFollows.cons
      cases p with
      | nil => exact absurd h.toFollows.tip_height hstop.2
      | cons c p =>
        obtain ⟨s₁, htip, hinv, -⟩ := h.disconnectTip
        rcases disconnectTip_queues s with ⟨hfail, -⟩ | ⟨b', -, hload, hsame⟩
        · rw [htip] at hfail
          cases hfail
        · rw [h.toFollows.tip_hash, loadBlock_path h.path] at hload
          cases hload
          have hexact₁ : ExactBytes s₁ := by
            have hdisc := hexact.disconnectTip
            rwa [htip] at hdisc
          simp only [htip] at hrun hsame
          obtain ⟨pre, q, hsplit, hend, hconn, hdisc⟩ :=
            Inv.queues_disconnectTo fork fuel _ hinv hexact₁ hrun
          refine ⟨b :: pre, q, by rw [hsplit]; rfl, hend, hconn.trans hsame.connected, ?_⟩
          rw [hdisc, hsame.disconnected, (queueDisconnected_eq hexact b).1, List.foldl_cons]

section Activate

variable [Ed25519]

/-- A block of the new branch that is connected joins the connected transactions. -/
theorem connectBranchBlock_queues (s : ChainState) (skipValidation : Bool) (hash : Bytes32) :
    (s.connectBranchBlock noFaults skipValidation hash).1.syncDisconnected = s.syncDisconnected ∧
      (s.connectBranchBlock noFaults skipValidation hash).1.syncDisconnectedBytes =
        s.syncDisconnectedBytes ∧
      ((s.connectBranchBlock noFaults skipValidation hash).2 = .connected → ∀ b,
        s.loadBlock hash = some b →
          (s.connectBranchBlock noFaults skipValidation hash).1.syncConnected =
            s.syncConnected ++ b.payments) := by
  unfold ChainState.connectBranchBlock
  cases hload : s.loadBlock hash with
  | none => exact ⟨rfl, rfl, by simp⟩
  | some b =>
    obtain ⟨hdisc, hbytes, hconn⟩ := connectBlock_queues s b
    dsimp only
    split
    · exact ⟨rfl, rfl, by simp⟩
    · exact ⟨rfl, rfl, by simp⟩
    · simp only [noFaults]
      split
      · rename_i s' hrun
        rw [hrun] at hdisc hbytes hconn
        refine ⟨hdisc, hbytes, fun _ b' hb' => ?_⟩
        cases hb'
        exact hconn rfl
      · rename_i s' hrun
        rw [hrun] at hdisc hbytes
        exact ⟨hdisc, hbytes, by simp⟩
      · rename_i s' what hrun
        rw [hrun] at hdisc hbytes
        exact ⟨hdisc, hbytes, by simp⟩

/-- **The blocks that the connect loop puts on** are queued one after another. -/
theorem Inv.queues_connectBranch (skipValidation : Bool) : ∀ (hashes : List Bytes32) {s : ChainState}
    {p : List Block} (n : Nat), Inv s p →
      (skipValidation = true → hashes.length ≤ 1 ∧ ∀ hash ∈ hashes, ∀ b, s.loadBlock hash = some b →
        AcceptedOn p b) → ∀ {s' : ChainState} {m : Nat},
      ChainState.connectBranch noFaults skipValidation s hashes n = (s', m, true) →
      ∃ up : List Block, up.map Block.getHash = hashes ∧ Inv s' (up.reverse ++ p) ∧
        s'.syncConnected = s.syncConnected ++ up.flatMap Block.payments ∧
        s'.syncDisconnected = s.syncDisconnected
  | [], s, p, n, h, _, s', m, hrun => by
    cases hrun
    exact ⟨[], rfl, h, by simp, rfl⟩
  | hash :: rest, s, p, n, h, hskip, s', m, hrun => by
    unfold ChainState.connectBranch at hrun
    obtain ⟨hdisc, -, hconn⟩ := connectBranchBlock_queues s skipValidation hash
    rcases h.connectBranchBlock skipValidation hash with
      ⟨s₁, b, hstep, hload, hhash, hinv⟩ | ⟨s₁, invalid, hstep, -⟩
    · simp only [hstep] at hrun hdisc hconn
      obtain ⟨hinv, -⟩ := hinv fun hs => (hskip hs).2 hash (List.mem_cons_self ..) b hload
      have hrest : skipValidation = true → rest.length ≤ 1 ∧ ∀ hash ∈ rest, ∀ b',
          s₁.loadBlock hash = some b' → AcceptedOn (b :: p) b' := by
        intro hs
        have hle := (hskip hs).1
        rw [List.length_cons] at hle
        obtain rfl : rest = [] := List.length_eq_zero_iff.mp (by omega)
        exact ⟨Nat.zero_le _, by simp⟩
      obtain ⟨up, hmap, hend, hconn', hdisc'⟩ :=
        Inv.queues_connectBranch skipValidation rest (n + 1) hinv hrest hrun
      refine ⟨b :: up, by rw [List.map_cons, hhash, hmap], by simpa using hend, ?_, hdisc'.trans hdisc⟩
      rw [hconn', hconn trivial b hload, List.flatMap_cons, List.append_assoc]
    · rw [hstep] at hrun
      cases invalid <;> cases hrun

/-! ## 3. A whole reorganisation -/

/-- One step of a reorganisation: the tip is taken off, or a block of the new branch is tried. -/
inductive ReorgStep (s : ChainState) : ChainState → Prop
  | disconnect : ReorgStep s s.disconnectTip.1
  | connect (skipValidation : Bool) (hash : Bytes32) :
      ReorgStep s (s.connectBranchBlock noFaults skipValidation hash).1

theorem ExactBytes.step {s s' : ChainState} (h : ExactBytes s) (hstep : ReorgStep s s') : ExactBytes s' := by
  cases hstep with
  | disconnect => exact h.disconnectTip
  | connect skipValidation hash =>
    obtain ⟨hdisc, hbytes, -⟩ := connectBranchBlock_queues s skipValidation hash
    unfold ExactBytes
    rw [hbytes, hdisc]
    exact h

theorem ExactBytes.steps {s s' : ChainState} (h : ExactBytes s)
    (hsteps : Relation.ReflTransGen ReorgStep s s') : ExactBytes s' := by
  induction hsteps with
  | refl => exact h
  | tail _ hstep ih => exact ih.step hstep

omit [Ed25519] in
/-- Blocks that come off tip first leave the beginning of what they hold, in chain order. -/
theorem reverse_foldl_keptQueue (pre : List Block) :
    (pre.foldl (fun l b => keptQueue (l ++ b.payments.reverse)) []).reverse =
      (keptQueue (pre.reverse.flatMap Block.payments).reverse).reverse := by
  have hrev : (pre.reverse.flatMap Block.payments).reverse =
      pre.flatMap fun b => b.payments.reverse := by
    rw [List.reverse_flatMap, List.reverse_reverse]
    rfl
  rw [hrev]
  exact congrArg List.reverse (foldl_push (fun b : Block => b.payments.reverse) pre [])

omit [Ed25519] in
/-- A stored block starts with its coinbase, and its entry names its parent. -/
theorem shape_of_loadBlock {s : ChainState} (h : StoreInv s.blockData) {hash : Bytes32} {b : Block}
    (hload : s.loadBlock hash = some b) :
    (∃ coinbase rest, b.Shape coinbase rest) ∧
      ∃ e, s.blockData.readBlockIndex hash = some e ∧ e.hashPrev = b.header.prevBlockHash := by
  unfold loadBlock at hload
  split at hload
  · cases hload
  · rename_i e he
    rcases (h.rooted he hload).2.2 with ⟨rfl, hentry⟩ | ⟨hchecked, parent, -, hentry⟩
    · obtain ⟨coinbase, hshape⟩ := shape_genesis
      exact ⟨⟨coinbase, [], hshape⟩, e, he, by rw [hentry]; rfl⟩
    · obtain ⟨coinbase, rest, hshape, -⟩ := hchecked.shape
      exact ⟨⟨coinbase, rest, hshape⟩, e, he, by rw [hentry]; rfl⟩

/-- The verdict that `AcceptBlock` has on a block on top of the tip. -/
def TipVerdict (s : ChainState) (newTip : Bytes32) : Prop :=
  ∀ b, s.loadBlock newTip = some b → b.header.prevBlockHash = s.bestChain.blockHash →
    BlockValidation.checkBlockTransactionsWithUTXO b s.utxoSet
      (UInt32.ofNat (s.bestChain.height + 1)) = .ok ()

theorem TipVerdict.acceptedOn {s : ChainState} {p : List Block} {newTip : Bytes32}
    (h : TipVerdict s newTip) (hinv : Inv s p) {fork : Fork} (hbranch : BranchTo s newTip [newTip] fork)
    (htip : p.head?.map Block.getHash = some fork.hash) {b : Block}
    (hload : s.loadBlock newTip = some b) : AcceptedOn p b := by
  obtain ⟨⟨coinbase, rest, hshape⟩, e, he, hprev⟩ := shape_of_loadBlock hinv.store hload
  obtain ⟨⟨e', he', hfork⟩, -⟩ := hbranch.links
  have hheight := hinv.toFollows.height_succ
  have hparent : b.header.prevBlockHash = s.bestChain.blockHash := by
    obtain ⟨c, p, rfl⟩ := hinv.toFollows.cons
    rw [he] at he'
    cases he'
    rw [← hprev, hfork, hinv.toFollows.tip_hash]
    exact (Option.some.inj htip).symm
  have hok := h b hload hparent
  rw [hheight] at hok
  obtain ⟨spents, hacc, -⟩ := BlockValidation.checkBlockTransactionsWithUTXO_ok hshape.transactions
    hshape.rest hok
  exact ⟨coinbase, rest, spents, hshape, hacc.mono hinv.below.coins⟩

/-- **`ActivateBestChainLocked` that ends on the new tip** has queued the blocks `pre`, which it took off, and
the blocks `up`, which it put on. -/
theorem Inv.queues_activateBestChain {s s' : ChainState} {p : List Block} (h : Inv s p)
    (hexact : ExactBytes s) {newTip : Bytes32} {tipValidated : Bool}
    (hvalid : tipValidated = true → TipVerdict s newTip)
    (hrun : s.activateBestChain noFaults newTip tipValidated = (s', .ret true)) :
    ∃ pre q, ∃ up : List Block, p = pre ++ q ∧ Inv s' (up.reverse ++ q) ∧ (∀ b ∈ up, b ∉ pre) ∧
      s'.syncConnected = s.syncConnected ++ up.flatMap Block.payments ∧
      s'.syncDisconnected =
        pre.foldl (fun l b => keptQueue (l ++ b.payments.reverse)) s.syncDisconnected := by
  unfold ChainState.activateBestChain at hrun
  rcases findBranch_spec h.store newTip with hmissing | ⟨newBranch, fork, hfound, hbranch⟩
  · rw [hmissing] at hrun
    cases hrun
  · rw [hfound] at hrun
    obtain ⟨s₀, pre, q, hatt, hdisc, hinv₀, hstep₀⟩ := h.disconnectTo_branch hbranch
    obtain ⟨pre', q', hsplit', hinv₀', hconn₀, hdisc₀⟩ := h.queues_disconnectTo fork _ _ hexact hdisc
    have hsplit := hatt.split
    obtain rfl : q = q' := hinv₀.activeChain.symm.trans hinv₀'.activeChain
    obtain rfl : pre = pre' := List.append_cancel_right (hsplit.symm.trans hsplit')
    simp only [hdisc] at hrun
    generalize hskip : (tipValidated && (pre.map Block.getHash).reverse.isEmpty &&
      decide (newBranch.length = 1)) = skip at hrun
    have haccepted : skip = true → newBranch.reverse.length ≤ 1 ∧ ∀ hash ∈ newBranch.reverse, ∀ b,
        s₀.loadBlock hash = some b → AcceptedOn q b := by
      rintro rfl
      -- the one block of the branch is on top of the tip, where it was validated
      simp only [Bool.and_eq_true, decide_eq_true_eq] at hskip
      obtain rfl : pre = [] := by simpa using hskip.1.2
      obtain ⟨tip, rfl⟩ := List.length_eq_one_iff.mp hskip.2
      obtain rfl : tip = newTip := hbranch.head
      refine ⟨by simp, fun hash hmem b hload => ?_⟩
      obtain rfl : hash = tip := by simpa using hmem
      rw [hstep₀.loadBlock] at hload
      obtain ⟨fork', hbranch', htip⟩ := hatt.branch
      rw [hsplit] at h
      exact (hvalid hskip.1.1).acceptedOn h hbranch' htip hload
    rcases hrest : ChainState.connectBranch noFaults skip s₀ newBranch.reverse 0 with ⟨s₁, m, _ | _⟩
    · rw [hrest] at hrun
      cases hrun
    · rw [hrest] at hrun
      cases hrun
      obtain ⟨up, hmap, hend, hconn, hdisc'⟩ :=
        hinv₀.queues_connectBranch skip newBranch.reverse 0 haccepted hrest
      refine ⟨pre, q, up, hsplit, hend, fun b hb hpre => ?_, hconn.trans (by rw [hconn₀]),
        hdisc'.trans hdisc₀⟩
      have hon : s.isOnActiveChain b.getHash = true := by
        obtain ⟨c, r, rfl⟩ := hinv₀.toFollows.cons
        rw [isOnActiveChain_iff h.toFollows, hsplit, List.dropLast_append_of_ne_nil (by simp)]
        exact List.mem_map.mpr ⟨b, List.mem_append_left _ hpre, rfl⟩
      have hoff := hbranch.off b.getHash (by
        rw [← List.mem_reverse, ← hmap]
        exact List.mem_map.mpr ⟨b, hb, rfl⟩)
      rw [hon] at hoff
      cases hoff

/-- **The queues of a reorganisation keep the order of the chain.**  The chain goes from `base` and `old` to
`base` and `new`.  From empty queues on, the pool is told to take back the transactions of `old` in chain
order, as many as fit; and to drop those of `new`, in chain order. -/
theorem activateBestChain_queues {s s' : ChainState} (h : AtWork s) {newTip : Bytes32}
    {tipValidated : Bool}
    (hvalid : tipValidated = true → TipVerdict s newTip)
    (hrun : s.takeMempoolSync.1.activateBestChain noFaults newTip tipValidated = (s', .ret true)) :
    ∃ base old new : List Block,
      s.activeChain.reverse = base ++ old ∧ s'.activeChain.reverse = base ++ new ∧ (∀ b ∈ new, b ∉ old) ∧
      s'.takeMempoolSync.2.1 = new.flatMap Block.payments ∧
      s'.takeMempoolSync.2.2 <+: old.flatMap Block.payments ∧
      serializedBytes s'.takeMempoolSync.2.2 ≤ MAX_DISCONNECTED_TX_BYTES ∧
      (∀ txs, txs <+: old.flatMap Block.payments → serializedBytes txs ≤ MAX_DISCONNECTED_TX_BYTES →
        txs <+: s'.takeMempoolSync.2.2) ∧
      ∀ t, Relation.ReflTransGen ReorgStep s.takeMempoolSync.1 t →
        t.syncDisconnectedBytes = serializedBytes t.syncDisconnected := by
  obtain ⟨p, hp⟩ := h.inv
  have hinv : Inv s.takeMempoolSync.1 p := hp.congr rfl rfl rfl rfl rfl rfl
  have hexact : ExactBytes s.takeMempoolSync.1 := rfl
  obtain ⟨pre, q, up, hsplit, hend, hnew, hconn, hdisc⟩ := hinv.queues_activateBestChain hexact
    (fun hval => hvalid hval) hrun
  have hkept : s'.takeMempoolSync.2.2 =
      (keptQueue (pre.reverse.flatMap Block.payments).reverse).reverse :=
    (congrArg List.reverse hdisc).trans (reverse_foldl_keptQueue pre)
  rw [hp.activeChain, hend.activeChain, hkept]
  refine ⟨q.reverse, pre.reverse, up, ?_, ?_, fun b hb hpre => hnew b hb (List.mem_reverse.mp hpre),
    hconn, isPrefix_reverse_trim _, ?_, fun txs htxs hle => longest_reverse_trim htxs hle,
    fun t ht => hexact.steps ht⟩
  · rw [hsplit, List.reverse_append]
  · rw [List.reverse_append, List.reverse_reverse]
  · rw [serializedBytes, weight_reverse]
    exact weight_trim _

theorem Inv.activateBestChain_sibling {s : ChainState} {a b : Block} (h : Inv s [a, buildGenesisBlock])
    (hpath : IsPath s.blockData [b, buildGenesisBlock]) (hne : b.getHash ≠ a.getHash)
    (hok : ∀ t, Inv t [buildGenesisBlock] →
      BlockValidation.checkBlockTransactionsWithUTXO b t.utxoSet 1 = .ok () ∧
        t.headerExtendsTip b.header = true ∧ ∃ spents, t.utxoSet.view.BlockApplies 1 b spents) :
    ∃ s', s.activateBestChain noFaults b.getHash false = (s', .ret true) ∧
      Inv s' [b, buildGenesisBlock] := by
  obtain ⟨pos, hentry, hread⟩ := hpath.stored
  have hload : s.loadBlock b.getHash = some b := loadBlock_path hpath
  have hoff : s.isOnActiveChain b.getHash = false := by
    rw [Bool.eq_false_iff, ne_eq, isOnActiveChain_iff h.toFollows]
    simpa using hne
  have hprev : b.header.prevBlockHash = getGenesisHash := by
    cases hpath with
    | cons _ hprev _ _ => exact hprev.trans buildGenesisBlock_getHash
  have hfound : ∀ n, s.findBranch (n + 1) b.getHash = .found [b.getHash] .genesis := by
    intro n
    unfold findBranch
    rw [hentry]
    simp only [hoff, Bool.false_eq_true, ↓reduceIte]
    exact if_pos hprev
  obtain ⟨s₁, htip, hinv₁, hstep₁⟩ := h.disconnectTip
  have hheight : s.bestChain.height = 1 := h.toFollows.tip_height
  have hheight₁ : s₁.bestChain.height = 0 := hinv₁.toFollows.tip_height
  have hdisc : ChainState.disconnectTo .genesis (s.bestChain.height + 1) s [] =
      (s₁, [s.bestChain.blockHash], true) := by
    rw [ChainState.disconnectTo, atFork, hheight]
    simp only [htip, Nat.one_ne_zero, decide_false, Bool.false_eq_true, if_false]
    rw [ChainState.disconnectTo, atFork, hheight₁]
    rfl
  unfold ChainState.activateBestChain
  rw [hfound]
  simp only [hdisc, Bool.false_and, List.reverse_singleton]
  unfold ChainState.connectBranch
  rcases hinv₁.connectBranchBlock false b.getHash with
    ⟨s', b', hrun, hload', -, hinv⟩ | ⟨s', invalid, -, -, -, hbad, hthrew⟩
  · rw [hstep₁.loadBlock, hload] at hload'
    cases hload'
    simp only [hrun]
    exact ⟨s', rfl, (hinv (by simp)).1⟩
  · exfalso
    cases invalid with
    | true =>
      obtain ⟨b', hload', hrefuses⟩ := hbad rfl
      rw [hstep₁.loadBlock, hload] at hload'
      cases hload'
      exact hrefuses (hok s₁ hinv₁)
    | false =>
      rcases hthrew rfl with hnone | ⟨b', what, hload', herror⟩
      · rw [hstep₁.loadBlock, hload] at hnone
        cases hnone
      · rw [hstep₁.loadBlock, hload] at hload'
        cases hload'
        have hpass := (hok s₁ hinv₁).1
        rw [show (1 : UInt32) = UInt32.ofNat [buildGenesisBlock].length from rfl, herror] at hpass
        cases hpass

end Activate

/-- The node is on `a1` and has stored `b1` next to it; it goes over to `b1`. -/
theorem activateBestChain_queues_b1 : ∃ s s' : ChainState, @AtWork noSignatures s ∧
    @ChainState.activateBestChain noSignatures noFaults s.takeMempoolSync.1 b1.getHash false =
      (s', .ret true) ∧
    s.activeChain = [a1, buildGenesisBlock] ∧ s'.activeChain = [b1, buildGenesisBlock] ∧
    ∃ base old new : List Block, s.activeChain.reverse = base ++ old ∧
      s'.activeChain.reverse = base ++ new ∧ s'.takeMempoolSync.2.1 = new.flatMap Block.payments ∧
      s'.takeMempoolSync.2.2 <+: old.flatMap Block.payments := by
  obtain ⟨-, hknows, -⟩ := extend_a1
  have hreach : @Reachable noSignatures (@acceptBlock noSignatures noFaults fresh.1 1786725267 a1).1 :=
    @Reachable.accept noSignatures _ _ _ (@Reachable.start noSignatures)
  generalize (@acceptBlock noSignatures noFaults fresh.1 1786725267 a1).1 = s at hknows hreach
  obtain ⟨hknows', hpath, -⟩ := aside_b1 hknows
  have hwork : @AtWork noSignatures (@acceptBlock noSignatures noFaults s 1786725267 b1).1 :=
    @AtWork.reachable noSignatures _ (@Reachable.accept noSignatures _ _ _ hreach)
  generalize (@acceptBlock noSignatures noFaults s 1786725267 b1).1 = t at hknows' hpath hwork
  have hinv : Inv t.takeMempoolSync.1 [a1, buildGenesisBlock] := hknows'.toInv.congr rfl rfl rfl rfl rfl rfl
  have hne : b1.getHash ≠ a1.getHash := by
    rw [samples.b1.getHash, samples.a1.getHash]
    decide
  obtain ⟨s', hrun, hinv'⟩ := @Inv.activateBestChain_sibling noSignatures _ _ _ hinv hpath hne (by
    intro u hu
    refine ⟨?_, ?_, [], next_b1.applies _ _⟩
    · rw [@BlockValidation.checkBlockTransactionsWithUTXO_coinbase noSignatures _ _ next_b1.transactions]
      exact eq_ok_of_isOk (by decide)
    · refine headerExtendsTip_early hu.toFollows rfl (by decide) rfl next_b1.prev ?_ next_b1.bits next_b1.work
      simp only [List.mem_singleton, forall_eq]
      decide)
  obtain ⟨base, old, new, hold, hnew, -, hconn, hdisc, -⟩ :=
    @activateBestChain_queues noSignatures _ _ hwork _ _ (by simp) hrun
  exact ⟨t, s', hwork, hrun, hknows'.toInv.activeChain, hinv'.activeChain, base, old, new, hold, hnew, hconn,
    hdisc⟩

end Moneu
