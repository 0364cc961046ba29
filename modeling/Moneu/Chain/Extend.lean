/-
# A block on top of the tip

The plain case of `AcceptBlock`: the new block names the tip as its parent.  The search for its branch
finds the block alone, nothing is taken off, and the whole of `ActivateBestChainLocked` is one turn of
the loop over the branch.  The state after it is spelled out here, down to what the UTXO set shows.
-/
import Moneu.Chain.Runs

namespace Moneu

open NetParams Journal UTXOSet BlockData ChainState

/-! ## 1. The branch is the block alone -/

variable {s : ChainState} {p : List Block}

/-- The search for the branch of a block on top of the tip ends at the tip. -/
theorem Inv.findBranch_tip (h : Inv s p) {hash : Bytes32} {e : BlockIndexEntry}
    (he : s.blockData.readBlockIndex hash = some e) (hprev : e.hashPrev = s.bestChain.blockHash)
    (hoff : s.isOnActiveChain hash = false) :
    ∃ fork, s.findBranch (s.indexHeight hash + s.indexHeight FixedBytes.zero + 2) hash =
      .found [hash] fork ∧ s.atFork fork = true := by
  unfold findBranch
  rw [he]
  simp only [hoff, Bool.false_eq_true, ↓reduceIte]
  by_cases hgen : e.hashPrev = getGenesisHash
  · refine ⟨.genesis, by rw [if_pos hgen], decide_eq_true ?_⟩
    -- the tip has the hash of genesis, so it is genesis
    obtain ⟨b, p, rfl⟩ := h.toFollows.cons
    obtain ⟨pos, hentry⟩ := readBlockIndex_path h.path
    obtain ⟨posg, hg, -⟩ := h.store.genesis
    rw [← h.toFollows.tip_hash, ← hprev, hgen, ← buildGenesisBlock_getHash, hg] at hentry
    have hheight : (0 : Nat) = p.length := congrArg BlockIndexEntry.nHeight (Option.some.inj hentry)
    rw [h.toFollows.tip_height]
    exact hheight.symm
  · obtain ⟨b, p, rfl⟩ := h.toFollows.cons
    obtain ⟨pos, hentry⟩ := readBlockIndex_path h.path
    have htip : e.hashPrev = b.getHash := hprev.trans h.toFollows.tip_hash
    have hon : s.isOnActiveChain e.hashPrev = true := by
      rw [isOnActiveChain_iff h.toFollows, htip]
      cases p with
      | nil =>
        have hpath := h.path
        cases hpath with
        | genesis => exact absurd (htip.trans buildGenesisBlock_getHash) hgen
      | cons c p => exact List.mem_cons_self ..
    refine ⟨.block e.hashPrev, ?_, decide_eq_true hprev.symm⟩
    rw [if_neg hgen]
    unfold findBranch
    rw [htip, hentry, ← htip, hon]
    rfl

/-- How the attempt ends after the one turn over the branch. -/
def endAttempt (faults : Bytes32 → Option ConnectFault) (s : ChainState) (hash : Bytes32) :
    ChainState × BranchStep → ChainState × Outcome Bool
  | (s', .connected) => (s', .ret true)
  | (s', .refused true) => (restoreOld faults s (s'.mark [hash]) [], .ret false)
  | (s', .refused false) => (restoreOld faults s s' [], .ret false)

/-- **`ActivateBestChainLocked` of a block on top of the tip** is one turn of the connect loop. -/
theorem Inv.activateBestChain_tip [Ed25519] (faults : Bytes32 → Option ConnectFault) (h : Inv s p)
    {hash : Bytes32} {e : BlockIndexEntry} (he : s.blockData.readBlockIndex hash = some e)
    (hprev : e.hashPrev = s.bestChain.blockHash) (hoff : s.isOnActiveChain hash = false)
    (tipValidated : Bool) :
    s.activateBestChain faults hash tipValidated =
      endAttempt faults s hash (s.connectBranchBlock faults tipValidated hash) := by
  obtain ⟨fork, hfound, hfork⟩ := h.findBranch_tip he hprev hoff
  have hdisc : ChainState.disconnectTo fork (s.bestChain.height + 1) s [] = (s, [], true) := by
    rw [ChainState.disconnectTo, if_pos hfork]
  unfold ChainState.activateBestChain
  rw [hfound]
  simp only [hdisc, List.isEmpty_nil, Bool.and_true, List.length_singleton, decide_true,
    List.reverse_singleton]
  unfold ChainState.connectBranch
  rcases s.connectBranchBlock faults tipValidated hash with ⟨s', _ | bad⟩
  · rfl
  · cases bad <;> rfl

theorem Inv.not_onActive {s₁ : ChainState} {b : Block} (h : Inv s p) (hinv₁ : Inv s₁ p)
    (hnew : s.blockData.hasBlock b.getHash = false) :
    s₁.isOnActiveChain b.getHash = false := by
  rw [← Bool.not_eq_true, isOnActiveChain_iff hinv₁.toFollows]
  intro hmem
  obtain ⟨c, q, pos, -, -, hentry⟩ :=
    readBlockIndex_mem h.path (List.map_subset _ (List.dropLast_subset p) hmem)
  rw [BlockData.hasBlock_eq.mp hnew] at hentry
  cases hentry

/-- The block `b` was connected on top of the tip of `s` by storing it first, which gives `s₁`. -/
structure OnTip (s : ChainState) (p : List Block) (b : Block) (s₁ s' : ChainState) : Prop where
  inv₁ : Inv s₁ p
  stored : ∃ parent, s.blockData.readBlockIndex b.header.prevBlockHash = some parent ∧
    StoredFrom s b parent s₁
  inv : Inv s' (b :: p)
  step : StepFrom s₁ s'
  connects : ∃ spents u, s.utxoSet.view.BlockApplies (UInt32.ofNat p.length) b spents ∧
    Shows .univ .univ s.utxoSet (s.utxoSet.view.applyBlock (UInt32.ofNat p.length) b) u ∧
    s' = s₁.connected b u ⟨spents.map TxUndo.mk⟩

/-- **The block is applied to what the UTXO set showed before.** -/
theorem OnTip.view {s₁ s' : ChainState} {b : Block} (h : OnTip s p b s₁ s') (hrep : Rep s.utxoSet) :
    s'.utxoSet.view = s.utxoSet.view.applyBlock (UInt32.ofNat p.length) b := by
  obtain ⟨spents, u, -, hshow, rfl⟩ := h.connects
  have hparts := connectedParts s₁ b u ⟨spents.map TxUndo.mk⟩
  have hflush := (flush_setBestBlock ((hshow.rep hrep).setTrail []) b.getHash).2.1
  rw [hparts.utxoSet, UTXOSet.view_setTrail, hflush, UTXOSet.view_setTrail, hshow.view]

section Accepted

variable [Ed25519]

variable {now : UInt64} {b : Block} {parent : BlockIndexEntry}

/-- **`AcceptBlock` of a storable block on top of the tip**: it has no more work than the tip and stays
aside, or the attempt is the one turn over the block. -/
theorem Inv.acceptBlock_tip (h : Inv s p) (faults : Bytes32 → Option ConnectFault)
    (hst : Storable s now b parent) (htip : b.header.prevBlockHash = s.bestChain.blockHash) :
    ∃ s₁, StoredFrom s b parent s₁ ∧ Inv s₁ p ∧
      s.storeAndActivate faults b (parent.nHeight + 1) parent.nChainWork
        (b.header.prevBlockHash = s.bestChain.blockHash) =
        if compareWork (addChainWork s.bestChain.chainWork b.header.bits) s.bestChain.chainWork ≠ .gt
        then (s₁, .ret true)
        else endAttempt faults s₁ b.getHash (s₁.connectBranchBlock faults true b.getHash) := by
  obtain ⟨hinv₁, hstored⟩ := h.storeBlock hst.new hst.checked hst.onParent
    (b.header.prevBlockHash = s.bestChain.blockHash)
  refine ⟨_, hstored, hinv₁, ?_⟩
  have hwork : parent.nChainWork = s.bestChain.chainWork :=
    (h.toFollows.parent_height (htip ▸ hst.onParent)).2
  unfold ChainState.storeAndActivate
  dsimp only
  generalize hs₁ : s.storeBlock b (parent.nHeight + 1)
    (addChainWork parent.nChainWork b.header.bits)
    (decide (b.header.prevBlockHash = s.bestChain.blockHash)) = s₁ at hinv₁ hstored ⊢
  rw [hstored.tip, hwork, htip, decide_eq_true (rfl : s.bestChain.blockHash = _)]
  obtain ⟨pos, hentry, -⟩ := hstored.entry
  have hprev : (indexEntry b (parent.nHeight + 1) (addChainWork parent.nChainWork b.header.bits)
      pos).hashPrev = s₁.bestChain.blockHash := htip.trans (by rw [hstored.tip])
  rw [hinv₁.activateBestChain_tip faults hentry hprev (h.not_onActive hinv₁ hst.new)]

/-- The one turn over a block that was validated connects it, or leaves the tip where it is. -/
theorem Inv.connectBranchBlock_stored {s₁ : ChainState} (h : Inv s p) (hst : Storable s now b parent)
    (htip : b.header.prevBlockHash = s.bestChain.blockHash) (hstored : StoredFrom s b parent s₁)
    (hinv₁ : Inv s₁ p) :
    (∃ s', s₁.connectBranchBlock noFaults true b.getHash = (s', .connected) ∧ OnTip s p b s₁ s') ∨
    (∃ s' invalid, s₁.connectBranchBlock noFaults true b.getHash = (s', .refused invalid) ∧
      s'.bestChain = s.bestChain ∧ Inv s' p ∧
      (invalid = false → s₁.loadBlock b.getHash = none)) := by
  unfold ChainState.connectBranchBlock
  cases hload : s₁.loadBlock b.getHash with
  | none => exact .inr ⟨s₁, false, rfl, hstored.tip, hinv₁, fun _ => rfl⟩
  | some b' =>
    obtain rfl := hstored.eq_of_loadBlock hload
    simp only [↓reduceIte, noFaults]
    rcases hinv₁.connectBlock_cases (fun hhdr => hinv₁.path_of_loadBlock hload hhdr) with
      ⟨spents, u, hhdr, happ, hshow, hrun⟩ | ⟨s', hrun, hinv', hrefused, -⟩
    · refine .inl ⟨s₁.connected b' u ⟨spents.map TxUndo.mk⟩, by rw [hrun], ?_⟩
      have hpath := hinv₁.path_of_loadBlock hload hhdr
      obtain ⟨q, p, rfl⟩ := h.toFollows.cons
      have hverdict := hst.verdict htip
      rw [(h.toFollows.parent_height (htip ▸ hst.onParent)).1] at hverdict
      have hconn : Connects (q :: p) b' :=
        ⟨extendsPath_of_follows hinv₁.toFollows hhdr,
          (headerExtendsTip_link hinv₁.toFollows hhdr).1, h.acceptedOn hst.checked hverdict,
          spents, happ.mono hinv₁.below⟩
      obtain ⟨hinv, hstep⟩ := hinv₁.connected hpath hconn happ hshow
      rw [hstored.utxoSet] at happ hshow
      exact ⟨hinv₁, ⟨parent, hst.onParent, hstored⟩, hinv, hstep, spents, u, happ, hshow, rfl⟩
    · refine .inr ⟨s', true, by rw [hrun], ?_, hinv', by simp⟩
      rw [← hstored.tip]
      rcases hrefused with rfl | ⟨u, rfl⟩ <;> rfl

theorem Storable.acceptBlock_eq (h : Storable s now b parent) (faults : Bytes32 → Option ConnectFault) :
    s.acceptBlock faults now b = s.storeAndActivate faults b (parent.nHeight + 1) parent.nChainWork
      (b.header.prevBlockHash = s.bestChain.blockHash) := by
  have hpoint : ¬ (lastCheckpointHeight s.blockData).any (parent.nHeight + 1 < ·) = true := by
    cases hlast : lastCheckpointHeight s.blockData with
    | none => simp
    | some height => simpa using h.checkpoint height hlast
  unfold ChainState.acceptBlock
  rw [if_neg (by simp [h.initialized]), if_neg (by simp [h.new]), if_neg h.notInvalid, h.onParent]
  unfold checkAndStore
  dsimp only
  rw [if_neg (not_not.mpr h.height), if_neg (by simp [h.work]), if_neg h.parentValid, if_neg hpoint,
    h.check]
  rw [h.reveals]
  rw [if_neg (by simp [h.coinbase])]
  by_cases htip : b.header.prevBlockHash = s.bestChain.blockHash
  · simp only [htip, decide_true, ↓reduceIte, h.verdict htip]
  · simp only [htip, decide_false, Bool.false_eq_true, ↓reduceIte]

/-- **A block on top of the tip that passes everything becomes the tip.** -/
theorem Inv.onTip_of_storable (h : Inv s p) (hst : Storable s now b parent)
    (htip : b.header.prevBlockHash = s.bestChain.blockHash)
    (hread : (Block.deserialize b.serialize).toOption.isSome = true)
    (hhdr : s.headerExtendsTip b.header = true)
    (happ : ∃ spents, s.utxoSet.view.BlockApplies (UInt32.ofNat p.length) b spents)
    (hwork : compareWork (addChainWork s.bestChain.chainWork b.header.bits) s.bestChain.chainWork = .gt) :
    (s.acceptBlock noFaults now b).2 = .ret true ∧
      ∃ s₁, OnTip s p b s₁ (s.acceptBlock noFaults now b).1 := by
  obtain ⟨s₁, hstored, hinv₁, hattempt⟩ := h.acceptBlock_tip noFaults hst htip
  rw [hst.acceptBlock_eq, hattempt, if_neg (not_not.mpr hwork)]
  have hload : s₁.loadBlock b.getHash = some b := by
    obtain ⟨r, hr⟩ := Option.isSome_iff_exists.mp hread
    have hsome : s₁.loadBlock b.getHash = some r.1 := by
      rw [hstored.loadBlock, hr]
      rfl
    rw [hsome, hstored.eq_of_loadBlock hsome]
  rcases h.connectBranchBlock_stored hst htip hstored hinv₁ with
    ⟨s', hturn, hon⟩ | ⟨s', invalid, hturn, -, -, -⟩
  · rw [hturn]
    exact ⟨rfl, s₁, hon⟩
  · -- a refusal would need a reason
    exfalso
    unfold ChainState.connectBranchBlock at hturn
    rw [hload] at hturn
    simp only [↓reduceIte, noFaults] at hturn
    rcases hinv₁.connectBlock_cases (fun hhdr => hinv₁.path_of_loadBlock hload hhdr) with
      ⟨spents, u, -, -, -, hrun⟩ | ⟨s'', -, -, -, hnot⟩
    · rw [hrun] at hturn
      cases hturn
    · refine hnot ⟨?_, ?_⟩
      · rw [headerExtendsTip_congr hinv₁.toFollows h.toFollows]
        exact hhdr
      · rw [hstored.utxoSet]
        exact happ

end Accepted

end Moneu
