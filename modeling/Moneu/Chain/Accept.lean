/-
# Activating a chain and accepting a block

`ActivateBestChainLocked` finds the branch of the new tip, takes the active chain down to the fork and
puts the branch on.  It ends on the branch, or on the chain it started from (on a part of it, if a txid
repeats and a coin was lost).  `AcceptBlock` checks, stores and activates.  Both keep the invariant of the
node, so it holds in every state of a run.
-/
import Moneu.Chain.Reorg

namespace Moneu

open NetParams Journal UTXOSet BlockData ChainState

/-! ## 1. The branch of the new tip -/

variable {bd : BlockData} {s : ChainState} {p : List Block} {e : BlockIndexEntry}

theorem onActiveFrom_path {hash : Bytes32} : ∀ {p : List Block} {b : Block},
    IsPath bd (b :: p) →
      (onActiveFrom bd hash p.length b.getHash = true ↔ hash ∈ (b :: p).dropLast.map Block.getHash)
  | [], b, _ => by simp [onActiveFrom]
  | c :: p, b, h => by
    obtain ⟨pos, hentry⟩ := readBlockIndex_path h
    cases h with
    | cons hp hprev =>
      have ih : onActiveFrom bd hash p.length c.getHash = true ↔
          hash ∈ (c :: p).dropLast.map Block.getHash := onActiveFrom_path hp
      rw [List.length_cons, onActiveFrom, hentry]
      simp only [indexEntry, hprev, List.dropLast_cons_cons, List.map_cons, List.mem_cons]
      by_cases heq : b.getHash = hash
      · simp [heq]
      · simp only [if_neg heq, ih]
        exact ⟨.inr, fun h => h.resolve_left fun h' => heq h'.symm⟩

/-- **The blocks on the active chain are those of the chain, without genesis.** -/
theorem isOnActiveChain_iff (h : Follows s p) (hash : Bytes32) :
    s.isOnActiveChain hash = true ↔ hash ∈ p.dropLast.map Block.getHash := by
  obtain ⟨b, p, rfl⟩ := h.cons
  rw [isOnActiveChain, h.tip_height, h.tip_hash]
  exact onActiveFrom_path h.path

def ChainState.Fork.hash : Fork → Bytes32
  | .block hash => hash
  | .genesis => getGenesisHash

/-- The blocks `hashes`, tip first, stand on each other and on `base`. -/
def Links (bd : BlockData) (base : Bytes32) : List Bytes32 → Prop
  | [] => True
  | hash :: rest =>
    (∃ e, bd.readBlockIndex hash = some e ∧ e.hashPrev = rest.headD base) ∧ Links bd base rest

/-- What the search for the branch of `newTip` finds. -/
structure BranchTo (s : ChainState) (newTip : Bytes32) (newBranch : List Bytes32) (fork : Fork) :
    Prop where
  head : newBranch.headD fork.hash = newTip
  links : Links s.blockData fork.hash newBranch
  off : ∀ hash ∈ newBranch, s.isOnActiveChain hash = false
  on : ∀ hash, fork = .block hash → s.isOnActiveChain hash = true
  ne_nil : fork = .genesis → newBranch ≠ []
  above : newTip ≠ getGenesisHash → getGenesisHash ∉ newBranch

theorem BranchTo.push {cursor : Bytes32} {newBranch : List Bytes32} {fork : Fork}
    (h : BranchTo s e.hashPrev newBranch fork) (he : s.blockData.readBlockIndex cursor = some e)
    (hoff : s.isOnActiveChain cursor = false) (hprev : e.hashPrev ≠ getGenesisHash) :
    BranchTo s cursor (cursor :: newBranch) fork where
  head := rfl
  links := ⟨⟨e, he, h.head.symm⟩, h.links⟩
  off := fun hash hmem => by
    rcases List.mem_cons.mp hmem with rfl | hmem
    · exact hoff
    · exact h.off hash hmem
  on := h.on
  ne_nil := fun _ => by simp
  above := fun hne hmem => by
    rcases List.mem_cons.mp hmem with heq | hmem
    · exact hne heq.symm
    · exact h.above hprev hmem

/-- An entry that is not the one of genesis stands on another one, a block lower. -/
theorem BlockData.StoreInv.parent {hash : Bytes32} (h : StoreInv bd) (he : bd.readBlockIndex hash = some e)
    (hne : hash ≠ getGenesisHash) :
    ∃ parent, bd.readBlockIndex e.hashPrev = some parent ∧ e.nHeight = parent.nHeight + 1 ∧
      e.nChainWork = addChainWork parent.nChainWork e.nBits := by
  obtain ⟨b, hb, -, hroot⟩ := h.entry hash e he
  rcases hroot with ⟨rfl, -⟩ | ⟨-, parent, hparent, heq⟩
  · exact absurd (hb.symm.trans buildGenesisBlock_getHash) hne
  · rw [heq]
    exact ⟨parent, hparent, rfl, rfl⟩

/-- **From a stored block other than genesis the search ends**, at a block of the active chain or
above genesis. -/
theorem findBranch_found (h : StoreInv s.blockData) : ∀ (fuel : Nat)
    {cursor : Bytes32} {e : BlockIndexEntry}, s.blockData.readBlockIndex cursor = some e →
      cursor ≠ getGenesisHash → e.nHeight < fuel →
      ∃ newBranch fork, s.findBranch fuel cursor = .found newBranch fork ∧
        BranchTo s cursor newBranch fork
  | fuel + 1, cursor, e, he, hne, hlt => by
    unfold findBranch
    rw [he]
    cases hon : s.isOnActiveChain cursor with
    | true =>
      exact ⟨[], .block cursor, rfl, rfl, trivial, by simp, by rintro _ ⟨⟩; exact hon, by simp,
        by simp⟩
    | false =>
      by_cases hprev : e.hashPrev = getGenesisHash
      · refine ⟨[cursor], .genesis, by simp [hprev], rfl, ⟨⟨e, he, hprev⟩, trivial⟩, ?_,
          by simp, by simp, by simp [hne.symm]⟩
        simpa using hon
      · obtain ⟨parent, hparent, hheight, -⟩ := h.parent he hne
        obtain ⟨newBranch, fork, hfound, hbranch⟩ :=
          findBranch_found h fuel hparent hprev (by omega)
        exact ⟨cursor :: newBranch, fork, by simp [hprev, hfound, BranchSearch.push],
          hbranch.push he hon hprev⟩

theorem indexHeight_eq {hash : Bytes32} (he : s.blockData.readBlockIndex hash = some e) :
    s.indexHeight hash = e.nHeight := by
  rw [indexHeight, he]

theorem findBranch_spec (h : StoreInv s.blockData) (newTip : Bytes32) :
    s.findBranch (s.indexHeight newTip + s.indexHeight FixedBytes.zero + 2) newTip = .missing ∨
      ∃ newBranch fork,
        s.findBranch (s.indexHeight newTip + s.indexHeight FixedBytes.zero + 2) newTip =
          .found newBranch fork ∧ BranchTo s newTip newBranch fork := by
  cases he : s.blockData.readBlockIndex newTip with
  | none => exact .inl (by simp [findBranch, he])
  | some e =>
    have hheight := indexHeight_eq he
    by_cases hgen : newTip = getGenesisHash
    · -- the parent field of genesis is zero
      have hzero : FixedBytes.zero ≠ getGenesisHash := by decide
      have hhash : e.hashPrev = FixedBytes.zero := by
        obtain ⟨pos, hentry, -⟩ := h.genesis
        rw [buildGenesisBlock_getHash, ← hgen, he] at hentry
        cases hentry
        rfl
      unfold findBranch
      rw [he]
      dsimp only
      cases hon : s.isOnActiveChain newTip with
      | true =>
        exact .inr ⟨[], .block newTip, rfl, rfl, trivial, by simp, by rintro _ ⟨⟩; exact hon,
          by simp, by simp⟩
      | false =>
        rw [hhash, if_neg (by simp), if_neg hzero]
        cases hz : s.blockData.readBlockIndex FixedBytes.zero with
        | none => exact .inl (by simp [findBranch, hz, BranchSearch.push])
        | some ez =>
          have hzheight := indexHeight_eq hz
          obtain ⟨newBranch, fork, hfound, hbranch⟩ := findBranch_found h
            (s.indexHeight newTip + s.indexHeight FixedBytes.zero + 1) hz hzero (by omega)
          refine .inr ⟨newTip :: newBranch, fork, by rw [hfound]; rfl, ?_⟩
          exact BranchTo.push (hhash ▸ hbranch) he hon (hhash ▸ hzero)
    · exact .inr (findBranch_found h _ he hgen (by omega))

/-! ## 2. Activating the branch -/

variable {s' : ChainState}

/-- The new branch `newBranch` of `newTip` leaves the chain `pre ++ q` at the tip of `q`. -/
structure Attempt (s : ChainState) (p : List Block) (newTip : Bytes32) (newBranch : List Bytes32)
    (pre q : List Block) : Prop where
  split : p = pre ++ q
  branch : ∃ fork, BranchTo s newTip newBranch fork ∧ q.head?.map Block.getHash = some fork.hash

/-- **The disconnect loop reaches the fork that the search found.** -/
theorem Inv.disconnectTo_branch (h : Inv s p) {newTip : Bytes32} {newBranch : List Bytes32}
    {fork : Fork} (hbranch : BranchTo s newTip newBranch fork) :
    ∃ s' pre q, Attempt s p newTip newBranch pre q ∧
      ChainState.disconnectTo fork (s.bestChain.height + 1) s [] =
        (s', (pre.map Block.getHash).reverse, true) ∧ Inv s' q ∧ StepFrom s s' := by
  obtain ⟨s', pre, q, hsplit, hrun, hinv, hstep, hstop, hnot⟩ :=
    h.disconnectTo fork _ [] h.toFollows.height_succ.ge
  have hat : s'.atFork fork = true := by
    rcases hstop with hat | hone
    · exact hat
    · obtain ⟨b, hq⟩ := List.length_eq_one_iff.mp hone
      subst hq
      cases fork with
      | genesis => exact decide_eq_true hinv.toFollows.tip_height
      | block hash =>
        have hmem : hash ∈ p.map Block.getHash :=
          List.map_subset _ (List.dropLast_subset p)
            ((isOnActiveChain_iff h.toFollows hash).mp (hbranch.on hash rfl))
        rw [hsplit, List.map_append, List.mem_append] at hmem
        have htip := hmem.resolve_left (hnot hash rfl)
        simp only [List.map_cons, List.map_nil, List.mem_singleton] at htip
        exact decide_eq_true (hinv.toFollows.tip_hash.trans htip.symm)
  obtain ⟨b, q, rfl⟩ := hinv.toFollows.cons
  refine ⟨s', pre, b :: q, ⟨hsplit, fork, hbranch, ?_⟩, by rw [hrun, hat, List.append_nil], hinv,
    hstep⟩
  cases fork with
  | block hash =>
    have hhash : s'.bestChain.blockHash = hash := of_decide_eq_true hat
    rw [List.head?_cons, Option.map_some, ← hinv.toFollows.tip_hash, hhash]
    rfl
  | genesis =>
    have hheight : s'.bestChain.height = 0 := of_decide_eq_true hat
    rw [hinv.toFollows.tip_height] at hheight
    have hnil : q = [] := List.length_eq_zero_iff.mp hheight
    subst hnil
    have hpath := hinv.path
    cases hpath with
    | genesis => rw [List.head?_cons, Option.map_some, buildGenesisBlock_getHash]; rfl

theorem StepFrom.loadBlock (h : StepFrom s s') (hash : Bytes32) :
    s'.loadBlock hash = s.loadBlock hash := by
  unfold ChainState.loadBlock
  cases he : s.blockData.readBlockIndex hash with
  | none =>
    cases he' : s'.blockData.readBlockIndex hash with
    | none => rfl
    | some e' =>
      obtain ⟨pos, hentry, -⟩ := h.back hash e' he'
      rw [he] at hentry
      cases hentry
  | some e =>
    obtain ⟨pos, hentry, hread⟩ := h.keeps hash e he
    rw [hentry]
    exact hread

/-- **An attempt that is given up** with the blocks `up` on top of the fork: they are taken off, and the old
blocks are put back. -/
theorem Inv.giveUp {s₀ : ChainState} {pre q up : List Block} (h : Inv s p) (hsplit : p = pre ++ q)
    (hfork : Follows s₀ q) (hinv : Inv s' (up.reverse ++ q)) (hstep : StepFrom s s')
    (marked : List Bytes32) :
    ∃ p', p' <:+ p ∧
      Inv (ChainState.restoreOld noFaults s
        (ChainState.rollbackConnected up.length (s'.mark marked)) (pre.map Block.getHash).reverse) p' ∧
      StepFrom (s.mark marked) (ChainState.restoreOld noFaults s
        (ChainState.rollbackConnected up.length (s'.mark marked)) (pre.map Block.getHash).reverse) ∧
      (DistinctTxids s.blockData → p' = p ∧ SameQueues s (ChainState.restoreOld noFaults s
        (ChainState.rollbackConnected up.length (s'.mark marked)) (pre.map Block.getHash).reverse)) := by
  have hq : q ≠ [] := by
    obtain ⟨b, q, rfl⟩ := hfork.cons
    simp
  have hroll := Inv.rollbackConnected up.reverse (hinv.mark marked) hq
  rw [List.length_reverse] at hroll
  obtain ⟨hinv₂, hstep₂⟩ := hroll
  have hstepM : StepFrom (s.mark marked) (ChainState.rollbackConnected up.length
      (s'.mark marked)) := (hstep.mark marked).trans hstep₂
  have hkeeps : Keeps s.blockData (ChainState.rollbackConnected up.length
      (s'.mark marked)).blockData := hstepM.keeps
  subst hsplit
  obtain ⟨p', hsuf, hinv₃, hstep₃, hdistinct⟩ := hinv₂.restoreOld h hkeeps
  exact ⟨p', hsuf, hinv₃, hstepM.trans hstep₃, fun hd => hdistinct (hstepM.distinct hd)⟩

section Activate

variable [Ed25519]

/-- Why an attempt failed, and which blocks it marked: the branch was not found, or the loop over it
stopped. -/
def Failed (s : ChainState) (p : List Block) (newTip : Bytes32) (marked : List Bytes32) : Prop :=
  marked = [] ∧
      s.findBranch (s.indexHeight newTip + s.indexHeight FixedBytes.zero + 2) newTip = .missing ∨
    ∃ newBranch pre q, ∃ up : List Block, ∃ bad rest s₁, Attempt s p newTip newBranch pre q ∧
      newBranch.reverse = up.map Block.getHash ++ bad :: rest ∧ Inv s₁ (up.reverse ++ q) ∧
      StepFrom s s₁ ∧ StoppedAt s₁ (up.reverse ++ q) bad rest marked

/-- **`ActivateBestChainLocked`** ends on the new tip, or gives up on the chain it started from. -/
theorem Inv.activateBestChain (h : Inv s p) (newTip : Bytes32) (tipValidated : Bool) :
    (∃ s' newBranch pre q, ∃ up : List Block,
      s.activateBestChain noFaults newTip tipValidated = (s', .ret true) ∧
      Attempt s p newTip newBranch pre q ∧ up.map Block.getHash = newBranch.reverse ∧
      ((tipValidated = true → ∀ b, s.loadBlock newTip = some b → AcceptedOn p b) →
        Inv s' (up.reverse ++ q) ∧ StepFrom s s')) ∨
    (∃ s' marked p', s.activateBestChain noFaults newTip tipValidated = (s', .ret false) ∧
      p' <:+ p ∧ Inv s' p' ∧ StepFrom (s.mark marked) s' ∧
      (DistinctTxids s.blockData → p' = p ∧ SameQueues s s') ∧ Failed s p newTip marked) := by
  unfold ChainState.activateBestChain
  rcases findBranch_spec h.store newTip with hmissing | ⟨newBranch, fork, hfound, hbranch⟩
  · rw [hmissing]
    exact .inr ⟨s, [], p, rfl, List.suffix_rfl, h, StepFrom.refl s, fun _ => ⟨rfl, rfl, rfl, rfl⟩,
      .inl ⟨rfl, hmissing⟩⟩
  · obtain ⟨s₀, pre, q, hatt, hdisc, hinv₀, hstep₀⟩ := h.disconnectTo_branch hbranch
    rw [hfound]
    simp only [hdisc]
    have hsplit := hatt.split
    generalize hskip : (tipValidated && (pre.map Block.getHash).reverse.isEmpty &&
      decide (newBranch.length = 1)) = skip
    have hlen : skip = true → newBranch.reverse.length ≤ 1 := by
      rintro rfl
      simp only [Bool.and_eq_true, decide_eq_true_eq] at hskip
      rw [List.length_reverse]
      exact hskip.2.le
    rcases hinv₀.connectBranch skip newBranch.reverse 0 hlen with
      ⟨s', up, hrun, hmap, hend⟩ |
      ⟨s₁, s', up, bad, rest, marked, hrun, hmap, hinv₁, hstep₁, hinv', hstep', hstop⟩
    · rw [hrun]
      refine .inl ⟨s', newBranch, pre, q, up, rfl, hatt, hmap, fun hacc => ?_⟩
      -- validation is skipped for the new tip alone, on the chain as it is
      have hsame : skip = true → ∀ hash ∈ newBranch.reverse, ∀ b, s₀.loadBlock hash = some b →
          AcceptedOn q b := by
        rintro rfl hash hmem b hload
        simp only [Bool.and_eq_true, decide_eq_true_eq] at hskip
        have hpre : pre = [] := by simpa using hskip.1.2
        obtain ⟨tip, htip⟩ := List.length_eq_one_iff.mp hskip.2
        have hhead := hbranch.head
        rw [htip] at hmem hhead
        obtain rfl : hash = tip := by simpa using hmem
        have hnew : hash = newTip := hhead
        rw [hnew, hstep₀.loadBlock] at hload
        have hp : p = q := by rw [hsplit, hpre, List.nil_append]
        exact hp ▸ hacc hskip.1.1 b hload
      obtain ⟨hinv, hstep⟩ := hend hsame
      exact ⟨hinv, hstep₀.trans hstep⟩
    · rw [hrun]
      obtain ⟨p', hsuf, hinv₃, hstep₃, hdistinct⟩ :=
        h.giveUp hatt.split hinv₀.toFollows hinv' (hstep₀.trans hstep') marked
      simp only [Nat.zero_add]
      exact .inr ⟨_, marked, p', rfl, hsuf, hinv₃, hstep₃, hdistinct,
        .inr ⟨newBranch, pre, q, up, bad, rest, s₁, hatt, hmap, hinv₁, hstep₀.trans hstep₁, hstop⟩⟩

/-! ## 3. What `AcceptBlock` does with a block -/

/-- The block does not extend the tip, or its transactions pass next to the UTXO set. -/
def VerdictOk (s : ChainState) (block : Block) (height : Nat) : Prop :=
  block.header.prevBlockHash = s.bestChain.blockHash →
    BlockValidation.checkBlockTransactionsWithUTXO block s.utxoSet (UInt32.ofNat height) = .ok ()

/-- The block passes everything that `AcceptBlock` checks before the structure of the block. -/
structure Considered (s : ChainState) (block : Block) (parent : BlockIndexEntry) : Prop where
  initialized : s.initialized = true
  new : s.blockData.hasBlock block.getHash = false
  notInvalid : block.getHash ∉ s.invalidBlocks
  onParent : s.blockData.readBlockIndex block.header.prevBlockHash = some parent
  height : block.header.height.toNat = parent.nHeight + 1
  work : checkProofOfWork block.getHash block.header.bits = true

/-- The block passes everything that `AcceptBlock` checks before it is stored. -/
structure Storable (s : ChainState) (now : UInt64) (block : Block) (parent : BlockIndexEntry) : Prop
    extends Considered s block parent where
  parentValid : block.header.prevBlockHash ∉ s.invalidBlocks
  checkpoint : ∀ height, lastCheckpointHeight s.blockData = some height → height ≤ parent.nHeight + 1
  check : BlockValidation.checkBlock block now = .ok ()
  reveals : BlockValidation.checkBlockReveals block = .ok ()
  coinbase : coinbaseOk block = true
  verdict : VerdictOk s block (parent.nHeight + 1)

omit [Ed25519] in
theorem BlockData.hasBlock_eq {hash : Bytes32} :
    bd.hasBlock hash = false ↔ bd.readBlockIndex hash = none := by
  simp [BlockData.hasBlock]

theorem Storable.checked {now : UInt64} {block : Block} {parent : BlockIndexEntry}
    (h : Storable s now block parent) : block.Checked :=
  ⟨⟨now, h.check⟩, h.reveals, h.coinbase⟩

/-- Why `AcceptBlock` marks a block as invalid without storing it: its parent is, or its own content
failed. -/
def MarkedFor (s : ChainState) (now : UInt64) (block : Block) (parent : BlockIndexEntry) : Prop :=
  block.header.prevBlockHash ∈ s.invalidBlocks ∨
    BlockValidation.checkBlock block now = .ok () ∧
      BlockValidation.checkBlockReveals block = .ok () ∧
      (coinbaseOk block = false ∨ ∃ result reason,
        block.header.prevBlockHash = s.bestChain.blockHash ∧
        BlockValidation.checkBlockTransactionsWithUTXO block s.utxoSet
          (UInt32.ofNat (parent.nHeight + 1)) = .error (.invalid result reason))

/-- **`AcceptBlock`** leaves the state alone, marks the block, or stores it. -/
theorem acceptBlock_cases (faults : Bytes32 → Option ConnectFault) (s : ChainState) (now : UInt64)
    (block : Block) :
    ((s.acceptBlock faults now block).1 = s ∧
      ((s.acceptBlock faults now block).2 = .ret true → s.blockData.hasBlock block.getHash = true)) ∨
    (∃ parent, Considered s block parent ∧ MarkedFor s now block parent ∧
      s.acceptBlock faults now block = (s.mark [block.getHash], .ret false)) ∨
    (∃ parent, Storable s now block parent ∧
      s.acceptBlock faults now block = s.storeAndActivate faults block (parent.nHeight + 1)
        parent.nChainWork (block.header.prevBlockHash = s.bestChain.blockHash)) := by
  unfold ChainState.acceptBlock
  by_cases hinit : s.initialized = true
  swap
  · rw [if_pos (by simpa using hinit)]
    exact .inl ⟨rfl, nofun⟩
  rw [if_neg (by simp [hinit])]
  by_cases hhas : s.blockData.hasBlock block.getHash = true
  · rw [if_pos hhas]
    exact .inl ⟨rfl, fun _ => hhas⟩
  rw [if_neg hhas]
  by_cases hinv : block.getHash ∈ s.invalidBlocks
  · rw [if_pos hinv]
    exact .inl ⟨rfl, nofun⟩
  rw [if_neg hinv]
  cases hparent : s.blockData.readBlockIndex block.header.prevBlockHash with
  | none => exact .inl ⟨rfl, nofun⟩
  | some parent =>
    unfold checkAndStore
    dsimp only
    by_cases hheight : block.header.height.toNat = parent.nHeight + 1
    swap
    · rw [if_pos hheight]
      exact .inl ⟨rfl, nofun⟩
    rw [if_neg (not_not.mpr hheight)]
    by_cases hwork : checkProofOfWork block.getHash block.header.bits = true
    swap
    · rw [if_pos (by simpa using hwork)]
      exact .inl ⟨rfl, nofun⟩
    rw [if_neg (by simp [hwork])]
    have hcons : Considered s block parent :=
      ⟨hinit, by simpa using hhas, hinv, hparent, hheight, hwork⟩
    by_cases hbad : block.header.prevBlockHash ∈ s.invalidBlocks
    · rw [if_pos hbad]
      exact .inr (.inl ⟨parent, hcons, .inl hbad, rfl⟩)
    rw [if_neg hbad]
    by_cases hcheck : (lastCheckpointHeight s.blockData).any (parent.nHeight + 1 < ·) = true
    · rw [if_pos hcheck]
      exact .inl ⟨rfl, nofun⟩
    rw [if_neg hcheck]
    have hpoint : ∀ height, lastCheckpointHeight s.blockData = some height →
        height ≤ parent.nHeight + 1 := by
      intro height heq
      rw [heq] at hcheck
      simpa using hcheck
    cases hblock : BlockValidation.checkBlock block now with
    | error e => cases e <;> exact .inl ⟨rfl, nofun⟩
    | ok _ =>
      cases hreveals : BlockValidation.checkBlockReveals block with
      | error e => cases e <;> exact .inl ⟨rfl, nofun⟩
      | ok _ =>
        by_cases hcb : coinbaseOk block = true
        swap
        · rw [if_pos (by simpa using hcb)]
          exact .inr (.inl ⟨parent, hcons, .inr ⟨hblock, hreveals, .inl (by simpa using hcb)⟩,
            rfl⟩)
        rw [if_neg (by simp [hcb])]
        by_cases htip : block.header.prevBlockHash = s.bestChain.blockHash
        · simp only [htip, decide_true, ↓reduceIte]
          cases hverdict : BlockValidation.checkBlockTransactionsWithUTXO block s.utxoSet
              (UInt32.ofNat (parent.nHeight + 1)) with
          | error e =>
            cases e with
            | invalid result reason =>
              exact .inr (.inl ⟨parent, hcons, .inr ⟨hblock, hreveals, .inr ⟨result, reason,
                htip, hverdict⟩⟩, rfl⟩)
            | threw what => exact .inl ⟨rfl, nofun⟩
          | ok _ =>
            exact .inr (.inr ⟨parent, ⟨hcons, hbad, hpoint, hblock, hreveals, hcb,
              fun _ => hverdict⟩, rfl⟩)
        · simp only [htip, decide_false, Bool.false_eq_true, ↓reduceIte]
          exact .inr (.inr ⟨parent, ⟨hcons, hbad, hpoint, hblock, hreveals, hcb,
            fun h => absurd h htip⟩, rfl⟩)

end Activate

/-! ## 4. Storing a block -/

variable {block : Block} {parent : BlockIndexEntry}

/-- The state after a new block was stored on top of the entry `parent`. -/
structure StoredFrom (s : ChainState) (block : Block) (parent : BlockIndexEntry) (s' : ChainState) :
    Prop where
  keeps : Keeps s.blockData s'.blockData
  entry : ∃ pos, s'.blockData.readBlockIndex block.getHash = some (indexEntry block
    (parent.nHeight + 1) (addChainWork parent.nChainWork block.header.bits) pos) ∧
      RecordAt s'.blockData.db pos block
  other : ∀ hash, hash ≠ block.getHash →
    s'.blockData.readBlockIndex hash = s.blockData.readBlockIndex hash
  tip : s'.bestChain = s.bestChain
  table : s'.chainByHeight = s.chainByHeight
  invalid : s'.invalidBlocks = s.invalidBlocks
  utxoSet : s'.utxoSet = s.utxoSet
  txIndex : ∀ txid, txid ∉ txids block →
    s'.blockData.readTxIndex txid = s.blockData.readTxIndex txid
  txNew : ∀ txid ∈ txids block, s.blockData.readTxIndex txid = none →
    s'.blockData.readTxIndex txid = some block.getHash

theorem Inv.setBlockData (h : Inv s p) (hstore : StoreInv bd) (hkeeps : Keeps s.blockData bd)
    (hundo : bd.db.undo = s.blockData.db.undo) :
    Inv (s.setBlockData bd) p ∧ Keeps s.blockData (s.setBlockData bd).blockData := by
  have hkeeps' : Keeps s.blockData (s.setBlockData bd).blockData :=
    hkeeps.trans (keeps_of_db_eq rfl)
  exact ⟨{ h with
    path := h.path.mono hkeeps'
    store := hstore.congr rfl rfl
    undos := h.undos.mono hkeeps' hundo
    hasUndo := fun b q hsuf hq => by
      have hsome := h.hasUndo b q hsuf hq
      rw [← hundo] at hsome
      exact hsome
    exact := fun hdistinct => h.exact (DistinctTxids.of_keeps hkeeps' hdistinct) }, hkeeps'⟩

/-- **Storing a block** adds its entry and leaves the chain alone. -/
theorem Inv.storeBlock (h : Inv s p) (hnew : s.blockData.hasBlock block.getHash = false)
    (hchecked : block.Checked)
    (hparent : s.blockData.readBlockIndex block.header.prevBlockHash = some parent) (extendsTip : Bool) :
    Inv (s.storeBlock block (parent.nHeight + 1)
        (addChainWork parent.nChainWork block.header.bits) extendsTip) p ∧
      StoredFrom s block parent (s.storeBlock block (parent.nHeight + 1)
        (addChainWork parent.nChainWork block.header.bits) extendsTip) := by
  obtain ⟨hstore₁, hkeeps₁, hundo₁, pos, hrec, hindex₁⟩ :=
    h.store.writeBlock hnew hchecked hparent
  set work := addChainWork parent.nChainWork block.header.bits with hwork
  set kept := if extendsTip then [] else keepTxIndex s.blockData block with hkept
  set bd₁ := s.blockData.writeBlock block (parent.nHeight + 1) work with hbd₁
  set bd₂ := kept.foldl (fun bd item => bd.writeTxIndex item.1 item.2) bd₁ with hbd₂
  have hrun : s.storeBlock block (parent.nHeight + 1) work extendsTip = s.setBlockData bd₂ := rfl
  have htx₂ : Appended bd₁ bd₂ := appended_foldl_writeTxIndex
    (fun item : Bytes32 × Bytes32 => item.1) (fun item => item.2) kept hstore₁.files
  have hindex : bd₂.db.index = s.blockData.db.index.insert block.getHash
      (indexEntry block (parent.nHeight + 1) work pos) := htx₂.index.trans hindex₁
  have hstore₂ : StoreInv bd₂ := hstore₁.appended htx₂
  obtain ⟨hinv, hkeeps⟩ := h.setBlockData hstore₂ (hkeeps₁.trans (htx₂.keeps hstore₁))
    (htx₂.undo.trans hundo₁)
  rw [hrun]
  refine ⟨hinv, hkeeps, ⟨pos, ?_, htx₂.records _ _ hrec⟩, fun hash hne => ?_, rfl, rfl, rfl, rfl,
    fun txid hout => ?_, fun txid hin hnone => ?_⟩
  · show bd₂.db.index.lookup block.getHash = _
    rw [hindex, AList.lookup_insert]
  · show bd₂.db.index.lookup hash = _
    rw [hindex, AList.lookup_insert_ne hne]
    rfl
  · rw [← hrun, readTxIndex_storeBlock, if_neg hout]
  · rw [← hrun, readTxIndex_storeBlock, if_pos hin, hnone]
    simp

/-- A stored block is read back as it was written, if it is read at all. -/
theorem StoredFrom.loadBlock (h : StoredFrom s block parent s') :
    s'.loadBlock block.getHash = (Block.deserialize block.serialize).toOption.map Prod.fst := by
  obtain ⟨pos, hentry, hrec⟩ := h.entry
  rw [ChainState.loadBlock, hentry]
  exact hrec.readBlock_eq

theorem StoredFrom.eq_of_loadBlock {b : Block} (h : StoredFrom s block parent s')
    (hload : s'.loadBlock block.getHash = some b) : b = block := by
  obtain ⟨pos, hentry, hrec⟩ := h.entry
  rw [ChainState.loadBlock, hentry] at hload
  exact hrec.eq_of_readBlock hload

theorem StoredFrom.isPath {q : Block} (h : StoredFrom s block parent s')
    (hstore : StoreInv s'.blockData) (hp : IsPath s.blockData (q :: p))
    (hprev : block.header.prevBlockHash = q.getHash) (hne : block ≠ buildGenesisBlock)
    (hread : (Block.deserialize block.serialize).toOption.isSome = true) :
    IsPath s'.blockData (block :: q :: p) := by
  obtain ⟨pos, hentry, hrec⟩ := h.entry
  obtain ⟨r, hr⟩ := Option.isSome_iff_exists.mp hread
  have hblock : s'.blockData.readBlock pos = some r.1 := by
    rw [hrec.readBlock_eq, hr]
    rfl
  obtain rfl := hrec.eq_of_readBlock hblock
  exact hstore.path_cons (hp.mono h.keeps) hentry hblock hprev hne

theorem Follows.parent_height (h : Follows s p)
    (hparent : s.blockData.readBlockIndex s.bestChain.blockHash = some parent) :
    parent.nHeight + 1 = p.length ∧ parent.nChainWork = s.bestChain.chainWork := by
  obtain ⟨b, p, rfl⟩ := h.cons
  obtain ⟨pos, hentry⟩ := readBlockIndex_path h.path
  rw [h.tip_hash, hentry] at hparent
  cases hparent
  refine ⟨rfl, ?_⟩
  rw [h.tip]
  rfl

/-! ## 5. Accepting a block -/

section Accepting

variable [Ed25519]

/-- How `AcceptBlock` goes on with a block that it stores: the block stays on its branch, becomes the
tip, or its branch is refused. -/
inductive AfterStore (s : ChainState) (p : List Block) (block : Block) (parent : BlockIndexEntry)
    (s' : ChainState) : Prop
  | side (hstored : StoredFrom s block parent s') (hinv : Inv s' p)
      (hwork : compareWork (addChainWork parent.nChainWork block.header.bits)
        s.bestChain.chainWork ≠ .gt)
  | tip {s₁ : ChainState} {newBranch : List Bytes32} {pre q up : List Block}
      (hstored : StoredFrom s block parent s₁) (hinv₁ : Inv s₁ p)
      (hwork : compareWork (addChainWork parent.nChainWork block.header.bits)
        s.bestChain.chainWork = .gt)
      (hattempt : Attempt s₁ p block.getHash newBranch pre q)
      (hup : up.map Block.getHash = newBranch.reverse) (hinv : Inv s' (up.reverse ++ q))
      (hstep : StepFrom s₁ s')
  | refused {s₁ : ChainState} {p' : List Block} {marked : List Bytes32}
      (hstored : StoredFrom s block parent s₁) (hinv₁ : Inv s₁ p)
      (hwork : compareWork (addChainWork parent.nChainWork block.header.bits)
        s.bestChain.chainWork = .gt)
      (hsuffix : p' <:+ p) (hinv : Inv s' p') (hstep : StepFrom (s₁.mark marked) s')
      (hback : DistinctTxids s₁.blockData → p' = p ∧ SameQueues s₁ s')
      (hfailed : Failed s₁ p block.getHash marked)

/-- **Storing a block and activating its branch.** -/
theorem Inv.storeAndActivate (h : Inv s p) {now : UInt64} (hst : Storable s now block parent) :
    AfterStore s p block parent (s.storeAndActivate noFaults block (parent.nHeight + 1)
      parent.nChainWork (block.header.prevBlockHash = s.bestChain.blockHash)).1 := by
  obtain ⟨hinv₁, hstored⟩ := h.storeBlock hst.new hst.checked hst.onParent
    (block.header.prevBlockHash = s.bestChain.blockHash)
  unfold ChainState.storeAndActivate
  dsimp only
  rw [hstored.tip]
  by_cases hwork : compareWork (addChainWork parent.nChainWork block.header.bits)
      s.bestChain.chainWork = .gt
  swap
  · rw [if_pos hwork]
    exact .side hstored hinv₁ hwork
  rw [if_neg (not_not.mpr hwork)]
  rcases hinv₁.activateBestChain block.getHash
    (block.header.prevBlockHash = s.bestChain.blockHash) with
    ⟨s', newBranch, pre, q, up, hrun, hatt, hup, hinv⟩ |
    ⟨s', marked, p', hrun, hsuf, hinv, hstep, hback, hfailed⟩
  · rw [hrun]
    obtain ⟨hinv, hstep⟩ := hinv fun htip b hload => by
      have htip := of_decide_eq_true htip
      obtain rfl := hstored.eq_of_loadBlock hload
      have hverdict := hst.verdict htip
      have hparent := hst.onParent
      rw [htip] at hparent
      rw [(h.toFollows.parent_height hparent).1] at hverdict
      exact h.acceptedOn hst.checked hverdict
    exact .tip hstored hinv₁ hwork hatt hup hinv hstep
  · rw [hrun]
    exact .refused hstored hinv₁ hwork hsuf hinv hstep hback hfailed

theorem AfterStore.stored (h : AfterStore s p block parent s') :
    ∃ s₁, StoredFrom s block parent s₁ ∧ Inv s₁ p ∧ Keeps s₁.blockData s'.blockData := by
  cases h with
  | side hstored hinv hwork => exact ⟨s', hstored, hinv, keeps_of_db_eq rfl⟩
  | tip hstored hinv₁ _ _ _ _ hstep => exact ⟨_, hstored, hinv₁, hstep.keeps⟩
  | refused hstored hinv₁ _ _ _ hstep => exact ⟨_, hstored, hinv₁, hstep.keeps⟩

theorem AfterStore.inv (h : AfterStore s p block parent s') :
    ∃ p', Inv s' p' ∧ Keeps s.blockData s'.blockData := by
  cases h with
  | side hstored hinv _ => exact ⟨p, hinv, hstored.keeps⟩
  | tip hstored _ _ _ _ hinv hstep => exact ⟨_, hinv, hstored.keeps.trans hstep.keeps⟩
  | refused hstored _ _ _ hinv hstep => exact ⟨_, hinv, hstored.keeps.trans hstep.keeps⟩

/-- **`AcceptBlock` keeps the invariant**, and every stored block. -/
theorem Inv.acceptBlock (h : Inv s p) (now : UInt64) (block : Block) :
    ∃ p', Inv (s.acceptBlock noFaults now block).1 p' ∧
      Keeps s.blockData (s.acceptBlock noFaults now block).1.blockData := by
  rcases acceptBlock_cases noFaults s now block with ⟨hsame, -⟩ | ⟨parent, -, -, hrun⟩ | ⟨parent, hst, hrun⟩
  · rw [hsame]
    exact ⟨p, h, keeps_of_db_eq rfl⟩
  · rw [hrun]
    exact ⟨p, h.mark _, keeps_of_db_eq rfl⟩
  · rw [hrun]
    exact (h.storeAndActivate hst).inv

end Accepting

end Moneu
