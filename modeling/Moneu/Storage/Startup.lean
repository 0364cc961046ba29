/-
# What a start leaves on record

A node that is killed leaves one of the disk contents it went through (`LeftOnDisk`).  Two things
can be said of the records of every such disk (`Records`), and with them every exit of
`Initialize` can be followed.  All but one end with the UTXO set on record at the tip of the chain.
The one that does not is the early exit of `ReplayBlocksLocked` for a marker whose old tip IS the
stored tip: it commits under the best block the UTXO set was opened with, and next to a marker
there is none.  A kill in the middle of the flush at shutdown leaves exactly such a marker.
-/
import Moneu.Storage.Steps

namespace Moneu

open NetParams UTXOSet

/-! ## 1. Sessions and kills -/

/-- What a running node is asked to do. -/
inductive NodeOp where
  | accept (now : UInt64) (block : Block)
  | flush

namespace ChainState

/-- One request to a running node, on storage that does not fail. -/
def serve [Ed25519] (s : ChainState) : NodeOp → ChainState
  | .accept now block => (s.acceptBlock noFaults now block).1
  | .flush => s.flush

/-- A whole session on the disk `d`: start, requests, shutdown.  When the start throws, only the
destructor of the UTXO set still runs. -/
def session [Ed25519] (d : Disk) (ops : List NodeOp) : ChainState :=
  match (openDisk d).initializeState with
  | (s, .ret true) => (ops.foldl serve s).close
  | (s, _) => s.flush

end ChainState

/-- The disks a node may leave behind: the trail of a session has the contents after every write,
and the process may be killed after any of them. -/
inductive LeftOnDisk [Ed25519] : Disk → Prop
  | unused : LeftOnDisk Disk.empty
  | killed {d d' : Disk} (ops : List NodeOp) : LeftOnDisk d → d' ∈ (ChainState.session d ops).trail →
      LeftOnDisk d'

/-! ## 2. The records of a disk -/

variable {d : Disk}

/-- A marker stands in place of the best block record; while there is neither, the chain has not
left genesis. -/
structure Records (d : Disk) : Prop where
  marker : d.coins.heads ≠ none → d.coins.best = none
  unset : d.coins.best = none → d.coins.heads = none →
    ∀ tip, d.chain.best = some tip → tip.blockHash = getGenesisHash

theorem Records.congr {d' : Disk} (h : Records d) (hbest : d'.coins.best = d.coins.best)
    (hheads : d'.coins.heads = d.coins.heads) (hchain : d'.chain.best = d.chain.best) :
    Records d' where
  marker := by
    rw [hbest, hheads]
    exact h.marker
  unset := by
    rw [hbest, hheads, hchain]
    exact h.unset

theorem Records.of_best {tip : Bytes32} (hbest : d.coins.best = some tip)
    (hheads : d.coins.heads = none) : Records d where
  marker h := absurd hheads h
  unset h := by
    rw [hbest] at h
    cases h

theorem Records.of_marker (hbest : d.coins.best = none) (hheads : d.coins.heads ≠ none) :
    Records d where
  marker _ := hbest
  unset _ h := absurd h hheads

namespace ChainState

/-- The disk and everything that was on it since the start have such records. -/
structure Recorded (s : ChainState) : Prop where
  disk : Records s.disk
  trail : ∀ d ∈ s.trail, Records d
  drained : s.utxoSet.trail = []

namespace Recorded

variable {s : ChainState}

variable {u : UTXOSet}

theorem setUTXO (h : Recorded s) (hdb : Records { s.disk with coins := u.db })
    (htrail : ∀ coins ∈ u.trail, Records { s.disk with coins }) : Recorded (s.setUTXO u) where
  disk := hdb
  trail d hd := by
    rcases List.mem_append.mp hd with hd | hd
    · obtain ⟨coins, hcoins, rfl⟩ := List.mem_map.mp hd
      exact htrail coins hcoins
    · exact h.trail d hd
  drained := rfl

theorem touched (h : Recorded s) (hu : Touched s.utxoSet u) :
    Recorded (s.setUTXO u) := by
  refine h.setUTXO (h.disk.congr hu.db.best hu.db.heads rfl) fun coins hcoins => ?_
  rcases hu.trail coins hcoins with hold | hnew
  · rw [h.drained] at hold
    cases hold
  · exact h.disk.congr hnew.best hnew.heads rfl

theorem flushed (h : Recorded s) {u' : UTXOSet} {tip : Bytes32} (hu : Touched s.utxoSet u)
    (hflush : Flushed { u with bestBlock := tip } tip u') : Recorded (s.setUTXO u') := by
  refine h.setUTXO (Records.of_best hflush.best hflush.heads) fun coins hcoins => ?_
  rcases hflush.trail coins hcoins with hold | hmarked | rfl
  · rcases hu.trail coins hold with hold | hnew
    · rw [h.drained] at hold
      cases hold
    · exact h.disk.congr hnew.best hnew.heads rfl
  · exact Records.of_marker hmarked.best (by rw [hmarked.heads]; simp [marked])
  · exact Records.of_best hflush.best hflush.heads

theorem setBlockData (h : Recorded s) (bd : BlockData) : Recorded (s.setBlockData bd) where
  disk := h.disk.congr rfl rfl rfl
  trail d hd := by
    rcases List.mem_append.mp hd with hd | hd
    · obtain ⟨blocks, -, rfl⟩ := List.mem_map.mp hd
      exact h.disk.congr rfl rfl rfl
    · exact h.trail d hd
  drained := h.drained

theorem writeChain (h : Recorded s) {chainDB : ChainDB}
    (hdisk : Records { s.disk with chain := chainDB }) : Recorded (s.writeChain chainDB) where
  disk := hdisk
  trail d hd := by
    rcases List.mem_cons.mp hd with rfl | hd
    · exact hdisk
    · exact h.trail d hd
  drained := h.drained

end Recorded

/-- A node that has started: a best block is on record, no marker is. -/
structure Running (s : ChainState) : Prop extends Recorded s where
  best : s.utxoSet.db.best ≠ none
  heads : s.utxoSet.db.heads = none

namespace Running

variable {s : ChainState}

variable {u : UTXOSet}

/-- While the node runs, any chain record goes with the UTXO records. -/
theorem records (h : Running s) (chain : ChainDB) (blocks : BlockDB) :
    Records { chain, blocks, coins := s.utxoSet.db } := by
  obtain ⟨tip, htip⟩ := Option.ne_none_iff_exists'.mp h.best
  exact Records.of_best htip h.heads

theorem touched (h : Running s) (hu : Touched s.utxoSet u) :
    Running (s.setUTXO u) where
  toRecorded := h.toRecorded.touched hu
  best := hu.db.best ▸ h.best
  heads := hu.db.heads.trans h.heads

theorem flushed (h : Recorded s) {u' : UTXOSet} {tip : Bytes32} (hu : Touched s.utxoSet u)
    (hflush : Flushed { u with bestBlock := tip } tip u') : Running (s.setUTXO u') where
  toRecorded := h.flushed hu hflush
  best := by
    change u'.db.best ≠ none
    rw [hflush.best]
    simp
  heads := hflush.heads

theorem setBlockData (h : Running s) (bd : BlockData) : Running (s.setBlockData bd) where
  toRecorded := h.toRecorded.setBlockData bd
  best := h.best
  heads := h.heads

theorem writeChain (h : Running s) (chainDB : ChainDB) : Running (s.writeChain chainDB) where
  toRecorded := h.toRecorded.writeChain (h.records chainDB s.disk.blocks)
  best := h.best
  heads := h.heads

theorem flush (h : Running s) (tip : Bytes32) :
    Running (s.setUTXO ((s.utxoSet.setBestBlock tip).flush none).1) :=
  flushed h.toRecorded (Within.refl _ _ s.utxoSet)
    (flushCache_none (s.utxoSet.setBestBlock tip) tip).2

theorem congr (h : Running s) {s' : ChainState} (hdisk : s'.disk = s.disk) (htrail : s'.trail = s.trail)
    (hdrained : s'.utxoSet.trail = []) : Running s' where
  disk := hdisk ▸ h.disk
  trail := htrail ▸ h.trail
  drained := hdrained
  best := by
    have hcoins : s'.utxoSet.db = s.utxoSet.db := congrArg Disk.coins hdisk
    rw [hcoins]
    exact h.best
  heads := by
    have hcoins : s'.utxoSet.db = s.utxoSet.db := congrArg Disk.coins hdisk
    rw [hcoins]
    exact h.heads

theorem committed (h : Running s) (block : Block) (chainWork : Bytes32) :
    Running (s.committed block chainWork) := by
  have hmoved : Running (s.moveTip block (s.bestChain.height + 1) chainWork) :=
    h.congr rfl rfl h.drained
  have hflushed := fun chain => (hmoved.writeChain chain).flush block.getHash
  unfold ChainState.committed
  dsimp only
  split
  · exact ((hflushed _).writeChain _).congr rfl rfl rfl
  · exact (hflushed _).congr rfl rfl rfl

theorem connected (h : Running s) (block : Block) (undo : BlockUndo) (hu : Touched s.utxoSet u) :
    Running (s.connected block u undo) :=
  ((h.touched hu).setBlockData _).committed block _

theorem connectBlock (h : Running s) (block : Block) : Running (s.connectBlock block none).1 := by
  have hu := touched_applyBlockTwoPhase s.utxoSet block (UInt32.ofNat (s.bestChain.height + 1))
  rw [connectBlock_none]
  split
  · exact h
  · split <;> rename_i happly <;> rw [happly] at hu
    · exact h.touched hu
    · exact h.touched hu
    · exact h.connected block _ hu

theorem commitBack (h : Running s) (block : Block) (hashPrev : Bytes32) (parent : BlockIndexEntry) :
    Running (s.commitBack block hashPrev parent) := by
  have hmoved : Running (s.moveBack hashPrev parent) := h.congr rfl rfl h.drained
  have hflushed := fun chain => (hmoved.writeChain chain).flush hashPrev
  exact (hflushed _).congr rfl rfl rfl

theorem disconnectTip (h : Running s) : Running s.disconnectTip.1 := by
  unfold ChainState.disconnectTip
  split
  · exact h
  · dsimp only
    split
    · exact h
    · rename_i entry _
      split
      · exact h
      · rename_i block _
        split
        · exact h
        · rename_i undo _
          have hu := touched_undoBlockTwoPhase s.utxoSet block undo
          split <;> rename_i hundo <;> rw [hundo] at hu
          · exact h.touched hu
          · split
            · exact h.touched hu
            · exact (h.touched hu).commitBack block entry.hashPrev _

/-- **Every step of `AcceptBlock` keeps the node running.** -/
theorem stepClosed : StepClosed Running where
  disconnect _ h := h.disconnectTip
  connect _ _ block h _ := h.connectBlock block
  invalid _ _ h := h.congr rfl rfl h.drained
  queues _ _ _ _ h := h.congr rfl rfl h.drained
  store _ _ _ _ _ h := h.setBlockData _

theorem serve [Ed25519] (h : Running s) (op : NodeOp) : Running (s.serve op) := by
  cases op with
  | accept now block => exact stepClosed.acceptBlock s now block h
  | flush => exact h.flush s.utxoSet.bestBlock

end Running

/-! ## 3. Replay -/

variable {s : ChainState}

/-- The UTXO set is on record at the tip of the chain, and no marker is left. -/
def OnRecord (s : ChainState) : Prop :=
  s.utxoSet.getBestBlock = s.bestChain.blockHash ∧
    s.utxoSet.db.best = some s.bestChain.blockHash ∧ s.utxoSet.getHeadBlocks = none

/-- One of the replay steps: the tip stays, the UTXO set is touched. -/
def ReplayStep (s s' : ChainState) : Prop := s' = s ∨ ∃ u, Touched s.utxoSet u ∧ s' = s.setUTXO u

theorem replayStep_rollforwardBlock (s : ChainState) (hash : Bytes32) (height : Nat) :
    ReplayStep s (s.rollforwardBlock hash height).1 := by
  unfold rollforwardBlock
  split
  · exact .inl rfl
  · rename_i block _
    split
    · exact .inl rfl
    · exact .inr ⟨_, touched_replayTxs _ block.transactions 0 s.utxoSet, rfl⟩

theorem replayStep_rollbackBlock (s : ChainState) (hash : Bytes32) (height : Nat) :
    ReplayStep s (s.rollbackBlock hash height).1 := by
  unfold rollbackBlock
  split
  · exact .inl rfl
  · split
    · exact .inl rfl
    · rename_i block _
      split
      · exact .inl rfl
      · rename_i undo _
        exact .inr ⟨_, touched_undoBlockTwoPhase s.utxoSet block undo, rfl⟩

theorem forEachBlock_recorded {step : ChainState → Bytes32 → Nat → ChainState × Bool}
    (hstep : ∀ s hash height, ReplayStep s (step s hash height).1) :
    ∀ (hashes : List Bytes32) (s : ChainState), Recorded s →
      Recorded (forEachBlock step s hashes).1 ∧
        (forEachBlock step s hashes).1.bestChain = s.bestChain
  | [], s, h => ⟨h, rfl⟩
  | hash :: rest, s, h => by
    unfold forEachBlock
    split
    · exact ⟨h, rfl⟩
    · rename_i entry _
      have hone : Recorded (step s hash entry.nHeight).1 ∧
          (step s hash entry.nHeight).1.bestChain = s.bestChain := by
        rcases hstep s hash entry.nHeight with heq | ⟨u, hu, heq⟩ <;> rw [heq]
        · exact ⟨h, rfl⟩
        · exact ⟨h.touched hu, rfl⟩
      split <;> rename_i s' heq <;> rw [heq] at hone
      · exact hone
      · obtain ⟨hrest, htip⟩ := forEachBlock_recorded hstep rest s' hone.1
        exact ⟨hrest, htip.trans hone.2⟩

/-- **Roll back, roll forward, commit**: when it succeeds, the set is on record at the tip. -/
theorem replayBetween_recorded (h : Recorded s) (back forward : List Bytes32) :
    Recorded (s.replayBetween back forward).1 ∧
      ((s.replayBetween back forward).2 = true →
        Running (s.replayBetween back forward).1 ∧ OnRecord (s.replayBetween back forward).1 ∧
          (s.replayBetween back forward).1.bestChain = s.bestChain) := by
  obtain ⟨hback, htip⟩ := forEachBlock_recorded replayStep_rollbackBlock back s h
  unfold replayBetween
  split <;> rename_i s₁ heq <;> rw [heq] at hback htip
  · exact ⟨hback, fun hfalse => nomatch hfalse⟩
  · obtain ⟨hforward, htip'⟩ := forEachBlock_recorded replayStep_rollforwardBlock forward s₁ hback
    split <;> rename_i s₂ heq' <;> rw [heq'] at hforward htip'
    · exact ⟨hforward, fun hfalse => nomatch hfalse⟩
    · have hflush := (flushCache_none (s₂.utxoSet.setBestBlock s₂.bestChain.blockHash)
        s₂.bestChain.blockHash).2
      have hrun := Running.flushed hforward (Within.refl _ _ s₂.utxoSet) hflush
      exact ⟨hrun.toRecorded, fun _ => ⟨hrun, ⟨hflush.bestBlock, hflush.best, hflush.heads⟩,
        htip'.trans htip⟩⟩

/-- The marker of an interrupted commit names the stored tip as the OLD tip. -/
def SelfMarked (d : Disk) : Prop :=
  ∃ newTip tip, d.coins.heads = some (newTip, tip.blockHash) ∧ d.chain.best = some tip ∧
    tip.blockHash ≠ FixedBytes.zero

/-- A state in which `Initialize` has found or made a tip, and has not yet looked at the UTXO
set. -/
structure Loaded (s : ChainState) : Prop extends Recorded s where
  tip : s.chainDB.best = some s.bestChain
  opened : s.utxoSet.bestBlock = s.utxoSet.db.best.getD FixedBytes.zero

theorem Running.not_selfMarked (h : Running s) : ¬ SelfMarked s.disk := by
  rintro ⟨newTip, tip, hheads, -⟩
  have hnone : s.disk.coins.heads = none := h.heads
  rw [hnone] at hheads
  cases hheads

namespace Loaded

variable {s : ChainState}

theorem bestBlock_of_marker (h : Loaded s) (hheads : s.utxoSet.db.heads ≠ none) :
    s.utxoSet.bestBlock = FixedBytes.zero := by
  have hbest : s.utxoSet.db.best = none := h.disk.marker hheads
  rw [h.opened, hbest, Option.getD_none]

/-- A set that shows the tip as its best block has it on record: the tip is not all zeros while
nothing is on record. -/
theorem onRecord (h : Loaded s) (hheads : s.utxoSet.db.heads = none)
    (hbest : s.utxoSet.bestBlock = s.bestChain.blockHash) : OnRecord s := by
  refine ⟨hbest, ?_, hheads⟩
  cases hdb : s.utxoSet.db.best with
  | some tip => rw [← hbest, h.opened, hdb, Option.getD_some]
  | none =>
    have hgenesis := h.disk.unset hdb hheads s.bestChain h.tip
    rw [h.opened, hdb, Option.getD_none, hgenesis] at hbest
    exact absurd hbest.symm getGenesisHash_ne_zero

/-- **Replay, exit by exit.**  On success the set is on record at the tip, unless the marker named
the tip as the old one. -/
theorem replayBlocks (h : Loaded s)
    (hcall : s.utxoSet.db.heads ≠ none ∨ s.utxoSet.bestBlock ≠ s.bestChain.blockHash) :
    Recorded s.replayBlocks.1 ∧
      (s.replayBlocks.2 = true → Running s.replayBlocks.1 ∧
        s.replayBlocks.1.bestChain = s.bestChain ∧
        (OnRecord s.replayBlocks.1 ↔ ¬ SelfMarked s.disk)) := by
  have hbetween := fun back forward => replayBetween_recorded h.toRecorded back forward
  have hmarked : SelfMarked s.disk ↔ s.replaySource = s.bestChain.blockHash ∧
      s.replaySource ≠ FixedBytes.zero ∧ s.utxoSet.db.heads ≠ none := by
    have hsource : ∀ newTip old, s.utxoSet.db.heads = some (newTip, old) → s.replaySource = old :=
      fun newTip old hheads => by simp [replaySource, getHeadBlocks, hheads]
    constructor
    · rintro ⟨newTip, tip, hheads, hbest, hzero⟩
      have htip : tip = s.bestChain := Option.some_injective _ (hbest.symm.trans h.tip)
      rw [hsource newTip _ hheads, htip]
      exact ⟨rfl, htip ▸ hzero, fun hnone => by rw [disk, hnone] at hheads; cases hheads⟩
    · rintro ⟨htip, hzero, hheads⟩
      obtain ⟨⟨newTip, old⟩, hsome⟩ := Option.ne_none_iff_exists'.mp hheads
      have hold := hsource newTip old hsome
      refine ⟨newTip, s.bestChain, ?_, h.tip, htip ▸ hzero⟩
      rw [← htip, hold]
      exact hsome
  unfold ChainState.replayBlocks
  dsimp only
  split
  · -- no starting point: everything is replayed
    rename_i hzero
    have hnot : ¬ SelfMarked s.disk := fun hm =>
      (hmarked.mp hm).2.1 ((FixedBytes.isZero_iff _).mp hzero)
    split
    · exact ⟨h.toRecorded, fun hfalse => nomatch hfalse⟩
    · refine ⟨(hbetween _ _).1, fun htrue => ?_⟩
      obtain ⟨hrun, hon, htip⟩ := (hbetween _ _).2 htrue
      exact ⟨hrun, htip, iff_of_true hon hnot⟩
  · rename_i hzero
    have hzero' : s.replaySource ≠ FixedBytes.zero := fun heq =>
      hzero ((FixedBytes.isZero_iff _).mpr heq)
    split
    · rename_i hsame
      split
      · -- the early exit: the flush commits under the best block the set was opened with
        rename_i hheads
        have hheads : s.utxoSet.db.heads ≠ none := Option.isSome_iff_ne_none.mp hheads
        have hflush := (flushCache_none s.utxoSet s.utxoSet.bestBlock).2
        have hrun := Running.flushed h.toRecorded (Within.refl _ _ s.utxoSet) hflush
        refine ⟨hrun.toRecorded, fun _ => ⟨hrun, rfl, iff_of_false ?_ ?_⟩⟩
        · rintro ⟨hbest, -⟩
          have hbest : s.utxoSet.bestBlock = s.bestChain.blockHash := hflush.bestBlock.symm.trans hbest
          rw [h.bestBlock_of_marker hheads, ← hsame] at hbest
          exact hzero' hbest.symm
        · exact not_not_intro (hmarked.mpr ⟨hsame, hzero', hheads⟩)
      · rename_i hheads
        have hheads : s.utxoSet.db.heads = none := by
          simpa [getHeadBlocks] using hheads
        rw [replaySource, getHeadBlocks, hheads] at hsame
        rcases hcall with hcall | hcall
        · exact absurd hheads hcall
        · exact absurd hsame hcall
    · rename_i hdiff
      have hnot : ¬ SelfMarked s.disk := fun hm => hdiff (hmarked.mp hm).1
      split
      · exact ⟨h.toRecorded, fun hfalse => nomatch hfalse⟩
      · split
        · refine ⟨(hbetween _ _).1, fun htrue => ?_⟩
          obtain ⟨hrun, hon, htip⟩ := (hbetween _ _).2 htrue
          exact ⟨hrun, htip, iff_of_true hon hnot⟩
        · exact ⟨h.toRecorded, fun hfalse => nomatch hfalse⟩

end Loaded

/-! ## 4. `Initialize` -/

theorem Recorded.openDisk (h : Records d) : Recorded (openDisk d) where
  disk := h
  trail _ hd := List.mem_singleton.mp hd ▸ h
  drained := rfl

theorem commitGenesis_loaded (h : Recorded s) :
    Running s.commitGenesis ∧ Loaded s.commitGenesis := by
  unfold commitGenesis
  generalize s.blockData.writeBlock buildGenesisBlock 0 genesisTip.chainWork = bd
  generalize htip : genesisTip = tip
  have hhash : tip.blockHash = getGenesisHash := by rw [← htip, genesisTip]
  have hstored := h.setBlockData bd
  -- the chain record may be written while there is no UTXO record: it is the genesis block's
  have hrecords : ∀ genesis, Records { s.disk with
      chain := { best := some tip, genesis }
      blocks := bd.db } := fun genesis =>
    { marker := h.disk.marker
      unset := fun _ _ tip' htip' => Option.some.inj htip' ▸ hhash }
  let s₁ : ChainState := { s.setBlockData bd with
    bestChain := tip, chainByHeight := [getGenesisHash] }
  have h₁ : Recorded s₁ := ⟨hstored.disk, hstored.trail, hstored.drained⟩
  have h₂ : Recorded (s₁.writeChain { s₁.chainDB with best := some tip }) :=
    h₁.writeChain (hrecords _)
  have h₃ := h₂.writeChain (hrecords (some getGenesisHash))
  have hflush := (flushCache_none (s.utxoSet.setBestBlock getGenesisHash) getGenesisHash).2
  have hrun := Running.flushed h₃ (Within.refl _ _ s.utxoSet) hflush
  have hopened : ((s.utxoSet.setBestBlock getGenesisHash).flushCache getGenesisHash none).1.bestBlock =
      ((s.utxoSet.setBestBlock getGenesisHash).flushCache getGenesisHash none).1.db.best.getD
        FixedBytes.zero := by
    rw [hflush.bestBlock, hflush.best, Option.getD_some]
  exact ⟨hrun, { hrun.toRecorded with tip := rfl, opened := hopened }⟩

theorem initializeGenesis_recorded (h : Recorded s) :
    Recorded s.initializeGenesis.1 ∧
      (s.initializeGenesis.2 = true → Running s.initializeGenesis.1 ∧ Loaded s.initializeGenesis.1) := by
  have hzero : (getGenesisHash.isZero : Bool) = false := by
    rw [Bool.eq_false_iff, Ne, FixedBytes.isZero_iff]
    exact getGenesisHash_ne_zero
  unfold initializeGenesis
  simp only [hzero, Bool.false_eq_true, if_false, buildGenesisBlock_getHash, ne_eq, not_true_eq_false]
  have hu := touched_applyGenesisTxs buildGenesisBlock.transactions 0 s.utxoSet
  split <;> rename_i u heq <;> rw [heq] at hu
  · exact ⟨h.touched hu, fun hfalse => nomatch hfalse⟩
  · obtain ⟨hrun, hloaded⟩ := commitGenesis_loaded (h.touched hu)
    exact ⟨hrun.toRecorded, fun _ => ⟨hrun, hloaded⟩⟩

/-- **Every start**: whatever happens, the records stay in order; a start that succeeds leaves a
running node, and the UTXO set is on record at the tip unless the disk was self-marked. -/
theorem initializeState_recorded (h : Records d) :
    Recorded (openDisk d).initializeState.1 ∧
      ((openDisk d).initializeState.2 = .ret true →
        Running (openDisk d).initializeState.1 ∧
          (OnRecord (openDisk d).initializeState.1 ↔ ¬ SelfMarked d)) := by
  have hopen := Recorded.openDisk h
  -- `LoadBestChain`, or the genesis block
  have hload : Recorded (openDisk d).loadOrCreate.1 ∧ ((openDisk d).loadOrCreate.2 = true →
      Loaded (openDisk d).loadOrCreate.1 ∧
        (SelfMarked (openDisk d).loadOrCreate.1.disk ↔ SelfMarked d)) := by
    unfold loadOrCreate
    split
    · rename_i tip htip
      exact ⟨⟨hopen.disk, hopen.trail, hopen.drained⟩,
        fun _ => ⟨{ hopen with tip := htip, opened := rfl }, Iff.rfl⟩⟩
    · rename_i hnone
      obtain ⟨hrec, hgen⟩ := initializeGenesis_recorded
        (s := { openDisk d with bestChain := ChainTip.null, chainByHeight := [] })
        ⟨hopen.disk, hopen.trail, hopen.drained⟩
      refine ⟨hrec, fun htrue => ⟨(hgen htrue).2, iff_of_false ?_ ?_⟩⟩
      · exact (hgen htrue).1.not_selfMarked
      · rintro ⟨newTip, tip, -, htip, -⟩
        rw [show d.chain.best = none from hnone] at htip
        cases htip
  unfold initializeState
  split
  · exact ⟨hopen, fun hfalse => nomatch hfalse⟩
  · split <;> rename_i s heq <;> rw [heq] at hload
    · exact ⟨hload.1, fun hfalse => nomatch hfalse⟩
    · obtain ⟨hloaded, hself⟩ := hload.2 rfl
      rw [← hself]
      unfold reconcile
      dsimp only
      split
      · rename_i hcall
        have hreplay := hloaded.replayBlocks (hcall.imp_left fun hsome =>
          Option.isSome_iff_ne_none.mp hsome)
        split <;> rename_i s' hrun <;> rw [hrun] at hreplay
        · exact ⟨hreplay.1, fun hfalse => nomatch hfalse⟩
        · obtain ⟨hrunning, htip, hon⟩ := hreplay.2 rfl
          exact ⟨⟨hreplay.1.disk, hreplay.1.trail, hreplay.1.drained⟩, fun _ =>
            ⟨hrunning.congr rfl rfl hreplay.1.drained, hon⟩⟩
      · rename_i hcall
        simp only [not_or, Bool.not_eq_true, Option.isSome_eq_false_iff, Option.isNone_iff_eq_none,
          not_not] at hcall
        have hon := hloaded.onRecord hcall.1 hcall.2
        have hrunning : Running s :=
          { hloaded.toRecorded with
            best := by rw [hon.2.1]; simp
            heads := hcall.1 }
        exact ⟨⟨hloaded.disk, hloaded.trail, hloaded.drained⟩, fun _ =>
          ⟨hrunning.congr rfl rfl hloaded.drained, iff_of_true hon hrunning.not_selfMarked⟩⟩

theorem session_recorded [Ed25519] (h : Records d) (ops : List NodeOp) :
    Recorded (session d ops) := by
  obtain ⟨hrec, hok⟩ := initializeState_recorded h
  unfold session
  split
  · rename_i s heq
    rw [heq] at hok
    have hrun : Running (ops.foldl serve s) :=
      List.foldlRecOn ops serve (hok rfl).1 fun s hs op _ => hs.serve op
    exact ((hrun.flush _).flush _).toRecorded
  · rename_i s r hr heq
    rw [heq] at hrec
    exact hrec.flushed (Within.refl _ _ s.utxoSet) (flushCache_none s.utxoSet s.utxoSet.bestBlock).2

end ChainState

open ChainState

/-- **Every disk a node leaves behind has its records in order.** -/
theorem LeftOnDisk.records [Ed25519] (h : LeftOnDisk d) : Records d := by
  induction h with
  | unused => exact ⟨fun _ => rfl, fun _ _ _ htip => nomatch htip⟩
  | killed ops _ hmem ih => exact (session_recorded ih ops).trail _ hmem

/-- **A start that succeeds leaves the UTXO set on record at the tip of the chain, and no marker,
exactly when the disk was not marked with the stored tip as the old tip** -- for every disk a node
may have left behind, killed between any two of its writes. -/
theorem onRecord_iff_not_selfMarked [Ed25519] {d : Disk} (hd : LeftOnDisk d)
    (hinit : (openDisk d).initializeState.2 = .ret true) :
    OnRecord (openDisk d).initializeState.1 ↔ ¬ SelfMarked d :=
  ((initializeState_recorded hd.records).2 hinit).2

/-- No signature verifies. -/
abbrev noSignatures : Ed25519 := ⟨fun _ _ _ => false⟩

/-- The first start of all: nothing is marked, and the set is on record at the genesis block. -/
theorem onRecord_first_start :
    @LeftOnDisk noSignatures Disk.empty ∧ (openDisk Disk.empty).initializeState.2 = .ret true ∧
      OnRecord (openDisk Disk.empty).initializeState.1 := by
  have hstart : (openDisk Disk.empty).initializeState.2 = .ret true := by decide +kernel
  refine ⟨@LeftOnDisk.unused noSignatures, hstart,
    (@onRecord_iff_not_selfMarked noSignatures _ (@LeftOnDisk.unused noSignatures) hstart).mpr ?_⟩
  rintro ⟨newTip, tip, hheads, -⟩
  cases hheads

/-- The disk of a node that was started once on an empty disk and killed in its last flush, after
the marker. -/
def shutdownKill : Disk := (@session noSignatures Disk.empty []).trail.getD 1 Disk.empty

/-- **A node started once and killed in its last flush at shutdown** leaves a marker whose old tip
is the tip.  The next start succeeds, and the best block on record is all zeros. -/
theorem killed_at_shutdown :
    @LeftOnDisk noSignatures shutdownKill ∧
      (openDisk shutdownKill).initializeState.2 = .ret true ∧
      ¬ OnRecord (openDisk shutdownKill).initializeState.1 := by
  obtain ⟨hlong, hstart, hbest⟩ : 1 < (@session noSignatures Disk.empty []).trail.length ∧
      (openDisk shutdownKill).initializeState.2 = .ret true ∧
      (openDisk shutdownKill).initializeState.1.utxoSet.getBestBlock ≠
        (openDisk shutdownKill).initializeState.1.bestChain.blockHash := by
    decide +kernel
  refine ⟨@LeftOnDisk.killed noSignatures _ _ [] (@LeftOnDisk.unused noSignatures) ?_, hstart,
    fun hon => hbest hon.1⟩
  rw [shutdownKill, List.getD_eq_getElem?_getD, List.getElem?_eq_getElem hlong, Option.getD_some]
  exact List.getElem_mem hlong

end Moneu
