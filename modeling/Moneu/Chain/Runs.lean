/-
# Runs of a node

A node is started on an empty disk, accepts blocks, is flushed, closed and started again.  The invariant
of `Moneu.Chain.Node` holds in every state it can reach (`Reachable.inv`).
-/
import Moneu.Chain.Accept

namespace Moneu

open NetParams Journal UTXOSet BlockData ChainState

/-! ## 1. A start that needs no replay -/

variable {s : ChainState} {p : List Block}

/-- The part of the invariant that is not about the UTXO set: what a start finds in the chain
database and in the block store. -/
structure Based (s : ChainState) (p : List Block) : Prop where
  path : IsPath s.blockData p
  tip : s.bestChain = tipOf p
  store : StoreInv s.blockData
  valid : Valid p
  undos : UndoInv s.blockData
  hasUndo : ∀ b q, b :: q <:+ p → q ≠ [] → s.blockData.db.undo.lookup b.getHash ≠ none
  best : s.chainDB.best = some s.bestChain
  genesis : s.chainDB.genesis = some getGenesisHash

theorem Inv.based (h : Inv s p) : Based s p where
  path := h.path
  tip := h.tip
  store := h.store
  valid := h.valid
  undos := h.undos
  hasUndo := h.hasUndo
  best := h.best
  genesis := h.genesis

theorem heightWalk_path {bd : BlockData} : ∀ {p : List Block} {b : Block}, IsPath bd (b :: p) →
    heightWalk bd p.length b.getHash = some ((b :: p).map Block.getHash)
  | [], _, _ => rfl
  | q :: p, b, h => by
    obtain ⟨pos, hentry⟩ := readBlockIndex_path h
    cases h with
    | cons hp hprev =>
      have hwalk : heightWalk bd p.length q.getHash = some ((q :: p).map Block.getHash) :=
        heightWalk_path hp
      rw [List.length_cons, heightWalk, hentry]
      simp only [indexEntry, hprev, hwalk]
      rfl

/-- **The height table after a start**: the whole chain, or nothing when the tip has the hash zero. -/
theorem chainByHeight_buildHeightIndex (hpath : IsPath s.blockData p) (htip : s.bestChain = tipOf p) :
    s.buildHeightIndex.chainByHeight = tableOf p ∨ s.buildHeightIndex.chainByHeight = [] := by
  obtain ⟨b, p, rfl⟩ := List.exists_cons_of_length_pos (pathLength_pos hpath)
  unfold buildHeightIndex
  split
  · exact .inr rfl
  · refine .inl ?_
    rw [htip]
    simp only [tipOf, heightWalk_path hpath]
    rfl

theorem Based.start (h : Based s p) (hat : AtTip s.utxoSet s.bestChain.blockHash)
    (hbelow : View.Rel Below s.utxoSet.view (viewOf p))
    (hexact : DistinctTxids s.blockData → View.Rel Eq s.utxoSet.view (viewOf p)) :
    s.reconcile = ({ s with initialized := true }.buildHeightIndex, .ret true) ∧
      Inv ({ s with initialized := true }.buildHeightIndex) p := by
  refine ⟨?_, ?_⟩
  · unfold reconcile
    have hheads : s.utxoSet.getHeadBlocks = none := hat.heads
    have hbest : s.utxoSet.getBestBlock = s.bestChain.blockHash := hat.bestBlock
    simp [hheads, hbest]
  · exact
      { initialized := rfl
        path := h.path
        tip := h.tip
        table := chainByHeight_buildHeightIndex (s := { s with initialized := true }) h.path h.tip
        store := h.store
        valid := h.valid
        undos := h.undos
        hasUndo := h.hasUndo
        atTip := hat
        below := hbelow
        exact := hexact
        best := h.best
        genesis := h.genesis }

/-- A start on a disk that has a chain loads its tip and compares it with the UTXO set. -/
theorem initializeState_openDisk {d : Disk} {tip : ChainTip} (hbest : d.chain.best = some tip)
    (hgenesis : d.chain.genesis = some getGenesisHash) :
    (openDisk d).initializeState = { openDisk d with bestChain := tip }.reconcile := by
  have hverify : (openDisk d).verifyGenesisBlock = true := by
    simp [verifyGenesisBlock, openDisk, hgenesis]
  have hload : (openDisk d).loadOrCreate = ({ openDisk d with bestChain := tip }, true) := by
    unfold loadOrCreate
    rw [show (openDisk d).chainDB.best = some tip from hbest]
  unfold initializeState
  rw [hverify, hload]
  rfl

theorem keeps_openDB (bd : BlockData) : Keeps bd (BlockData.openDB bd.db) := keeps_of_db_eq rfl

theorem Based.openDisk (h : Based s p) (coins : CoinsDB) :
    Based { ChainState.openDisk { s.disk with coins } with bestChain := s.bestChain } p where
  path := h.path.mono (keeps_openDB s.blockData)
  tip := h.tip
  store := h.store.openDB
  valid := h.valid
  undos := h.undos.mono (keeps_openDB s.blockData) rfl
  hasUndo := h.hasUndo
  best := h.best
  genesis := h.genesis

/-! ## 2. Flush, close, open -/

theorem flush_atTip {u : UTXOSet} {tip : Bytes32} (h : AtTip u tip) :
    AtTip (u.flush none).1 tip ∧ (u.flush none).1.view = u.view ∧
      AtTip (UTXOSet.openDB (u.flush none).1.db) tip ∧
      (UTXOSet.openDB (u.flush none).1.db).view = u.view := by
  obtain ⟨hat, hview, hopen⟩ := flush_setBestBlock h.rep u.bestBlock
  have hsame : u.setBestBlock u.bestBlock = u := rfl
  rw [hsame, h.bestBlock] at hat
  refine ⟨hat, hview, ⟨Rep.openDB hat.rep.stored, ?_, hat.best, hat.heads⟩, hopen⟩
  show (u.flush none).1.db.best.getD FixedBytes.zero = tip
  rw [hat.best]
  rfl

theorem Inv.flush (h : Inv s p) : Inv s.flush p := by
  obtain ⟨hat, hview, -⟩ := flush_atTip h.atTip
  exact
    { h with
      atTip := hat.setTrail []
      below := hview ▸ h.below
      exact := fun hd => hview ▸ h.exact hd }

/-- **A node that is closed and opened again** is on the same chain, without a replay. -/
theorem Inv.reopen (h : Inv s p) :
    s.reopen.2 = .ret true ∧ Inv s.reopen.1 p := by
  have hflush := h.flush
  have hclose := hflush.flush
  obtain ⟨-, -, hat, hopen⟩ := flush_atTip hflush.atTip
  have hat' : AtTip (UTXOSet.openDB s.flush.flush.utxoSet.db) s.bestChain.blockHash := hat
  have hview : (UTXOSet.openDB s.flush.flush.utxoSet.db).view = s.flush.utxoSet.view := hopen
  have hrun : s.reopen = { ChainState.openDisk { s.flush.flush.disk with
      coins := s.flush.flush.utxoSet.db } with bestChain := s.flush.flush.bestChain }.reconcile :=
    initializeState_openDisk hclose.best hclose.genesis
  obtain ⟨hreconcile, hinv⟩ := (hclose.based.openDisk s.flush.flush.utxoSet.db).start hat'
    (hview ▸ hflush.below) (fun hd => hview ▸ hflush.exact
      (DistinctTxids.of_keeps (keeps_openDB s.flush.flush.blockData) hd))
  rw [hrun, hreconcile]
  exact ⟨rfl, hinv⟩

/-! ## 3. The first start -/

theorem view_openDB_empty : (UTXOSet.openDB CoinsDB.empty).view = View.empty := rfl

theorem applyGenesisTxs_spec {g : Block} {coinbase : Transaction} (hshape : g.Shape coinbase []) :
    ∃ u, applyGenesisTxs 0 g.transactions (UTXOSet.openDB CoinsDB.empty) = (u, true) ∧ Rep u ∧
      u.view = View.empty.applyBlock 0 g := by
  have hshow := shows_coinbase (UTXOSet.openDB CoinsDB.empty) (inside_univ coinbase) 0
  refine ⟨_, ?_, hshow.rep (Rep.openDB (by simp [CoinsDB.empty])), hshow.view.trans ?_⟩
  · rw [hshape.transactions]
    simp [applyGenesisTxs, hshape.coinbase, applyTransaction_coinbase]
  · rw [view_openDB_empty, View.applyBlock, hshape.transactions]
    simp only [hshape.coinbase]
    rfl

theorem tipOf_genesis : genesisTip = tipOf [buildGenesisBlock] := by
  rw [genesisTip, tipOf, buildGenesisBlock_getHash]
  rfl

theorem filesOk_empty : FilesOk (BlockData.openDB BlockDB.empty) :=
  ⟨rfl, by decide, fun n _ => rfl⟩

/-- The genesis block is written, and the records of the chain with it. -/
theorem based_commitGenesis (hbd : s.blockData = BlockData.openDB BlockDB.empty) (hrep : Rep s.utxoSet)
    (hview : s.utxoSet.view = viewOf [buildGenesisBlock]) :
    Based s.commitGenesis [buildGenesisBlock] ∧
      AtTip s.commitGenesis.utxoSet s.commitGenesis.bestChain.blockHash ∧
      s.commitGenesis.utxoSet.view = viewOf [buildGenesisBlock] := by
  obtain ⟨hstore, hundo⟩ := storeInv_genesis filesOk_empty rfl
  obtain ⟨hat, hflush, -⟩ := flush_setBestBlock hrep getGenesisHash
  have hwork : genesisTip.chainWork = workOf [buildGenesisBlock] := rfl
  unfold commitGenesis
  rw [hbd, hwork, tipOf_genesis]
  generalize (BlockData.openDB BlockDB.empty).writeBlock buildGenesisBlock 0
    (workOf [buildGenesisBlock]) = bd at hstore hundo ⊢
  have hnone : ∀ hash, bd.db.undo.lookup hash = none := fun hash => by
    rw [hundo]
    rfl
  refine ⟨⟨.genesis (hstore.genesis.mono (keeps_of_db_eq rfl)), rfl, hstore.congr rfl rfl, .genesis,
    ?_, ?_, rfl, rfl⟩, ?_, ?_⟩
  · intro hash blob hblob
    have hsome : bd.db.undo.lookup hash = some blob := hblob
    rw [hnone] at hsome
    cases hsome
  · intro b q hsuf hq
    have hlen := hsuf.length_le
    rw [List.length_cons, List.length_singleton] at hlen
    exact absurd (List.length_eq_zero_iff.mp (by omega)) hq
  · show AtTip _ (tipOf [buildGenesisBlock]).blockHash
    rw [show (tipOf [buildGenesisBlock]).blockHash = getGenesisHash from buildGenesisBlock_getHash]
    exact hat.setTrail []
  · exact hflush.trans hview

theorem commitGenesis_parts (s : ChainState) :
    s.commitGenesis.blockData.db =
      (s.blockData.writeBlock buildGenesisBlock 0 genesisTip.chainWork).db ∧
    s.commitGenesis.invalidBlocks = s.invalidBlocks := by
  unfold commitGenesis
  generalize s.blockData.writeBlock buildGenesisBlock 0 genesisTip.chainWork = bd
  exact ⟨rfl, rfl⟩

theorem buildHeightIndex_parts (s : ChainState) :
    ({ s with initialized := true }.buildHeightIndex).blockData = s.blockData ∧
    ({ s with initialized := true }.buildHeightIndex).invalidBlocks = s.invalidBlocks := ⟨rfl, rfl⟩

/-- What the first start leaves: the invariant, the genesis block written to an empty store, and no block
held for invalid. -/
theorem fresh_spec : fresh.2 = .ret true ∧ Inv fresh.1 [buildGenesisBlock] ∧
    fresh.1.blockData.db = ((BlockData.openDB BlockDB.empty).writeBlock buildGenesisBlock 0
      genesisTip.chainWork).db ∧ fresh.1.invalidBlocks = ∅ := by
  obtain ⟨coinbase, hshape⟩ := shape_genesis
  obtain ⟨u, hrun, hrep, hview⟩ := applyGenesisTxs_spec hshape
  have hzero : (getGenesisHash.isZero : Bool) = false := by
    rw [Bool.eq_false_iff, Ne, FixedBytes.isZero_iff]
    exact getGenesisHash_ne_zero
  set s₀ : ChainState := { openDisk Disk.empty with bestChain := ChainTip.null, chainByHeight := [] }
  have hrun₀ : applyGenesisTxs 0 buildGenesisBlock.transactions s₀.utxoSet = (u, true) := hrun
  have hload : (openDisk Disk.empty).loadOrCreate = ((s₀.setUTXO u).commitGenesis, true) := by
    have hgen : s₀.initializeGenesis = ((s₀.setUTXO u).commitGenesis, true) := by
      unfold initializeGenesis
      rw [hzero, if_neg (by simp), if_neg (by rw [buildGenesisBlock_getHash]; simp), hrun₀]
    exact hgen
  obtain ⟨hbased, hat, hview'⟩ := based_commitGenesis (s := s₀.setUTXO u) rfl (hrep.setTrail [])
    (hview.trans (by rw [viewOf, viewOf]; rfl))
  obtain ⟨hreconcile, hinv⟩ := hbased.start hat (hview' ▸ View.rel_refl Below.refl _)
    (fun _ => hview' ▸ View.rel_refl (fun _ => rfl) _)
  have hfresh : fresh = (s₀.setUTXO u).commitGenesis.reconcile := by
    have hverify : (openDisk Disk.empty).verifyGenesisBlock = true := rfl
    unfold fresh initializeState
    rw [hverify, hload]
    rfl
  obtain ⟨hdb, hnone⟩ := commitGenesis_parts (s₀.setUTXO u)
  obtain ⟨hbd, hinvalid⟩ := buildHeightIndex_parts (s₀.setUTXO u).commitGenesis
  rw [hfresh, hreconcile]
  refine ⟨rfl, hinv, ?_, hinvalid.trans hnone⟩
  rw [hbd, hdb]
  rfl

/-- **A node that is started for the first time** is on the genesis block. -/
theorem inv_fresh : fresh.2 = .ret true ∧ Inv fresh.1 [buildGenesisBlock] :=
  ⟨fresh_spec.1, fresh_spec.2.1⟩

theorem index_fresh : fresh.1.blockData.db.index.keys = [getGenesisHash] ∧
    fresh.1.invalidBlocks = ∅ := by
  obtain ⟨-, -, hdb, hnone⟩ := fresh_spec
  obtain ⟨pos, hindex⟩ := index_writeBlock (BlockData.openDB BlockDB.empty) buildGenesisBlock 0
    genesisTip.chainWork
  have hempty : (BlockData.openDB BlockDB.empty).db.index = ∅ := rfl
  refine ⟨?_, hnone⟩
  rw [hdb, hindex, hempty, AList.keys_insert, buildGenesisBlock_getHash]
  rfl

/-! ## 4. Reachable states -/

section Reachable

variable [Ed25519]

/-- The states of a node: started for the first time, a block accepted, flushed, closed and started
again, on storage that does not fail. -/
inductive Reachable : ChainState → Prop
  | start : Reachable fresh.1
  | accept {s : ChainState} (now : UInt64) (block : Block) : Reachable s →
      Reachable (s.acceptBlock noFaults now block).1
  | flush {s : ChainState} : Reachable s → Reachable s.flush
  | reopen {s : ChainState} : Reachable s → Reachable s.reopen.1

/-- **The invariant holds in every reachable state.** -/
theorem Reachable.inv (h : Reachable s) : ∃ p, Inv s p := by
  induction h with
  | start => exact ⟨_, inv_fresh.2⟩
  | accept now block _ ih =>
    obtain ⟨p, hp⟩ := ih
    obtain ⟨p', hp', -⟩ := hp.acceptBlock now block
    exact ⟨p', hp'⟩
  | flush _ ih =>
    obtain ⟨p, hp⟩ := ih
    exact ⟨p, hp.flush⟩
  | reopen _ ih =>
    obtain ⟨p, hp⟩ := ih
    exact ⟨p, hp.reopen.2⟩

def acceptAll (s : ChainState) (calls : List (UInt64 × Block)) : ChainState :=
  calls.foldl (fun s call => (s.acceptBlock noFaults call.1 call.2).1) s

@[simp]
theorem acceptAll_nil (s : ChainState) : acceptAll s [] = s := rfl

@[simp]
theorem acceptAll_cons (s : ChainState) (now : UInt64) (block : Block) (calls : List (UInt64 × Block)) :
    acceptAll s ((now, block) :: calls) = acceptAll (s.acceptBlock noFaults now block).1 calls := rfl

theorem Reachable.acceptAll (h : Reachable s) : ∀ calls : List (UInt64 × Block),
    Reachable (acceptAll s calls) := by
  intro calls
  induction calls generalizing s with
  | nil => exact h
  | cons call calls ih => exact ih (h.accept call.1 call.2)

/-- Every call of a run from the first start on meets `P`, in the state it is made in. -/
def EveryCall (P : ChainState → UInt64 → Block → Prop) (calls : List (UInt64 × Block)) : Prop :=
  ∀ before now block after, calls = before ++ (now, block) :: after →
    P (acceptAll fresh.1 before) now block

theorem acceptAll_concat (s : ChainState) (calls : List (UInt64 × Block)) (now : UInt64)
    (block : Block) : acceptAll s (calls ++ [(now, block)]) =
      ((acceptAll s calls).acceptBlock noFaults now block).1 := by
  rw [acceptAll, List.foldl_append]
  rfl

/-- **What a call keeps holds after a run**, if it holds at the first start. -/
theorem EveryCall.run {P : ChainState → UInt64 → Block → Prop} {Q : ChainState → Prop} (hstart : Q fresh.1)
    (hstep : ∀ {s : ChainState} {now : UInt64} {block : Block}, Reachable s → Q s → P s now block →
      Q (s.acceptBlock noFaults now block).1) :
    ∀ calls, EveryCall P calls → Q (acceptAll fresh.1 calls) := by
  intro calls
  induction calls using List.reverseRecOn with
  | nil =>
    rw [acceptAll_nil]
    exact fun _ => hstart
  | append_singleton calls call ih =>
    intro hcalls
    rw [acceptAll_concat]
    refine hstep (Reachable.start.acceptAll calls) (ih ?_) (hcalls calls call.1 call.2 [] rfl)
    intro before now block after heq
    exact hcalls before now block (after ++ [call]) (by rw [heq]; simp)

end Reachable

end Moneu
