/-
# The invariant of a running node

`Inv s p`: the node `s` follows the valid chain `p`, its block store and undo records are sound, and its
UTXO set shows the fold of `p`: the leaves exactly, the coins exactly if no txid repeats on a stored
path, and otherwise at least no coin that the fold does not have.  The second case is real: undoing a
block erases every outpoint of its transactions, also when an older transaction of the same txid
still had a coin there.

Connecting and disconnecting a block keep the invariant, for one block more and one block less.
-/
import Moneu.Chain.Ledger
import Moneu.Storage.Steps

namespace Moneu

open NetParams Journal UTXOSet BlockData ChainState

/-! ## 1. The UTXO set at rest -/

variable {u : UTXOSet}

/-- The set is represented well and belongs to the block `tip`, in memory and on disk. -/
structure AtTip (u : UTXOSet) (tip : Bytes32) : Prop where
  rep : Rep u
  bestBlock : u.bestBlock = tip
  best : u.db.best = some tip
  heads : u.db.heads = none

/-- **A flush under the best block `tip`**: the set belongs to it, and shows what it showed before;
so does what is on disk. -/
theorem flush_setBestBlock (h : Rep u) (tip : Bytes32) :
    AtTip ((u.setBestBlock tip).flush none).1 tip ∧
      ((u.setBestBlock tip).flush none).1.view = u.view ∧
      (UTXOSet.openDB ((u.setBestBlock tip).flush none).1.db).view = u.view := by
  have hrep : Rep (u.setBestBlock tip) :=
    ⟨⟨h.dirty_cached, h.not_erased, h.cached_stored⟩, h.clean, h.stored⟩
  have hflush : Flushed (u.setBestBlock tip) tip ((u.setBestBlock tip).flush none).1 :=
    (flushCache_none (u.setBestBlock tip) tip).2
  have hview : (u.setBestBlock tip).view = u.view := rfl
  rw [← hview]
  refine ⟨⟨hflush.rep hrep, hflush.bestBlock, hflush.best, hflush.heads⟩, ?_, ?_⟩
  · rw [view, view, hflush.getCoin_eq_of_rep hrep, hflush.isNoiseLeafSpent_eq hrep.toLeafRep]
  · rw [view, view]
    congr 1
    · funext o
      rw [getCoin_openDB (fun o c hc => (hflush.rep hrep).stored o c hc), hflush.lookup_coins hrep]
    · funext key
      rw [Bool.eq_iff_iff, isNoiseLeafSpent_openDB, hflush.mem_leaves hrep.toLeafRep]

/-! ## 2. Undo records -/

variable {bd bd' : BlockData} {b : Block}

/-- The undo record of a block that was connected on top of a chain. -/
def UndoFor (bd : BlockData) (hash : Bytes32) (blob : List UInt8) : Prop :=
  ∃ b q spents, b.getHash = hash ∧ q ≠ [] ∧ IsPath bd (b :: q) ∧ Valid (b :: q) ∧
    (viewOf q).BlockApplies (UInt32.ofNat q.length) b spents ∧
    blob = (BlockUndo.mk (spents.map TxUndo.mk)).serialize

/-- Every undo record belongs to a block that was connected. -/
def UndoInv (bd : BlockData) : Prop :=
  ∀ hash blob, bd.db.undo.lookup hash = some blob → UndoFor bd hash blob

theorem UndoFor.mono (hkeeps : Keeps bd bd') {hash : Bytes32} {blob : List UInt8}
    (h : UndoFor bd hash blob) : UndoFor bd' hash blob := by
  obtain ⟨b, q, spents, hhash, hq, hpath, hrest⟩ := h
  exact ⟨b, q, spents, hhash, hq, hpath.mono hkeeps, hrest⟩

theorem UndoInv.mono (h : UndoInv bd) (hkeeps : Keeps bd bd') (hundo : bd'.db.undo = bd.db.undo) :
    UndoInv bd' := fun hash blob hblob =>
  (h hash blob (hundo ▸ hblob)).mono hkeeps

/-- The coins each transaction of a block spent are as many as its inputs. -/
theorem TxsApply.length_spent {height : UInt32} : ∀ {txs : List Transaction}
    {spents : List (List Coin)} {v : View}, TxsApply height v txs spents →
      ∀ spent ∈ spents, ∃ tx ∈ txs, spent.length = tx.inputs.length
  | [], [], _, _ => by simp
  | tx :: txs, spent :: spents, v, h => by
    intro sp hsp
    rcases List.mem_cons.mp hsp with rfl | hsp
    · exact ⟨tx, List.mem_cons_self .., h.1.spendable.length_eq⟩
    · obtain ⟨t, ht, hlen⟩ := TxsApply.length_spent h.2 sp hsp
      exact ⟨t, List.mem_cons_of_mem _ ht, hlen⟩

/-- **The undo record of a block of a path is read back.** -/
theorem readBlockUndo_eq (h : UndoInv bd) {q : List Block} (hpath : IsPath bd (b :: q))
    (hsome : bd.db.undo.lookup b.getHash ≠ none) :
    ∃ spents, (viewOf q).BlockApplies (UInt32.ofNat q.length) b spents ∧
      bd.readBlockUndo b.getHash = some ⟨spents.map TxUndo.mk⟩ := by
  obtain ⟨blob, hblob⟩ := Option.ne_none_iff_exists'.mp hsome
  obtain ⟨b', q', spents, hhash, -, hpath', hvalid, happ, rfl⟩ := h _ _ hblob
  cases hpath'.unique hpath hhash
  refine ⟨spents, happ, ?_⟩
  obtain ⟨coinbase, rest, hshape⟩ := hvalid.shape
  simp only [View.BlockApplies, hshape.transactions] at happ
  have hcount : spents.length ≤ Block.MAX_TRANSACTIONS := by
    have hle := b.transactions_le
    rw [hshape.transactions, List.length_cons] at hle
    rw [happ.length_eq]
    omega
  have hread : BlockUndo.deserialize (BlockUndo.mk (spents.map TxUndo.mk)).serialize =
      .ok (⟨spents.map TxUndo.mk⟩, []) :=
    BlockUndo.deserialize_serialize (by simpa using hcount) (by
      intro tu htu
      obtain ⟨spent, hspent, rfl⟩ := List.mem_map.mp htu
      obtain ⟨tx, -, hlen⟩ := happ.length_spent spent hspent
      have hle : tx.inputs.length ≤ Transaction.MAX_INPUTS := tx.inputs_le
      have hmax : Transaction.MAX_INPUTS ≤ Block.MAX_TRANSACTIONS := by decide
      simp only
      omega)
  rw [readBlockUndo, hblob]
  simp only [hread]

/-! ## 3. The invariant -/

variable {s : ChainState}

/-- No txid repeats on a path of stored blocks. -/
def DistinctTxids (bd : BlockData) : Prop := ∀ p, IsPath bd p → (txidsOf p).Nodup

theorem DistinctTxids.of_keeps (hkeeps : Keeps bd bd') (h : DistinctTxids bd') :
    DistinctTxids bd := fun p hp => h p (hp.mono hkeeps)

/-- The node `s` runs on the chain `p`. -/
structure Inv (s : ChainState) (p : List Block) : Prop extends Follows s p where
  store : StoreInv s.blockData
  valid : Valid p
  undos : UndoInv s.blockData
  hasUndo : ∀ b q, b :: q <:+ p → q ≠ [] → s.blockData.db.undo.lookup b.getHash ≠ none
  atTip : AtTip s.utxoSet s.bestChain.blockHash
  below : View.Rel Below s.utxoSet.view (viewOf p)
  exact : DistinctTxids s.blockData → View.Rel Eq s.utxoSet.view (viewOf p)
  best : s.chainDB.best = some s.bestChain
  genesis : s.chainDB.genesis = some getGenesisHash

/-- What a step leaves in place besides the invariant: the stored blocks, none of them new, whether
there is a height table, and the blocks known to be invalid. -/
structure StepFrom (s s' : ChainState) : Prop where
  keeps : Keeps s.blockData s'.blockData
  back : Keeps s'.blockData s.blockData
  table : s'.chainByHeight = [] ↔ s.chainByHeight = []
  invalid : s'.invalidBlocks = s.invalidBlocks

theorem StepFrom.refl (s : ChainState) : StepFrom s s :=
  ⟨keeps_of_db_eq rfl, keeps_of_db_eq rfl, Iff.rfl, rfl⟩

theorem StepFrom.trans {s₁ s₂ s₃ : ChainState} (h₁ : StepFrom s₁ s₂) (h₂ : StepFrom s₂ s₃) :
    StepFrom s₁ s₃ :=
  ⟨h₁.keeps.trans h₂.keeps, h₂.back.trans h₁.back, h₂.table.trans h₁.table,
    h₂.invalid.trans h₁.invalid⟩

theorem StepFrom.distinct {s' : ChainState} (h : StepFrom s s') (hdistinct : DistinctTxids s.blockData) :
    DistinctTxids s'.blockData :=
  hdistinct.of_keeps h.back

namespace Inv

variable {s s' : ChainState} {p : List Block} {b : Block}

/-- The parts of the state that neither the block store nor the chain depend on. -/
theorem congr (h : Inv s p) (hinit : s'.initialized = s.initialized)
    (hbd : s'.blockData = s.blockData) (hu : s'.utxoSet = s.utxoSet)
    (htip : s'.bestChain = s.bestChain) (htable : s'.chainByHeight = s.chainByHeight)
    (hchain : s'.chainDB = s.chainDB) : Inv s' p where
  initialized := hinit.trans h.initialized
  path := hbd ▸ h.path
  tip := htip.trans h.tip
  table := htable ▸ h.table
  store := hbd ▸ h.store
  valid := h.valid
  undos := hbd ▸ h.undos
  hasUndo := hbd ▸ h.hasUndo
  atTip := by rw [hu, htip]; exact h.atTip
  below := hu ▸ h.below
  exact := by rw [hbd, hu]; exact h.exact
  best := by rw [hchain, htip]; exact h.best
  genesis := hchain ▸ h.genesis

theorem setUTXO (h : Inv s p) (hrep : Rep u) (hwithin : Within .univ .univ s.utxoSet u)
    (hbelow : View.Rel Below u.view (viewOf p))
    (hexact : DistinctTxids s.blockData → View.Rel Eq u.view (viewOf p)) : Inv (s.setUTXO u) p :=
  { h with
    atTip := ⟨⟨⟨hrep.dirty_cached, hrep.not_erased, hrep.cached_stored⟩, hrep.clean, hrep.stored⟩,
      hwithin.bestBlock.trans h.atTip.bestBlock, hwithin.db.best.trans h.atTip.best,
      hwithin.db.heads.trans h.atTip.heads⟩
    below := hbelow
    exact := hexact }

end Inv

/-! ## 4. Connecting a block -/

variable {p : List Block} {q : Block}

/-- What `ConnectBlockLocked` leaves in each part of the state. -/
structure ConnectedParts (s : ChainState) (block : Block) (u : UTXOSet) (undo : BlockUndo)
    (s' : ChainState) : Prop where
  initialized : s'.initialized = s.initialized
  db : s'.blockData.db = (s.blockData.writeBlockConnected block (s.bestChain.height + 1)
    (addChainWork s.bestChain.chainWork block.header.bits) undo).db
  lastBlockFile : s'.blockData.lastBlockFile = (s.blockData.writeBlockConnected block
    (s.bestChain.height + 1) (addChainWork s.bestChain.chainWork block.header.bits)
    undo).lastBlockFile
  tip : s'.bestChain = { blockHash := block.getHash, height := s.bestChain.height + 1,
                         timestamp := block.header.timestamp, bits := block.header.bits,
                         chainWork := addChainWork s.bestChain.chainWork block.header.bits }
  table : s'.chainByHeight = if s.chainByHeight.length = s.bestChain.height + 1 then
    s.chainByHeight ++ [block.getHash] else []
  utxoSet : s'.utxoSet =
    { ((({ u with trail := [] } : UTXOSet).setBestBlock block.getHash).flush none).1 with
      trail := [] }
  best : s'.chainDB.best = some s'.bestChain
  genesis : s'.chainDB.genesis = if s.bestChain.height + 1 = 1 then some block.header.prevBlockHash
    else s.chainDB.genesis
  invalid : s'.invalidBlocks = s.invalidBlocks

theorem connectedParts (s : ChainState) (block : Block) (u : UTXOSet) (undo : BlockUndo) :
    ConnectedParts s block u undo (s.connected block u undo) := by
  unfold ChainState.connected committed
  dsimp only
  by_cases hone : s.bestChain.height + 1 = 1
  · have hone' : ((s.setUTXO u).setBlockData ((s.setUTXO u).blockData.writeBlockConnected block
        ((s.setUTXO u).bestChain.height + 1)
        (addChainWork s.bestChain.chainWork block.header.bits) undo)).bestChain.height + 1 = 1 := hone
    rw [if_pos hone']
    exact ⟨rfl, rfl, rfl, rfl, rfl, rfl, rfl, (if_pos hone).symm, rfl⟩
  · have hone' : ¬ ((s.setUTXO u).setBlockData ((s.setUTXO u).blockData.writeBlockConnected block
        ((s.setUTXO u).bestChain.height + 1)
        (addChainWork s.bestChain.chainWork block.header.bits) undo)).bestChain.height + 1 = 1 := hone
    rw [if_neg hone']
    exact ⟨rfl, rfl, rfl, rfl, rfl, rfl, rfl, (if_neg hone).symm, rfl⟩

theorem UTXOSet.Rep.setTrail (h : Rep u) (trail : List CoinsDB) :
    Rep { u with trail } :=
  ⟨⟨h.dirty_cached, h.not_erased, h.cached_stored⟩, h.clean, h.stored⟩

theorem AtTip.setTrail {tip : Bytes32} (h : AtTip u tip) (trail : List CoinsDB) :
    AtTip { u with trail } tip :=
  ⟨h.rep.setTrail trail, h.bestBlock, h.best, h.heads⟩

theorem UTXOSet.view_setTrail (u : UTXOSet) (trail : List CoinsDB) :
    ({ u with trail } : UTXOSet).view = u.view := rfl

theorem table_cons {table : List Bytes32} (hp : p ≠ []) (h : table = tableOf p ∨ table = []) :
    ((if table.length = p.length then table ++ [b.getHash] else []) = tableOf (b :: p) ∨
      (if table.length = p.length then table ++ [b.getHash] else []) = []) ∧
      ((if table.length = p.length then table ++ [b.getHash] else []) = [] ↔ table = []) := by
  have hlen : (tableOf p).length = p.length := by simp [tableOf]
  have hne : tableOf p ≠ [] := by simpa [tableOf] using hp
  rcases h with rfl | rfl
  · rw [if_pos hlen]
    exact ⟨.inl (by simp [tableOf]), by simp [hne]⟩
  · have hpos : ¬ ([] : List Bytes32).length = p.length := by
      simpa [eq_comm] using hp
    rw [if_neg hpos]
    exact ⟨.inr rfl, by simp⟩

theorem Follows.height_succ (h : Follows s p) :
    s.bestChain.height + 1 = p.length := by
  have hpos := pathLength_pos h.path
  cases p with
  | nil => simp at hpos
  | cons b p => rw [h.tip]; rfl

theorem Inv.connected (h : Inv s p) (hpath : IsPath s.blockData (b :: p)) (hconn : Connects p b)
    {spents : List (List Coin)} (happ : s.utxoSet.view.BlockApplies (UInt32.ofNat p.length) b spents)
    (hshow : Shows .univ .univ s.utxoSet (s.utxoSet.view.applyBlock (UInt32.ofNat p.length) b) u) :
    Inv (s.connected b u ⟨spents.map TxUndo.mk⟩) (b :: p) ∧
      StepFrom s (s.connected b u ⟨spents.map TxUndo.mk⟩) := by
  have hparts := connectedParts s b u ⟨spents.map TxUndo.mk⟩
  generalize s.connected b u ⟨spents.map TxUndo.mk⟩ = s' at hparts ⊢
  have hheight := h.toFollows.height_succ
  obtain ⟨q, p, rfl⟩ : ∃ q p', p = q :: p' := by
    cases p with
    | nil => simp at hheight
    | cons q p => exact ⟨q, p, rfl⟩
  have hwork : addChainWork s.bestChain.chainWork b.header.bits = workOf (b :: q :: p) := by
    rw [h.tip]; rfl
  have hdb := hparts.db
  have hlast := hparts.lastBlockFile
  rw [hheight, hwork] at hdb hlast
  obtain ⟨hstore₁, hkeeps₁, hundo₁, e, hindex₁⟩ :=
    h.store.writeBlockConnected hpath ⟨spents.map TxUndo.mk⟩
  have hstore := hstore₁.congr hdb hlast
  have hkeeps : Keeps s.blockData s'.blockData := hkeeps₁.trans (keeps_of_db_eq hdb)
  have hkeys : ∀ hash, s.blockData.readBlockIndex hash = none →
      s'.blockData.readBlockIndex hash = none := by
    intro hash hnone
    have hne : hash ≠ b.getHash := by
      rintro rfl
      obtain ⟨pos, hentry⟩ := readBlockIndex_path hpath
      rw [hentry] at hnone
      cases hnone
    rw [readBlockIndex, hdb, hindex₁, AList.lookup_insert_ne hne]
    exact hnone
  have hvalid : Valid (b :: q :: p) := .cons h.valid hconn
  have hpath' := hpath.mono hkeeps
  have htable := hparts.table
  rw [hheight] at htable
  obtain ⟨htab, htabIff⟩ := table_cons (b := b) (by simp) h.table
  obtain ⟨hat, hview, -⟩ := flush_setBestBlock ((hshow.rep h.atTip.rep).setTrail []) b.getHash
  have hv : s'.utxoSet.view = s.utxoSet.view.applyBlock (UInt32.ofNat (q :: p).length) b := by
    rw [hparts.utxoSet, UTXOSet.view_setTrail, hview, UTXOSet.view_setTrail, hshow.view]
  refine ⟨{ initialized := hparts.initialized.trans h.initialized
            path := hpath'
            tip := ?_
            table := htable ▸ htab
            store := hstore
            valid := hvalid
            undos := ?_
            hasUndo := ?_
            atTip := ?_
            below := ?_
            exact := ?_
            best := hparts.best
            genesis := ?_ }, ⟨hkeeps, hkeeps.symm hkeys, htable ▸ htabIff, hparts.invalid⟩⟩
  · rw [hparts.tip, hheight, hwork]
    rfl
  · intro hash blob hblob
    rw [hdb, hundo₁] at hblob
    by_cases hhash : hash = b.getHash
    · subst hhash
      rw [AList.lookup_insert] at hblob
      cases hblob
      exact ⟨b, q :: p, spents, rfl, by simp, hpath', hvalid, happ.mono h.below, rfl⟩
    · rw [AList.lookup_insert_ne hhash] at hblob
      exact (h.undos hash blob hblob).mono hkeeps
  · intro b' q' hsuf hq'
    rw [hdb, hundo₁]
    by_cases hhash : b'.getHash = b.getHash
    · rw [hhash, AList.lookup_insert]
      simp
    · rw [AList.lookup_insert_ne hhash]
      rcases List.suffix_cons_iff.mp hsuf with heq | hsuf
      · cases heq
        exact absurd rfl hhash
      · exact h.hasUndo b' q' hsuf hq'
  · rw [hparts.utxoSet, hparts.tip]
    exact hat.setTrail []
  · rw [hv]
    exact h.below.applyBlock Below.refl _ b
  · intro hdistinct
    rw [hv]
    exact (h.exact (hdistinct.of_keeps hkeeps)).applyBlock (fun _ => rfl) _ b
  · rw [hparts.genesis]
    split
    · rename_i hone
      -- the chain was the genesis block alone, so the parent is genesis
      cases hpath with
      | cons hq hprev =>
        have hnil : p = [] := by
          rw [hheight] at hone
          simpa using hone
        subst hnil
        cases hq with
        | genesis => rw [hprev, buildGenesisBlock_getHash]
    · exact h.genesis

/-- A stored block has one coinbase in front, and the outputs of its other transactions add up
without an exception. -/
theorem Block.Checked.shape (h : b.Checked) : ∃ coinbase rest, b.Shape coinbase rest ∧
    ∀ tx ∈ rest, ∃ v, tx.getValueOut = .ok v := by
  obtain ⟨⟨now, hcheck⟩, -, -⟩ := h
  obtain ⟨-, ⟨coinbase, rest, htxs, hcb, hrest⟩, -⟩ := BlockValidation.checkBlock_ok hcheck
  refine ⟨coinbase, rest, ⟨htxs, hcb, fun tx htx => (hrest tx htx).1⟩, fun tx htx => ?_⟩
  obtain ⟨hnot, hok⟩ := hrest tx htx
  obtain ⟨-, -, hranges, htotal⟩ := TxValidation.checkTransaction_ok hnot hok
  obtain ⟨v, hv, -⟩ := Transaction.getValueOut_fits hranges htotal
  exact ⟨v, hv⟩

theorem IsPath.checked (h : IsPath bd (b :: q :: p)) : b.Checked := by
  cases h with
  | cons _ _ hchecked _ => exact hchecked

theorem Follows.cons (h : Follows s p) : ∃ q p', p = q :: p' :=
  List.exists_cons_of_length_pos (pathLength_pos h.path)

/-- The state after a refusal: only the UTXO set was worked on. -/
def RefusedFrom (s s' : ChainState) : Prop := s' = s ∨ ∃ u, s' = s.setUTXO u

theorem RefusedFrom.stepFrom {s' : ChainState} (h : RefusedFrom s s') : StepFrom s s' := by
  rcases h with rfl | ⟨u, rfl⟩
  · exact StepFrom.refl _
  · exact ⟨keeps_of_db_eq rfl, keeps_of_db_eq rfl, Iff.rfl, rfl⟩

/-- **`ConnectBlockLocked`** of a stored block: it moves the tip to the block, or refuses it and
leaves the chain as it was. -/
theorem Inv.connectBlock_cases (h : Inv s p)
    (hpath : s.headerExtendsTip b.header = true → IsPath s.blockData (b :: p)) :
    (∃ spents u, s.headerExtendsTip b.header = true ∧
      s.utxoSet.view.BlockApplies (UInt32.ofNat p.length) b spents ∧
      Shows .univ .univ s.utxoSet (s.utxoSet.view.applyBlock (UInt32.ofNat p.length) b) u ∧
      s.connectBlock b none = (s.connected b u ⟨spents.map TxUndo.mk⟩, .ret true)) ∨
    (∃ s', s.connectBlock b none = (s', .ret false) ∧ Inv s' p ∧ RefusedFrom s s' ∧
      ¬ (s.headerExtendsTip b.header = true ∧
        ∃ spents, s.utxoSet.view.BlockApplies (UInt32.ofNat p.length) b spents)) := by
  rw [connectBlock_none]
  cases hhdr : s.headerExtendsTip b.header with
  | false =>
    exact .inr ⟨s, rfl, h, .inl rfl, by simp⟩
  | true =>
    rw [if_neg (by simp), h.toFollows.height_succ]
    obtain ⟨q, p, rfl⟩ := h.toFollows.cons
    obtain ⟨coinbase, rest, hshape, hfits⟩ := (IsPath.checked (hpath hhdr)).shape
    rcases applyBlockTwoPhase_cases s.utxoSet hshape (UInt32.ofNat (q :: p).length) with
      ⟨spents, u, happ, hshow, hrun⟩ | ⟨hno, u, e, hrun, hrep, hwithin, hthrew, hback⟩
    · rw [hrun]
      exact .inl ⟨spents, u, rfl, happ, hshow, rfl⟩
    · rw [hrun]
      cases e with
      | threw what =>
        obtain ⟨tx, htx, herr⟩ := hthrew what rfl
        obtain ⟨v, hv⟩ := hfits tx htx
        rw [hv] at herr
        cases herr
      | refused log =>
        refine .inr ⟨s.setUTXO u, rfl, ?_, .inr ⟨u, rfl⟩, fun hboth => ?_⟩
        · refine h.setUTXO (hrep h.atTip.rep) hwithin ?_ fun hdistinct => ?_
          · exact hback log rfl Below _ View.loss_below h.below (live_viewOf _)
              (View.fresh_below _ _ b)
          · exact hback log rfl Eq _ View.loss_eq (h.exact hdistinct) (live_viewOf _)
              (fresh_viewOf (hdistinct _ (hpath hhdr)) _)
        · obtain ⟨-, spents, happ⟩ := hboth
          exact hno spents happ

/-- **`ConnectBlockLocked`** of a stored block that was accepted next to the chain. -/
theorem Inv.connectBlock (h : Inv s p)
    (hpath : s.headerExtendsTip b.header = true → IsPath s.blockData (b :: p))
    (hacc : s.headerExtendsTip b.header = true → ∃ coinbase rest spents, b.Shape coinbase rest ∧ BlockAccepted (viewOf p).coins (UInt32.ofNat p.length) coinbase rest spents) :
    (∃ s', s.connectBlock b none = (s', .ret true) ∧ Inv s' (b :: p) ∧ StepFrom s s') ∨
    (∃ s', s.connectBlock b none = (s', .ret false) ∧ Inv s' p ∧ RefusedFrom s s' ∧
      ¬ (s.headerExtendsTip b.header = true ∧
        ∃ spents, s.utxoSet.view.BlockApplies (UInt32.ofNat p.length) b spents)) := by
  rcases h.connectBlock_cases hpath with ⟨spents, u, hhdr, happ, hshow, hrun⟩ | hrefused
  · obtain ⟨q, p, rfl⟩ := h.toFollows.cons
    have hconn : Connects (q :: p) b :=
      ⟨extendsPath_of_follows h.toFollows hhdr, (headerExtendsTip_link h.toFollows hhdr).1,
        hacc hhdr, spents, happ.mono h.below⟩
    obtain ⟨hinv, hstep⟩ := h.connected (hpath hhdr) hconn happ hshow
    exact .inl ⟨_, hrun, hinv, hstep⟩
  · exact .inr hrefused

/-! ## 5. Disconnecting the tip -/

/-- What `DisconnectTipLocked` leaves in each part of the state. -/
structure DisconnectedParts (s : ChainState) (u : UTXOSet) (hashPrev : Bytes32)
    (parent : BlockIndexEntry) (s' : ChainState) : Prop where
  initialized : s'.initialized = s.initialized
  blockData : s'.blockData = s.blockData
  tip : s'.bestChain = { blockHash := hashPrev, height := parent.nHeight, timestamp := parent.nTime,
                         bits := parent.nBits, chainWork := parent.nChainWork }
  table : s'.chainByHeight = if s.chainByHeight.length = parent.nHeight + 2 then
    s.chainByHeight.dropLast else []
  utxoSet : s'.utxoSet =
    { ((({ u with trail := [] } : UTXOSet).setBestBlock hashPrev).flush none).1 with trail := [] }
  best : s'.chainDB.best = some s'.bestChain
  genesis : s'.chainDB.genesis = s.chainDB.genesis
  invalid : s'.invalidBlocks = s.invalidBlocks

theorem disconnectedParts (s : ChainState) (u : UTXOSet) (block : Block) (hashPrev : Bytes32)
    (parent : BlockIndexEntry) :
    DisconnectedParts s u hashPrev parent ((s.setUTXO u).commitBack block hashPrev parent) :=
  ⟨rfl, rfl, rfl, rfl, rfl, rfl, rfl, rfl⟩

theorem table_tail {table : List Bytes32} (hp : p ≠ []) (h : table = tableOf (b :: p) ∨ table = []) :
    ((if table.length = p.length + 1 then table.dropLast else []) = tableOf p ∨
      (if table.length = p.length + 1 then table.dropLast else []) = []) ∧
      ((if table.length = p.length + 1 then table.dropLast else []) = [] ↔ table = []) := by
  have hlen : (tableOf (b :: p)).length = p.length + 1 := by simp [tableOf]
  have hdrop : (tableOf (b :: p)).dropLast = tableOf p := by simp [tableOf]
  have hne : tableOf p ≠ [] := by simpa [tableOf] using hp
  have hne' : tableOf (b :: p) ≠ [] := by simp [tableOf]
  rcases h with rfl | rfl
  · rw [if_pos hlen, hdrop]
    exact ⟨.inl rfl, by simp [hne, hne']⟩
  · exact ⟨.inr (by simp), by simp⟩

/-- **`DisconnectTipLocked` takes the tip off**: it never fails above genesis, leaves one block less, and
undoes the block with the coins it spent. -/
theorem Inv.disconnectTip_spec (h : Inv s (b :: q :: p)) :
    ∃ s' spents, s.disconnectTip = (s', true) ∧ Inv s' (q :: p) ∧ StepFrom s s' ∧
      (viewOf (q :: p)).BlockApplies (UInt32.ofNat (q :: p).length) b spents ∧
      s'.utxoSet.view = s.utxoSet.view.undoBlock b spents := by
  have hpath := h.path
  obtain ⟨spents, happ, hundo⟩ :=
    readBlockUndo_eq h.undos hpath (h.hasUndo b (q :: p) List.suffix_rfl (by simp))
  obtain ⟨pos, hentry, hread⟩ := hpath.stored
  obtain ⟨hp, hprev⟩ : IsPath s.blockData (q :: p) ∧ b.header.prevBlockHash = q.getHash := by
    cases hpath with
    | cons hp hprev => exact ⟨hp, hprev⟩
  obtain ⟨posq, hqentry⟩ := readBlockIndex_path hp
  obtain ⟨coinbase, rest, hshape⟩ := h.valid.shape
  have hvalid : Valid (q :: p) := h.valid.suffix (List.suffix_cons ..) (by simp)
  have hund : List.Forall₂ Undoable rest spents := by
    simp only [View.BlockApplies, hshape.transactions] at happ
    exact undoable_of_txsApply hshape.rest happ
  obtain ⟨u, hrun, hshow⟩ := undoBlockTwoPhase_spec s.utxoSet hshape
    (fun tx _ => inside_univ tx) hund
  have htip : s.bestChain = tipOf (b :: q :: p) := h.tip
  have hstep : s.disconnectTip = ((s.setUTXO u).commitBack b q.getHash
      (indexEntry q p.length (workOf (q :: p)) posq), true) := by
    unfold ChainState.disconnectTip
    rw [if_neg (by rw [htip]; simp [tipOf])]
    have hhash : s.bestChain.blockHash = b.getHash := by rw [htip]; rfl
    simp only [hhash, hentry, indexEntry, hread, hundo, hrun, hprev]
    rw [hqentry]
    rfl
  refine ⟨_, spents, hstep, ?_⟩
  have hparts := disconnectedParts s u b q.getHash (indexEntry q p.length (workOf (q :: p)) posq)
  generalize (s.setUTXO u).commitBack b q.getHash
    (indexEntry q p.length (workOf (q :: p)) posq) = s' at hparts ⊢
  have htable := hparts.table
  obtain ⟨htab, htabIff⟩ := table_tail (b := b) (by simp) h.table
  obtain ⟨hat, hview, -⟩ := flush_setBestBlock ((hshow.rep h.atTip.rep).setTrail []) q.getHash
  have hv : s'.utxoSet.view = s.utxoSet.view.undoBlock b spents := by
    rw [hparts.utxoSet, UTXOSet.view_setTrail, hview, UTXOSet.view_setTrail, hshow.view]
  refine ⟨{ initialized := hparts.initialized.trans h.initialized
            path := hparts.blockData ▸ hp
            tip := hparts.tip
            table := htable ▸ htab
            store := hparts.blockData ▸ h.store
            valid := hvalid
            undos := hparts.blockData ▸ h.undos
            hasUndo := ?_
            atTip := ?_
            below := ?_
            exact := ?_
            best := hparts.best
            genesis := hparts.genesis.trans h.genesis },
    ⟨keeps_of_db_eq (by rw [hparts.blockData]), keeps_of_db_eq (by rw [hparts.blockData]),
      htable ▸ htabIff, hparts.invalid⟩, happ, hv⟩
  · intro b' q' hsuf hq'
    rw [hparts.blockData]
    exact h.hasUndo b' q' (hsuf.trans (List.suffix_cons ..)) hq'
  · rw [hparts.utxoSet, hparts.tip]
    exact hat.setTrail []
  · rw [hv]
    exact h.below.undoBlock hshape View.loss_below happ (live_viewOf _) (View.fresh_below _ _ b)
  · intro hdistinct
    rw [hv]
    rw [hparts.blockData] at hdistinct
    exact (h.exact hdistinct).undoBlock hshape View.loss_eq happ (live_viewOf _)
      (fresh_viewOf (hdistinct _ hpath) _)

theorem Inv.disconnectTip (h : Inv s (b :: q :: p)) :
    ∃ s', s.disconnectTip = (s', true) ∧ Inv s' (q :: p) ∧ StepFrom s s' := by
  obtain ⟨s', -, hrun, hinv, hstep, -⟩ := h.disconnectTip_spec
  exact ⟨s', hrun, hinv, hstep⟩

end Moneu
