/-
# Blocks with nothing but a coinbase

A block whose only transaction is a coinbase spends nothing, so whether a node takes it is a matter of
its header, its reward and the blocks the node knows.  `Knows s q p known` says that the node `s` is on the
chain `q :: p`, that `known` are the blocks in its index, all at the easiest difficulty, and that it holds
none of them for invalid.  Two steps keep it: a block on top of the tip (`Knows.extend`) and a block on a
branch with no more work (`Knows.aside`).  With these a run on given blocks is followed without computing
the states it goes through.
-/
import Moneu.Chain.Application
import Moneu.Chain.Extend
import Moneu.Consensus.Work
import Moneu.Crypto.Sha256Nat

namespace Moneu

open NetParams Journal UTXOSet BlockData ChainState

/-! ## 1. Header checks at the easiest difficulty -/

section Early

variable {s : ChainState} {b : Block} {p : List Block}

theorem mem_pastTimes {bd : BlockData} {time : UInt64} : ∀ (n : Nat) {p : List Block} {b : Block},
    IsPath bd (b :: p) → time ∈ pastTimes bd n b.getHash → ∃ c ∈ b :: p, c.header.timestamp = time
  | 0, _, _, _, h => by simp [pastTimes] at h
  | n + 1, p, b, hpath, h => by
    obtain ⟨pos, hentry⟩ := readBlockIndex_path hpath
    rw [pastTimes, hentry] at h
    rcases List.mem_cons.mp h with rfl | h
    · exact ⟨b, List.mem_cons_self .., rfl⟩
    · split at h
      · cases h
      · rename_i hzero
        cases hpath with
        | genesis =>
          have hprev : buildGenesisBlock.header.prevBlockHash.isZero = true := by decide
          exact absurd hprev hzero
        | cons hp hprev =>
          simp only [indexEntry, hprev] at h
          obtain ⟨c, hc, htime⟩ := mem_pastTimes n hp h
          exact ⟨c, List.mem_cons_of_mem _ hc, htime⟩

/-- **The median time past of the tip is the time of a block of the chain.** -/
theorem getMedianTimePast_mem (h : Follows s (b :: p)) :
    ∃ c ∈ b :: p, c.header.timestamp = s.getMedianTimePast s.bestChain.blockHash := by
  obtain ⟨pos, hentry⟩ := readBlockIndex_path h.path
  rw [h.tip_hash, getMedianTimePast]
  refine mem_pastTimes MEDIAN_TIME_SPAN h.path ?_
  generalize htimes : pastTimes s.blockData MEDIAN_TIME_SPAN b.getHash = times
  have hne : times ≠ [] := by
    rw [← htimes, MEDIAN_TIME_SPAN, pastTimes, hentry]
    simp
  have hlt : times.length / 2 < (times.insertionSort (· ≤ ·)).length := by
    rw [List.length_insertionSort]
    have := List.length_pos_iff.mpr hne
    omega
  rw [medianTime, List.getElem?_eq_getElem hlt, Option.getD_some]
  exact (List.mem_insertionSort _).mp (List.getElem_mem hlt)

/-- Before the first retarget the bits of the tip are asked for again. -/
theorem getExpectedBits_early (h : Follows s (b :: p)) (hbits : b.header.bits = POW_LIMIT_COMPACT)
    (hlow : p.length + 1 < DIFFICULTY_ADJUSTMENT_INTERVAL) :
    s.getExpectedBits (s.bestChain.height + 1) = POW_LIMIT_COMPACT := by
  have hheight : s.bestChain.height = p.length := h.tip_height
  have htip : s.bestChain.bits = POW_LIMIT_COMPACT := by
    rw [h.tip]
    exact hbits
  simp only [DIFFICULTY_ADJUSTMENT_INTERVAL] at hlow
  have hasert : isAsertHeight (s.bestChain.height + 1) = false := by
    simp only [isAsertHeight, ASERT_ANCHOR_HEIGHT, decide_eq_false_iff_not, hheight]
    omega
  have hretarget : isRetargetHeight (s.bestChain.height + 1) = false := by
    simp only [isRetargetHeight, DIFFICULTY_ADJUSTMENT_INTERVAL, hheight, Bool.and_eq_false_iff,
      decide_eq_false_iff_not]
    omega
  unfold getExpectedBits
  split
  · rfl
  · rw [hasert, hretarget]
    exact htip

/-- **A header passes the checks of `ConnectBlockLocked`** before the first retarget if it stands on the
tip, is later than every block of the chain and has the easiest difficulty. -/
theorem headerExtendsTip_early (h : Follows s (b :: p)) (hbits : b.header.bits = POW_LIMIT_COMPACT)
    (hlow : p.length + 1 < DIFFICULTY_ADJUSTMENT_INTERVAL) {hdr : BlockHeader}
    (hheight : hdr.height.toNat = p.length + 1) (hprev : hdr.prevBlockHash = b.getHash)
    (htime : ∀ c ∈ b :: p, c.header.timestamp < hdr.timestamp) (heasy : hdr.bits = POW_LIMIT_COMPACT)
    (hwork : checkProofOfWork hdr.getHash hdr.bits = true) : s.headerExtendsTip hdr = true := by
  have hlink : (if s.bestChain.height = 0 then decide (hdr.prevBlockHash = getGenesisHash)
      else decide (hdr.prevBlockHash = s.bestChain.blockHash)) = true := by
    split
    · rename_i hzero
      rw [h.tip_height] at hzero
      have hpath := h.path
      rw [List.length_eq_zero_iff.mp hzero] at hpath
      cases hpath with
      | genesis => exact decide_eq_true (hprev.trans buildGenesisBlock_getHash)
    · exact decide_eq_true (hprev.trans h.tip_hash.symm)
  have hmedian : s.getMedianTimePast s.bestChain.blockHash < hdr.timestamp := by
    obtain ⟨c, hc, hct⟩ := getMedianTimePast_mem h
    rw [← hct]
    exact htime c hc
  have hnext : hdr.height.toNat = s.bestChain.height + 1 := by rw [hheight, h.tip_height]
  have hexpected : hdr.bits = s.getExpectedBits (s.bestChain.height + 1) := by
    rw [heasy, getExpectedBits_early h hbits hlow]
  unfold headerExtendsTip
  simp only [Bool.and_eq_true, Bool.or_eq_true, decide_eq_true_eq]
  exact ⟨⟨⟨⟨hnext, hlink⟩, .inr hmedian⟩, hexpected⟩, hwork⟩

end Early

/-! ## 2. The blocks -/

/-- The block `b` has the easiest difficulty, nothing but the coinbase `tx`, and passes every check that
needs no chain state. -/
structure Solo (b : Block) (tx : Transaction) : Prop where
  transactions : b.transactions = [tx]
  coinbase : tx.isCoinbase = true
  version : b.header.version ≠ 0
  time : GENESIS_TIMESTAMP ≤ b.header.timestamp
  root : tx.getHash = b.header.merkleRoot
  root_ne : b.header.merkleRoot.isZero = false
  leafRoot : b.header.leafRoot = FixedBytes.zero
  bits : b.header.bits = POW_LIMIT_COMPACT
  work : checkProofOfWork b.getHash POW_LIMIT_COMPACT = true
  size : b.getSerializedSize ≤ MAX_BLOCK_SIZE
  value : coinbaseOk b = true

namespace Solo

variable {b : Block} {tx : Transaction}

theorem shape (h : Solo b tx) : b.Shape tx [] := ⟨h.transactions, h.coinbase, by simp⟩

theorem checkBlock (h : Solo b tx) {now : UInt64} (hnow : b.header.timestamp ≤ now + 7200) :
    BlockValidation.checkBlock b now = .ok () := by
  have hwork : checkProofOfWork b.header.getHash b.header.bits = true := by
    rw [h.bits]
    exact h.work
  have htime : ¬ b.header.timestamp < GENESIS_TIMESTAMP := UInt64.not_lt.mpr h.time
  have hpos : ¬ b.header.timestamp = 0 := by
    intro hzero
    have := h.time
    rw [hzero] at this
    exact absurd this (by decide)
  have hheader : BlockValidation.checkBlockHeader b.header now = .ok () := by
    unfold BlockValidation.checkBlockHeader
    rw [if_neg h.version, if_neg htime, if_neg hpos, if_neg (UInt64.not_lt.mpr hnow),
      if_neg (by simp [h.root_ne]), if_neg (by simp [hwork])]
  have hsize : BlockValidation.checkBlockSize b = .ok () :=
    if_neg (Nat.not_lt.mpr h.size)
  have hmerkle : BlockValidation.checkMerkleRoot b = .ok () := by
    refine if_neg (not_not.mpr ?_)
    rw [Block.computeMerkleRoot, h.transactions]
    exact h.root
  have htxs : BlockValidation.checkBlockTransactions b = .ok () := by
    rw [BlockValidation.checkBlockTransactions, h.transactions]
    simp [h.coinbase, BlockValidation.checkOthersFrom]
  have hdup : BlockValidation.checkDuplicateTransactions b = .ok () := by
    rw [BlockValidation.checkDuplicateTransactions, h.transactions]
    simp [BlockValidation.checkDuplicatesFrom]
  unfold BlockValidation.checkBlock
  rw [hheader, hsize, hmerkle, htxs, hdup]
  rfl

theorem reveals (h : Solo b tx) : BlockValidation.checkBlockReveals b = .ok () := by
  refine if_neg (not_not.mpr ?_)
  rw [Block.computeLeafRoot, h.transactions, h.leafRoot]
  simp only [List.flatMap_cons, List.flatMap_nil, Block.leafCommitments, h.coinbase, ↓reduceIte,
    List.append_nil]
  rfl

theorem applies (h : Solo b tx) (height : UInt32) (v : View) : v.BlockApplies height b [] := by
  rw [View.BlockApplies, h.transactions]
  exact trivial

theorem applyBlock_eq (h : Solo b tx) (height : UInt32) (v : View) :
    v.applyBlock height b = v.applyTx height true tx := by
  simp only [View.applyBlock, h.transactions, h.coinbase]
  rfl

end Solo

/-- The work of one block at the easiest difficulty. -/
def minWork : Nat := 4295032833

theorem workValue_minWork : workValue (getBlockProof POW_LIMIT_COMPACT) = minWork := by
  decide +kernel

/-- The entry `e` of the block `b`, on a chain where every block has the easiest difficulty. -/
structure EntryOf (b : Block) (e : BlockIndexEntry) : Prop where
  prev : e.hashPrev = b.header.prevBlockHash
  height : e.nHeight = b.header.height.toNat
  work : workValue e.nChainWork = (e.nHeight + 1) * minWork

/-- The node `s` is on the chain `q :: p` and its index has the blocks `known`, all at the easiest
difficulty; it holds none of them for invalid, and none above genesis is a checkpoint. -/
structure Knows (s : ChainState) (q : Block) (p known : List Block) : Prop extends Inv s (q :: p) where
  index : ∀ hash, s.blockData.hasBlock hash = true → hash ∈ known.map Block.getHash
  entries : ∀ b ∈ known, ∃ e, s.blockData.readBlockIndex b.getHash = some e ∧ EntryOf b e
  points : ∀ b ∈ known, b.getHash ∈ MAINNET_CHECKPOINTS.map Prod.snd → b.header.height = 0
  unmarked : s.invalidBlocks = ∅
  tip_known : q ∈ known
  easy : q.header.bits = POW_LIMIT_COMPACT
  times : ∀ c ∈ q :: p, c.header.timestamp ≤ q.header.timestamp

/-- A block that the node can take next: it is new, stands on the known block `c`, and is no
checkpoint. -/
structure Next (known : List Block) (c b : Block) (tx : Transaction) (now : UInt64) : Prop
    extends Solo b tx where
  parent : c ∈ known
  prev : b.header.prevBlockHash = c.getHash
  height : b.header.height.toNat = c.header.height.toNat + 1
  new : b.getHash ∉ known.map Block.getHash
  point : b.getHash ∉ MAINNET_CHECKPOINTS.map Prod.snd
  now : b.header.timestamp ≤ now + 7200

/-- The same of a block with any transactions, which passes every check that needs no chain state. -/
structure NextOn (known : List Block) (c b : Block) (now : UInt64) : Prop where
  check : BlockValidation.checkBlock b now = .ok ()
  reveals : BlockValidation.checkBlockReveals b = .ok ()
  value : coinbaseOk b = true
  bits : b.header.bits = POW_LIMIT_COMPACT
  work : checkProofOfWork b.getHash POW_LIMIT_COMPACT = true
  parent : c ∈ known
  prev : b.header.prevBlockHash = c.getHash
  height : b.header.height.toNat = c.header.height.toNat + 1
  new : b.getHash ∉ known.map Block.getHash
  point : b.getHash ∉ MAINNET_CHECKPOINTS.map Prod.snd

theorem Next.on {known : List Block} {c b : Block} {tx : Transaction} {now : UInt64}
    (h : Next known c b tx now) : NextOn known c b now :=
  { h with check := h.checkBlock h.now, reveals := h.reveals }

namespace Knows

variable {s : ChainState} {q : Block} {p known : List Block}

theorem lastCheckpointHeight_le (h : Knows s q p known) {height : Nat}
    (hlast : lastCheckpointHeight s.blockData = some height) : height = 0 := by
  obtain ⟨point, hpoint, hsome⟩ := List.exists_of_findSome?_eq_some hlast
  obtain ⟨e, he, rfl⟩ := Option.map_eq_some_iff.mp hsome
  have hmem : point.2 ∈ known.map Block.getHash :=
    h.index _ (by rw [hasBlock, he]; rfl)
  obtain ⟨b, hb, hhash⟩ := List.mem_map.mp hmem
  obtain ⟨e', he', hentry⟩ := h.entries b hb
  rw [hhash, he] at he'
  cases he'
  rw [hentry.height, h.points b hb (hhash ▸ List.mem_map_of_mem (List.mem_reverse.mp hpoint))]
  rfl

theorem storable [Ed25519] (h : Knows s q p known) {c b : Block} {now : UInt64}
    (hb : NextOn known c b now) {e : BlockIndexEntry}
    (he : s.blockData.readBlockIndex c.getHash = some e) (hentry : EntryOf c e)
    (hverdict : VerdictOk s b (e.nHeight + 1)) : Storable s now b e where
  initialized := h.initialized
  new := by
    rw [← Bool.not_eq_true]
    exact fun hhas => hb.new (h.index _ hhas)
  notInvalid := by simp [h.unmarked]
  onParent := hb.prev ▸ he
  height := by rw [hb.height, hentry.height]
  work := hb.bits ▸ hb.work
  parentValid := by simp [h.unmarked]
  checkpoint := fun height hlast => by
    rw [h.lastCheckpointHeight_le hlast]
    exact Nat.zero_le _
  check := hb.check
  reveals := hb.reveals
  coinbase := hb.value
  verdict := hverdict

theorem tip_work (h : Knows s q p known) : q.header.height.toNat = p.length ∧
    workValue s.bestChain.chainWork = (p.length + 1) * minWork := by
  obtain ⟨e, he, hentry⟩ := h.entries q h.tip_known
  have htip := h.toFollows.parent_height (h.toFollows.tip_hash ▸ he)
  have hheight : e.nHeight = p.length := Nat.succ.inj htip.1
  rw [← hheight, ← hentry.height, ← htip.2]
  exact ⟨rfl, hentry.work⟩

theorem stored (h : Knows s q p known) {c b : Block} {now : UInt64}
    (hb : NextOn known c b now) {e : BlockIndexEntry}
    (hentry : EntryOf c e) (hlow : e.nHeight < 2016) {s₁ : ChainState}
    (hstored : StoredFrom s b e s₁) :
    (∀ hash, s₁.blockData.hasBlock hash = true → hash ∈ (b :: known).map Block.getHash) ∧
      (∀ b' ∈ b :: known, ∃ e', s₁.blockData.readBlockIndex b'.getHash = some e' ∧ EntryOf b' e') ∧
      ∀ b' ∈ b :: known, b'.getHash ∈ MAINNET_CHECKPOINTS.map Prod.snd → b'.header.height = 0 := by
  refine ⟨fun hash hhas => ?_, fun b' hb' => ?_, fun b' hb' => ?_⟩
  · by_cases hhash : hash = b.getHash
    · rw [hhash]
      exact List.mem_cons_self ..
    · rw [hasBlock, hstored.other hash hhash] at hhas
      exact List.mem_cons_of_mem _ (h.index hash hhas)
  · rcases List.mem_cons.mp hb' with rfl | hb'
    · obtain ⟨pos, hnew, -⟩ := hstored.entry
      refine ⟨_, hnew, rfl, ?_, ?_⟩
      · rw [hb.height, ← hentry.height]
        rfl
      · have hsum : workValue e.nChainWork + minWork < 2 ^ 256 := by
          rw [hentry.work, minWork]
          omega
        change workValue (addChainWork e.nChainWork b'.header.bits) = (e.nHeight + 1 + 1) * minWork
        rw [workValue_addChainWork, hb.bits, workValue_minWork, Nat.mod_eq_of_lt hsum, hentry.work]
        ring
    · have hne : b'.getHash ≠ b.getHash := fun heq => hb.new (heq ▸ List.mem_map_of_mem hb')
      rw [hstored.other _ hne]
      exact h.entries b' hb'
  · rcases List.mem_cons.mp hb' with rfl | hb'
    · exact fun hpoint => absurd hpoint hb.point
    · exact h.points b' hb'

/-- A step that stores nothing leaves the entries as they are, but for their positions. -/
theorem entries_step {s s' : ChainState} {known : List Block} (hstep : StepFrom s s')
    (hindex : ∀ hash, s.blockData.hasBlock hash = true → hash ∈ known.map Block.getHash)
    (hentries : ∀ b ∈ known, ∃ e, s.blockData.readBlockIndex b.getHash = some e ∧ EntryOf b e) :
    (∀ hash, s'.blockData.hasBlock hash = true → hash ∈ known.map Block.getHash) ∧
      ∀ b ∈ known, ∃ e, s'.blockData.readBlockIndex b.getHash = some e ∧ EntryOf b e := by
  constructor
  · intro hash hhas
    obtain ⟨e, he⟩ := Option.isSome_iff_exists.mp hhas
    obtain ⟨pos, hback, -⟩ := hstep.back hash e he
    exact hindex hash (by rw [hasBlock, hback]; rfl)
  · intro b hb
    obtain ⟨e, he, hentry⟩ := hentries b hb
    obtain ⟨pos, hkept, -⟩ := hstep.keeps _ e he
    exact ⟨_, hkept, hentry.prev, hentry.height, hentry.work⟩

/-- The header of a block on top of the tip passes the checks of `ConnectBlockLocked`. -/
theorem headerExtendsTip (h : Knows s q p known) {b : Block} {now : UInt64}
    (hb : NextOn known q b now) (hlow : p.length + 1 < DIFFICULTY_ADJUSTMENT_INTERVAL)
    (htime : q.header.timestamp < b.header.timestamp) : s.headerExtendsTip b.header = true :=
  headerExtendsTip_early h.toFollows h.easy hlow (by rw [hb.height, h.tip_work.1]) hb.prev
    (fun c hc => UInt64.lt_of_le_of_lt (h.times c hc) htime) hb.bits (hb.bits ▸ hb.work)

theorem more_work (h : Knows s q p known) {bits : UInt32} (hbits : bits = POW_LIMIT_COMPACT)
    (hlow : p.length + 1 < DIFFICULTY_ADJUSTMENT_INTERVAL) :
    compareWork (addChainWork s.bestChain.chainWork bits) s.bestChain.chainWork = .gt := by
  rw [compareWork_gt, workValue_addChainWork, hbits, workValue_minWork, h.tip_work.2, minWork]
  simp only [DIFFICULTY_ADJUSTMENT_INTERVAL] at hlow
  omega

theorem distinctTxids (h : Knows s q p known) (hpaths : ∀ b ∈ known, ∃ below,
    IsPath s.blockData (b :: below) ∧ (txidsOf (b :: below)).Nodup) : DistinctTxids s.blockData := by
  intro p' hp'
  obtain ⟨c, r, rfl⟩ := List.exists_cons_of_length_pos (pathLength_pos hp')
  obtain ⟨pos, hentry, -⟩ := hp'.stored
  have hhas : s.blockData.hasBlock c.getHash = true := by
    rw [hasBlock, hentry]
    rfl
  obtain ⟨b, hb, hhash⟩ := List.mem_map.mp (h.index _ hhas)
  obtain ⟨below, hpath, hnodup⟩ := hpaths b hb
  rw [hp'.unique hpath hhash.symm]
  exact hnodup

section Steps

variable [Ed25519]

/-- **A block on top of the tip that passes every check becomes the tip.** -/
theorem extendOn (h : Knows s q p known) {b : Block} {now : UInt64} (hb : NextOn known q b now)
    (hlow : p.length + 1 < DIFFICULTY_ADJUSTMENT_INTERVAL)
    (htime : q.header.timestamp < b.header.timestamp)
    (hverdict : BlockValidation.checkBlockTransactionsWithUTXO b s.utxoSet
      (UInt32.ofNat (p.length + 1)) = .ok ())
    (happ : ∃ spents, s.utxoSet.view.BlockApplies (UInt32.ofNat (p.length + 1)) b spents)
    (hread : (Block.deserialize b.serialize).toOption.isSome = true) :
    (s.acceptBlock noFaults now b).2 = .ret true ∧
      Knows (s.acceptBlock noFaults now b).1 b (q :: p) (b :: known) ∧
      ∃ s₁, OnTip s (q :: p) b s₁ (s.acceptBlock noFaults now b).1 := by
  obtain ⟨e, he, hentry⟩ := h.entries q h.tip_known
  have hnext : e.nHeight = p.length := hentry.height.trans h.tip_work.1
  have hst : Storable s now b e := h.storable hb he hentry fun _ => by
    rw [hnext]
    exact hverdict
  obtain ⟨hret, s₁, hon⟩ := h.toInv.onTip_of_storable hst (hb.prev.trans h.toFollows.tip_hash.symm)
    hread (h.headerExtendsTip hb hlow htime) happ (h.more_work hb.bits hlow)
  obtain ⟨parent, hparent, hstored⟩ := hon.stored
  rw [hb.prev, he] at hparent
  cases hparent
  simp only [DIFFICULTY_ADJUSTMENT_INTERVAL] at hlow
  obtain ⟨hindex, hentries, hpoints⟩ := h.stored hb hentry (by omega) hstored
  obtain ⟨hindex', hentries'⟩ := entries_step hon.step hindex hentries
  refine ⟨hret, { hon.inv with
    index := hindex'
    entries := hentries'
    points := hpoints
    unmarked := by rw [hon.step.invalid, hstored.invalid, h.unmarked]
    tip_known := List.mem_cons_self ..
    easy := hb.bits
    times := ?_ }, s₁, hon⟩
  intro c hc
  rcases List.mem_cons.mp hc with rfl | hc
  · exact UInt64.le_refl _
  · exact UInt64.le_of_lt (UInt64.lt_of_le_of_lt (h.times c hc) htime)

/-- **A block with nothing but a coinbase on top of the tip becomes the tip.** -/
theorem extend (h : Knows s q p known) {b : Block} {tx : Transaction} {now : UInt64}
    (hb : Next known q b tx now) (hlow : p.length + 1 < DIFFICULTY_ADJUSTMENT_INTERVAL)
    (htime : q.header.timestamp < b.header.timestamp)
    (hreward : BlockValidation.checkCoinbaseValue tx (UInt32.ofNat (p.length + 1)) 0 = .ok ())
    (hread : (Block.deserialize b.serialize).toOption.isSome = true) :
    (s.acceptBlock noFaults now b).2 = .ret true ∧
      Knows (s.acceptBlock noFaults now b).1 b (q :: p) (b :: known) ∧
      ∃ s₁, OnTip s (q :: p) b s₁ (s.acceptBlock noFaults now b).1 := by
  refine h.extendOn hb.on hlow htime ?_ ⟨[], hb.applies _ _⟩ hread
  rw [BlockValidation.checkBlockTransactionsWithUTXO_coinbase hb.transactions]
  exact hreward

/-- **A block on a branch with no more work than the tip is only stored.** -/
theorem aside (h : Knows s q p known) {c b : Block} {tx : Transaction} {now : UInt64}
    (hb : Next known c b tx now) (hoff : c.getHash ≠ q.getHash)
    (hlow : c.header.height.toNat + 1 ≤ p.length) (hshort : p.length < DIFFICULTY_ADJUSTMENT_INTERVAL) :
    Knows (s.acceptBlock noFaults now b).1 q p (b :: known) ∧
      ∃ e, s.blockData.readBlockIndex b.header.prevBlockHash = some e ∧
        StoredFrom s b e (s.acceptBlock noFaults now b).1 := by
  obtain ⟨e, he, hentry⟩ := h.entries c hb.parent
  have hne : ¬ b.header.prevBlockHash = s.bestChain.blockHash := by
    rw [hb.prev, h.toFollows.tip_hash]
    exact hoff
  have hst : Storable s now b e := h.storable hb.on he hentry fun htip => absurd htip hne
  obtain ⟨hinv₁, hstored⟩ := h.toInv.storeBlock hst.new hst.checked hst.onParent
    (b.header.prevBlockHash = s.bestChain.blockHash)
  rw [hst.acceptBlock_eq, storeAndActivate]
  generalize s.storeBlock b (e.nHeight + 1) (addChainWork e.nChainWork b.header.bits)
    (decide (b.header.prevBlockHash = s.bestChain.blockHash)) = s₁ at hinv₁ hstored ⊢
  simp only [DIFFICULTY_ADJUSTMENT_INTERVAL] at hshort
  have hheight := hentry.height
  have hless : compareWork (addChainWork e.nChainWork b.header.bits) s₁.bestChain.chainWork ≠ .gt := by
    rw [Ne, compareWork_gt, hstored.tip, workValue_addChainWork, hb.bits, workValue_minWork,
      h.tip_work.2, hentry.work, minWork]
    omega
  rw [if_pos hless]
  obtain ⟨hindex, hentries, hpoints⟩ := h.stored hb.on hentry (by omega) hstored
  exact ⟨{ hinv₁ with
    index := hindex
    entries := hentries
    points := hpoints
    unmarked := by rw [hstored.invalid, h.unmarked]
    tip_known := List.mem_cons_of_mem _ h.tip_known
    easy := h.easy
    times := h.times }, e, hst.onParent, hstored⟩

end Steps

end Knows

/-- **A node that is started for the first time** knows the genesis block. -/
theorem knows_fresh : Knows fresh.1 buildGenesisBlock [] [buildGenesisBlock] where
  toInv := inv_fresh.2
  index := fun hash hhas => by
    have hmem : hash ∈ fresh.1.blockData.db.index.keys :=
      AList.mem_keys.mp (AList.lookup_isSome.mp hhas)
    rw [index_fresh.1, ← buildGenesisBlock_getHash] at hmem
    exact hmem
  entries := fun b hb => by
    rw [List.mem_singleton.mp hb]
    obtain ⟨pos, he, -⟩ := inv_fresh.2.store.genesis
    have hwork : workValue (workOf [buildGenesisBlock]) = (0 + 1) * minWork := by decide +kernel
    exact ⟨_, he, rfl, rfl, hwork⟩
  points := fun b hb _ => by
    rw [List.mem_singleton.mp hb]
    rfl
  unmarked := index_fresh.2
  tip_known := List.mem_singleton_self _
  easy := rfl
  times := fun c hc => by
    rw [List.mem_singleton.mp hc]
    exact UInt64.le_refl _

/-! ## 4. Blocks to run on -/

/-- A coinbase that pays `value` to the key hash whose bytes are all `k`. -/
def coinbaseTo (value : Int64) (k : UInt8) (noiseProof : List UInt8) : Transaction where
  version := 1
  inputs := [{ prevTxHash := FixedBytes.zero, outputIndex := 0xFFFFFFFF, pubkey := FixedBytes.zero,
               signature := FixedBytes.zero, kps := FixedBytes.zero, noiseProof }]
  outputs := [TxOutput.ofPubkeyHash value ⟨List.replicate 32 k, by simp⟩]
  locktime := 0
  inputs_le := by simp [Transaction.MAX_INPUTS]
  outputs_le := by simp [Transaction.MAX_OUTPUTS]

/-- A block at the easiest difficulty with nothing but the coinbase `tx`, whose txid is `root`. -/
def solo (prev root : Bytes32) (tx : Transaction) (timestamp : UInt64) (height nonce : UInt32) :
    Block where
  header := { version := 1, prevBlockHash := prev, merkleRoot := root, leafRoot := FixedBytes.zero,
              timestamp, height, bits := POW_LIMIT_COMPACT, nonce }
  transactions := [tx]
  transactions_le := by simp [Block.MAX_TRANSACTIONS]

theorem getSerializedSize_coinbaseTo (value : Int64) (k : UInt8) (noiseProof : List UInt8) :
    (coinbaseTo value k noiseProof).getSerializedSize true = 234 + noiseProof.length := by
  have hinput : ∀ input : TxInput, input.getSerializedSize true = 168 + input.noiseProof.length := by
    simp only [TxInput.getSerializedSize, ↓reduceIte]
    omega
  have hscript : (Script.createPayToPubkeyHash ⟨List.replicate 32 k, by simp⟩).length = 37 := rfl
  have hlen : compactSizeLen 37 = 1 := rfl
  simp only [coinbaseTo, Transaction.getSerializedSize, TxOutput.getSerializedSize, hinput, hscript,
    TxOutput.ofPubkeyHash, hlen, List.map_cons, List.map_nil, List.sum_cons, List.sum_nil]
  omega

/-- **What is left to check of such a block** when its hash and its txid are known. -/
theorem solo_of_hash {prev root hash : Bytes32} {value : Int64} {k : UInt8} {noiseProof : List UInt8}
    {timestamp : UInt64} {height nonce : UInt32}
    (hhash : (solo prev root (coinbaseTo value k noiseProof) timestamp height nonce).getHash = hash)
    (hroot : (coinbaseTo value k []).getHash = root)
    (hchecks : root.isZero = false ∧ GENESIS_TIMESTAMP ≤ timestamp ∧
      checkProofOfWork hash POW_LIMIT_COMPACT = true)
    (hvalue : coinbaseOk (solo prev root (coinbaseTo value k []) timestamp height nonce) = true)
    (hproof : noiseProof.length < 6000000) :
    Solo (solo prev root (coinbaseTo value k noiseProof) timestamp height nonce)
      (coinbaseTo value k noiseProof) where
  transactions := rfl
  coinbase := rfl
  version := by simp [solo]
  time := hchecks.2.1
  root := hroot
  root_ne := hchecks.1
  leafRoot := rfl
  bits := rfl
  work := hhash ▸ hchecks.2.2
  size := by
    rw [Block.getSerializedSize]
    simp only [solo, List.map_cons, List.map_nil, List.sum_cons, List.sum_nil,
      getSerializedSize_coinbaseTo, BlockHeader.SERIALIZED_SIZE, MAX_BLOCK_SIZE]
    omega
  value := hvalue

/-- **What is left to check before the block can come next.** -/
theorem Solo.next {known : List Block} {c b : Block} {tx : Transaction} {now : UInt64} {hash : Bytes32}
    {hashes : List Bytes32} (h : Solo b tx) (hparent : c ∈ known)
    (hprev : b.header.prevBlockHash = c.getHash)
    (hheight : b.header.height.toNat = c.header.height.toNat + 1) (hhash : b.getHash = hash)
    (hknown : List.Forall₂ (fun c hash => Block.getHash c = hash) known hashes)
    (hchecks : hash ∉ hashes ∧ hash ∉ MAINNET_CHECKPOINTS.map Prod.snd ∧
      b.header.timestamp ≤ now + 7200) : Next known c b tx now where
  toSolo := h
  parent := hparent
  prev := hprev
  height := hheight
  new := by
    have hmap : known.map Block.getHash = hashes := by
      rw [← List.forall₂_eq_eq_eq, List.forall₂_map_left_iff]
      exact hknown
    rw [hhash, hmap]
    exact hchecks.1
  point := hhash ▸ hchecks.2.1
  now := hchecks.2.2

/-- What is computed for a given block: its hash, the txid of its coinbase, and the checks. -/
structure Sample (b : Block) (tx : Transaction) (hash root : Bytes32) : Prop where
  getHash : b.getHash = hash
  txid : tx.getHash = root
  checks : root.isZero = false ∧ GENESIS_TIMESTAMP ≤ b.header.timestamp ∧
    checkProofOfWork hash POW_LIMIT_COMPACT = true
  value : coinbaseOk b = true
  reads : (Block.deserialize b.serialize).toOption.isSome = true

/-- The same with SHA-256 on natural numbers. -/
def sampleCheck (b : Block) (tx : Transaction) (hash root : Bytes32) : Bool :=
  fastSha256 b.header.serialize = hash && fastSha256 (tx.serialize false) = root &&
    (!root.isZero && GENESIS_TIMESTAMP ≤ b.header.timestamp &&
      checkProofOfWork hash POW_LIMIT_COMPACT) &&
    coinbaseOk b && (Block.deserialize b.serialize).toOption.isSome

theorem sample_of_check {b : Block} {tx : Transaction} {hash root : Bytes32}
    (h : sampleCheck b tx hash root = true) : Sample b tx hash root := by
  simp only [sampleCheck, Bool.and_eq_true, decide_eq_true_eq, Bool.not_eq_true'] at h
  obtain ⟨⟨⟨⟨hhash, hroot⟩, ⟨hzero, htime⟩, hwork⟩, hvalue⟩, hread⟩ := h
  refine ⟨?_, ?_, ⟨hzero, htime, hwork⟩, hvalue, hread⟩
  · rw [Block.getHash, BlockHeader.getHash, sha256_eq]
    exact hhash
  · rw [Transaction.getHash, sha256_eq]
    exact hroot

theorem Sample.solo {prev root hash : Bytes32} {value : Int64} {k : UInt8} {timestamp : UInt64}
    {height nonce : UInt32} (h : Sample (Moneu.solo prev root (coinbaseTo value k []) timestamp height nonce)
      (coinbaseTo value k []) hash root) :
    Solo (Moneu.solo prev root (coinbaseTo value k []) timestamp height nonce) (coinbaseTo value k []) :=
  solo_of_hash h.getHash h.txid h.checks h.value (by decide)

def rootX : Bytes32 :=
  FixedBytes.ofNat 32 0xf4da9cfe93222887932401df91d78f1fef8095d2587988b2973fc96ca0d2c373

def rootY : Bytes32 :=
  FixedBytes.ofNat 32 0xb0d65a0243d37f2ea6d7f8cb3dd1bea8051f179c6eaffec7932c09984c3d7503

def a1 : Block :=
  solo getGenesisHash rootX (coinbaseTo 7700000000 1 []) 1786725267 1 267934919

def a2 : Block :=
  solo (FixedBytes.ofNat 32 0x0000000070595d7ab36f33aabbb8c83da95694d7702ca72792ee32e13501190b)
    rootX (coinbaseTo 7700000000 1 []) 1786726267 2 2643696362

def b1 : Block :=
  solo getGenesisHash rootY (coinbaseTo 7700000000 2 []) 1786725267 1 235127251

def b2 : Block :=
  solo (FixedBytes.ofNat 32 0x000000007ffc878410f3cca274e0f8309c80c346facfbb9f5ee065b0ca0297ee)
    (FixedBytes.ofNat 32 0xadf41d1ec58fb3fdf19e11646886a5d71f2cf11d212ca8293ba099cee2211502)
    (coinbaseTo 7700000000 3 []) 1786726268 2 2269526286

/-- A block on genesis whose coinbase takes one unit too much. -/
def d1 : Block :=
  solo getGenesisHash
    (FixedBytes.ofNat 32 0x73a34753100a616c3c4fb20db64539512a804f639897d47db7abbadac819552a)
    (coinbaseTo 7700000001 4 []) 1786725267 1 2084908129

def d2 : Block :=
  solo (FixedBytes.ofNat 32 0x00000000d5641125650c5be0c16be12c29f8d5702d68a6842a97bd827505a21c)
    (FixedBytes.ofNat 32 0xe9da59f1bf55c65b521e34aae7a170b9ef0c649a8451c2793cb442ce6cc6017a)
    (coinbaseTo 7700000000 5 []) 1786726268 2 1541537760

/-- Another block on top of `d1`. -/
def x2 : Block :=
  solo (FixedBytes.ofNat 32 0x00000000d5641125650c5be0c16be12c29f8d5702d68a6842a97bd827505a21c)
    rootX (coinbaseTo 7700000000 1 []) 1786726269 2 4158343999

def d3 : Block :=
  solo (FixedBytes.ofNat 32 0x0000000087f58a69e2d66a3ef2a332ebc009927a2cdc617bb3568877e3f7857f)
    rootX (coinbaseTo 7700000000 1 []) 1786727268 3 2594781172

def idle1 : Block :=
  solo getGenesisHash
    (FixedBytes.ofNat 32 0xa83ea0d281e9d34bf26167b1a0a5e36912b17adbc9d93a03096239af506680e7)
    (coinbaseTo 0 6 []) 1786725267 1 3283194410

/-- The hashes and the txids of these blocks. -/
structure Samples : Prop where
  a1 : Sample a1 (coinbaseTo 7700000000 1 [])
    (FixedBytes.ofNat 32 0x0000000070595d7ab36f33aabbb8c83da95694d7702ca72792ee32e13501190b) rootX
  a2 : Sample a2 (coinbaseTo 7700000000 1 [])
    (FixedBytes.ofNat 32 0x000000003773f98100148488a525556e6b418758e5cdf7fca99fddb5d24b5d04) rootX
  b1 : Sample b1 (coinbaseTo 7700000000 2 [])
    (FixedBytes.ofNat 32 0x000000007ffc878410f3cca274e0f8309c80c346facfbb9f5ee065b0ca0297ee) rootY
  b2 : Sample b2 (coinbaseTo 7700000000 3 [])
    (FixedBytes.ofNat 32 0x0000000017d0bb6c7ceaf05bbbd0e25d39b1bc0f8a69a0e529efc7db0f2a7e74)
    b2.header.merkleRoot
  d1 : Sample d1 (coinbaseTo 7700000001 4 [])
    (FixedBytes.ofNat 32 0x00000000d5641125650c5be0c16be12c29f8d5702d68a6842a97bd827505a21c)
    d1.header.merkleRoot
  d2 : Sample d2 (coinbaseTo 7700000000 5 [])
    (FixedBytes.ofNat 32 0x0000000087f58a69e2d66a3ef2a332ebc009927a2cdc617bb3568877e3f7857f)
    d2.header.merkleRoot
  x2 : Sample x2 (coinbaseTo 7700000000 1 [])
    (FixedBytes.ofNat 32 0x0000000033e12e8099e3a5c373e563f73e023c1785498b13ec89e65587a13938) rootX
  d3 : Sample d3 (coinbaseTo 7700000000 1 [])
    (FixedBytes.ofNat 32 0x00000000f55327172f68e089774450d12709877a5ef3f53406e45b7ce58d6e29) rootX
  idle1 : Sample idle1 (coinbaseTo 0 6 [])
    (FixedBytes.ofNat 32 0x00000000fc12532fe3377e9c42f4aabc658ec5b4a088cea03947f810a730d8a7)
    idle1.header.merkleRoot
  genesis : genesisCoinbase.getHash ≠ rootX ∧ genesisCoinbase.getHash ≠ rootY

theorem samples : Samples := by
  constructor
  case genesis =>
    rw [Transaction.getHash, sha256_eq]
    decide +kernel
  all_goals exact sample_of_check (by decide +kernel)

theorem next_a1 :
    Next [buildGenesisBlock] buildGenesisBlock a1 (coinbaseTo 7700000000 1 []) 1786725267 :=
  samples.a1.solo.next (List.mem_singleton_self _) buildGenesisBlock_getHash.symm rfl samples.a1.getHash
    (.cons buildGenesisBlock_getHash .nil) (by decide)

end Moneu
