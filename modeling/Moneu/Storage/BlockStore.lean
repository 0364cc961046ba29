/-
# The block store

What is appended to a block file stays readable at its position, and an undo record is read back
as it was written.  On top of this, `IsPath`: a list of blocks, tip first, each stored and readable,
linked by parent hashes down to genesis.  A stored hash has at most one path (`IsPath.unique`), and
no write takes a path away (`IsPath.mono`).
-/
import Moneu.Lib.Index
import Moneu.Primitives.Codec
import Moneu.Storage.ChainState
import Moneu.Validation.Accepts

namespace Moneu

open NetParams Decoder

/-! ## 1. Undo records -/

namespace BlockUndo

theorem decodes_readCoin (c : Coin) : Decodes readCoin (writeCoin c) c := by
  have hbool : ∀ b : Bool, decide ((if b then 1 else 0 : UInt8) ≠ 0) = b := by decide
  have hvalue : c.value.toUInt64.toInt64 = c.value := rfl
  have hlast : Decodes (Decoder.array 32 >>= fun pubkeyHash =>
      (pure (⟨c.value.toUInt64.toInt64, pubkeyHash, c.height,
        (if c.isCoinbase then 1 else 0 : UInt8) ≠ 0, (if c.isSpent then 1 else 0 : UInt8) ≠ 0⟩ : Coin)
        : Decoder Coin)) (c.pubkeyHash.data ++ []) c := by
    refine (Decodes.array c.pubkeyHash).bind ?_
    rw [hbool, hbool, hvalue]
    exact Decodes.pure c
  rw [List.append_nil] at hlast
  refine (Decodes.le64 c.value.toUInt64).bind ?_
  refine (Decodes.le32 c.height).bind ?_
  refine (Decodes.u8 (if c.isCoinbase then 1 else 0)).bind ?_
  exact (Decodes.u8 (if c.isSpent then 1 else 0)).bind hlast

theorem length_writeCoin (c : Coin) : (writeCoin c).length = COIN_BLOB_SIZE := by
  simp [writeCoin, COIN_BLOB_SIZE]

theorem decodes_readTxUndo {tu : TxUndo} (h : tu.spentCoins.length ≤ Block.MAX_TRANSACTIONS) :
    Decodes readTxUndo (writeTxUndo tu) tu := by
  have hcount : (UInt32.ofNat tu.spentCoins.length).toNat = tu.spentCoins.length :=
    toNat_ofNat_of_lt (by simp only [Block.MAX_TRANSACTIONS] at h; omega)
  have hcoins := (Decodes.replicate tu.spentCoins fun c _ => decodes_readCoin c).bind
    (f := fun spentCoins => pure (⟨spentCoins⟩ : TxUndo)) (Decodes.pure tu)
  rw [List.append_nil] at hcoins
  have hlen : (tu.spentCoins.flatMap writeCoin).length = tu.spentCoins.length * COIN_BLOB_SIZE := by
    rw [length_flatMap_eq_sum writeCoin (fun _ => COIN_BLOB_SIZE) length_writeCoin]
    simp
  refine Decodes.require (by simp [writeTxUndo]) ?_
  refine (Decodes.le32 (UInt32.ofNat tu.spentCoins.length)).bind ?_
  rw [hcount]
  exact Decodes.throwIf (by omega) (Decodes.require hlen.ge hcoins)

/-- **An undo record is read back as it was written.** -/
theorem deserialize_serialize {undo : BlockUndo} (h : undo.txUndo.length ≤ Block.MAX_TRANSACTIONS)
    (hcoins : ∀ tu ∈ undo.txUndo, tu.spentCoins.length ≤ Block.MAX_TRANSACTIONS) :
    deserialize undo.serialize = .ok (undo, []) := by
  have hcount : (UInt32.ofNat undo.txUndo.length).toNat = undo.txUndo.length :=
    toNat_ofNat_of_lt (by simp only [Block.MAX_TRANSACTIONS] at h; omega)
  have hall := (Decodes.replicate undo.txUndo fun tu hmem => decodes_readTxUndo (hcoins tu hmem)).bind
    (f := fun txUndo => pure (⟨txUndo⟩ : BlockUndo)) (Decodes.pure undo)
  rw [List.append_nil] at hall
  have hdec : Decodes deserialize undo.serialize undo := by
    refine Decodes.require (by simp [serialize]) ?_
    refine (Decodes.le32 (UInt32.ofNat undo.txUndo.length)).bind ?_
    rw [hcount]
    exact Decodes.throwIf (by omega) hall
  simpa using hdec []

end BlockUndo

namespace BlockData

/-! ## 2. Records in block files -/

variable {block : Block}

/-- The bytes at `pos` are the record of `block`. -/
def RecordAt (db : BlockDB) (pos : DiskBlockPos) (block : Block) : Prop :=
  pos.nFile ≠ -1 ∧ block.getSerializedSize ≤ MAX_BLOCK_SIZE ∧
    ∃ bytes rest, db.files.lookup pos.nFile = some bytes ∧ bytes.drop pos.nPos = record block ++ rest

/-- The reader of a record sees the serialized block and nothing of what is behind it. -/
theorem readRecord_append (h : block.getSerializedSize ≤ MAX_BLOCK_SIZE) (rest : List UInt8) :
    readRecord (record block ++ rest) = (Block.deserialize block.serialize).toOption.map Prod.fst := by
  have hmagic : MAINNET_MAGIC.length = 4 := rfl
  have hmax : MAX_BLOCK_SIZE < 256 ^ 4 := by decide
  have hlen : block.serialize.length = block.getSerializedSize := Block.length_serialize block
  have hpos : 0 < block.getSerializedSize := by
    unfold Block.getSerializedSize
    omega
  have hfront : ¬ (record block ++ rest).length < 8 := by
    simp only [record, List.length_append, hmagic, length_leBytes]
    omega
  have htake : (record block ++ rest).take 4 = MAINNET_MAGIC := by
    simp [record, List.take_left' hmagic]
  have hdrop : (record block ++ rest).drop 4 =
      leBytes 4 block.serialize.length ++ (block.serialize ++ rest) := by
    simp only [record, List.append_assoc, List.drop_left' hmagic]
  have hsize : leValue (((record block ++ rest).drop 4).take 4) = block.serialize.length := by
    rw [hdrop, List.take_left' (length_leBytes 4 _), leValue_leBytes 4 _ (by omega)]
  have hdata : (record block ++ rest).drop 8 = block.serialize ++ rest := by
    rw [show (8 : Nat) = 4 + 4 from rfl, ← List.drop_drop, hdrop,
      List.drop_left' (length_leBytes 4 _)]
  unfold readRecord
  rw [if_neg hfront, if_neg (by simp [htake])]
  simp only [hsize, hdata]
  rw [if_neg (by omega), if_neg (by simp), List.take_left' rfl]
  cases Block.deserialize block.serialize <;> rfl

theorem eq_of_deserialize {block' : Block} (h : block.getSerializedSize ≤ MAX_BLOCK_SIZE)
    (hread : (Block.deserialize block.serialize).toOption.map Prod.fst = some block') :
    block' = block := by
  cases hrun : Block.deserialize block.serialize with
  | error e =>
    rw [hrun] at hread
    cases hread
  | ok r =>
    have hmax : MAX_BLOCK_SIZE < 2 ^ 32 := by decide
    have hr := (Block.decodesIff (lt_of_le_of_lt h hmax)).eq_of_ok [] (by rwa [List.append_nil])
    rw [hrun, hr] at hread
    exact (Option.some.inj hread).symm

namespace RecordAt

variable {bd : BlockData} {db db' : BlockDB} {pos : DiskBlockPos} {block : Block}

theorem readBlock_eq (h : RecordAt bd.db pos block) :
    bd.readBlock pos = (Block.deserialize block.serialize).toOption.map Prod.fst := by
  obtain ⟨hpos, hsize, bytes, rest, hfile, hbytes⟩ := h
  unfold BlockData.readBlock
  rw [if_neg hpos, hfile]
  simp only [hbytes, readRecord_append hsize]

/-- **What is read at a record is the block it was written for.** -/
theorem eq_of_readBlock (h : RecordAt bd.db pos block) {block' : Block}
    (hread : bd.readBlock pos = some block') : block' = block :=
  eq_of_deserialize h.2.1 (h.readBlock_eq ▸ hread)

theorem append (h : RecordAt db pos block) (nFile : Int) (bytes : List UInt8) :
    RecordAt (BlockData.append db nFile bytes) pos block := by
  obtain ⟨hpos, hsize, old, rest, hfile, hold⟩ := h
  by_cases hn : pos.nFile = nFile
  · subst hn
    have hlt : pos.nPos ≤ old.length := by
      by_contra hgt
      rw [List.drop_eq_nil_of_le (by omega)] at hold
      exact absurd hold (by simp [record, MAINNET_MAGIC])
    refine ⟨hpos, hsize, old ++ bytes, rest ++ bytes, ?_, ?_⟩
    · simp [BlockData.append, file, hfile]
    · rw [List.drop_append_of_le_length hlt, hold, List.append_assoc]
  · exact ⟨hpos, hsize, old, rest, by
      simp [BlockData.append, AList.lookup_insert_ne hn, hfile], hold⟩

theorem congr (h : RecordAt db pos block) (hfiles : db'.files = db.files) :
    RecordAt db' pos block := by
  obtain ⟨hpos, hsize, bytes, rest, hfile, hbytes⟩ := h
  exact ⟨hpos, hsize, bytes, rest, by rw [hfiles, hfile], hbytes⟩

end RecordAt

/-! ## 3. What a write keeps -/

variable {bd : BlockData}

/-- The file written to is the last one. -/
structure FilesOk (bd : BlockData) : Prop where
  last : bd.lastBlockFile = bd.db.lastBlockFile.getD 0
  nonneg : 0 ≤ bd.lastBlockFile
  above : ∀ n, bd.lastBlockFile < n → bd.db.files.lookup n = none

/-- The store after writes to the block files only. -/
structure Appended (bd bd' : BlockData) : Prop where
  files : FilesOk bd'
  records : ∀ pos block, RecordAt bd.db pos block → RecordAt bd'.db pos block
  index : bd'.db.index = bd.db.index
  undo : bd'.db.undo = bd.db.undo

theorem FilesOk.openDB (h : FilesOk bd) : FilesOk (openDB bd.db) := by
  have hlast : (BlockData.openDB bd.db).lastBlockFile = bd.lastBlockFile := h.last.symm
  exact ⟨rfl, hlast ▸ h.nonneg, fun n hn => h.above n (hlast ▸ hn)⟩

/-- The file selected for a block ends where the record is going to be. -/
theorem selectFile_spec (h : FilesOk bd) (block : Block) :
    Appended bd (bd.selectFile block).1 ∧
      (bd.selectFile block).2 =
        (file (bd.selectFile block).1.db (bd.selectFile block).1.lastBlockFile).length := by
  unfold selectFile
  simp only
  split
  · refine ⟨⟨⟨rfl, ?_, fun n hn => h.above n ?_⟩, fun pos block hrec => hrec.congr rfl, rfl, rfl⟩, ?_⟩
    · have := h.nonneg
      simp only
      omega
    · simp only at hn
      omega
    · simp [file, write, h.above (bd.lastBlockFile + 1) (by omega)]
  · exact ⟨⟨h, fun _ _ hrec => hrec, rfl, rfl⟩, rfl⟩

theorem appended_append (h : FilesOk bd) (bytes : List UInt8) :
    Appended bd (bd.write (append bd.db bd.lastBlockFile bytes)) := by
  refine ⟨⟨h.last, h.nonneg, fun n hn => ?_⟩, fun pos block hrec => hrec.append _ _, rfl, rfl⟩
  have hne : n ≠ bd.lastBlockFile := by
    simp only [write] at hn
    omega
  simp only [write, append, AList.lookup_insert_ne hne]
  exact h.above n hn

theorem Appended.trans {bd₁ bd₂ bd₃ : BlockData} (h₁ : Appended bd₁ bd₂) (h₂ : Appended bd₂ bd₃) :
    Appended bd₁ bd₃ :=
  ⟨h₂.files, fun pos block hrec => h₂.records pos block (h₁.records pos block hrec),
    h₂.index.trans h₁.index, h₂.undo.trans h₁.undo⟩

theorem appended_writeBlockToDiskFailed (h : FilesOk bd) (block : Block) (written : Nat) :
    Appended bd (bd.writeBlockToDiskFailed block written) :=
  have hsel := (selectFile_spec h block).1
  hsel.trans (appended_append hsel.files _)

/-- **`WriteBlockToDisk` returns the position of the record, and keeps every other record.** -/
theorem writeBlockToDisk_spec (h : FilesOk bd) (hsize : block.getSerializedSize ≤ MAX_BLOCK_SIZE) :
    Appended bd (bd.writeBlockToDisk block).1 ∧
      RecordAt (bd.writeBlockToDisk block).1.db (bd.writeBlockToDisk block).2 block := by
  obtain ⟨hsel, hpos⟩ := selectFile_spec h block
  refine ⟨hsel.trans (appended_append hsel.files _), ?_, hsize, _, [], AList.lookup_insert _, ?_⟩
  · have := hsel.files.nonneg
    simp only [writeBlockToDisk]
    omega
  · simp only [writeBlockToDisk, hpos, List.append_nil]
    exact List.drop_left' rfl

theorem appended_writeTxIndex (h : FilesOk bd) (txid blockHash : Bytes32) :
    Appended bd (bd.writeTxIndex txid blockHash) :=
  ⟨⟨h.last, h.nonneg, h.above⟩, fun _ _ hrec => hrec.congr rfl, rfl, rfl⟩

theorem appended_foldl_writeTxIndex {α : Type} (f g : α → Bytes32) :
    ∀ (items : List α) {bd : BlockData}, FilesOk bd →
      Appended bd (items.foldl (fun bd item => bd.writeTxIndex (f item) (g item)) bd)
  | [], _, h => ⟨h, fun _ _ hrec => hrec, rfl, rfl⟩
  | item :: items, _, h =>
    have hone := appended_writeTxIndex h (f item) (g item)
    hone.trans (appended_foldl_writeTxIndex f g items hone.files)

/-! ## 4. The transaction index -/

theorem txIndex_foldl_writeTxIndex {α : Type} (f g : α → Bytes32) (items : List α) (bd : BlockData) :
    (items.foldl (fun bd item => bd.writeTxIndex (f item) (g item)) bd).db.txIndex =
      items.foldl (fun t item => t.insert (f item) (g item)) bd.db.txIndex := by
  induction items generalizing bd with
  | nil => rfl
  | cons item items ih => exact ih _

theorem txIndex_writeBlockToDisk (bd : BlockData) (block : Block) :
    (bd.writeBlockToDisk block).1.db.txIndex = bd.db.txIndex := by
  unfold writeBlockToDisk selectFile
  dsimp only
  split <;> rfl

theorem index_writeBlock (bd : BlockData) (block : Block) (height : Nat) (chainWork : Bytes32) :
    ∃ pos, (bd.writeBlock block height chainWork).db.index =
      bd.db.index.insert block.getHash (indexEntry block height chainWork pos) := by
  have hdisk : (bd.writeBlockToDisk block).1.db.index = bd.db.index := by
    unfold writeBlockToDisk selectFile
    dsimp only
    split <;> rfl
  have htxs : ∀ (txs : List Transaction) (bd : BlockData),
      (txs.foldl (fun bd tx => bd.writeTxIndex tx.getHash block.getHash) bd).db.index =
        bd.db.index := by
    intro txs
    induction txs with
    | nil => exact fun _ => rfl
    | cons tx txs ih => exact fun bd => ih _
  refine ⟨(bd.writeBlockToDisk block).2, ?_⟩
  rw [← hdisk]
  exact htxs _ _

def txids (block : Block) : List Bytes32 := block.transactions.map Transaction.getHash

/-- **`WriteBlock` lets the index name the block** for each of its transactions. -/
theorem readTxIndex_writeBlock (bd : BlockData) (block : Block) (height : Nat) (chainWork txid : Bytes32) :
    (bd.writeBlock block height chainWork).readTxIndex txid =
      if txid ∈ txids block then some block.getHash else bd.readTxIndex txid := by
  unfold writeBlock readTxIndex
  rw [txIndex_foldl_writeTxIndex]
  exact (Index.lookup_foldl_insert Transaction.getHash (fun _ => block.getHash) block.transactions _
    fun _ _ _ => rfl).trans (by rw [← txIndex_writeBlockToDisk bd block]; rfl)

theorem readTxIndex_writeBlockConnected (bd : BlockData) (block : Block) (height : Nat)
    (chainWork : Bytes32) (undo : BlockUndo) (txid : Bytes32) :
    (bd.writeBlockConnected block height chainWork undo).readTxIndex txid =
      if txid ∈ txids block then some block.getHash else bd.readTxIndex txid := by
  rw [readTxIndex, readTxIndex, ← txIndex_writeBlockToDisk bd block]
  exact Index.lookup_foldl_insert Transaction.getHash (fun _ => block.getHash) block.transactions _
    fun _ _ _ => rfl

/-- **The index after `AcceptBlock` stored a block**: a block that does not extend the tip takes over no
entry of another block. -/
theorem readTxIndex_storeBlock (s : ChainState) (block : Block) (height : Nat) (work : Bytes32)
    (extendsTip : Bool) (txid : Bytes32) :
    (s.storeBlock block height work extendsTip).blockData.readTxIndex txid =
      if txid ∈ txids block then
        some (if extendsTip then block.getHash
          else (s.blockData.readTxIndex txid).getD block.getHash)
      else s.blockData.readTxIndex txid := by
  cases extendsTip with
  | true => exact readTxIndex_writeBlock s.blockData block height work txid
  | false =>
    have hkept : ∀ item ∈ ChainState.keepTxIndex s.blockData block, item.1 = txid →
        item.2 = (s.blockData.readTxIndex txid).getD block.getHash := by
      intro item hitem hkey
      obtain ⟨tx, -, htx⟩ := List.mem_filterMap.mp hitem
      obtain ⟨hash, hread, rfl⟩ := Option.map_eq_some_iff.mp htx
      subst hkey
      rw [hread]
      rfl
    have hmem : txid ∈ (ChainState.keepTxIndex s.blockData block).map Prod.fst ↔
        txid ∈ txids block ∧ s.blockData.readTxIndex txid ≠ none := by
      simp only [ChainState.keepTxIndex, txids, List.mem_map, List.mem_filterMap,
        Option.map_eq_some_iff, Option.ne_none_iff_exists']
      constructor
      · rintro ⟨_, ⟨tx, htx, hash, hread, rfl⟩, rfl⟩
        exact ⟨⟨tx, htx, rfl⟩, hash, hread⟩
      · rintro ⟨⟨tx, htx, rfl⟩, hash, hread⟩
        exact ⟨_, ⟨tx, htx, hash, hread, rfl⟩, rfl⟩
    have hrun : (s.storeBlock block height work false).blockData.readTxIndex txid =
        if txid ∈ (ChainState.keepTxIndex s.blockData block).map Prod.fst
        then some ((s.blockData.readTxIndex txid).getD block.getHash)
        else (s.blockData.writeBlock block height work).readTxIndex txid := by
      refine Eq.trans ?_ (Index.lookup_foldl_insert Prod.fst Prod.snd _ _ hkept)
      exact congrArg (AList.lookup txid) (txIndex_foldl_writeTxIndex Prod.fst Prod.snd _ _)
    rw [hrun, readTxIndex_writeBlock]
    by_cases hin : txid ∈ txids block
    · cases hread : s.blockData.readTxIndex txid with
      | none => simp [hmem, hread, hin]
      | some hash => simp [hmem, hread, hin]
    · simp [hmem, hin]

end BlockData

/-! ## 5. Paths -/

/-- The checks a block passes before it is stored, which read no chain state. -/
def Block.Checked (block : Block) : Prop :=
  (∃ now, BlockValidation.checkBlock block now = .ok ()) ∧
    BlockValidation.checkBlockReveals block = .ok () ∧ ChainState.coinbaseOk block = true

theorem Block.Checked.size_le {block : Block} (h : block.Checked) :
    block.getSerializedSize ≤ MAX_BLOCK_SIZE :=
  have ⟨⟨_, hcheck⟩, _, _⟩ := h
  (BlockValidation.checkBlock_ok hcheck).1

/-- The work of a chain of blocks, tip first. -/
def workOf : List Block → Bytes32
  | [] => FixedBytes.zero
  | b :: p => addChainWork (workOf p) b.header.bits

namespace BlockData

variable {bd bd' : BlockData} {b : Block} {p : List Block}

/-- The block `b` is in the index as the one on top of the chain `p`, and can be read. -/
def Stored (bd : BlockData) (p : List Block) (b : Block) : Prop :=
  ∃ pos, bd.readBlockIndex b.getHash = some (indexEntry b p.length (workOf (b :: p)) pos) ∧
    bd.readBlock pos = some b

/-- A chain of stored blocks from genesis on, tip first. -/
inductive IsPath (bd : BlockData) : List Block → Prop
  | genesis : Stored bd [] buildGenesisBlock → IsPath bd [buildGenesisBlock]
  | cons {b q : Block} {p : List Block} : IsPath bd (q :: p) →
      b.header.prevBlockHash = q.getHash → b.Checked → Stored bd (q :: p) b → IsPath bd (b :: q :: p)

theorem IsPath.stored (h : IsPath bd (b :: p)) :
    Stored bd p b := by
  cases h with
  | genesis h => exact h
  | cons _ _ _ h => exact h

theorem Stored.unique {b' : Block} {p' : List Block} (h : Stored bd p b) (h' : Stored bd p' b')
    (hhash : b.getHash = b'.getHash) : b = b' ∧ p.length = p'.length := by
  obtain ⟨pos, hentry, hread⟩ := h
  obtain ⟨pos', hentry', hread'⟩ := h'
  rw [hhash, hentry'] at hentry
  have heq := Option.some.inj hentry
  have hpos : pos' = pos := congrArg BlockIndexEntry.blockPos heq
  rw [hpos, hread] at hread'
  exact ⟨Option.some.inj hread', (congrArg BlockIndexEntry.nHeight heq).symm⟩

theorem IsPath.unique : ∀ {p p' : List Block} {b b' : Block},
    IsPath bd (b :: p) → IsPath bd (b' :: p') → b.getHash = b'.getHash → b :: p = b' :: p'
  | p, p', b, b', h, h', hhash => by
    obtain ⟨rfl, hlen⟩ := h.stored.unique h'.stored hhash
    cases h with
    | genesis =>
      rw [List.length_eq_zero_iff.mp hlen.symm]
    | cons hp hprev =>
      cases h' with
      | genesis => simp at hlen
      | cons hp' hprev' => rw [IsPath.unique hp hp' (hprev.symm.trans hprev')]

/-- Every entry and every readable block is still there; a block may have moved. -/
def Keeps (bd bd' : BlockData) : Prop :=
  ∀ h e, bd.readBlockIndex h = some e →
    ∃ pos, bd'.readBlockIndex h = some { e with blockPos := pos } ∧
      bd'.readBlock pos = bd.readBlock e.blockPos

theorem Keeps.trans {bd₁ bd₂ bd₃ : BlockData} (h₁ : Keeps bd₁ bd₂) (h₂ : Keeps bd₂ bd₃) :
    Keeps bd₁ bd₃ := by
  intro h e he
  obtain ⟨pos, hentry, hread⟩ := h₁ h e he
  obtain ⟨pos', hentry', hread'⟩ := h₂ h _ hentry
  exact ⟨pos', hentry', hread'.trans hread⟩

theorem Keeps.symm (h : Keeps bd bd')
    (hkeys : ∀ hash, bd.readBlockIndex hash = none → bd'.readBlockIndex hash = none) :
    Keeps bd' bd := by
  intro hash e' he'
  cases he : bd.readBlockIndex hash with
  | none =>
    rw [hkeys hash he] at he'
    cases he'
  | some e =>
    obtain ⟨pos, hentry, hread⟩ := h hash e he
    rw [hentry] at he'
    cases he'
    exact ⟨e.blockPos, rfl, hread.symm⟩

theorem Stored.mono (hkeeps : Keeps bd bd') (h : Stored bd p b) : Stored bd' p b := by
  obtain ⟨pos, hentry, hread⟩ := h
  obtain ⟨pos', hentry', hread'⟩ := hkeeps _ _ hentry
  exact ⟨pos', hentry', hread'.trans hread⟩

theorem IsPath.mono (hkeeps : Keeps bd bd') (h : IsPath bd p) : IsPath bd' p := by
  induction h with
  | genesis h => exact .genesis (h.mono hkeeps)
  | cons _ hprev hchecked hstored ih => exact .cons ih hprev hchecked (hstored.mono hkeeps)

/-! ## 6. The invariant of the store -/

variable {e : BlockIndexEntry} {block : Block}

/-- Where the entry of a block comes from: it is genesis, or it passed the checks and stands on an
entry that is stored. -/
def Rooted (bd : BlockData) (b : Block) (e : BlockIndexEntry) : Prop :=
  (b = buildGenesisBlock ∧ e = indexEntry b 0 (workOf [b]) e.blockPos) ∨
    (b.Checked ∧ ∃ parent, bd.readBlockIndex b.header.prevBlockHash = some parent ∧
      e = indexEntry b (parent.nHeight + 1) (addChainWork parent.nChainWork b.header.bits)
        e.blockPos)

/-- The block store of a running node. -/
structure StoreInv (bd : BlockData) : Prop where
  files : FilesOk bd
  genesis : Stored bd [] buildGenesisBlock
  entry : ∀ h e, bd.readBlockIndex h = some e →
    ∃ b, b.getHash = h ∧ RecordAt bd.db e.blockPos b ∧ Rooted bd b e

theorem Rooted.mono (hkeeps : Keeps bd bd') (h : Rooted bd b e) : Rooted bd' b e := by
  rcases h with h | ⟨hchecked, parent, hparent, he⟩
  · exact .inl h
  · obtain ⟨pos, hparent', -⟩ := hkeeps _ _ hparent
    exact .inr ⟨hchecked, _, hparent', he⟩

theorem Appended.keeps (h : StoreInv bd) (happ : Appended bd bd') :
    Keeps bd bd' := by
  intro hash e he
  obtain ⟨b, -, hrec, -⟩ := h.entry hash e he
  refine ⟨e.blockPos, ?_, ?_⟩
  · simpa [readBlockIndex, happ.index] using he
  · rw [hrec.readBlock_eq, (happ.records _ _ hrec).readBlock_eq]

theorem StoreInv.appended (h : StoreInv bd) (happ : Appended bd bd') :
    StoreInv bd' := by
  have hkeeps := happ.keeps h
  refine ⟨happ.files, h.genesis.mono hkeeps, fun hash e he => ?_⟩
  have hold : bd.readBlockIndex hash = some e := by simpa [readBlockIndex, happ.index] using he
  obtain ⟨b, hb, hrec, hroot⟩ := h.entry hash e hold
  exact ⟨b, hb, happ.records _ _ hrec, hroot.mono hkeeps⟩

/-- **The index entry of a block that is new, or that is the entry it has already.** -/
theorem StoreInv.insert (h : StoreInv bd) (hfiles : FilesOk bd')
    (hrecords : ∀ pos b, RecordAt bd.db pos b → RecordAt bd'.db pos b)
    (hindex : bd'.db.index = bd.db.index.insert block.getHash e)
    (hrec : RecordAt bd'.db e.blockPos block)
    (hold : ∀ e', bd.readBlockIndex block.getHash = some e' → e = { e' with blockPos := e.blockPos } ∧ RecordAt bd.db e'.blockPos block)
    (hroot : Rooted bd block e) : StoreInv bd' ∧ Keeps bd bd' := by
  have hnew : bd'.readBlockIndex block.getHash = some e := by
    simp [readBlockIndex, hindex]
  have hother : ∀ hash, hash ≠ block.getHash →
      bd'.readBlockIndex hash = bd.readBlockIndex hash := fun hash hne => by
    simp [readBlockIndex, hindex, AList.lookup_insert_ne hne]
  have hkeeps : Keeps bd bd' := by
    intro hash e' he'
    by_cases hhash : hash = block.getHash
    · subst hhash
      obtain ⟨heq, hrec'⟩ := hold e' he'
      exact ⟨e.blockPos, hnew.trans (congrArg some heq), by
        rw [hrec.readBlock_eq, hrec'.readBlock_eq]⟩
    · obtain ⟨b, -, hrec', -⟩ := h.entry hash e' he'
      exact ⟨e'.blockPos, (hother hash hhash).trans he', by
        rw [(hrecords _ _ hrec').readBlock_eq, hrec'.readBlock_eq]⟩
  refine ⟨⟨hfiles, h.genesis.mono hkeeps, fun hash e' he' => ?_⟩, hkeeps⟩
  by_cases hhash : hash = block.getHash
  · subst hhash
    rw [hnew] at he'
    cases he'
    exact ⟨block, rfl, hrec, hroot.mono hkeeps⟩
  · obtain ⟨b, hb, hrec', hroot'⟩ := h.entry hash e' ((hother hash hhash) ▸ he')
    exact ⟨b, hb, hrecords _ _ hrec', hroot'.mono hkeeps⟩

theorem StoreInv.rooted (h : StoreInv bd) {hash : Bytes32} (he : bd.readBlockIndex hash = some e)
    (hread : bd.readBlock e.blockPos = some b) :
    b.getHash = hash ∧ RecordAt bd.db e.blockPos b ∧ Rooted bd b e := by
  obtain ⟨b', hb', hrec, hroot⟩ := h.entry hash e he
  rw [hrec.eq_of_readBlock hread]
  exact ⟨hb', hrec, hroot⟩

/-- **A stored block on top of a path makes a path.** -/
theorem StoreInv.path_cons (h : StoreInv bd) {hash : Bytes32} {q : Block} (hp : IsPath bd (q :: p))
    (he : bd.readBlockIndex hash = some e) (hread : bd.readBlock e.blockPos = some b)
    (hprev : b.header.prevBlockHash = q.getHash) (hb : b ≠ buildGenesisBlock) :
    IsPath bd (b :: q :: p) := by
  obtain ⟨hhash, -, hroot⟩ := h.rooted he hread
  rcases hroot with ⟨hgen, -⟩ | ⟨hchecked, parent, hparent, heq⟩
  · exact absurd hgen hb
  · obtain ⟨pos, hq, -⟩ := hp.stored
    rw [hprev, hq] at hparent
    cases hparent
    refine .cons hp hprev hchecked ⟨e.blockPos, ?_, hread⟩
    rw [hhash, he, heq]
    rfl

/-- The two halves of a block write: the record and an entry that points to it. -/
theorem StoreInv.writeEntry {bd₁ : BlockData} {undo : AList fun _ : Bytes32 => List UInt8}
    {txIndex : AList fun _ : Bytes32 => Bytes32} (h : StoreInv bd) (happ : Appended bd bd₁)
    (hrec : RecordAt bd₁.db e.blockPos block)
    (hold : ∀ e', bd.readBlockIndex block.getHash = some e' → e = { e' with blockPos := e.blockPos } ∧ RecordAt bd.db e'.blockPos block)
    (hroot : Rooted bd block e) :
    StoreInv (bd₁.write { bd₁.db with
        index := bd₁.db.index.insert block.getHash e, undo := undo, txIndex := txIndex }) ∧
      Keeps bd (bd₁.write { bd₁.db with
        index := bd₁.db.index.insert block.getHash e, undo := undo, txIndex := txIndex }) := by
  refine h.insert ⟨happ.files.last, happ.files.nonneg, happ.files.above⟩
    (fun p b hb => (happ.records p b hb).congr rfl) ?_ (hrec.congr rfl) hold hroot
  rw [← happ.index]
  rfl

theorem StoreInv.writeBlock (h : StoreInv bd) {parent : BlockIndexEntry}
    (hnew : bd.hasBlock block.getHash = false) (hchecked : block.Checked)
    (hparent : bd.readBlockIndex block.header.prevBlockHash = some parent) :
    StoreInv (bd.writeBlock block (parent.nHeight + 1)
        (addChainWork parent.nChainWork block.header.bits)) ∧
      Keeps bd (bd.writeBlock block (parent.nHeight + 1)
        (addChainWork parent.nChainWork block.header.bits)) ∧
      (bd.writeBlock block (parent.nHeight + 1)
        (addChainWork parent.nChainWork block.header.bits)).db.undo = bd.db.undo ∧
      ∃ pos, RecordAt (bd.writeBlock block (parent.nHeight + 1)
          (addChainWork parent.nChainWork block.header.bits)).db pos block ∧
        (bd.writeBlock block (parent.nHeight + 1)
          (addChainWork parent.nChainWork block.header.bits)).db.index =
          bd.db.index.insert block.getHash (indexEntry block (parent.nHeight + 1)
            (addChainWork parent.nChainWork block.header.bits) pos) := by
  obtain ⟨happ, hrec⟩ := writeBlockToDisk_spec h.files hchecked.size_le
  have hnone : bd.readBlockIndex block.getHash = none := by simpa [hasBlock] using hnew
  obtain ⟨hinv, hkeeps⟩ := h.writeEntry happ (e := indexEntry block (parent.nHeight + 1)
    (addChainWork parent.nChainWork block.header.bits) (bd.writeBlockToDisk block).2) hrec
    (fun e' he' => by rw [hnone] at he'; cases he') (.inr ⟨hchecked, parent, hparent, rfl⟩)
  have htx := appended_foldl_writeTxIndex (fun tx : Transaction => tx.getHash)
    (fun _ => block.getHash) block.transactions hinv.files
  refine ⟨hinv.appended htx, hkeeps.trans (htx.keeps hinv), htx.undo.trans happ.undo,
    (bd.writeBlockToDisk block).2, htx.records _ _ (hrec.congr rfl), ?_⟩
  rw [← happ.index]
  exact htx.index

/-- **`WriteBlockConnected` of a block of a path**: the record moves, the undo record is set. -/
theorem StoreInv.writeBlockConnected (h : StoreInv bd) {q : Block} (hp : IsPath bd (b :: q :: p))
    (undo : BlockUndo) :
    StoreInv (bd.writeBlockConnected b (q :: p).length (workOf (b :: q :: p)) undo) ∧
      Keeps bd (bd.writeBlockConnected b (q :: p).length (workOf (b :: q :: p)) undo) ∧
      (bd.writeBlockConnected b (q :: p).length (workOf (b :: q :: p)) undo).db.undo =
        bd.db.undo.insert b.getHash undo.serialize ∧
      ∃ e, (bd.writeBlockConnected b (q :: p).length (workOf (b :: q :: p)) undo).db.index =
        bd.db.index.insert b.getHash e := by
  cases hp with
  | cons hq hprev hchecked hstored =>
    obtain ⟨happ, hrec⟩ := writeBlockToDisk_spec h.files hchecked.size_le
    obtain ⟨pos, hentry, hread⟩ := hstored
    obtain ⟨-, hrec', -⟩ := h.rooted hentry hread
    obtain ⟨posq, hqentry, -⟩ := hq.stored
    obtain ⟨hinv, hkeeps⟩ := h.writeEntry happ (e := indexEntry b (q :: p).length
      (workOf (b :: q :: p)) (bd.writeBlockToDisk b).2) hrec
      (fun e' he' => by rw [hentry] at he'; cases he'; exact ⟨rfl, hrec'⟩)
      (.inr ⟨hchecked, _, hprev ▸ hqentry, rfl⟩)
    exact ⟨hinv, hkeeps, congrArg (·.insert b.getHash undo.serialize) happ.undo, indexEntry b
      (q :: p).length (workOf (b :: q :: p)) (bd.writeBlockToDisk b).2,
      congrArg (·.insert b.getHash (indexEntry b (q :: p).length (workOf (b :: q :: p))
        (bd.writeBlockToDisk b).2)) happ.index⟩

/-! ## 7. The first block, and a store that is opened again -/

theorem size_genesis : buildGenesisBlock.getSerializedSize ≤ MAX_BLOCK_SIZE := by
  decide +kernel

theorem deserialize_genesis :
    (Block.deserialize buildGenesisBlock.serialize).toOption.map Prod.fst =
      some buildGenesisBlock := by
  have hsome : ((Block.deserialize buildGenesisBlock.serialize).toOption.map Prod.fst).isSome := by
    decide +kernel
  obtain ⟨block, hblock⟩ := Option.isSome_iff_exists.mp hsome
  rw [hblock, eq_of_deserialize size_genesis hblock]

/-- **`WriteBlock` of the genesis block on an empty store.** -/
theorem storeInv_genesis (hfiles : FilesOk bd) (hindex : bd.db.index = ∅) :
    StoreInv (bd.writeBlock buildGenesisBlock 0 (workOf [buildGenesisBlock])) ∧
      (bd.writeBlock buildGenesisBlock 0 (workOf [buildGenesisBlock])).db.undo = bd.db.undo := by
  have hread := deserialize_genesis
  have hsize := size_genesis
  generalize hgen : buildGenesisBlock = g at hread hsize ⊢
  obtain ⟨happ, hrec⟩ := writeBlockToDisk_spec hfiles hsize
  generalize hbd₁ : (bd.writeBlockToDisk g).1 = bd₁ at happ hrec
  generalize hpos : (bd.writeBlockToDisk g).2 = pos at hrec
  have hbd : bd.writeBlockToDisk g = (bd₁, pos) := Prod.ext hbd₁ hpos
  set e := indexEntry g 0 (workOf [g]) pos with he
  set bd₂ := bd₁.write { bd₁.db with index := bd₁.db.index.insert g.getHash e } with hbd₂
  have hrec₂ : RecordAt bd₂.db pos g := hrec.congr rfl
  have hentry : bd₂.readBlockIndex g.getHash = some e := AList.lookup_insert _
  have hinv : StoreInv bd₂ := by
    refine ⟨⟨happ.files.last, happ.files.nonneg, happ.files.above⟩, ?_, fun hash e' he' => ?_⟩
    · rw [hgen]
      exact ⟨pos, hentry, hrec₂.readBlock_eq.trans hread⟩
    · have hhash : hash = g.getHash := by
        by_contra hne
        have hnone : bd₂.readBlockIndex hash = none := by
          refine (AList.lookup_insert_ne hne).trans ?_
          rw [happ.index, hindex]
          rfl
        rw [hnone] at he'
        cases he'
      subst hhash
      rw [hentry] at he'
      cases he'
      exact ⟨g, rfl, hrec₂, .inl ⟨hgen.symm, rfl⟩⟩
  have htx := appended_foldl_writeTxIndex (fun tx : Transaction => tx.getHash)
    (fun _ => g.getHash) g.transactions hinv.files
  have hrun : bd.writeBlock g 0 (workOf [g]) =
      g.transactions.foldl (fun bd tx => bd.writeTxIndex tx.getHash g.getHash) bd₂ := by
    simp only [BlockData.writeBlock, hbd, hbd₂, he]
  rw [hrun]
  exact ⟨hinv.appended htx, htx.undo.trans happ.undo⟩

theorem keeps_of_db_eq (h : bd'.db = bd.db) : Keeps bd bd' :=
  fun hash e he => ⟨e.blockPos, by simpa [readBlockIndex, h] using he, by simp [BlockData.readBlock, h]⟩

theorem StoreInv.congr (h : StoreInv bd) (hdb : bd'.db = bd.db)
    (hlast : bd'.lastBlockFile = bd.lastBlockFile) : StoreInv bd' :=
  h.appended ⟨⟨by rw [hlast, hdb, h.files.last], hlast ▸ h.files.nonneg, fun n hn => by
    rw [hdb]; exact h.files.above n (hlast ▸ hn)⟩, fun _ _ hrec => hrec.congr (by rw [hdb]),
    by rw [hdb], by rw [hdb]⟩

theorem StoreInv.openDB (h : StoreInv bd) : StoreInv (openDB bd.db) :=
  h.congr rfl h.files.last.symm

end BlockData

end Moneu
