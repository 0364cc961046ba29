/-
# What is written is read back

The four formats side by side: transactions, blocks, noise proofs and undo records.  Each reader is
the inverse of its writer and uses up what the size function says, within the limits it enforces.
The limits are those of the data themselves: a `Transaction` holds no more inputs than
`Deserialize` reads, and the undo record `ApplyBlockTwoPhase` makes has one entry for each
transaction and one coin for each input.
-/
import Moneu.Chain.StorageFailure
import Moneu.Wallet.NoiseFile

namespace Moneu

open NetParams UTXOSet

/-- **The undo record of an applied block** is within the limits of its reader. -/
theorem undo_within_limits {u u' : UTXOSet} {block : Block} {height : UInt32} {undo : BlockUndo}
    (h : u.applyBlockTwoPhase block height = (u', .ok undo)) :
    undo.txUndo.length ≤ Block.MAX_TRANSACTIONS ∧
      ∀ tu ∈ undo.txUndo, tu.spentCoins.length ≤ Block.MAX_TRANSACTIONS := by
  obtain ⟨-, spents, happ, rfl⟩ := applyBlockTwoPhase_ok h
  have hothers : block.splitCoinbase.2.length ≤ block.transactions.length := by
    rcases block.splitCoinbase_cases with ⟨tx, rest, htxs, -, hsplit⟩ | ⟨hsplit, -⟩
    · rw [hsplit, htxs]
      simp
    · rw [hsplit]
  constructor
  · rw [List.length_map, happ.length_eq]
    exact hothers.trans block.transactions_le
  · intro tu htu
    obtain ⟨spent, hspent, rfl⟩ := List.mem_map.mp htu
    obtain ⟨tx, -, hlen⟩ := happ.length_spent spent hspent
    have hle := tx.inputs_le
    simp only [Transaction.MAX_INPUTS] at hle
    simp only [hlen, Block.MAX_TRANSACTIONS]
    omega

/-- **Decoding inverts encoding.**  Transactions and blocks within the limits, noise proofs of equally
many hashes and directions anywhere in a buffer, and undo records of applied blocks are read back as
they were written, and reading uses up exactly the bytes the size function counts. -/
theorem decoding_inverts_encoding :
    (∀ tx : Transaction, tx.WithinLimits →
      Transaction.deserialize (tx.serialize true) = .ok (tx, []) ∧
        (tx.serialize true).length = tx.getSerializedSize true) ∧
    (∀ block : Block, block.WithinLimits →
      Block.deserialize block.serialize = .ok (block, []) ∧
        block.serialize.length = block.getSerializedSize) ∧
    (∀ proof : NoiseProof, proof.pathDirs.length = proof.merklePath.length →
      proof.merklePath.length ≤ 64 → ∀ before after,
        NoiseProof.deserialize.runAt (before ++ (proof.serialize ++ after)) before.length =
            .ok (proof, before.length + proof.getSerializedSize) ∧
          proof.serialize.length = proof.getSerializedSize) ∧
    (∀ (u u' : UTXOSet) (block : Block) (height : UInt32) (undo : BlockUndo),
      u.applyBlockTwoPhase block height = (u', .ok undo) →
        BlockUndo.deserialize undo.serialize = .ok (undo, [])) := by
  refine ⟨fun tx htx => ?_, fun block hblock => ?_, fun proof hdirs hpath before after => ?_,
    fun u u' block height undo happly => ?_⟩
  · have hread := (Transaction.decodesIff htx.size_lt).reads htx []
    rw [List.append_nil] at hread
    exact ⟨hread, tx.length_serialize true⟩
  · have hread := (Block.decodesIff_of_txs fun tx hmem => (hblock tx hmem).size_lt).reads hblock []
    rw [List.append_nil] at hread
    exact ⟨hread, block.length_serialize⟩
  · have hshaped : proof.Shaped := ⟨hdirs, hpath⟩
    have hsize : proof.serialize.length = proof.getSerializedSize := by
      rw [proof.length_serialize, NoiseProof.getSerializedSize]
      omega
    rw [← hsize]
    exact ⟨hshaped.decodes.runAt before after, rfl⟩
  · obtain ⟨hcount, hcoins⟩ := undo_within_limits happly
    exact BlockUndo.deserialize_serialize hcount hcoins

/-- The genesis block is read back. -/
theorem decoding_inverts_encoding_genesis :
    Block.deserialize buildGenesisBlock.serialize = .ok (buildGenesisBlock, []) :=
  (decoding_inverts_encoding.2.1 buildGenesisBlock (by decide +kernel)).1

end Moneu
