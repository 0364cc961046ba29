/-
# Reading back what was written

Serialized transactions and blocks have the size `GetSerializedSize` says, and a block within the
limits of `Deserialize` (script size, proof size, no negative value) is read back from its bytes as
it was written.  A block beyond them is refused: nothing checks those limits on a coinbase before it
is written.

Section 3 is about the bytes a txid covers: two transactions with the same bytes agree on
everything but their noise proofs.
-/
import Mathlib.Algebra.Order.BigOperators.Group.List
import Moneu.Primitives.Block

namespace Moneu

open Decoder

/-! ## 1. Sizes -/

variable {α : Type}

theorem length_writeCompactSize (v : Nat) : (writeCompactSize v).length = compactSizeLen v := by
  unfold writeCompactSize compactSizeLen
  split
  · rfl
  · split
    · simp
    · split <;> simp

theorem TxInput.length_serialize (withNoiseProof : Bool) (input : TxInput) :
    (input.serialize withNoiseProof).length = input.getSerializedSize withNoiseProof := by
  cases withNoiseProof <;> simp [TxInput.serialize, TxInput.getSerializedSize]
  omega

theorem TxOutput.length_serialize (output : TxOutput) :
    output.serialize.length = output.getSerializedSize := by
  simp [TxOutput.serialize, TxOutput.getSerializedSize, length_writeCompactSize]
  omega

theorem length_flatMap_eq_sum (f : α → List UInt8) (g : α → Nat) (h : ∀ a, (f a).length = g a)
    (as : List α) : (as.flatMap f).length = (as.map g).sum := by
  simp [List.length_flatMap, h]

theorem Transaction.length_serialize (withNoiseProof : Bool) (tx : Transaction) :
    (tx.serialize withNoiseProof).length = tx.getSerializedSize withNoiseProof := by
  have hin := length_flatMap_eq_sum (TxInput.serialize withNoiseProof) _
    (TxInput.length_serialize withNoiseProof) tx.inputs
  have hout := length_flatMap_eq_sum TxOutput.serialize _ TxOutput.length_serialize tx.outputs
  simp only [Transaction.serialize, Transaction.getSerializedSize, List.length_append,
    length_writeLE32, length_writeLE64, hin, hout]
  omega

theorem Block.length_serialize (block : Block) : block.serialize.length = block.getSerializedSize := by
  have htxs := length_flatMap_eq_sum Block.serializeTx (fun tx => 4 + tx.getSerializedSize true)
    (fun tx => by simp [Block.serializeTx, Transaction.length_serialize]) block.transactions
  simp only [Block.serialize, Block.getSerializedSize, BlockHeader.serialize,
    BlockHeader.SERIALIZED_SIZE, List.length_append, length_writeLE32, length_writeLE64,
    FixedBytes.length_data, htxs]
  omega

/-! ## 2. Reading back -/

variable {n : Nat} {tx : Transaction}

theorem toNat_ofNat_of_lt (h : n < 2 ^ 32) : (UInt32.ofNat n).toNat = n :=
  UInt32.toNat_ofNat_of_lt h

theorem decodes_readCompactSizeRest {first : UInt8} {v : Nat} {d : Decoder Nat}
    (hfirst : readCompactSizeRest first = d) (hd : Decodes d (leBytes n v) v) :
    Decodes readCompactSize (first :: leBytes n v) v := by
  unfold readCompactSize
  refine Decodes.require (by simp) ?_
  exact (Decodes.u8 first).bind (f := readCompactSizeRest) (by rw [hfirst]; exact hd)

theorem decodes_readCompactSize {v : Nat} (hv : v < 2 ^ 64) :
    Decodes readCompactSize (writeCompactSize v) v := by
  unfold writeCompactSize
  split
  · rename_i hlt
    have hbyte : (UInt8.ofNat v).toNat = v := by
      rw [UInt8.toNat_ofNat']
      omega
    have hsmall : UInt8.ofNat v < 253 := by
      rw [UInt8.lt_iff_toNat_lt, hbyte]
      exact hlt
    refine decodes_readCompactSizeRest (n := 0) rfl ?_
    rw [readCompactSizeRest, if_pos hsmall, hbyte]
    exact Decodes.pure v
  · split
    · rename_i hle
      refine decodes_readCompactSizeRest rfl ?_
      rw [readCompactSizeRest, if_neg (by decide), if_pos rfl]
      have hvec := Decodes.vec (leBytes 2 v)
      rw [length_leBytes] at hvec
      have hret : Decodes (pure (leValue (leBytes 2 v)) : Decoder Nat) [] v := by
        rw [leValue_leBytes 2 v (by omega)]
        exact Decodes.pure v
      refine Decodes.require (by simp) ?_
      have h := hvec.bind (f := fun bytes => pure (leValue bytes)) hret
      rwa [List.append_nil] at h
    · split
      · rename_i hle
        have hword : (UInt32.ofNat v).toNat = v := toNat_ofNat_of_lt (by omega)
        refine decodes_readCompactSizeRest rfl ?_
        rw [readCompactSizeRest, if_neg (by decide), if_neg (by decide), if_pos rfl]
        have hle := Decodes.le32 (UInt32.ofNat v)
        rw [writeLE32, hword] at hle
        have hret : Decodes (pure (UInt32.ofNat v).toNat : Decoder Nat) [] v := by
          rw [hword]
          exact Decodes.pure v
        refine Decodes.require (by simp) ?_
        have h := hle.bind (f := fun w => pure w.toNat) hret
        rwa [List.append_nil] at h
      · have hword : (UInt64.ofNat v).toNat = v := UInt64.toNat_ofNat_of_lt hv
        refine decodes_readCompactSizeRest rfl ?_
        rw [readCompactSizeRest, if_neg (by decide), if_neg (by decide), if_neg (by decide)]
        have hle := Decodes.le64 (UInt64.ofNat v)
        rw [writeLE64, hword] at hle
        have hret : Decodes (pure (UInt64.ofNat v).toNat : Decoder Nat) [] v := by
          rw [hword]
          exact Decodes.pure v
        refine Decodes.require (by simp) ?_
        have h := hle.bind (f := fun w => pure w.toNat) hret
        rwa [List.append_nil] at h

def TxInput.WithinLimits (input : TxInput) : Prop :=
  input.noiseProof.length ≤ Transaction.MAX_TX_SIZE

def TxOutput.WithinLimits (output : TxOutput) : Prop :=
  ¬ output.value < 0 ∧ output.scriptPubKey.length ≤ MAX_SCRIPT_SIZE

/-- The limits `Deserialize` puts on a transaction; the vectors of a `Transaction` are never too
long for it. -/
def Transaction.WithinLimits (tx : Transaction) : Prop :=
  (∀ input ∈ tx.inputs, input.WithinLimits) ∧ ∀ output ∈ tx.outputs, output.WithinLimits

def Block.WithinLimits (block : Block) : Prop := ∀ tx ∈ block.transactions, tx.WithinLimits

instance (input : TxInput) : Decidable input.WithinLimits :=
  inferInstanceAs (Decidable (_ ≤ _))

instance (output : TxOutput) : Decidable output.WithinLimits :=
  inferInstanceAs (Decidable (_ ∧ _))

instance (tx : Transaction) : Decidable tx.WithinLimits :=
  inferInstanceAs (Decidable (_ ∧ _))

instance (block : Block) : Decidable block.WithinLimits :=
  inferInstanceAs (Decidable (∀ tx ∈ block.transactions, tx.WithinLimits))

theorem TxInput.decodesIff {input : TxInput} (h : input.noiseProof.length < 2 ^ 32) :
    DecodesIff TxInput.deserialize (input.serialize true) input input.WithinLimits := by
  have hvec : DecodesIff (do
      Decoder.require input.noiseProof.length "Insufficient data for TxInput noise proof"
      let noiseProof ← Decoder.vec input.noiseProof.length
      return ({ input with noiseProof } : TxInput)) input.noiseProof input True := by
    refine DecodesIff.require le_rfl ?_
    have h := (Decodes.vec input.noiseProof).bind
      (f := fun noiseProof => pure { input with noiseProof }) (Decodes.pure input)
    rw [List.append_nil] at h
    exact h.iff
  have hlong : 168 ≤ (input.serialize true).length := by
    rw [TxInput.length_serialize, getSerializedSize, if_pos rfl]
    omega
  refine DecodesIff.congr ?_ (by simp [WithinLimits] :
    ¬ input.noiseProof.length > Transaction.MAX_TX_SIZE ∧ True ↔ input.WithinLimits)
  refine DecodesIff.require hlong ?_
  refine DecodesIff.after (Decodes.array input.prevTxHash) ?_
  refine DecodesIff.after (Decodes.le32 input.outputIndex) ?_
  refine DecodesIff.after (Decodes.array input.pubkey) ?_
  refine DecodesIff.after (Decodes.array input.signature) ?_
  refine DecodesIff.after (Decodes.array input.kps) ?_
  rw [if_pos rfl]
  refine DecodesIff.after (Decodes.le32 (UInt32.ofNat input.noiseProof.length)) ?_
  rw [toNat_ofNat_of_lt h]
  exact hvec.throwIf

theorem TxOutput.decodesIff {output : TxOutput} (h : output.scriptPubKey.length < 2 ^ 64) :
    DecodesIff TxOutput.deserialize output.serialize output output.WithinLimits := by
  have hvalue : output.value.toUInt64.toInt64 = output.value := rfl
  have hvec := (Decodes.vec output.scriptPubKey).bind
    (f := fun scriptPubKey => pure { value := output.value.toUInt64.toInt64, scriptPubKey })
    (b := output) (by
      rw [hvalue]
      exact Decodes.pure output)
  rw [List.append_nil] at hvec
  refine DecodesIff.congr ?_ (by simp [WithinLimits] :
    ¬ output.value < 0 ∧ (¬ output.scriptPubKey.length > MAX_SCRIPT_SIZE ∧ True) ↔
      output.WithinLimits)
  refine DecodesIff.require (by simp [TxOutput.serialize]) ?_
  refine DecodesIff.after (Decodes.le64 output.value.toUInt64) (DecodesIff.throwIf ?_)
  refine DecodesIff.after (decodes_readCompactSize h) (DecodesIff.throwIf ?_)
  exact DecodesIff.require le_rfl hvec.iff

theorem le_sum_of_mem {f : α → Nat} {as : List α} {a : α} (h : a ∈ as) :
    f a ≤ (as.map f).sum :=
  List.single_le_sum (fun _ _ => Nat.zero_le _) _ (List.mem_map_of_mem h)

/-- **A transaction of less than four gigabytes is read back if it is within the limits.** -/
theorem Transaction.decodesIff (h : tx.getSerializedSize true < 2 ^ 32) :
    DecodesIff Transaction.deserialize (tx.serialize true) tx tx.WithinLimits := by
  have hlong : 20 ≤ (tx.serialize true).length := by
    rw [Transaction.length_serialize, getSerializedSize]
    omega
  unfold getSerializedSize at h
  have hin : ∀ input ∈ tx.inputs,
      DecodesIff TxInput.deserialize (input.serialize true) input input.WithinLimits := by
    intro input hmem
    have hle := le_sum_of_mem (f := TxInput.getSerializedSize true) hmem
    refine TxInput.decodesIff ?_
    simp only [TxInput.getSerializedSize, if_true] at hle h
    omega
  have hout : ∀ output ∈ tx.outputs,
      DecodesIff TxOutput.deserialize output.serialize output output.WithinLimits := by
    intro output hmem
    have hle := le_sum_of_mem (f := TxOutput.getSerializedSize) hmem
    refine TxOutput.decodesIff ?_
    simp only [TxOutput.getSerializedSize] at hle h
    omega
  have hinCount : (UInt32.ofNat tx.inputs.length).toNat = tx.inputs.length :=
    toNat_ofNat_of_lt (by have := tx.inputs_le; simp only [MAX_INPUTS] at this; omega)
  have houtCount : (UInt32.ofNat tx.outputs.length).toNat = tx.outputs.length :=
    toNat_ofNat_of_lt (by have := tx.outputs_le; simp only [MAX_OUTPUTS] at this; omega)
  have hbuild : build tx.version tx.inputs tx.outputs tx.locktime = .ok tx := by
    unfold build
    rw [dif_pos tx.inputs_le, dif_pos tx.outputs_le]
  have hlock := (Decodes.le64 tx.locktime).bind
    (f := fun locktime => Decoder.lift (build tx.version tx.inputs tx.outputs locktime))
    (Decodes.lift hbuild)
  rw [List.append_nil] at hlock
  refine DecodesIff.congr ?_ (by simp [WithinLimits, tx.inputs_le, tx.outputs_le] :
    ¬ tx.inputs.length > MAX_INPUTS ∧ ((∀ input ∈ tx.inputs, input.WithinLimits) ∧
      (¬ tx.outputs.length > MAX_OUTPUTS ∧ ((∀ output ∈ tx.outputs, output.WithinLimits) ∧ True))) ↔
        tx.WithinLimits)
  refine DecodesIff.require hlong ?_
  refine DecodesIff.after (Decodes.le32 tx.version) ?_
  refine DecodesIff.after (Decodes.le32 (UInt32.ofNat tx.inputs.length)) ?_
  rw [hinCount]
  refine DecodesIff.throwIf ((DecodesIff.replicate tx.inputs hin).bind ?_)
  refine DecodesIff.require (by simp) ?_
  refine DecodesIff.after (Decodes.le32 (UInt32.ofNat tx.outputs.length)) ?_
  rw [houtCount]
  refine DecodesIff.throwIf ((DecodesIff.replicate tx.outputs hout).bind ?_)
  exact DecodesIff.require (by simp) hlock.iff

theorem sum_map_le {f : α → Nat} {as : List α} {k : Nat} (hlen : as.length ≤ k) (h : ∀ a ∈ as, f a ≤ n) :
    (as.map f).sum ≤ k * n := by
  have hsum := List.sum_le_card_nsmul (as.map f) n (by simpa using h)
  rw [List.length_map, Nat.nsmul_eq_mul] at hsum
  exact hsum.trans (Nat.mul_le_mul_right n hlen)

/-- **A transaction within the limits has less than four gigabytes.** -/
theorem Transaction.WithinLimits.size_lt (h : tx.WithinLimits) :
    tx.getSerializedSize true < 2 ^ 32 := by
  have hin : (tx.inputs.map (TxInput.getSerializedSize true)).sum ≤ MAX_INPUTS * (168 + MAX_TX_SIZE) := by
    refine sum_map_le tx.inputs_le fun input hmem => ?_
    have hproof : input.noiseProof.length ≤ MAX_TX_SIZE := h.1 input hmem
    simp only [TxInput.getSerializedSize, if_true]
    omega
  have hout : (tx.outputs.map TxOutput.getSerializedSize).sum ≤
      MAX_OUTPUTS * (17 + MAX_SCRIPT_SIZE) := by
    refine sum_map_le tx.outputs_le fun output hmem => ?_
    have hscript : output.scriptPubKey.length ≤ MAX_SCRIPT_SIZE := (h.2 output hmem).2
    have hcount : compactSizeLen output.scriptPubKey.length ≤ 9 := by
      unfold compactSizeLen
      split_ifs <;> decide
    simp only [TxOutput.getSerializedSize]
    omega
  simp only [MAX_INPUTS, MAX_TX_SIZE] at hin
  simp only [MAX_OUTPUTS, MAX_SCRIPT_SIZE] at hout
  unfold getSerializedSize
  omega

theorem BlockHeader.decodes (hdr : BlockHeader) :
    Decodes BlockHeader.deserialize hdr.serialize hdr := by
  have hnonce := (Decodes.le32 hdr.nonce).bind (f := fun nonce => pure { hdr with nonce })
    (Decodes.pure hdr)
  rw [List.append_nil] at hnonce
  refine Decodes.require (by simp [serialize, SERIALIZED_SIZE]) ?_
  refine (Decodes.le32 hdr.version).bind ?_
  refine (Decodes.array hdr.prevBlockHash).bind ?_
  refine (Decodes.array hdr.merkleRoot).bind ?_
  refine (Decodes.array hdr.leafRoot).bind ?_
  refine (Decodes.le64 hdr.timestamp).bind ?_
  refine (Decodes.le32 hdr.height).bind ?_
  exact (Decodes.le32 hdr.bits).bind hnonce

theorem Block.decodesIff_deserializeTx (h : tx.getSerializedSize true < 2 ^ 32) :
    DecodesIff Block.deserializeTx (Block.serializeTx tx) tx tx.WithinLimits := by
  have hlen : (UInt32.ofNat (tx.serialize true).length).toNat = (tx.serialize true).length := by
    rw [Transaction.length_serialize]
    exact toNat_ofNat_of_lt h
  have hpos : ¬ UInt32.ofNat (tx.serialize true).length = 0 := by
    intro h0
    rw [h0, Transaction.length_serialize, Transaction.getSerializedSize] at hlen
    simp at hlen
  have hlift := (Transaction.decodesIff h).lift.bind (f := fun result => pure result.1)
    (Decodes.pure tx).iff
  have hvec := DecodesIff.after (Decodes.vec (tx.serialize true)) (f := fun bytes => do
      let result ← Decoder.lift (Transaction.deserialize bytes)
      return result.1) hlift
  rw [List.append_nil, List.append_nil] at hvec
  refine DecodesIff.congr ?_ (by simp [hpos] :
    ¬ UInt32.ofNat (tx.serialize true).length = 0 ∧ (tx.WithinLimits ∧ True) ↔ tx.WithinLimits)
  refine DecodesIff.require (by simp [Block.serializeTx]) ?_
  refine DecodesIff.after (Decodes.le32 (UInt32.ofNat (tx.serialize true).length)) ?_
  rw [hlen]
  exact DecodesIff.throwIf (DecodesIff.require le_rfl hvec)

/-- **A block of transactions of less than four gigabytes is read back if it is within the
limits.** -/
theorem Block.decodesIff_of_txs {block : Block}
    (h : ∀ tx ∈ block.transactions, tx.getSerializedSize true < 2 ^ 32) :
    DecodesIff Block.deserialize block.serialize block block.WithinLimits := by
  have hlong : BlockHeader.SERIALIZED_SIZE + 4 ≤ block.serialize.length := by
    rw [Block.length_serialize, getSerializedSize]
    omega
  have htx : ∀ tx ∈ block.transactions,
      DecodesIff Block.deserializeTx (Block.serializeTx tx) tx tx.WithinLimits :=
    fun tx hmem => Block.decodesIff_deserializeTx (h tx hmem)
  have hcount : (UInt32.ofNat block.transactions.length).toNat = block.transactions.length :=
    toNat_ofNat_of_lt (by have := block.transactions_le; simp only [MAX_TRANSACTIONS] at this; omega)
  have hbuild : build block.header block.transactions = .ok block := dif_pos block.transactions_le
  have hloop := (DecodesIff.replicate block.transactions htx).bind
    (f := fun txs => Decoder.lift (build block.header txs)) (Decodes.lift hbuild).iff
  rw [List.append_nil] at hloop
  refine DecodesIff.congr ?_ (by simp [WithinLimits, block.transactions_le] :
    ¬ block.transactions.length > MAX_TRANSACTIONS ∧
      ((∀ tx ∈ block.transactions, tx.WithinLimits) ∧ True) ↔ block.WithinLimits)
  refine DecodesIff.require hlong ?_
  refine DecodesIff.after (BlockHeader.decodes block.header) ?_
  refine DecodesIff.after (Decodes.le32 (UInt32.ofNat block.transactions.length)) ?_
  rw [hcount]
  exact hloop.throwIf

/-- **A block of less than four gigabytes is read back if it is within the limits.** -/
theorem Block.decodesIff {block : Block} (h : block.getSerializedSize < 2 ^ 32) :
    DecodesIff Block.deserialize block.serialize block block.WithinLimits := by
  refine Block.decodesIff_of_txs fun tx hmem => ?_
  have hle := le_sum_of_mem (f := fun tx : Transaction => 4 + tx.getSerializedSize true) hmem
  unfold getSerializedSize at h
  omega

/-! ## 3. What a txid covers -/

/-- An input without its proof blob: the part a txid covers. -/
def TxInput.bare (input : TxInput) : TxInput := { input with noiseProof := [] }

/-- What a txid covers of a transaction. -/
structure TxPreimage where
  version : UInt32
  inputs : List TxInput
  outputs : List TxOutput
  locktime : UInt64

def Transaction.preimage (tx : Transaction) : TxPreimage where
  version := tx.version
  inputs := tx.inputs.map TxInput.bare
  outputs := tx.outputs
  locktime := tx.locktime

namespace TxPreimage

/-- A reader of inputs without proof blobs. -/
def readInput : Decoder TxInput := do
  let prevTxHash ← Decoder.array 32
  let outputIndex ← Decoder.le32
  let pubkey ← Decoder.array 32
  let signature ← Decoder.array 64
  let kps ← Decoder.array 32
  return { prevTxHash, outputIndex, pubkey, signature, kps, noiseProof := [] }

/-- A reader of outputs that enforces no limits. -/
def readOutput : Decoder TxOutput := do
  let value ← Decoder.le64
  let scriptLen ← readCompactSize
  let scriptPubKey ← Decoder.vec scriptLen
  return { value := value.toInt64, scriptPubKey }

/-- A reader of the bytes a txid covers. -/
def read : Decoder TxPreimage := do
  let version ← Decoder.le32
  let inputCount ← Decoder.le32
  let inputs ← Decoder.replicate readInput inputCount.toNat
  let outputCount ← Decoder.le32
  let outputs ← Decoder.replicate readOutput outputCount.toNat
  let locktime ← Decoder.le64
  return { version, inputs, outputs, locktime }

theorem decodes_readInput (input : TxInput) :
    Decodes readInput (input.serialize false) input.bare := by
  have hkps := (Decodes.array input.kps).bind (f := fun kps => pure { input.bare with kps })
    (Decodes.pure input.bare)
  refine (Decodes.array input.prevTxHash).bind ?_
  refine (Decodes.le32 input.outputIndex).bind ?_
  refine (Decodes.array input.pubkey).bind ?_
  exact (Decodes.array input.signature).bind hkps

theorem decodes_readOutput {output : TxOutput} (h : output.scriptPubKey.length < 2 ^ 64) :
    Decodes readOutput output.serialize output := by
  have hvec := (Decodes.vec output.scriptPubKey).bind
    (f := fun scriptPubKey => pure { value := output.value.toUInt64.toInt64, scriptPubKey })
    (b := output) (Decodes.pure output)
  rw [List.append_nil] at hvec
  exact (Decodes.le64 output.value.toUInt64).bind ((decodes_readCompactSize h).bind hvec)

theorem decodes_read (h : ∀ output ∈ tx.outputs, output.scriptPubKey.length < 2 ^ 64) :
    Decodes read (tx.serialize false) tx.preimage := by
  have hinCount : (UInt32.ofNat tx.inputs.length).toNat = tx.inputs.length :=
    toNat_ofNat_of_lt (by have := tx.inputs_le; simp only [Transaction.MAX_INPUTS] at this; omega)
  have houtCount : (UInt32.ofNat tx.outputs.length).toNat = tx.outputs.length :=
    toNat_ofNat_of_lt (by have := tx.outputs_le; simp only [Transaction.MAX_OUTPUTS] at this; omega)
  have hinputs : Decodes (Decoder.replicate readInput tx.inputs.length)
      (tx.inputs.flatMap (TxInput.serialize false)) (tx.inputs.map TxInput.bare) := by
    have hsame : tx.inputs.flatMap (TxInput.serialize false) =
        (tx.inputs.map TxInput.bare).flatMap (TxInput.serialize false) := by
      rw [List.flatMap_map]
      rfl
    have hloop : Decodes (Decoder.replicate readInput (tx.inputs.map TxInput.bare).length)
        ((tx.inputs.map TxInput.bare).flatMap (TxInput.serialize false))
        (tx.inputs.map TxInput.bare) := Decodes.replicate _ fun a ha => by
      obtain ⟨input, -, rfl⟩ := List.mem_map.mp ha
      exact decodes_readInput input.bare
    rwa [List.length_map, ← hsame] at hloop
  have houtputs := Decodes.replicate tx.outputs fun output hmem => decodes_readOutput (h output hmem)
  have hlock := (Decodes.le64 tx.locktime).bind (f := fun locktime => pure { tx.preimage with locktime })
    (Decodes.pure tx.preimage)
  rw [List.append_nil] at hlock
  refine (Decodes.le32 tx.version).bind ?_
  refine (Decodes.le32 (UInt32.ofNat tx.inputs.length)).bind ?_
  rw [hinCount]
  refine hinputs.bind ?_
  refine (Decodes.le32 (UInt32.ofNat tx.outputs.length)).bind ?_
  rw [houtCount]
  exact houtputs.bind hlock

end TxPreimage

/-- **The hashed bytes determine everything but the noise proofs.** -/
theorem Transaction.preimage_eq {tx' : Transaction}
    (h : ∀ output ∈ tx.outputs, output.scriptPubKey.length < 2 ^ 64)
    (h' : ∀ output ∈ tx'.outputs, output.scriptPubKey.length < 2 ^ 64)
    (heq : tx.serialize false = tx'.serialize false) : tx.preimage = tx'.preimage := by
  have hread := TxPreimage.decodes_read h []
  rw [heq, TxPreimage.decodes_read h' []] at hread
  exact (Prod.mk.inj (Except.ok.inj hread)).1.symm

end Moneu
