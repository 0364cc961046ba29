/-
# Which bytes are the bytes of a value

Many byte strings are read as one transaction.  `ReadCompactSize` accepts a script length in a longer
form than needed, `Transaction::Deserialize` ignores what follows the lock time, and
`Block::Deserialize` ignores what follows the last transaction, and what follows a transaction
inside the length given for it.

Nothing else is lost.  A string can be CUT without reading it: its own counts and lengths say where
the script lengths stand and where it should end (`cutTx`, `cutBlock`).  `CanonicalTx` and
`CanonicalBlock` ask of the cut that every script length is in its shortest form and that nothing is
left over, and

* `reserialize_iff_canonical`: an accepted string is what the value read from it is written as, if and
  only if it is canonical;
* `not_canonical`: one byte after a transaction, or after a block, is accepted.
-/
import Moneu.Primitives.Codec

namespace Moneu

open Decoder

/-! ## 1. Script lengths -/

/-- The number of bytes of a `CompactSize`, from its first one. -/
def sizeWidth (first : UInt8) : Nat :=
  if first < 253 then 1 else if first = 253 then 3 else if first = 254 then 5 else 9

/-- The `CompactSize` at the head of a buffer, as its bytes stand there. -/
def sizeField : List UInt8 → List UInt8
  | [] => []
  | first :: rest => (first :: rest).take (sizeWidth first)

def sizeValue : List UInt8 → Nat
  | [] => 0
  | first :: bytes => if first < 253 then first.toNat else leValue bytes

/-- A `CompactSize` in the shortest of its forms. -/
def Shortest (field : List UInt8) : Prop := field.length = compactSizeLen (sizeValue field)

instance (field : List UInt8) : Decidable (Shortest field) := inferInstanceAs (Decidable (_ = _))

/-- A complete `CompactSize`. -/
def IsField (field : List UInt8) : Prop :=
  ∃ first bytes, field = first :: bytes ∧ bytes.length + 1 = sizeWidth first

theorem IsField.sizeField_append {field : List UInt8} (h : IsField field) (rest : List UInt8) :
    sizeField (field ++ rest) = field := by
  obtain ⟨first, bytes, rfl, hlen⟩ := h
  change (first :: bytes ++ rest).take (sizeWidth first) = first :: bytes
  exact List.take_left' hlen

theorem reads_readCompactSizeRest (first : UInt8) :
    Reads 0 (readCompactSizeRest first) fun w v =>
      w.length + 1 = sizeWidth first ∧ v = sizeValue (first :: w) := by
  have hvalue : ∀ w, sizeValue (first :: w) = if first < 253 then first.toNat else leValue w :=
    fun _ => rfl
  simp only [hvalue]
  unfold readCompactSizeRest sizeWidth
  split
  · exact (Reads.pure _).imp fun w v h => ⟨by rw [h.1]; rfl, h.2⟩
  · split
    · refine Reads.require ((Reads.vec le_rfl fun bytes _ => Reads.pure (leValue bytes)).imp ?_)
      rintro w v ⟨bytes, w', hlen, rfl, rfl, rfl⟩
      exact ⟨by rw [List.append_nil, hlen], by rw [List.append_nil]⟩
    · split
      · refine Reads.require ((Reads.le32 le_rfl fun v => Reads.pure v.toNat).imp ?_)
        rintro w _ ⟨v, w', rfl, rfl, rfl⟩
        rw [List.append_nil, writeLE32, leValue_leBytes 4 _ v.toNat_lt]
        exact ⟨by rw [length_leBytes], rfl⟩
      · refine Reads.require ((Reads.le64 le_rfl fun v => Reads.pure v.toNat).imp ?_)
        rintro w _ ⟨v, w', rfl, rfl, rfl⟩
        rw [List.append_nil, writeLE64, leValue_leBytes 8 _ v.toNat_lt]
        exact ⟨by rw [length_leBytes], rfl⟩

/-- **`ReadCompactSize`** reads a complete field, in whatever form. -/
theorem reads_readCompactSize :
    Reads 0 readCompactSize fun w v => IsField w ∧ v = sizeValue w := by
  unfold readCompactSize
  refine Reads.require ((Reads.u8 reads_readCompactSizeRest).imp ?_)
  rintro w v ⟨first, w', rfl, hlen, rfl⟩
  exact ⟨⟨first, w', rfl, hlen⟩, rfl⟩

/-! ## 2. Parts and what they are written as -/

/-- What a part is written as is no longer than the part, and is the part itself exactly if `C`. -/
structure Padded (enc w : List UInt8) (C : Prop) : Prop where
  length_le : enc.length ≤ w.length
  eq_iff : enc = w ↔ C

namespace Padded

variable {enc enc' w w' : List UInt8} {C C' : Prop}

theorem refl (w : List UInt8) : Padded w w True := ⟨le_rfl, by simp⟩

theorem congr (h : Padded enc w C) (hiff : C ↔ C') : Padded enc w C' := by rwa [← hiff]

/-- **Part by part**: neither can make up for the other. -/
theorem append (h : Padded enc w C) (h' : Padded enc' w' C') :
    Padded (enc ++ enc') (w ++ w') (C ∧ C') := by
  refine ⟨?_, ?_⟩
  · rw [List.length_append, List.length_append]
    exact Nat.add_le_add h.length_le h'.length_le
  · rw [← h.eq_iff, ← h'.eq_iff]
    constructor
    · intro heq
      have hlen := congrArg List.length heq
      rw [List.length_append, List.length_append] at hlen
      have hle := h.length_le
      have hle' := h'.length_le
      exact List.append_inj heq (by omega)
    · rintro ⟨rfl, rfl⟩
      rfl

theorem after (pre : List UInt8) (h : Padded enc w C) : Padded (pre ++ enc) (pre ++ w) C :=
  ((refl pre).append h).congr (by simp)

theorem before (post : List UInt8) (h : Padded enc w C) : Padded (enc ++ post) (w ++ post) C :=
  (h.append (refl post)).congr (by simp)

theorem tail (rest : List UInt8) : Padded [] rest (rest = []) :=
  ⟨Nat.zero_le _, eq_comm⟩

end Padded

theorem writeCompactSize_of_len (v : Nat) :
    (compactSizeLen v = 3 → writeCompactSize v = 253 :: leBytes 2 v) ∧
      (compactSizeLen v = 5 → writeCompactSize v = 254 :: leBytes 4 v) ∧
      (compactSizeLen v = 9 → writeCompactSize v = 255 :: leBytes 8 v) := by
  unfold compactSizeLen writeCompactSize
  by_cases hone : v < 253
  · simp [hone]
  · by_cases htwo : v ≤ 0xffff
    · simp [hone, htwo]
    · by_cases hfour : v ≤ 0xffffffff
      · simp [hone, htwo, hfour]
      · simp [hone, htwo, hfour]

theorem padded_form {first : UInt8} {bytes : List UInt8} {n : Nat} (hlen : bytes.length = n)
    (hfirst : ¬ first < 253)
    (hwrite : compactSizeLen (leValue bytes) = n + 1 →
      writeCompactSize (leValue bytes) = first :: leBytes n (leValue bytes))
    (hle : compactSizeLen (leValue bytes) ≤ n + 1) :
    Padded (writeCompactSize (sizeValue (first :: bytes))) (first :: bytes)
      (Shortest (first :: bytes)) := by
  have hvalue : sizeValue (first :: bytes) = leValue bytes := if_neg hfirst
  have hbytes := leBytes_leValue bytes
  rw [hlen] at hbytes
  unfold Shortest
  rw [hvalue, List.length_cons, hlen]
  refine ⟨?_, ?_⟩
  · rw [length_writeCompactSize, List.length_cons, hlen]
    exact hle
  · constructor
    · intro heq
      have hlens := congrArg List.length heq
      rw [length_writeCompactSize, List.length_cons, hlen] at hlens
      exact hlens.symm
    · intro hshort
      rw [hwrite hshort.symm, hbytes]

/-- **A script length** is written in its shortest form. -/
theorem IsField.padded {field : List UInt8} (h : IsField field) :
    Padded (writeCompactSize (sizeValue field)) field (Shortest field) := by
  obtain ⟨first, bytes, rfl, hwidth⟩ := h
  have hlt := leValue_lt bytes
  unfold sizeWidth at hwidth
  split at hwidth
  case isTrue hsmall =>
    obtain rfl : bytes = [] := List.length_eq_zero_iff.mp (by omega)
    have hbyte : first.toNat < 253 := UInt8.lt_iff_toNat_lt.mp hsmall
    have hvalue : sizeValue [first] = first.toNat := if_pos hsmall
    unfold Shortest
    rw [hvalue, writeCompactSize, if_pos hbyte, compactSizeLen, if_pos hbyte, UInt8.ofNat_toNat]
    exact (Padded.refl _).congr (by simp)
  case isFalse hlarge =>
    split at hwidth
    case isTrue h253 =>
      obtain hlen : bytes.length = 2 := by omega
      rw [hlen] at hlt
      refine padded_form hlen hlarge (h253 ▸ (writeCompactSize_of_len _).1) ?_
      unfold compactSizeLen
      split_ifs <;> omega
    case isFalse h253 =>
      split at hwidth
      case isTrue h254 =>
        obtain hlen : bytes.length = 4 := by omega
        rw [hlen] at hlt
        refine padded_form hlen hlarge (h254 ▸ (writeCompactSize_of_len _).2.1) ?_
        unfold compactSizeLen
        split_ifs <;> omega
      case isFalse h254 =>
        obtain hlen : bytes.length = 8 := by omega
        have h255 : first = 255 := by
          rw [UInt8.lt_iff_toNat_lt] at hlarge
          have hne253 : first.toNat ≠ 253 := fun h => h253 (UInt8.toNat_inj.mp h)
          have hne254 : first.toNat ≠ 254 := fun h => h254 (UInt8.toNat_inj.mp h)
          have hword := first.toNat_lt
          change ¬ first.toNat < 253 at hlarge
          exact UInt8.toNat_inj.mp (by change first.toNat = 255; omega)
        refine padded_form hlen hlarge (h255 ▸ (writeCompactSize_of_len _).2.2) ?_
        unfold compactSizeLen
        split_ifs <;> omega

/-! ## 3. Transactions -/

variable {ws : List (List UInt8)} {tx : Transaction} {rest : List UInt8}

/-- What is left of a buffer after `n` inputs. -/
def cutInputs : Nat → List UInt8 → List UInt8
  | 0, s => s
  | n + 1, s => cutInputs n (s.drop (168 + (readLE32 (s.drop 164)).toNat))

/-- The script lengths of `n` outputs, and what is left after them. -/
def cutOutputs : Nat → List UInt8 → List (List UInt8) × List UInt8
  | 0, s => ([], s)
  | n + 1, s =>
    let field := sizeField (s.drop 8)
    let cut := cutOutputs n (s.drop (8 + field.length + sizeValue field))
    (field :: cut.1, cut.2)

/-- The script lengths of a transaction, and what is left after its lock time. -/
def cutTx (s : List UInt8) : List (List UInt8) × List UInt8 :=
  let afterInputs := cutInputs (readLE32 (s.drop 4)).toNat (s.drop 8)
  let cut := cutOutputs (readLE32 afterInputs).toNat (afterInputs.drop 4)
  (cut.1, cut.2.drop 8)

/-- Every script length is in its shortest form, and nothing follows the lock time. -/
def CanonicalTx (s : List UInt8) : Prop :=
  (∀ field ∈ (cutTx s).1, Shortest field) ∧ (cutTx s).2 = []

instance (s : List UInt8) : Decidable (CanonicalTx s) := inferInstanceAs (Decidable (_ ∧ _))

def InputBytes (w : List UInt8) (input : TxInput) : Prop :=
  w = input.serialize true ∧ input.noiseProof.length < 2 ^ 32

/-- The bytes of an output, its script length in any form. -/
def OutputBytes (w : List UInt8) (output : TxOutput) : Prop :=
  ∃ field, IsField field ∧ output.scriptPubKey.length = sizeValue field ∧
    w = writeLE64 output.value.toUInt64 ++ (field ++ output.scriptPubKey)

theorem reads_input : Reads 0 TxInput.deserialize InputBytes := by
  refine Reads.require ((Reads.array (by decide) fun prevTxHash => Reads.le32 (by decide)
    fun outputIndex => Reads.array (by decide) fun pubkey => Reads.array (by decide)
    fun signature => Reads.array (by decide) fun kps => Reads.le32 (by decide) fun proofLen =>
    Reads.throwIf fun _ => Reads.require (Reads.vec le_rfl fun noiseProof _ =>
      Reads.pure (TxInput.mk prevTxHash outputIndex pubkey signature kps noiseProof))).imp ?_)
  rintro w input ⟨prevTxHash, _, rfl, outputIndex, _, rfl, pubkey, _, rfl, signature, _, rfl, kps, _,
    rfl, proofLen, _, rfl, noiseProof, _, hlen, rfl, rfl, rfl⟩
  refine ⟨?_, by rw [hlen]; exact proofLen.toNat_lt⟩
  rw [TxInput.serialize, if_pos rfl, hlen, UInt32.ofNat_toNat, List.append_nil]

theorem reads_output : Reads 0 TxOutput.deserialize OutputBytes := by
  refine Reads.require ((Reads.le64 le_rfl fun value => Reads.throwIf fun _ =>
    reads_readCompactSize.bind fun scriptLen => Reads.throwIf fun _ => Reads.require
      (Reads.vec le_rfl fun scriptPubKey _ =>
        Reads.pure (TxOutput.mk value.toInt64 scriptPubKey))).imp ?_)
  rintro w output ⟨value, _, rfl, scriptLen, field, _, rfl, ⟨hfield, rfl⟩, script, _, hlen, rfl, rfl,
    rfl⟩
  refine ⟨field, hfield, hlen, ?_⟩
  rw [List.append_nil]
  rfl

theorem cutInputs_flatten {inputs : List TxInput} (h : List.Forall₂ InputBytes ws inputs)
    (rest : List UInt8) :
    cutInputs inputs.length (ws.flatten ++ rest) = rest := by
  induction h with
  | nil => rfl
  | @cons w input ws inputs hw _ ih =>
    obtain ⟨rfl, hlen⟩ := hw
    have hsplit : input.serialize true ++ (ws.flatten ++ rest) =
        (input.prevTxHash.data ++ (writeLE32 input.outputIndex ++ (input.pubkey.data ++
          (input.signature.data ++ input.kps.data)))) ++
        (writeLE32 (UInt32.ofNat input.noiseProof.length) ++
          (input.noiseProof ++ (ws.flatten ++ rest))) := by
      simp only [TxInput.serialize, if_true, List.append_assoc]
    have hhead : (input.prevTxHash.data ++ (writeLE32 input.outputIndex ++ (input.pubkey.data ++
        (input.signature.data ++ input.kps.data)))).length = 164 := by simp
    have hsize : (input.serialize true).length = 168 + input.noiseProof.length := by
      rw [TxInput.length_serialize]
      simp only [TxInput.getSerializedSize, if_true]
      omega
    rw [List.flatten_cons, List.append_assoc, List.length_cons, cutInputs]
    have hread : (readLE32 ((input.serialize true ++ (ws.flatten ++ rest)).drop 164)).toNat =
        input.noiseProof.length := by
      rw [hsplit, List.drop_left' hhead, readLE32_writeLE32, toNat_ofNat_of_lt hlen]
    rw [hread, List.drop_left' hsize, ih]

/-- **The outputs**: the cut ends where they end, and they are written as they stand exactly if every
script length is in its shortest form. -/
theorem cutOutputs_flatten {outputs : List TxOutput} (h : List.Forall₂ OutputBytes ws outputs)
    (rest : List UInt8) :
    (cutOutputs outputs.length (ws.flatten ++ rest)).2 = rest ∧
      Padded (outputs.flatMap TxOutput.serialize) ws.flatten
        (∀ field ∈ (cutOutputs outputs.length (ws.flatten ++ rest)).1, Shortest field) := by
  induction h with
  | nil => exact ⟨rfl, (Padded.refl []).congr (by simp [cutOutputs])⟩
  | @cons w output ws outputs hw _ ih =>
    obtain ⟨field, hfield, hlen, rfl⟩ := hw
    obtain ⟨hrest, hpadded⟩ := ih
    have hvalue := length_writeLE64 output.value.toUInt64
    have hsize : (writeLE64 output.value.toUInt64 ++ (field ++ output.scriptPubKey)).length =
        8 + field.length + sizeValue field := by
      rw [List.length_append, List.length_append, hvalue, hlen]
      omega
    have hcut : sizeField ((writeLE64 output.value.toUInt64 ++ (field ++ output.scriptPubKey) ++
        (ws.flatten ++ rest)).drop 8) = field := by
      rw [List.append_assoc, List.drop_left' hvalue, List.append_assoc]
      exact hfield.sizeField_append _
    rw [List.flatten_cons, List.append_assoc (_ ++ _), List.length_cons, cutOutputs]
    simp only [hcut, List.drop_left' hsize]
    refine ⟨hrest, ?_⟩
    rw [List.flatMap_cons, TxOutput.serialize, hlen]
    exact (((hfield.padded.before output.scriptPubKey).after _).append hpadded).congr (by simp)

def TxBytes (w : List UInt8) (tx : Transaction) : Prop :=
  ∃ ins outs, List.Forall₂ InputBytes ins tx.inputs ∧ List.Forall₂ OutputBytes outs tx.outputs ∧
    w = writeLE32 tx.version ++ (writeLE32 (UInt32.ofNat tx.inputs.length) ++ (ins.flatten ++
      (writeLE32 (UInt32.ofNat tx.outputs.length) ++ (outs.flatten ++ writeLE64 tx.locktime))))

theorem Transaction.eq_of_build {version : UInt32} {inputs : List TxInput} {outputs : List TxOutput}
    {locktime : UInt64} (h : build version inputs outputs locktime = .ok tx) :
    tx.version = version ∧ tx.inputs = inputs ∧ tx.outputs = outputs ∧ tx.locktime = locktime := by
  unfold build at h
  split at h
  · split at h
    · cases h
      exact ⟨rfl, rfl, rfl, rfl⟩
    · cases h
  · cases h

theorem reads_transaction : Reads 0 Transaction.deserialize TxBytes := by
  refine Reads.require ((Reads.le32 (by decide) fun version => Reads.le32 (by decide)
    fun inputCount => Reads.throwIf fun _ => ((reads_input.replicate inputCount.toNat).weaken (Nat.zero_le _)).bind
    fun inputs => Reads.require (Reads.le32 le_rfl fun outputCount => Reads.throwIf fun _ =>
      (reads_output.replicate outputCount.toNat).bind fun outputs => Reads.require
        (Reads.le64 le_rfl fun locktime => Reads.lift))).imp ?_)
  rintro w tx ⟨version, _, rfl, inputCount, _, rfl, inputs, _, _, rfl, ⟨hin, ins, rfl, hins⟩,
    outputCount, _, rfl, outputs, _, _, rfl, ⟨hout, outs, rfl, houts⟩, locktime, _, rfl, rfl, hbuild⟩
  obtain ⟨rfl, rfl, rfl, rfl⟩ := Transaction.eq_of_build hbuild
  refine ⟨ins, outs, hins, houts, ?_⟩
  rw [hin, hout, UInt32.ofNat_toNat, UInt32.ofNat_toNat, List.append_nil]

/-- **A transaction** that was read from a string is written as that string exactly if the string is
canonical. -/
theorem padded_transaction {s : List UInt8} (h : Transaction.deserialize s = .ok (tx, rest)) :
    Padded (tx.serialize true) s (CanonicalTx s) := by
  obtain ⟨w, rfl, ins, outs, hins, houts, rfl⟩ := reads_transaction s tx rest (Nat.zero_le _) h
  have hinCount : (UInt32.ofNat tx.inputs.length).toNat = tx.inputs.length :=
    toNat_ofNat_of_lt (by have := tx.inputs_le; simp only [Transaction.MAX_INPUTS] at this; omega)
  have houtCount : (UInt32.ofNat tx.outputs.length).toNat = tx.outputs.length :=
    toNat_ofNat_of_lt (by have := tx.outputs_le; simp only [Transaction.MAX_OUTPUTS] at this; omega)
  obtain ⟨hrest, hpadded⟩ := cutOutputs_flatten houts (writeLE64 tx.locktime ++ rest)
  have hsame : ins.flatten = tx.inputs.flatMap (TxInput.serialize true) := by
    rw [List.flatMap_def]
    congr 1
    exact List.forall₂_eq_eq_eq ▸ (List.forall₂_map_right_iff.mpr (hins.imp fun _ _ h => h.1))
  have hcut : cutTx (writeLE32 tx.version ++ (writeLE32 (UInt32.ofNat tx.inputs.length) ++
      (ins.flatten ++ (writeLE32 (UInt32.ofNat tx.outputs.length) ++ (outs.flatten ++
        writeLE64 tx.locktime)))) ++ rest) =
      ((cutOutputs tx.outputs.length (outs.flatten ++ (writeLE64 tx.locktime ++ rest))).1, rest) := by
    simp only [cutTx, List.append_assoc]
    have hversion := length_writeLE32 tx.version
    have height : (writeLE32 tx.version ++
        writeLE32 (UInt32.ofNat tx.inputs.length)).length = 8 := by simp
    rw [List.drop_left' hversion, readLE32_writeLE32, hinCount, ← List.append_assoc (writeLE32 _),
      List.drop_left' height, cutInputs_flatten hins, readLE32_writeLE32, houtCount,
      List.drop_left' (length_writeLE32 _), hrest, List.drop_left' (length_writeLE64 _)]
  have hwhole := (((((hpadded.before (writeLE64 tx.locktime)).after
    (writeLE32 (UInt32.ofNat tx.outputs.length))).after ins.flatten).after
    (writeLE32 (UInt32.ofNat tx.inputs.length))).after (writeLE32 tx.version)).append
    (Padded.tail rest)
  rw [List.append_nil] at hwhole
  unfold CanonicalTx
  rw [hcut, Transaction.serialize, ← hsame]
  exact hwhole

/-! ## 4. Blocks -/

/-- The bytes given for each of `n` transactions, and what is left after them. -/
def cutBlockTxs : Nat → List UInt8 → List (List UInt8) × List UInt8
  | 0, s => ([], s)
  | n + 1, s =>
    let txLen := (readLE32 s).toNat
    let cut := cutBlockTxs n (s.drop (4 + txLen))
    ((s.drop 4).take txLen :: cut.1, cut.2)

/-- The bytes given for each transaction of a block, and what is left after them. -/
def cutBlock (s : List UInt8) : List (List UInt8) × List UInt8 :=
  let afterHeader := s.drop BlockHeader.SERIALIZED_SIZE
  cutBlockTxs (readLE32 afterHeader).toNat (afterHeader.drop 4)

/-- The bytes given for each transaction are canonical, and nothing follows the last one. -/
def CanonicalBlock (s : List UInt8) : Prop :=
  (∀ bytes ∈ (cutBlock s).1, CanonicalTx bytes) ∧ (cutBlock s).2 = []

instance (s : List UInt8) : Decidable (CanonicalBlock s) := inferInstanceAs (Decidable (_ ∧ _))

/-- The bytes of a transaction inside a block. -/
def BlockTxBytes (w : List UInt8) (tx : Transaction) : Prop :=
  ∃ bytes rest, bytes.length < 2 ^ 32 ∧ Transaction.deserialize bytes = .ok (tx, rest) ∧
    w = writeLE32 (UInt32.ofNat bytes.length) ++ bytes

theorem reads_header : Reads 0 BlockHeader.deserialize fun w hdr => w = hdr.serialize := by
  refine Reads.require ((Reads.le32 (by decide) fun version => Reads.array (by decide)
    fun prevBlockHash => Reads.array (by decide) fun merkleRoot => Reads.array (by decide)
    fun leafRoot => Reads.le64 (by decide) fun timestamp => Reads.le32 (by decide) fun height =>
    Reads.le32 (by decide) fun bits => Reads.le32 (by decide) fun nonce => Reads.pure
      (BlockHeader.mk version prevBlockHash merkleRoot leafRoot timestamp height bits nonce)).imp ?_)
  rintro w hdr ⟨version, _, rfl, prevBlockHash, _, rfl, merkleRoot, _, rfl, leafRoot, _, rfl,
    timestamp, _, rfl, height, _, rfl, bits, _, rfl, nonce, _, rfl, rfl, rfl⟩
  rw [BlockHeader.serialize, List.append_nil]

theorem reads_blockTx : Reads 0 Block.deserializeTx BlockTxBytes := by
  refine Reads.require ((Reads.le32 le_rfl fun txLen => Reads.throwIf fun _ => Reads.require
    (Reads.vec le_rfl fun bytes _ => Reads.lift.bind fun result => Reads.pure result.1)).imp ?_)
  rintro w tx ⟨txLen, _, rfl, bytes, _, hlen, rfl, ⟨tx', rest⟩, _, _, rfl, ⟨rfl, hread⟩, rfl, rfl⟩
  refine ⟨bytes, rest, by rw [hlen]; exact txLen.toNat_lt, hread, ?_⟩
  rw [hlen, UInt32.ofNat_toNat, List.append_nil, List.append_nil]

theorem padded_blockTx {bytes : List UInt8} (h : Transaction.deserialize bytes = .ok (tx, rest)) :
    Padded (Block.serializeTx tx) (writeLE32 (UInt32.ofNat bytes.length) ++ bytes)
      (CanonicalTx bytes) := by
  have hpadded := padded_transaction h
  refine ⟨?_, ?_⟩
  · have hle := hpadded.length_le
    rw [Block.serializeTx, List.length_append, List.length_append, length_writeLE32,
      length_writeLE32]
    omega
  · rw [← hpadded.eq_iff, Block.serializeTx]
    constructor
    · intro heq
      exact List.append_inj_right heq (by rw [length_writeLE32, length_writeLE32])
    · intro heq
      rw [heq]

theorem cutBlockTxs_flatten {txs : List Transaction} (h : List.Forall₂ BlockTxBytes ws txs)
    (rest : List UInt8) :
    (cutBlockTxs txs.length (ws.flatten ++ rest)).2 = rest ∧
      Padded (txs.flatMap Block.serializeTx) ws.flatten
        (∀ bytes ∈ (cutBlockTxs txs.length (ws.flatten ++ rest)).1, CanonicalTx bytes) := by
  induction h with
  | nil => exact ⟨rfl, (Padded.refl []).congr (by simp [cutBlockTxs])⟩
  | @cons w tx ws txs hw _ ih =>
    obtain ⟨bytes, _, hlen, hread, rfl⟩ := hw
    obtain ⟨hrest, hpadded⟩ := ih
    have hword := length_writeLE32 (UInt32.ofNat bytes.length)
    have hsize : (writeLE32 (UInt32.ofNat bytes.length) ++ bytes).length = 4 + bytes.length := by
      rw [List.length_append, hword]
    have hcount : (readLE32 (writeLE32 (UInt32.ofNat bytes.length) ++ bytes ++
        (ws.flatten ++ rest))).toNat = bytes.length := by
      rw [List.append_assoc, readLE32_writeLE32, toNat_ofNat_of_lt hlen]
    have hbytes : ((writeLE32 (UInt32.ofNat bytes.length) ++ bytes ++
        (ws.flatten ++ rest)).drop 4).take bytes.length = bytes := by
      rw [List.append_assoc, List.drop_left' hword, List.take_left]
    rw [List.flatten_cons, List.append_assoc (_ ++ _), List.length_cons, cutBlockTxs]
    simp only [hcount, hbytes, List.drop_left' hsize]
    refine ⟨hrest, ?_⟩
    rw [List.flatMap_cons]
    exact ((padded_blockTx hread).append hpadded).congr (by simp)

theorem reads_block : Reads 0 Block.deserialize fun w block =>
    ∃ ws, List.Forall₂ BlockTxBytes ws block.transactions ∧ w = block.header.serialize ++
      (writeLE32 (UInt32.ofNat block.transactions.length) ++ ws.flatten) := by
  have hsize : ∀ hdr : BlockHeader, hdr.serialize.length = BlockHeader.SERIALIZED_SIZE := by
    intro hdr
    simp [BlockHeader.serialize, BlockHeader.SERIALIZED_SIZE]
  refine Reads.require (((reads_header.weaken (Nat.zero_le _)).bind_after fun w hdr hw =>
    Reads.le32 (by rw [hw, hsize]; decide) fun txCount => Reads.throwIf fun _ =>
    ((reads_blockTx.replicate txCount.toNat).weaken (Nat.zero_le _)).bind fun txs =>
      Reads.lift).imp ?_)
  rintro w block ⟨hdr, _, _, rfl, rfl, txCount, _, rfl, txs, _, _, rfl, ⟨hlen, ws, rfl, hws⟩, rfl,
    hbuild⟩
  unfold Block.build at hbuild
  split at hbuild
  · cases hbuild
    refine ⟨ws, hws, ?_⟩
    rw [hlen, UInt32.ofNat_toNat, List.append_nil]
  · cases hbuild

/-- **A block** that was read from a string is written as that string exactly if the string is
canonical. -/
theorem padded_block {s : List UInt8} {block : Block} (h : Block.deserialize s = .ok (block, rest)) :
    Padded block.serialize s (CanonicalBlock s) := by
  obtain ⟨w, rfl, ws, hws, rfl⟩ := reads_block s block rest (Nat.zero_le _) h
  have hcount : (UInt32.ofNat block.transactions.length).toNat = block.transactions.length :=
    toNat_ofNat_of_lt (by
      have := block.transactions_le
      simp only [Block.MAX_TRANSACTIONS] at this
      omega)
  have hsize : block.header.serialize.length = BlockHeader.SERIALIZED_SIZE := by
    simp [BlockHeader.serialize, BlockHeader.SERIALIZED_SIZE]
  obtain ⟨hrest, hpadded⟩ := cutBlockTxs_flatten hws rest
  have hcut : cutBlock (block.header.serialize ++
      (writeLE32 (UInt32.ofNat block.transactions.length) ++ ws.flatten) ++ rest) =
      cutBlockTxs block.transactions.length (ws.flatten ++ rest) := by
    simp only [cutBlock, List.append_assoc]
    rw [List.drop_left' hsize, readLE32_writeLE32, hcount, List.drop_left' (length_writeLE32 _)]
  have hwhole := ((hpadded.after (writeLE32 (UInt32.ofNat block.transactions.length))).after
    block.header.serialize).append (Padded.tail rest)
  rw [List.append_nil] at hwhole
  unfold CanonicalBlock
  rw [hcut, hrest, Block.serialize]
  exact hwhole

/-! ## 5. Both formats -/

/-- **Which accepted strings are written back as they were.**  A string that `Transaction::Deserialize`
or `Block::Deserialize` accepts is the serialization of the value read from it if and only if it is
canonical. -/
theorem reserialize_iff_canonical (s : List UInt8) :
    (∀ tx rest, Transaction.deserialize s = .ok (tx, rest) →
      (tx.serialize true = s ↔ CanonicalTx s)) ∧
    (∀ block rest, Block.deserialize s = .ok (block, rest) →
      (block.serialize = s ↔ CanonicalBlock s)) :=
  ⟨fun _ _ h => (padded_transaction h).eq_iff, fun _ _ h => (padded_block h).eq_iff⟩

def emptyTx : Transaction := ⟨0, [], [], 0, by decide, by decide⟩

/-- The empty transaction is written back as its twenty bytes. -/
theorem reserialize_iff_canonical_empty : emptyTx.serialize true = List.replicate 20 0 :=
  ((reserialize_iff_canonical (List.replicate 20 0)).1 emptyTx [] (by decide)).mpr (by decide)

/-- **One byte too many** is accepted after a transaction, and after a block. -/
theorem not_canonical :
    (¬ ∀ s tx rest, Transaction.deserialize s = .ok (tx, rest) → tx.serialize true = s) ∧
    (¬ ∀ s block rest, Block.deserialize s = .ok (block, rest) → block.serialize = s) := by
  refine ⟨fun hall => ?_, fun hall => ?_⟩
  · exact absurd (hall (List.replicate 21 0) emptyTx [0] (by decide)) (by decide)
  · exact absurd (hall (List.replicate 125 0)
      ⟨⟨0, FixedBytes.zero, FixedBytes.zero, FixedBytes.zero, 0, 0, 0, 0⟩, [], by decide⟩ [0]
      (by decide)) (by decide)

end Moneu
