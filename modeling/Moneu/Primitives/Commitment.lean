/-
# What a txid and a signature commit to

Two encodings of one transaction are hashed: the txid covers all of it but the noise proofs, the
signature hash covers neither the proofs nor the signatures, and ends in the number of the input.

Both encodings are injective in what they cover, and blind to the rest (`serialize_eq_iff`,
`signaturePreimage_eq_iff`).  So proofs can be attached after signing: no txid and no verdict on a
signature changes.  And inputs can be signed one after the other: `Sign` writes the signature and
the public key, and as long as the key was the right one before, no other signature loses its hash.
-/
import Moneu.Primitives.Codec

namespace Moneu

open Decoder

namespace TxInput

/-- An input without its signature and its proof blob: the part a signature covers. -/
def unsigned (input : TxInput) : TxInput :=
  { input with signature := FixedBytes.zero, noiseProof := [] }

end TxInput

/-- `SecretKey`: its public key, and what it signs a message with. -/
structure SecretKey where
  publicKey : Bytes32
  sign : List UInt8 → Bytes64

namespace Transaction

/-! ## 1. The two encodings -/

variable {t t' : Transaction} {i : Nat}

/-- Two transactions agree in every field, as far as `part` keeps it. -/
structure SameUpTo (part : TxInput → TxInput) (t t' : Transaction) : Prop where
  version : t.version = t'.version
  inputs : t.inputs.map part = t'.inputs.map part
  outputs : t.outputs = t'.outputs
  locktime : t.locktime = t'.locktime

/-- The scripts fit into memory. -/
def ScriptsFit (t : Transaction) : Prop :=
  ∀ output ∈ t.outputs, output.scriptPubKey.length < 2 ^ 64

theorem WithinLimits.scriptsFit (h : t.WithinLimits) : t.ScriptsFit := by
  intro output hmem
  have hle : output.scriptPubKey.length ≤ MAX_SCRIPT_SIZE := (h.2 output hmem).2
  simp only [MAX_SCRIPT_SIZE] at hle
  omega

/-- The transaction with every signature zeroed, as `GetSignatureHash` writes it. -/
def zeroSigned (t : Transaction) : Transaction where
  version := t.version
  inputs := t.inputs.map TxInput.unsigned
  outputs := t.outputs
  locktime := t.locktime
  inputs_le := by
    rw [List.length_map]
    exact t.inputs_le
  outputs_le := t.outputs_le

/-- What `GetSignatureHash` hashes: the zeroed transaction, and the number of the input. -/
theorem signaturePreimage_eq (t : Transaction) (i : Nat) :
    t.signaturePreimage i = t.zeroSigned.serialize false ++ writeLE32 (UInt32.ofNat i) := by
  have hinput : ∀ input : TxInput, input.unsigned.serialize false =
      input.prevTxHash.data ++ (writeLE32 input.outputIndex ++ (input.pubkey.data ++
        ((FixedBytes.zero : Bytes64).data ++ input.kps.data))) := by
    intro input
    simp [TxInput.serialize, TxInput.unsigned]
  simp only [signaturePreimage, serialize, zeroSigned, List.length_map, List.flatMap_map,
    List.append_assoc, hinput]

theorem sameUpTo_bare_iff :
    SameUpTo TxInput.bare t t' ↔ t.preimage = t'.preimage := by
  constructor
  · intro h
    simp only [preimage, h.version, h.inputs, h.outputs, h.locktime]
  · intro h
    exact ⟨congrArg TxPreimage.version h, congrArg TxPreimage.inputs h,
      congrArg TxPreimage.outputs h, congrArg TxPreimage.locktime h⟩

theorem SameUpTo.serialize_eq (h : SameUpTo TxInput.bare t t') :
    t.serialize false = t'.serialize false := by
  have hinputs : ∀ inputs : List TxInput, inputs.flatMap (TxInput.serialize false) =
      (inputs.map TxInput.bare).flatMap (TxInput.serialize false) := by
    intro inputs
    rw [List.flatMap_map]
    rfl
  have hlen := congrArg List.length h.inputs
  rw [List.length_map, List.length_map] at hlen
  rw [serialize, serialize, hinputs, hinputs t'.inputs, h.inputs, h.version, h.outputs, h.locktime,
    hlen]

/-- **What a txid commits to**: everything but the noise proofs. -/
theorem serialize_eq_iff (h : t.ScriptsFit) (h' : t'.ScriptsFit) :
    t.serialize false = t'.serialize false ↔ SameUpTo TxInput.bare t t' :=
  ⟨fun heq => sameUpTo_bare_iff.mpr (preimage_eq h h' heq), SameUpTo.serialize_eq⟩

theorem sameUpTo_zeroSigned_iff :
    SameUpTo TxInput.bare t.zeroSigned t'.zeroSigned ↔ SameUpTo TxInput.unsigned t t' := by
  have hbare : ∀ inputs : List TxInput,
      (inputs.map TxInput.unsigned).map TxInput.bare = inputs.map TxInput.unsigned := by
    intro inputs
    rw [List.map_map]
    rfl
  constructor
  · intro h
    have hinputs := h.inputs
    simp only [zeroSigned, hbare] at hinputs
    exact ⟨h.version, hinputs, h.outputs, h.locktime⟩
  · intro h
    refine ⟨h.version, ?_, h.outputs, h.locktime⟩
    simp only [zeroSigned, hbare]
    exact h.inputs

theorem SameUpTo.signaturePreimage_eq (h : SameUpTo TxInput.unsigned t t') (i : Nat) :
    t.signaturePreimage i = t'.signaturePreimage i := by
  rw [Transaction.signaturePreimage_eq, Transaction.signaturePreimage_eq,
    (sameUpTo_zeroSigned_iff.mpr h).serialize_eq]

/-- **What a signature commits to**: the input it is for, and everything but the signatures and the
noise proofs. -/
theorem signaturePreimage_eq_iff (h : t.ScriptsFit) (h' : t'.ScriptsFit) {i' : Nat}
    (hi : i < t.inputs.length) (hi' : i' < t'.inputs.length) :
    t.signaturePreimage i = t'.signaturePreimage i' ↔
      i = i' ∧ SameUpTo TxInput.unsigned t t' := by
  have hword : ∀ {n : Nat} {u : Transaction}, n < u.inputs.length →
      (UInt32.ofNat n).toNat = n := by
    intro n u hn
    have hle := u.inputs_le
    simp only [MAX_INPUTS] at hle
    exact toNat_ofNat_of_lt (by omega)
  constructor
  · intro heq
    rw [signaturePreimage_eq, signaturePreimage_eq] at heq
    -- both strings are read by the reader of txid bytes, which leaves the number of the input
    have hread := @TxPreimage.decodes_read t.zeroSigned h (writeLE32 (UInt32.ofNat i))
    rw [heq, @TxPreimage.decodes_read t'.zeroSigned h'] at hread
    obtain ⟨hpre, hindex⟩ := Prod.mk.inj (Except.ok.inj hread)
    have hindex' := congrArg (fun bytes => (readLE32 (bytes ++ [])).toNat) hindex
    simp only [readLE32_writeLE32, hword hi, hword hi'] at hindex'
    exact ⟨hindex'.symm, sameUpTo_zeroSigned_iff.mp (sameUpTo_bare_iff.mpr hpre.symm)⟩
  · rintro ⟨rfl, hsame⟩
    exact hsame.signaturePreimage_eq i

/-! ## 2. Verdicts on signatures -/

def verifySignatureAt [Ed25519] (t : Transaction) (inputIndex : Nat) (prevOutput : TxOutput) :
    Except String Bool :=
  match t.inputs[inputIndex]? with
  | none => .error "Invalid input index"
  | some input => .ok (t.verifySignature inputIndex input prevOutput)

/-- A verdict depends on the hashed bytes and on the key, the root and the signature of its input. -/
theorem verifySignatureAt_congr [Ed25519] (h : SameUpTo TxInput.unsigned t t')
    (hi : t.inputs[i]?.map TxInput.bare = t'.inputs[i]?.map TxInput.bare) (prevOutput : TxOutput) :
    t.verifySignatureAt i prevOutput = t'.verifySignatureAt i prevOutput := by
  unfold verifySignatureAt
  cases hinput : t.inputs[i]? with
  | none =>
    rw [hinput, Option.map_none, eq_comm, Option.map_eq_none_iff] at hi
    rw [hi]
  | some input =>
    rw [hinput, Option.map_some, eq_comm, Option.map_eq_some_iff] at hi
    obtain ⟨input', hinput', hbare⟩ := hi
    have hpubkey : input'.pubkey = input.pubkey := (congrArg TxInput.pubkey hbare :)
    have hkps : input'.kps = input.kps := (congrArg TxInput.kps hbare :)
    have hsignature : input'.signature = input.signature := (congrArg TxInput.signature hbare :)
    rw [hinput']
    dsimp only
    rw [verifySignature, verifySignature, getSignatureHash, getSignatureHash,
      h.signaturePreimage_eq i, hpubkey, hkps, hsignature]

theorem SameUpTo.unsigned (h : SameUpTo TxInput.bare t t') :
    SameUpTo TxInput.unsigned t t' := by
  refine ⟨h.version, ?_, h.outputs, h.locktime⟩
  have hmap := congrArg (List.map TxInput.unsigned) h.inputs
  rw [List.map_map, List.map_map] at hmap
  exact hmap

/-- **Noise proofs are attached afterwards**: no verdict changes. -/
theorem SameUpTo.verifySignatureAt_eq [Ed25519] (h : SameUpTo TxInput.bare t t') (i : Nat)
    (prevOutput : TxOutput) :
    t.verifySignatureAt i prevOutput = t'.verifySignatureAt i prevOutput := by
  refine verifySignatureAt_congr h.unsigned ?_ prevOutput
  rw [← List.getElem?_map, ← List.getElem?_map, h.inputs]

/-! ## 3. Signing one input after the other -/

/-- The input with the signature and the key `Sign` writes into it. -/
def signedInput (t : Transaction) (inputIndex : Nat) (key : SecretKey) (input : TxInput) : TxInput :=
  { input with
    signature := key.sign (t.getSignatureHash inputIndex).data
    pubkey := key.publicKey }

/-- `Sign(inputIndex, key)`. -/
def sign (t : Transaction) (inputIndex : Nat) (key : SecretKey) : Except String Transaction :=
  if inputIndex ≥ t.inputs.length then .error "Invalid input index"
  else .ok { t with
    inputs := t.inputs.modify inputIndex (t.signedInput inputIndex key)
    inputs_le := by
      rw [List.length_modify]
      exact t.inputs_le }

/-- The public key of the input is that of the key it is signed with. -/
def KeySet (t : Transaction) (inputIndex : Nat) (key : SecretKey) : Prop :=
  ∀ input, t.inputs[inputIndex]? = some input → input.pubkey = key.publicKey

/-- **One signature**: what signatures cover stays as it is, and so do the other inputs. -/
theorem sign_spec {key : SecretKey} (h : t.sign i key = .ok t') (hkey : t.KeySet i key) :
    SameUpTo TxInput.unsigned t t' ∧ ∀ j, j ≠ i → t'.inputs[j]? = t.inputs[j]? := by
  unfold sign at h
  split at h
  · cases h
  · cases h
    refine ⟨⟨rfl, ?_, rfl, rfl⟩, fun j hj => ?_⟩
    · refine List.ext_getElem? fun j => ?_
      rw [List.getElem?_map, List.getElem?_map, List.getElem?_modify]
      cases hinput : t.inputs[j]? with
      | none => rfl
      | some input =>
        by_cases hij : i = j
        · subst hij
          have hpubkey := hkey input hinput
          simp [signedInput, TxInput.unsigned, hpubkey]
        · simp [hij]
    · dsimp only
      rw [List.getElem?_modify_ne _ _ (Ne.symm hj)]

def signSeveral (t : Transaction) : List (Nat × SecretKey) → Except String Transaction
  | [] => .ok t
  | (inputIndex, key) :: rest =>
    match t.sign inputIndex key with
    | .error e => .error e
    | .ok t => t.signSeveral rest

/-- A key stays set when other inputs, or the same one, are signed with keys that were set. -/
theorem KeySet.sign {j : Nat} {key key' : SecretKey} (h : t.KeySet j key') (hkey : t.KeySet i key)
    (hsign : t.sign i key = .ok t') :
    t'.KeySet j key' := by
  intro input hinput
  have hinputs := (sign_spec hsign hkey).1.inputs
  have hmap := congrArg (fun inputs => inputs[j]?) hinputs
  simp only [List.getElem?_map, hinput, Option.map_some] at hmap
  obtain ⟨before, hbefore, hsame⟩ := Option.map_eq_some_iff.mp hmap
  have hpubkey : before.pubkey = input.pubkey := (congrArg TxInput.pubkey hsame :)
  rw [← hpubkey]
  exact h before hbefore

/-- **The run lemma**: signing inputs whose keys are set leaves every verdict on the others. -/
theorem signSeveral_spec [Ed25519] : ∀ (calls : List (Nat × SecretKey)) {t t' : Transaction},
    (∀ call ∈ calls, t.KeySet call.1 call.2) → t.signSeveral calls = .ok t' →
      ∀ j, j ∉ calls.map Prod.fst → ∀ prevOutput,
        t'.verifySignatureAt j prevOutput = t.verifySignatureAt j prevOutput
  | [], t, t', _, h, j, _, prevOutput => by
    cases h
    rfl
  | (i, key) :: calls, t, t', hkeys, h, j, hj, prevOutput => by
    obtain ⟨hkey, hrest⟩ := List.forall_mem_cons.mp hkeys
    rw [List.map_cons, List.mem_cons, not_or] at hj
    unfold signSeveral at h
    cases hsign : t.sign i key with
    | error e =>
      rw [hsign] at h
      cases h
    | ok t₁ =>
      rw [hsign] at h
      obtain ⟨hsame, hothers⟩ := sign_spec hsign hkey
      have hkeys₁ : ∀ call ∈ calls, t₁.KeySet call.1 call.2 :=
        fun call hcall => (hrest call hcall).sign hkey hsign
      rw [signSeveral_spec calls hkeys₁ h j hj.2 prevOutput]
      exact (verifySignatureAt_congr hsame (by rw [hothers j hj.1]) prevOutput).symm

/-! ## 4. Both hashes -/

/-- **What txid and signature hash commit to.**  The txid bytes agree exactly if everything but the
noise proofs does; the signature bytes agree exactly if the number of the input and everything but
signatures and noise proofs does.  Hence other noise proofs change neither the txid nor any verdict
on a signature, and signing inputs whose public keys are set leaves the verdicts on all others. -/
theorem hashes_commit_to [Ed25519] :
    (∀ t t' : Transaction, t.WithinLimits → t'.WithinLimits →
      (t.serialize false = t'.serialize false ↔ SameUpTo TxInput.bare t t')) ∧
    (∀ (t t' : Transaction) (i i' : Nat), t.WithinLimits → t'.WithinLimits →
      i < t.inputs.length → i' < t'.inputs.length →
        (t.signaturePreimage i = t'.signaturePreimage i' ↔
          i = i' ∧ SameUpTo TxInput.unsigned t t')) ∧
    (∀ t t' : Transaction, SameUpTo TxInput.bare t t' →
      t.getHash = t'.getHash ∧
        ∀ i prevOutput, t.verifySignatureAt i prevOutput = t'.verifySignatureAt i prevOutput) ∧
    (∀ (t t' : Transaction) (calls : List (Nat × SecretKey)),
      (∀ call ∈ calls, t.KeySet call.1 call.2) → t.signSeveral calls = .ok t' →
        ∀ j, j ∉ calls.map Prod.fst → ∀ prevOutput,
          t'.verifySignatureAt j prevOutput = t.verifySignatureAt j prevOutput) := by
  refine ⟨fun t t' h h' => serialize_eq_iff h.scriptsFit h'.scriptsFit,
    fun t t' i i' h h' hi hi' => signaturePreimage_eq_iff h.scriptsFit h'.scriptsFit hi hi',
    fun t t' h => ⟨?_, h.verifySignatureAt_eq⟩,
    fun t t' calls hkeys hsign => signSeveral_spec calls hkeys hsign⟩
  rw [getHash, getHash, h.serialize_eq]

def oneInput (noiseProof : List UInt8) : Transaction where
  version := 1
  inputs := [⟨FixedBytes.zero, 0, FixedBytes.zero, FixedBytes.zero, FixedBytes.zero, noiseProof⟩]
  outputs := []
  locktime := 0
  inputs_le := Nat.le_of_ble_eq_true rfl
  outputs_le := Nat.zero_le MAX_OUTPUTS

/-- A proof is attached: the txid bytes are the same. -/
theorem hashes_commit_to_oneInput : (oneInput []).serialize false = (oneInput [1]).serialize false :=
  ((@hashes_commit_to ⟨fun _ _ _ => false⟩).1 (oneInput []) (oneInput [1]) (by decide)
    (by decide)).mpr ⟨rfl, rfl, rfl, rfl⟩

end Transaction

end Moneu
