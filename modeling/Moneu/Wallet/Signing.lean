/-
# What `SignTransaction` attaches

The loops that derive the leaves, check them against the used map and build the proofs, as one
relation between an input and its signed form (`Proves`), and the ways in which `SignTransaction`
reaches its end or its save (`signStage_spec`).
-/
import Moneu.Wallet.WalletManager

namespace Moneu

open NetParams

/-- The leaf indices in the proofs of an input. -/
def TxInput.provenLeaves (input : TxInput) : List UInt32 :=
  (NoiseProof.readAll input.noiseProof).1.map NoiseProof.leafIndex

namespace WalletManager

/-! ## 1. The proofs of one input -/

section Proofs

variable {w : WalletManager} {nf : NoiseFile} {txHash : Bytes32}

/-- The proofs `proofs` for the leaves `leaves`, all of which were free. -/
structure FreshProofs (w : WalletManager) (nf : NoiseFile) (leaves : List UInt32)
    (proofs : List NoiseProof) : Prop where
  indices : proofs.map NoiseProof.leafIndex = leaves
  shaped : ∀ p ∈ proofs, p.Shaped
  depth : ∀ p ∈ proofs, p.merklePath.length = treeDepth 33 nf.leaves.length
  unused : ∀ leaf ∈ leaves, w.isNoiseLeafUsed leaf = false

/-- **The loop over the leaves of one input** consumes them all, and none twice. -/
theorem proveLeaves_spec : ∀ {leaves consumed consumed' : List UInt32} {proofs : List NoiseProof},
    w.proveLeaves nf txHash leaves consumed = .ok (proofs, consumed') →
    FreshProofs w nf leaves proofs ∧ consumed' = consumed ++ leaves ∧
      (consumed.Nodup → consumed'.Nodup)
  | [], consumed, consumed', proofs, h => by
    cases h
    refine ⟨⟨rfl, ?_, ?_, ?_⟩, (List.append_nil _).symm, id⟩
    all_goals intro x hx; cases hx
  | leaf :: rest, consumed, consumed', proofs, h => by
    rw [proveLeaves] at h
    split at h
    case isTrue => cases h
    case isFalse hused =>
      split at h
      case isTrue => cases h
      case isFalse hmem =>
        cases hproof : nf.createProofAt leaf txHash with
        | error what => rw [hproof] at h; cases h
        | ok p =>
          cases hrest : w.proveLeaves nf txHash rest (consumed ++ [leaf]) with
          | error what => rw [hproof] at h; simp only [hrest] at h; cases h
          | ok out =>
            obtain ⟨more, after⟩ := out
            rw [hproof] at h
            simp only [hrest] at h
            cases h
            obtain ⟨hfresh, hafter, hnodup⟩ := proveLeaves_spec hrest
            obtain ⟨hindex, hshaped, hdepth⟩ := NoiseFile.createProofAt_spec hproof
            refine ⟨⟨?_, ?_, ?_, ?_⟩, ?_, ?_⟩
            · rw [List.map_cons, hindex, hfresh.indices]
            · exact List.forall_mem_cons.mpr ⟨hshaped, hfresh.shaped⟩
            · exact List.forall_mem_cons.mpr ⟨hdepth, hfresh.depth⟩
            · exact List.forall_mem_cons.mpr ⟨Bool.eq_false_iff.mpr hused, hfresh.unused⟩
            · rw [hafter, List.append_assoc, List.singleton_append]
            · intro hconsumed
              refine hnodup (hconsumed.append (List.nodup_singleton leaf) ?_)
              intro a ha hleaf
              rw [List.mem_singleton] at hleaf
              exact hmem (hleaf ▸ ha)

/-- The input `signed` is `input` with proofs for its leaves, all of them in range and free. -/
def Proves (w : WalletManager) (nf : NoiseFile) (input signed : TxInput) : Prop :=
  ∃ (proofs : List NoiseProof) (leaves : List UInt32), FreshProofs w nf leaves proofs ∧
    leaves.length = NOISE_PROOFS_PER_INPUT.toNat ∧ (∀ leaf ∈ leaves, leaf < NOISE_LEAF_COUNT) ∧
    signed = { input with noiseProof := proofs.flatMap NoiseProof.serialize }

theorem FreshProofs.provenLeaves {leaves : List UInt32} {proofs : List NoiseProof}
    (h : FreshProofs w nf leaves proofs) (input : TxInput) :
    TxInput.provenLeaves { input with noiseProof := proofs.flatMap NoiseProof.serialize } = leaves := by
  rw [TxInput.provenLeaves, NoiseProof.readAll_flatMap h.shaped, h.indices]

theorem Proves.leaf {input signed : TxInput} (h : Proves w nf input signed) {leaf : UInt32}
    (hleaf : leaf ∈ signed.provenLeaves) :
    leaf < NOISE_LEAF_COUNT ∧ w.isNoiseLeafUsed leaf = false := by
  obtain ⟨proofs, leaves, hfresh, _, hrange, rfl⟩ := h
  rw [hfresh.provenLeaves] at hleaf
  exact ⟨hrange leaf hleaf, hfresh.unused leaf hleaf⟩

theorem Proves.leaves {inputs signed : List TxInput} (h : List.Forall₂ (Proves w nf) inputs signed) :
    ∀ leaf ∈ signed.flatMap TxInput.provenLeaves,
      leaf < NOISE_LEAF_COUNT ∧ w.isNoiseLeafUsed leaf = false := by
  induction h with
  | nil =>
    intro leaf hleaf
    cases hleaf
  | cons hinput _ ih =>
    intro leaf hleaf
    rw [List.flatMap_cons, List.mem_append] at hleaf
    rcases hleaf with hleaf | hleaf
    · exact hinput.leaf hleaf
    · exact ih leaf hleaf

/-- **The length of an input's proofs** depends on the noise file only. -/
theorem Proves.length {input signed : TxInput} (h : Proves w nf input signed) :
    signed.noiseProof.length =
      NOISE_PROOFS_PER_INPUT.toNat * (72 + 33 * treeDepth 33 nf.leaves.length) := by
  obtain ⟨proofs, leaves, hfresh, hcount, _, rfl⟩ := h
  have heach : ∀ n ∈ proofs.map fun p => p.serialize.length,
      n = 72 + 33 * treeDepth 33 nf.leaves.length := by
    intro n hn
    obtain ⟨p, hp, rfl⟩ := List.mem_map.mp hn
    rw [NoiseProof.length_serialize, (hfresh.shaped p hp).dirs, hfresh.depth p hp]
    omega
  have hproofs : proofs.length = NOISE_PROOFS_PER_INPUT.toNat := by
    rw [← hcount, ← hfresh.indices, List.length_map]
  rw [List.length_flatMap, List.eq_replicate_of_mem heach, List.sum_replicate_nat,
    List.length_map, hproofs]

/-- Every input keeps its outpoint and gets proofs of the same length. -/
theorem Proves.inputs {inputs signed : List TxInput} (h : List.Forall₂ (Proves w nf) inputs signed) :
    signed.map TxInput.outpoint = inputs.map TxInput.outpoint ∧
      ∀ input ∈ signed, input.noiseProof.length =
        NOISE_PROOFS_PER_INPUT.toNat * (72 + 33 * treeDepth 33 nf.leaves.length) := by
  induction h with
  | nil => exact ⟨rfl, fun _ hinput => by cases hinput⟩
  | cons hinput _ ih =>
    refine ⟨?_, List.forall_mem_cons.mpr ⟨hinput.length, ih.2⟩⟩
    obtain ⟨proofs, leaves, _, _, _, rfl⟩ := hinput
    rw [List.map_cons, List.map_cons, ih.1]
    rfl

theorem Proves.held {held : AList fun _ : OutPoint => Bytes32} {input signed : TxInput}
    (h : Proves { w with heldOutpoints := held } nf input signed) : Proves w nf input signed := by
  obtain ⟨proofs, leaves, hfresh, hattached⟩ := h
  exact ⟨proofs, leaves, ⟨hfresh.indices, hfresh.shaped, hfresh.depth, hfresh.unused⟩, hattached⟩

theorem deriveLeafIndices_lt {kps : Bytes32} {i leaf : UInt32}
    (h : leaf ∈ deriveLeafIndices txHash kps i NOISE_PROOFS_PER_INPUT NOISE_LEAF_COUNT) :
    leaf < NOISE_LEAF_COUNT := by
  rw [deriveLeafIndices, if_neg (by decide)] at h
  obtain ⟨j, _, rfl⟩ := List.mem_map.mp h
  rw [deriveLeafIndex, UInt32.lt_iff_toNat_lt, UInt32.toNat_mod]
  exact Nat.mod_lt _ (by decide)

theorem length_deriveLeafIndices (kps : Bytes32) (i : UInt32) :
    (deriveLeafIndices txHash kps i NOISE_PROOFS_PER_INPUT NOISE_LEAF_COUNT).length =
      NOISE_PROOFS_PER_INPUT.toNat := by
  rw [deriveLeafIndices, if_neg (by decide), List.length_map, List.length_range]

theorem proveInputs_spec : ∀ {i : Nat} {inputs proven : List TxInput} {consumed consumed' : List UInt32},
    w.proveInputs nf txHash i inputs consumed = .ok (proven, consumed') →
    List.Forall₂ (Proves w nf) inputs proven ∧
      consumed' = consumed ++ proven.flatMap TxInput.provenLeaves ∧
      (consumed.Nodup → consumed'.Nodup)
  | i, [], proven, consumed, consumed', h => by
    cases h
    exact ⟨.nil, (List.append_nil _).symm, id⟩
  | i, input :: rest, proven, consumed, consumed', h => by
    simp only [proveInputs] at h
    split at h
    case isTrue => cases h
    case isFalse =>
      cases hleaves : w.proveLeaves nf txHash (deriveLeafIndices txHash input.kps (UInt32.ofNat i)
          NOISE_PROOFS_PER_INPUT NOISE_LEAF_COUNT) consumed with
      | error what => rw [hleaves] at h; cases h
      | ok out =>
        obtain ⟨proofs, middle⟩ := out
        cases hrest : w.proveInputs nf txHash (i + 1) rest middle with
        | error what => rw [hleaves] at h; simp only [bind, Except.bind, hrest] at h; cases h
        | ok out =>
          obtain ⟨more, after⟩ := out
          rw [hleaves] at h
          simp only [bind, Except.bind, hrest] at h
          cases h
          obtain ⟨hfresh, hmiddle, hnodup⟩ := proveLeaves_spec hleaves
          obtain ⟨hmore, hafter, hnodup'⟩ := proveInputs_spec hrest
          refine ⟨.cons ⟨proofs, _, hfresh, length_deriveLeafIndices _ _, ?_, rfl⟩ hmore, ?_, ?_⟩
          · intro leaf hleaf
            exact deriveLeafIndices_lt hleaf
          · rw [hafter, hmiddle, List.flatMap_cons, hfresh.provenLeaves, List.append_assoc]
          · intro hconsumed
            exact hnodup' (hnodup hconsumed)

/-- The leaves a transaction calls for, from input number `i` on. -/
def wantedLeaves (txHash : Bytes32) : Nat → List TxInput → List UInt32
  | _, [] => []
  | i, input :: rest =>
    deriveLeafIndices txHash input.kps (UInt32.ofNat i) NOISE_PROOFS_PER_INPUT NOISE_LEAF_COUNT ++
      wantedLeaves txHash (i + 1) rest

theorem wantedLeaves_lt : ∀ {inputs : List TxInput} {i : Nat} {leaf : UInt32},
    leaf ∈ wantedLeaves txHash i inputs → leaf < NOISE_LEAF_COUNT
  | [], _, _, h => by cases h
  | input :: rest, i, leaf, h => by
    rw [wantedLeaves, List.mem_append] at h
    rcases h with h | h
    · exact deriveLeafIndices_lt h
    · exact wantedLeaves_lt h

/-- A leaf for which a proof can be made. -/
def Available (w : WalletManager) (nf : NoiseFile) (leaf : UInt32) : Prop :=
  w.isNoiseLeafUsed leaf = false ∧ leaf.toNat < nf.leaves.length

/-- **The loop over the leaves succeeds** on leaves that are available and distinct. -/
theorem proveLeaves_ok : ∀ {leaves consumed : List UInt32}, (consumed ++ leaves).Nodup →
    (∀ leaf ∈ leaves, Available w nf leaf) →
    ∃ proofs, w.proveLeaves nf txHash leaves consumed = .ok (proofs, consumed ++ leaves)
  | [], consumed, _, _ => ⟨[], by rw [proveLeaves, List.append_nil]⟩
  | leaf :: rest, consumed, hnodup, havailable => by
    obtain ⟨⟨hused, hlt⟩, hrest⟩ := List.forall_mem_cons.mp havailable
    have hassoc : consumed ++ leaf :: rest = consumed ++ [leaf] ++ rest := by simp
    have hfresh : leaf ∉ consumed := by
      intro hmem
      exact (List.nodup_append.mp hnodup).2.2 leaf hmem leaf (List.mem_cons_self ..) rfl
    rw [hassoc] at hnodup ⊢
    obtain ⟨p, hp⟩ := NoiseFile.createProofAt_ok txHash hlt
    obtain ⟨proofs, hproofs⟩ := proveLeaves_ok hnodup hrest
    refine ⟨p :: proofs, ?_⟩
    rw [proveLeaves, if_neg (by rw [hused]; decide), if_neg hfresh, hp]
    simp only [bind, Except.bind, hproofs]
    rfl

/-- **The loop over the inputs succeeds** on leaves that are available and distinct. -/
theorem proveInputs_ok : ∀ {inputs : List TxInput} {i : Nat} {consumed : List UInt32},
    (consumed ++ wantedLeaves txHash i inputs).Nodup →
    (∀ leaf ∈ wantedLeaves txHash i inputs, Available w nf leaf) →
    ∃ proven after, w.proveInputs nf txHash i inputs consumed = .ok (proven, after)
  | [], i, consumed, _, _ => ⟨[], consumed, rfl⟩
  | input :: rest, i, consumed, hnodup, havailable => by
    rw [wantedLeaves] at hnodup havailable
    obtain ⟨hfirst, hrest⟩ := List.forall_mem_append.mp havailable
    rw [← List.append_assoc] at hnodup
    have hwanted := (List.nodup_append.mp (List.nodup_append.mp hnodup).1).2.1
    obtain ⟨proofs, hproofs⟩ : ∃ proofs, w.proveLeaves nf txHash _ consumed = .ok (proofs, _) :=
      proveLeaves_ok (List.nodup_append.mp hnodup).1 hfirst
    obtain ⟨proven, after, hproven⟩ := proveInputs_ok hnodup hrest
    refine ⟨{ input with noiseProof := proofs.flatMap NoiseProof.serialize } :: proven, after, ?_⟩
    simp only [proveInputs]
    rw [if_neg (not_not.mpr hwanted), hproofs]
    simp only [bind, Except.bind, hproven]
    rfl

end Proofs

/-! ## 2. The signatures -/

section Signatures

theorem map_modify_of_same {α β : Type} {f : α → α} {g : α → β} (h : ∀ a, g (f a) = g a) :
    ∀ (l : List α) (i : Nat), (l.modify i f).map g = l.map g
  | [], i => by cases i <;> rfl
  | a :: l, 0 => by simp [h]
  | a :: l, i + 1 => by simp [map_modify_of_same h l i]

variable [WalletCrypto]

theorem map_outpoint_signInput (tx : Transaction) (i : Nat) (key : Bytes32) :
    (signInput tx i key).inputs.map TxInput.outpoint = tx.inputs.map TxInput.outpoint := by
  unfold signInput
  refine map_modify_of_same ?_ _ _
  intro input
  rfl

theorem signInputs_same (w : WalletManager) (seed : Bytes64) : ∀ (n i : Nat) (tx : Transaction),
    ((w.signInputs seed n i tx).1.inputs.map TxInput.outpoint = tx.inputs.map TxInput.outpoint) ∧
      (w.signInputs seed n i tx).1.outputs = tx.outputs
  | 0, i, tx => ⟨rfl, rfl⟩
  | n + 1, i, tx => by
    unfold signInputs
    split
    case h_1 => exact ⟨rfl, rfl⟩
    case h_2 input _ =>
      dsimp only
      split
      case h_1 => exact ⟨rfl, rfl⟩
      case h_2 addr _ =>
        obtain ⟨hspent, hpaid⟩ := signInputs_same w seed n (i + 1)
          (signInput tx i (WalletCrypto.deriveKeyAtIndex seed addr.keyIndex addr.isChange))
        exact ⟨hspent.trans (map_outpoint_signInput ..), hpaid⟩

end Signatures

/-! ## 3. The two ends of `SignTransaction` -/

theorem renameHeld_eq (w : WalletManager) (unsignedId signedId : Bytes32) :
    ∃ held, w.renameHeld unsignedId signedId = { w with heldOutpoints := held } := by
  unfold renameHeld
  split
  case isTrue => exact ⟨w.heldOutpoints, rfl⟩
  case isFalse => exact ⟨_, rfl⟩

theorem consume_eq (w : WalletManager) (nf : NoiseFile) (consumed : List UInt32) :
    ∃ used file, w.consume nf consumed = { w with noiseUsed := used, noiseFile := some file } := by
  have hfold : ∀ (leaves : List UInt32) (w : WalletManager),
      ∃ used, leaves.foldl markNoiseLeafUsed w = { w with noiseUsed := used } := by
    intro leaves
    induction leaves with
    | nil => exact fun w => ⟨w.noiseUsed, rfl⟩
    | cons leaf leaves ih =>
      intro w
      obtain ⟨used, hused⟩ := ih (w.markNoiseLeafUsed leaf)
      exact ⟨used, hused⟩
  obtain ⟨used, hused⟩ := hfold consumed w
  exact ⟨used, _, by rw [consume, hused]⟩

section Stages

variable [WalletCrypto]

/-- How `SignTransaction` ends, or comes to its save. -/
inductive Staged (w : WalletManager) (tx : Transaction) :
    WalletManager × Transaction × SignStage → Prop
  /-- It throws or returns false. -/
  | refused (held : AList fun _ : OutPoint => Bytes32) (signed : Transaction)
      (outcome : Outcome Bool) : outcome ≠ .ret true →
      Staged w tx ({ w with heldOutpoints := held }, signed, .ended outcome)
  /-- A coinbase gets no proofs. -/
  | coinbase (held : AList fun _ : OutPoint => Bytes32) (seed : Bytes64) (signed : Transaction) :
      w.signInputs seed tx.inputs.length 0 tx = (signed, true) → signed.isCoinbase = true →
      Staged w tx ({ w with heldOutpoints := held }, signed, .ended (.ret true))
  /-- Every input has its proofs. -/
  | proven (held : AList fun _ : OutPoint => Bytes32) (seed : Bytes64) (nf : NoiseFile)
      (signed proven : Transaction) : w.unlockedSeed = some seed → w.noiseFile = some nf →
      w.signInputs seed tx.inputs.length 0 tx = (signed, true) →
      List.Forall₂ (Proves w nf) signed.inputs proven.inputs → proven.outputs = signed.outputs →
      (proven.inputs.flatMap TxInput.provenLeaves).Nodup →
      Staged w tx (({ w with heldOutpoints := held }).consume nf
        (proven.inputs.flatMap TxInput.provenLeaves), proven, .saving)

theorem staged_signStage (w : WalletManager) (tx : Transaction) : Staged w tx (w.signStage tx) := by
  unfold signStage
  split
  case h_2 => exact .refused w.heldOutpoints tx _ (by simp)
  case h_1 seed _ hseed =>
    split
    case h_2 => exact .refused w.heldOutpoints tx _ (by simp)
    case h_1 nf _ hnf =>
      split
      case h_1 signed _ => exact .refused w.heldOutpoints signed _ (by simp)
      case h_2 signed hsigned =>
        obtain ⟨held, hheld⟩ := renameHeld_eq w tx.getHash signed.getHash
        simp only [hheld]
        split
        case isTrue hcoinbase => exact .coinbase held seed signed hsigned hcoinbase
        case isFalse =>
          split
          case isTrue => exact .refused held signed _ (by simp)
          case isFalse =>
            split
            case h_1 => exact .refused held signed _ (by simp)
            case h_2 inputs consumed hprove =>
              split
              case h_1 => exact .refused held signed _ (by simp)
              case h_2 proven hbuild =>
                obtain ⟨hinputs, hconsumed, hnodup⟩ := proveInputs_spec hprove
                rw [List.nil_append] at hconsumed
                subst hconsumed
                obtain ⟨rfl, hout⟩ := Transaction.build_ok hbuild
                exact .proven held seed nf signed proven hseed hnf hsigned
                  (hinputs.imp fun _ _ h => h.held) hout (hnodup List.nodup_nil)

/-- **`SignTransaction` succeeds** on an unlocked wallet that has the keys and the leaves. -/
theorem signTransaction_ok {w : WalletManager} {tx signed : Transaction} {seed : Bytes64}
    {nf : NoiseFile} (hlocked : w.locked = false) (hseed : w.unlockedSeed = some seed)
    (hloaded : w.noiseLoaded = true) (hnf : w.noiseFile = some nf)
    (hsigned : w.signInputs seed tx.inputs.length 0 tx = (signed, true))
    (hcoinbase : signed.isCoinbase = false) (hroom : signed.inputs.length ≤ nf.getRemaining)
    (hnodup : (wantedLeaves signed.getHash 0 signed.inputs).Nodup)
    (havailable : ∀ leaf ∈ wantedLeaves signed.getHash 0 signed.inputs, Available w nf leaf) :
    ∃ w' proven, w.signTransaction tx true = (w', proven, .ret true) := by
  have hrenamed : ∀ leaf ∈ wantedLeaves signed.getHash 0 signed.inputs,
      Available (w.renameHeld tx.getHash signed.getHash) nf leaf := by
    obtain ⟨held, hheld⟩ := renameHeld_eq w tx.getHash signed.getHash
    rw [hheld]
    exact havailable
  have hempty : ([] ++ wantedLeaves signed.getHash 0 signed.inputs).Nodup := hnodup
  obtain ⟨proven, consumed, hprove⟩ := proveInputs_ok hempty hrenamed
  have hcount : proven.length ≤ Transaction.MAX_INPUTS := by
    rw [← (proveInputs_spec hprove).1.length_eq]
    exact signed.inputs_le
  have hbuild : ∃ built, Transaction.build signed.version proven signed.outputs signed.locktime =
      .ok built := by
    unfold Transaction.build
    rw [dif_pos hcount, dif_pos signed.outputs_le]
    exact ⟨_, rfl⟩
  obtain ⟨built, hbuilt⟩ := hbuild
  refine ⟨(w.renameHeld tx.getHash signed.getHash).consume nf consumed, built, ?_⟩
  simp only [signTransaction, signStage, hlocked, hseed, hloaded, hnf, hsigned]
  rw [if_neg (by rw [hcoinbase]; decide), if_neg (Nat.not_lt.mpr hroom), hprove]
  simp only [hbuilt, ↓reduceIte]

end Stages

end WalletManager

end Moneu
