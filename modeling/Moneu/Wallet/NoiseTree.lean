/-
# Noise proofs are complete and sound

The tree of a noise file is a tree of pair hashes (`Lib/Merkle`), and `VerifyProof` is a walk to its
top along partners that the prover chooses.

* Every proof that `CreateProofAt` makes is accepted.
* A proof that is accepted IS the one `CreateProofAt` makes for its leaf, or it holds two different
  messages with one SHA-256 digest.  That such messages exist is no news (there are more messages
  than digests), so the second case says more: `findCollision` computes them from the proof.
-/
import Moneu.Lib.Merkle
import Moneu.Wallet.NoiseFile

namespace Moneu

open Merkle

/-! ## 1. The tree of a noise file -/

theorem noiseLevel_eq : ∀ level : List Bytes32, noiseLevel level = pairUp sha256Pair level
  | [] => by simp [noiseLevel, pairUp]
  | [_] => by simp [noiseLevel, pairUp]
  | _ :: _ :: rest => by rw [noiseLevel, pairUp, noiseLevel_eq rest]

theorem treeDepth_eq : ∀ fuel width : Nat, treeDepth fuel width = depth fuel width
  | 0, _ => rfl
  | fuel + 1, width => by
    unfold treeDepth depth
    rw [treeDepth_eq fuel, Nat.add_comm]

theorem noiseLevels_cons (fuel : Nat) (level : List Bytes32) :
    ∃ above, noiseLevels fuel level = level :: above := by
  cases fuel with
  | zero => exact ⟨[], rfl⟩
  | succ fuel =>
    unfold noiseLevels
    split
    · exact ⟨_, rfl⟩
    · exact ⟨[], rfl⟩

theorem headD_getLastD_noiseLevels : ∀ (fuel : Nat) (level last : List Bytes32),
    ((noiseLevels fuel level).getLastD last).headD FixedBytes.zero =
      top sha256Pair FixedBytes.zero fuel level
  | 0, level, last => rfl
  | fuel + 1, level, last => by
    unfold noiseLevels top
    split
    · rw [List.getLastD_cons, headD_getLastD_noiseLevels fuel, noiseLevel_eq]
    · rfl

/-- The directions on the way up from a position. -/
def dirsOf : Nat → Nat → List UInt8
  | _, 0 => []
  | idx, n + 1 => (if idx % 2 = 0 then 0 else 1) :: dirsOf (idx / 2) n

theorem dirsMatch_iff : ∀ {idx : Nat} {dirs : List UInt8},
    dirsMatch idx dirs = true ↔ dirs = dirsOf idx dirs.length
  | _, [] => by simp [dirsMatch, dirsOf]
  | idx, dir :: dirs => by
    rw [dirsMatch, List.length_cons, dirsOf, Bool.and_eq_true, beq_iff_eq, List.cons.injEq,
      dirsMatch_iff]

theorem dirsOf_le_one : ∀ (n idx : Nat), (dirsOf idx n).all (· ≤ 1) = true
  | 0, _ => rfl
  | n + 1, idx => by
    rw [dirsOf, List.all_cons, dirsOf_le_one n, Bool.and_true]
    split <;> decide

theorem length_dirsOf : ∀ (n idx : Nat), (dirsOf idx n).length = n
  | 0, _ => rfl
  | n + 1, idx => by rw [dirsOf, List.length_cons, length_dirsOf n]

theorem noisePath_eq : ∀ (fuel : Nat) (level : List Bytes32) (idx : Nat),
    noisePath (noiseLevels fuel level) idx =
      (path sha256Pair FixedBytes.zero fuel level idx).zip (dirsOf idx (depth fuel level.length))
  | 0, level, idx => rfl
  | fuel + 1, level, idx => by
    unfold noiseLevels path depth
    split
    case isTrue hmany =>
      have hnext := noisePath_eq fuel (noiseLevel level) (idx / 2)
      obtain ⟨above, habove⟩ := noiseLevels_cons fuel (noiseLevel level)
      rw [habove] at hnext ⊢
      rw [noisePath, hnext, noiseLevel_eq, dirsOf, List.zip_cons_cons, length_pairUp]
      rfl
    case isFalse => rfl

theorem rootFromPath_eq : ∀ (partners : List Bytes32) (idx : Nat) (node : Bytes32),
    rootFromPath node partners (dirsOf idx partners.length) = walk sha256Pair idx node partners
  | [], idx, node => rfl
  | next :: partners, idx, node => by
    have hstep : rootFromPath node (next :: partners) (dirsOf idx (next :: partners).length) =
        rootFromPath (combine sha256Pair idx node next) partners (dirsOf (idx / 2) partners.length) := by
      rw [List.length_cons, dirsOf, rootFromPath, List.zip_cons_cons, List.foldl_cons]
      unfold combine
      by_cases heven : idx % 2 = 0
      · rw [if_pos heven, if_pos heven, if_pos rfl]
        rfl
      · rw [if_neg heven, if_neg heven, if_neg (by decide : ¬ (1 : UInt8) = 0)]
        rfl
    rw [hstep, rootFromPath_eq partners, walk]

theorem verifyProof_iff {root txHash : Bytes32} {p : NoiseProof} {n : UInt32} :
    verifyProof root txHash p n = true ↔ p.leafIndex < n ∧
      p.merklePath.length = depth 33 n.toNat ∧
      p.pathDirs = dirsOf p.leafIndex.toNat (depth 33 n.toNat) ∧
      p.boundProof = bindLeafToTx p.leaf txHash ∧
      walk sha256Pair p.leafIndex.toNat (sha256 p.leaf.data) p.merklePath = root := by
  unfold verifyProof
  simp only [Bool.and_eq_true, decide_eq_true_eq, beq_iff_eq, treeDepth_eq, dirsMatch_iff]
  constructor
  · rintro ⟨⟨⟨⟨⟨⟨⟨_, hlt⟩, hlen⟩, hdepth⟩, _⟩, hdirs⟩, hbound⟩, hroot⟩
    rw [← hlen, hdepth] at hdirs
    rw [hdirs, ← hdepth, rootFromPath_eq] at hroot
    exact ⟨hlt, hdepth, hdirs, hbound.symm, hroot⟩
  · rintro ⟨hlt, hdepth, hdirs, hbound, hroot⟩
    have hne : n ≠ 0 := by
      rintro rfl
      rw [UInt32.lt_iff_toNat_lt] at hlt
      exact absurd hlt (Nat.not_lt_zero _)
    have hlen : p.merklePath.length = p.pathDirs.length := by rw [hdirs, length_dirsOf, hdepth]
    refine ⟨⟨⟨⟨⟨⟨⟨hne, hlt⟩, hlen⟩, hdepth⟩, ?_⟩, ?_⟩, hbound.symm⟩, ?_⟩
    · rw [hdirs]
      exact dirsOf_le_one _ _
    · rw [← hlen, hdepth]
      exact hdirs
    · rw [hdirs, ← hdepth, rootFromPath_eq]
      exact hroot

/-! ## 2. Collisions -/

theorem sha256Pair_data {a b : Bytes32 × Bytes32} (hne : a ≠ b) :
    a.1.data ++ a.2.data ≠ b.1.data ++ b.2.data := by
  intro heq
  obtain ⟨hfirst, hsecond⟩ := List.append_inj heq (a.1.size_eq.trans b.1.size_eq.symm)
  exact hne (Prod.ext (FixedBytes.ext hfirst) (FixedBytes.ext hsecond))

namespace NoiseFile

/-- The lowest level of the tree. -/
def commitments (nf : NoiseFile) : List Bytes32 := nf.leaves.map fun leaf => sha256 leaf.data

/-- Two messages with one digest, found by comparing a proof with the tree. -/
def findCollision (nf : NoiseFile) (p : NoiseProof) : Option (List UInt8 × List UInt8) :=
  let own := nf.leaves.getD p.leafIndex.toNat FixedBytes.zero
  if own ≠ p.leaf ∧ sha256 own.data = sha256 p.leaf.data then some (own.data, p.leaf.data)
  else
    (findClash sha256Pair FixedBytes.zero 33 nf.commitments p.leafIndex.toNat (sha256 p.leaf.data)
        p.merklePath).map fun clash =>
      (clash.1.1.data ++ clash.1.2.data, clash.2.1.data ++ clash.2.2.data)

theorem findCollision_some {nf : NoiseFile} {p : NoiseProof} {x y : List UInt8}
    (h : nf.findCollision p = some (x, y)) : x ≠ y ∧ sha256 x = sha256 y := by
  unfold findCollision at h
  dsimp only at h
  split at h
  case isTrue hleaf =>
    cases h
    exact ⟨fun heq => hleaf.1 (FixedBytes.ext heq), hleaf.2⟩
  case isFalse =>
    obtain ⟨⟨own, other⟩, hclash, heq⟩ := Option.map_eq_some_iff.mp h
    obtain ⟨hne, hsame⟩ := findClash_some _ _ hclash
    cases heq
    exact ⟨sha256Pair_data hne, hsame⟩

/-! ## 3. Completeness and soundness -/

theorem getRoot_eq {nf : NoiseFile} (hne : nf.leaves ≠ []) :
    nf.getRoot = top sha256Pair FixedBytes.zero 33 nf.commitments := by
  unfold getRoot
  rw [if_neg (by simpa using hne), levels, headD_getLastD_noiseLevels]
  rfl

/-- A noise file of at most `2 ^ 32` leaves, and a position in it. -/
structure Position (nf : NoiseFile) (n i : UInt32) : Prop where
  count : nf.leaves.length = n.toNat
  lt : i < n

variable {nf : NoiseFile} {n i : UInt32}

theorem Position.lt_length (h : Position nf n i) : i.toNat < nf.leaves.length := by
  rw [h.count]
  exact UInt32.lt_iff_toNat_lt.mp h.lt

theorem Position.width_le (h : Position nf n i) : nf.commitments.length ≤ 2 ^ 33 := by
  have hlt := n.toNat_lt
  rw [commitments, List.length_map, h.count]
  omega

theorem Position.getD_commitments (h : Position nf n i) :
    nf.commitments.getD i.toNat FixedBytes.zero =
      sha256 (nf.leaves.getD i.toNat FixedBytes.zero).data := by
  have hlt := h.lt_length
  simp [commitments, List.getD_eq_getElem?_getD, hlt]

theorem Position.createProofAt (h : Position nf n i) (txHash : Bytes32) :
    nf.createProofAt i txHash = .ok
      { leafIndex := i
        leaf := nf.leaves.getD i.toNat FixedBytes.zero
        boundProof := bindLeafToTx (nf.leaves.getD i.toNat FixedBytes.zero) txHash
        merklePath := path sha256Pair FixedBytes.zero 33 nf.commitments i.toNat
        pathDirs := dirsOf i.toNat (depth 33 nf.commitments.length) } := by
  have hlt := h.lt_length
  have hpath : noisePath nf.levels i.toNat =
      (path sha256Pair FixedBytes.zero 33 nf.commitments i.toNat).zip
        (dirsOf i.toNat (depth 33 nf.commitments.length)) := noisePath_eq 33 nf.commitments i.toNat
  have hlen : (path sha256Pair FixedBytes.zero 33 nf.commitments i.toNat).length =
      (dirsOf i.toNat (depth 33 nf.commitments.length)).length := by
    rw [length_path, length_dirsOf]
  have hleaf : nf.leaves[i.toNat] = nf.leaves.getD i.toNat FixedBytes.zero := by
    simp [List.getD_eq_getElem?_getD, hlt]
  unfold NoiseFile.createProofAt
  rw [dif_pos hlt]
  simp only [hpath, hleaf, List.map_fst_zip (Nat.le_of_eq hlen),
    List.map_snd_zip (Nat.le_of_eq hlen.symm)]

theorem Position.depth_eq (h : Position nf n i) : depth 33 nf.commitments.length = depth 33 n.toNat := by
  rw [commitments, List.length_map, h.count]

theorem Position.lt_width (h : Position nf n i) : i.toNat < nf.commitments.length := by
  rw [commitments, List.length_map]
  exact h.lt_length

theorem Position.leaves_ne_nil (h : Position nf n i) : nf.leaves ≠ [] :=
  List.ne_nil_of_length_pos (Nat.lt_of_le_of_lt (Nat.zero_le _) h.lt_length)

theorem Position.complete (h : Position nf n i) (txHash : Bytes32) :
    ∃ p, nf.createProofAt i txHash = .ok p ∧ verifyProof nf.getRoot txHash p n = true := by
  refine ⟨_, h.createProofAt txHash, verifyProof_iff.mpr ⟨h.lt, ?_, ?_, rfl, ?_⟩⟩
  · rw [length_path, h.depth_eq]
  · rw [h.depth_eq]
  · rw [getRoot_eq h.leaves_ne_nil, ← h.getD_commitments]
    exact walk_path _ _ h.width_le h.lt_width

theorem createProofAt_of_verifyProof {txHash : Bytes32} {p : NoiseProof} (hn : nf.leaves.length = n.toNat)
    (h : verifyProof nf.getRoot txHash p n = true) :
    nf.leaves[p.leafIndex.toNat]? = some p.leaf ∧ nf.createProofAt p.leafIndex txHash = .ok p ∨
      ∃ x y, nf.findCollision p = some (x, y) := by
  obtain ⟨hlt, hlen, hdirs, hbound, hroot⟩ := verifyProof_iff.mp h
  have hpos : Position nf n p.leafIndex := ⟨hn, hlt⟩
  cases hfound : nf.findCollision p with
  | some found => exact .inr ⟨found.1, found.2, rfl⟩
  | none =>
    unfold findCollision at hfound
    dsimp only at hfound
    split at hfound
    case isTrue => cases hfound
    case isFalse hsame =>
      rw [getRoot_eq hpos.leaves_ne_nil] at hroot
      rw [← hpos.depth_eq] at hlen hdirs
      obtain ⟨hnode, hpath⟩ := walk_eq_top _ _ hpos.width_le hpos.lt_width hlen hroot
        (Option.map_eq_none_iff.mp hfound)
      rw [hpos.getD_commitments] at hnode
      have hleaf : nf.leaves.getD p.leafIndex.toNat FixedBytes.zero = p.leaf :=
        Decidable.byContradiction fun hne => hsame ⟨hne, hnode.symm⟩
      refine .inl ⟨?_, ?_⟩
      · rw [← hleaf]
        simp [List.getD_eq_getElem?_getD, hpos.lt_length]
      · rw [hpos.createProofAt txHash, hleaf, ← hbound, ← hpath, ← hdirs]

end NoiseFile

/-- **Noise proofs are complete and sound**, for every number of leaves: each leaf of a generated file
has a proof that is accepted, and a proof that is accepted is that one, or a collision of SHA-256 can
be read off it. -/
theorem verifyProof_complete_and_sound {noise : List UInt8} {n : UInt32} (hn : n ≠ 0)
    (hnoise : 32 * n.toNat ≤ noise.length) (txHash : Bytes32) :
    ∃ nf, NoiseFile.generate noise n = .ok nf ∧
      (∀ i < n, ∃ p, nf.createProofAt i txHash = .ok p ∧
        verifyProof nf.getRoot txHash p n = true) ∧
      ∀ p, verifyProof nf.getRoot txHash p n = true →
        nf.leaves[p.leafIndex.toNat]? = some p.leaf ∧ nf.createProofAt p.leafIndex txHash = .ok p ∨
        ∃ x y, nf.findCollision p = some (x, y) ∧ x ≠ y ∧ sha256 x = sha256 y := by
  have hgenerate : ∃ nf, NoiseFile.generate noise n = .ok nf ∧ nf.leaves.length = n.toNat := by
    have hsize : ¬ noise.length < n.toNat * NoiseFile.NOISE_OTP_LEAF_SIZE := by
      rw [NoiseFile.NOISE_OTP_LEAF_SIZE]
      omega
    unfold NoiseFile.generate
    rw [if_neg hn, if_neg hsize]
    exact ⟨_, rfl, by rw [List.length_map, List.length_range]⟩
  obtain ⟨nf, hnf, hcount⟩ := hgenerate
  refine ⟨nf, hnf, ?_, ?_⟩
  · intro i hi
    exact NoiseFile.Position.complete ⟨hcount, hi⟩ txHash
  · intro p hp
    rcases NoiseFile.createProofAt_of_verifyProof hcount hp with honest | ⟨x, y, hfound⟩
    · exact .inl honest
    · exact .inr ⟨x, y, hfound, NoiseFile.findCollision_some hfound⟩

/-- Three leaves: the last one is its own partner. -/
theorem verifyProof_three_leaves : (3 : UInt32) ≠ 0 ∧
    ∃ nf, NoiseFile.generate (List.replicate 96 7) 3 = .ok nf ∧
      (∀ i < (3 : UInt32), ∃ p, nf.createProofAt i FixedBytes.zero = .ok p ∧
        verifyProof nf.getRoot FixedBytes.zero p 3 = true) ∧
      ∀ p, verifyProof nf.getRoot FixedBytes.zero p 3 = true →
        nf.leaves[p.leafIndex.toNat]? = some p.leaf ∧
          nf.createProofAt p.leafIndex FixedBytes.zero = .ok p ∨
        ∃ x y, nf.findCollision p = some (x, y) ∧ x ≠ y ∧ sha256 x = sha256 y :=
  ⟨by decide, verifyProof_complete_and_sound (by decide) (by decide) FixedBytes.zero⟩

end Moneu
