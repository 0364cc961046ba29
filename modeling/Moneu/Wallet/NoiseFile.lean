/-
# The noise file

The part of `wallet/noise_otp.cpp` that only a wallet uses: the pool of leaves, its tree, the
proofs cut from it, and the map of leaves that are used up.

`mLevels` and `mRoot` are functions of the leaves (`BuildTree` alone sets them), so a `NoiseFile`
here is its leaves, its pointer and its map.
-/
import Mathlib.Data.List.DropRight
import Mathlib.Data.List.GetD
import Moneu.ChainParams
import Moneu.Wallet.NoiseOtp

namespace Moneu

open NetParams Decoder

/-! ## 1. The map of used leaves

One bit a leaf.  The wallet keeps a map of its own beside the one of the noise file; both are
read and written in the same way. -/

namespace UsedMap

/-- `(1u << (index % 8))` as a byte. -/
def bit (index : UInt32) : UInt8 := 1 <<< UInt8.ofNat (index.toNat % 8)

/-- `IsLeafUsed`, `IsNoiseLeafUsed`. -/
def isUsed (map : List UInt8) (index : UInt32) : Bool :=
  let byteIdx := index.toNat / 8
  if byteIdx ≥ map.length then false else (map.getD byteIdx 0 &&& bit index) != 0

/-- `map.resize(n, 0)` of a shorter map. -/
def grow (map : List UInt8) (n : Nat) : List UInt8 := map ++ List.replicate (n - map.length) 0

/-- `map[byteIdx] |= 1u << (index % 8)`. -/
def setBit (map : List UInt8) (index : UInt32) : List UInt8 :=
  map.set (index.toNat / 8) (map.getD (index.toNat / 8) 0 ||| bit index)

def countBits (b : UInt8) : Nat := (List.range 8).countP fun k => b.toNat.testBit k

end UsedMap

/-! ## 2. The tree -/

/-- The next level: a last node without a partner is paired with itself. -/
def noiseLevel : List Bytes32 → List Bytes32
  | [] => []
  | [last] => [sha256Pair last last]
  | left :: right :: rest => sha256Pair left right :: noiseLevel rest

/-- The levels from a given one up to the root, for at most `fuel` steps. -/
def noiseLevels : Nat → List Bytes32 → List (List Bytes32)
  | 0, level => [level]
  | fuel + 1, level =>
    if level.length > 1 then level :: noiseLevels fuel (noiseLevel level) else [level]

/-- The siblings and directions along the levels below the root. -/
def noisePath : List (List Bytes32) → Nat → List (Bytes32 × UInt8)
  | level :: above :: rest, idx =>
    let sibling := if idx % 2 = 0 then idx + 1 else idx - 1
    let sibling := if sibling ≥ level.length then idx else sibling
    (level.getD sibling FixedBytes.zero, if idx % 2 = 0 then 0 else 1) ::
      noisePath (above :: rest) (idx / 2)
  | _, _ => []

structure NoiseFile where
  leaves : List Bytes32
  nextLeaf : UInt32
  used : List UInt8

namespace NoiseFile

/-- `mLevels`; a `uint32_t` number of leaves has at most thirty-three levels. -/
def levels (nf : NoiseFile) : List (List Bytes32) :=
  noiseLevels 33 (nf.leaves.map fun leaf => sha256 leaf.data)

def getRoot (nf : NoiseFile) : Bytes32 :=
  if nf.leaves.isEmpty then FixedBytes.zero
  else ((nf.levels.getLastD []).headD FixedBytes.zero)

def NOISE_OTP_LEAF_SIZE : Nat := 32

/-- The leaf `i`: the hash of a piece of noise and its position. -/
def leafAt (rawNoise : List UInt8) (i : Nat) : Bytes32 :=
  sha256 ((rawNoise.drop (i * NOISE_OTP_LEAF_SIZE)).take 32 ++ writeLE32 (UInt32.ofNat i))

def generate (rawNoise : List UInt8) (leafCount : UInt32) : Except String NoiseFile :=
  if leafCount = 0 then .error "NoiseFile: leaf count must be positive"
  else if rawNoise.length < leafCount.toNat * NOISE_OTP_LEAF_SIZE then
    .error "NoiseFile: not enough physical noise for requested leaves"
  else
    .ok
      { leaves := (List.range leafCount.toNat).map (leafAt rawNoise)
        nextLeaf := 0
        used := List.replicate ((leafCount.toNat + 7) / 8) 0 }

def setNextLeaf (nf : NoiseFile) (next : UInt32) : NoiseFile :=
  let next := if next.toNat > nf.leaves.length then UInt32.ofNat nf.leaves.length else next
  if next > nf.nextLeaf then { nf with nextLeaf := next } else nf

/-- `SetUsedMap`: copied, then resized to the pool. -/
def setUsedMap (nf : NoiseFile) (map : List UInt8) : NoiseFile :=
  let n := (nf.leaves.length + 7) / 8
  { nf with used := (UsedMap.grow map n).take n }

def markLeafUsed (nf : NoiseFile) (index : UInt32) : NoiseFile :=
  if index.toNat ≥ nf.leaves.length then nf
  else
    let used :=
      if nf.used.length < index.toNat / 8 + 1 then
        UsedMap.grow nf.used ((nf.leaves.length + 7) / 8)
      else nf.used
    { nf with used := UsedMap.setBit used index }

def countUsed (nf : NoiseFile) : Nat := (nf.used.map UsedMap.countBits).sum

def getRemaining (nf : NoiseFile) : Nat := nf.leaves.length - nf.countUsed

def createProofAt (nf : NoiseFile) (index : UInt32) (txHash : Bytes32) : Except String NoiseProof :=
  if h : index.toNat < nf.leaves.length then
    let leaf := nf.leaves[index.toNat]
    let path := noisePath nf.levels index.toNat
    .ok
      { leafIndex := index
        leaf := leaf
        boundProof := bindLeafToTx leaf txHash
        merklePath := path.map Prod.fst
        pathDirs := path.map Prod.snd }
  else .error "NoiseFile: leaf index out of range"

end NoiseFile

/-! ## 3. What is known of the map -/

namespace UsedMap

theorem bit_and_bit (i j : UInt32) :
    bit i &&& bit j = if i.toNat % 8 = j.toNat % 8 then bit j else 0 := by
  have hall : ∀ k < 8, ∀ l < 8, (1 <<< UInt8.ofNat k : UInt8) &&& 1 <<< UInt8.ofNat l =
      if k = l then 1 <<< UInt8.ofNat l else 0 := by decide
  exact hall _ (Nat.mod_lt _ (by decide)) _ (Nat.mod_lt _ (by decide))

theorem or_and_distrib (a b c : UInt8) : (a ||| b) &&& c = (a &&& c) ||| (b &&& c) := by
  refine UInt8.eq_of_toBitVec_eq ?_
  ext i hi
  simp only [UInt8.toBitVec_and, UInt8.toBitVec_or, BitVec.getElem_and, BitVec.getElem_or,
    Bool.and_or_distrib_right]

theorem bit_ne_zero (i : UInt32) : bit i ≠ 0 := by
  have hall : ∀ k < 8, (1 <<< UInt8.ofNat k : UInt8) ≠ 0 := by decide
  exact hall _ (Nat.mod_lt _ (by decide))

theorem isUsed_iff {map : List UInt8} {index : UInt32} :
    isUsed map index = true ↔ map.getD (index.toNat / 8) 0 &&& bit index ≠ 0 := by
  unfold isUsed
  simp only
  split
  case isTrue hge =>
    rw [List.getD_eq_default _ _ hge, UInt8.zero_and]
    simp
  case isFalse => simp

theorem isUsed_congr {map map' : List UInt8} (h : ∀ i, map.getD i 0 = map'.getD i 0)
    (index : UInt32) : isUsed map index = isUsed map' index := by
  rw [Bool.eq_iff_iff, isUsed_iff, isUsed_iff, h]

theorem getD_grow (map : List UInt8) (n i : Nat) : (grow map n).getD i 0 = map.getD i 0 := by
  unfold grow
  by_cases hi : i < map.length
  · rw [List.getD_append _ _ _ _ hi]
  · rw [List.getD_append_right _ _ _ _ (Nat.le_of_not_lt hi), List.getD_eq_default map _
      (Nat.le_of_not_lt hi)]
    by_cases hj : i - map.length < n - map.length
    · rw [List.getD_replicate _ hj]
    · exact List.getD_eq_default _ _ (by simpa using hj)

theorem isUsed_setBit {map : List UInt8} {i j : UInt32} (hi : i.toNat / 8 < map.length) :
    isUsed (setBit map i) j = true ↔ isUsed map j = true ∨ i = j := by
  rw [isUsed_iff, isUsed_iff]
  unfold setBit
  by_cases hbyte : i.toNat / 8 = j.toNat / 8
  · rw [hbyte] at hi ⊢
    have hget : (map.set (j.toNat / 8) (map.getD (j.toNat / 8) 0 ||| bit i)).getD (j.toNat / 8) 0 =
        map.getD (j.toNat / 8) 0 ||| bit i := by
      rw [List.getD_eq_getElem?_getD, List.getElem?_set_self hi, Option.getD_some]
    rw [hget, or_and_distrib, bit_and_bit, ne_eq, UInt8.or_eq_zero_iff, not_and_or]
    refine or_congr Iff.rfl ?_
    constructor
    · intro hne
      refine UInt32.toNat_inj.mp ?_
      split at hne
      · omega
      · exact absurd rfl hne
    · rintro rfl
      rw [if_pos rfl]
      exact bit_ne_zero i
  · have hget : (map.set (i.toNat / 8) (map.getD (i.toNat / 8) 0 ||| bit i)).getD (j.toNat / 8) 0 =
        map.getD (j.toNat / 8) 0 := by
      rw [List.getD_eq_getElem?_getD, List.getElem?_set_ne hbyte, ← List.getD_eq_getElem?_getD]
    rw [hget]
    constructor
    · exact Or.inl
    · rintro (h | rfl)
      · exact h
      · exact absurd rfl hbyte

theorem length_setBit (map : List UInt8) (i : UInt32) : (setBit map i).length = map.length :=
  List.length_set

theorem getD_rdropWhile (map : List UInt8) (i : Nat) :
    (map.rdropWhile (· == 0)).getD i 0 = map.getD i 0 := by
  induction map using List.reverseRecOn with
  | nil => rfl
  | append_singleton map b ih =>
    by_cases hb : b = 0
    · subst hb
      rw [List.rdropWhile_concat_pos _ _ _ (by decide), ih]
      have hgrow := getD_grow map (map.length + 1) i
      rw [grow, Nat.add_sub_cancel_left] at hgrow
      exact hgrow.symm
    · rw [List.rdropWhile_concat_neg _ _ _ (by simpa using hb)]

end UsedMap

/-! ## 4. Proofs -/

theorem length_noiseLevel : ∀ level : List Bytes32, (noiseLevel level).length = (level.length + 1) / 2
  | [] => by simp [noiseLevel]
  | [_] => by simp [noiseLevel]
  | _ :: _ :: rest => by
    rw [noiseLevel, List.length_cons, length_noiseLevel rest, List.length_cons, List.length_cons]
    omega

theorem length_noiseLevels : ∀ (fuel : Nat) (level : List Bytes32),
    (noiseLevels fuel level).length = treeDepth fuel level.length + 1
  | 0, _ => rfl
  | fuel + 1, level => by
    unfold noiseLevels treeDepth
    split
    · rw [List.length_cons, length_noiseLevels fuel, length_noiseLevel]
      omega
    · rfl

theorem length_noisePath : ∀ (levels : List (List Bytes32)) (idx : Nat),
    (noisePath levels idx).length = levels.length - 1
  | [], _ => rfl
  | [_], _ => rfl
  | _ :: above :: rest, idx => by
    rw [noisePath, List.length_cons, length_noisePath (above :: rest)]
    simp

theorem treeDepth_le : ∀ fuel width : Nat, treeDepth fuel width ≤ fuel
  | 0, _ => Nat.le_refl 0
  | fuel + 1, width => by
    have hle := treeDepth_le fuel ((width + 1) / 2)
    unfold treeDepth
    split
    · omega
    · omega

namespace NoiseProof

/-- A proof whose path has a direction for each step and at most sixty-four steps. -/
structure Shaped (p : NoiseProof) : Prop where
  dirs : p.pathDirs.length = p.merklePath.length
  path_le : p.merklePath.length ≤ 64

theorem length_serialize (p : NoiseProof) :
    p.serialize.length = 72 + 32 * p.merklePath.length + p.pathDirs.length := by
  have hpath : (p.merklePath.flatMap FixedBytes.data).length = 32 * p.merklePath.length := by
    simp [List.length_flatMap, Nat.mul_comm]
  simp only [serialize, List.length_append, length_writeLE32, FixedBytes.length_data, hpath]
  omega

theorem Shaped.decodes {p : NoiseProof} (h : p.Shaped) :
    Decodes NoiseProof.deserialize p.serialize p := by
  have hword : (UInt32.ofNat p.merklePath.length).toNat = p.merklePath.length := by
    have := h.path_le
    rw [UInt32.toNat_ofNat', Nat.mod_eq_of_lt (by omega)]
  have hle : ¬ UInt32.ofNat p.merklePath.length > 64 := by
    rw [gt_iff_lt, UInt32.lt_iff_toNat_lt, hword]
    exact Nat.not_lt.mpr h.path_le
  have hpath : Decodes (Decoder.replicate (Decoder.array 32) p.merklePath.length)
      (p.merklePath.flatMap FixedBytes.data) p.merklePath :=
    Decodes.replicate p.merklePath fun a _ => Decodes.array a
  have hdirs : Decodes (do
      let pathDirs ← Decoder.vec p.merklePath.length
      return ({ p with pathDirs } : NoiseProof)) p.pathDirs p := by
    have hvec := Decodes.vec p.pathDirs
    rw [h.dirs] at hvec
    have hret := hvec.bind (f := fun pathDirs => pure { p with pathDirs }) (Decodes.pure p)
    rwa [List.append_nil] at hret
  refine Decodes.require (by rw [length_serialize]; omega) ?_
  refine (Decodes.le32 p.leafIndex).bind ?_
  refine (Decodes.array p.leaf).bind ?_
  refine (Decodes.array p.boundProof).bind ?_
  refine (Decodes.le32 (UInt32.ofNat p.merklePath.length)).bind ?_
  refine Decodes.throwIf hle ?_
  rw [hword]
  refine Decodes.require ?_ (hpath.bind hdirs)
  have hflat : (p.merklePath.flatMap FixedBytes.data).length = 32 * p.merklePath.length := by
    simp [List.length_flatMap, Nat.mul_comm]
  rw [List.length_append, hflat, h.dirs]
  omega

theorem readFrom_flatMap : ∀ (proofs : List NoiseProof) (fuel : Nat), proofs.length ≤ fuel →
    (∀ p ∈ proofs, p.Shaped) → readFrom fuel (proofs.flatMap serialize) = (proofs, none)
  | [], fuel, _, _ => by cases fuel <;> rfl
  | p :: proofs, 0, hfuel, _ => by simp at hfuel
  | p :: proofs, fuel + 1, hfuel, hshaped => by
    have hread := (hshaped p (List.mem_cons_self ..)).decodes (proofs.flatMap serialize)
    have hrest := readFrom_flatMap proofs fuel (by simpa using hfuel)
      fun q hq => hshaped q (List.mem_cons_of_mem _ hq)
    have hlen := length_serialize p
    rw [List.flatMap_cons]
    cases hbytes : p.serialize ++ proofs.flatMap serialize with
    | nil =>
      have hzero := congrArg List.length hbytes
      rw [List.length_append, hlen, List.length_nil] at hzero
      omega
    | cons b bytes =>
      rw [hbytes] at hread
      rw [readFrom, hread]
      simp only [hrest]

theorem length_le_flatMap : ∀ proofs : List NoiseProof,
    proofs.length ≤ (proofs.flatMap serialize).length
  | [] => Nat.le_refl 0
  | p :: proofs => by
    have hrest := length_le_flatMap proofs
    rw [List.flatMap_cons, List.length_append, length_serialize, List.length_cons]
    omega

theorem readAll_flatMap {proofs : List NoiseProof} (h : ∀ p ∈ proofs, p.Shaped) :
    readAll (proofs.flatMap serialize) = (proofs, none) :=
  readFrom_flatMap proofs _ (length_le_flatMap proofs) h

end NoiseProof

theorem NoiseFile.createProofAt_ok {nf : NoiseFile} {index : UInt32} (txHash : Bytes32)
    (h : index.toNat < nf.leaves.length) : ∃ p, nf.createProofAt index txHash = .ok p := by
  unfold createProofAt
  rw [dif_pos h]
  exact ⟨_, rfl⟩

theorem NoiseFile.createProofAt_spec {nf : NoiseFile} {index : UInt32} {txHash : Bytes32}
    {p : NoiseProof} (h : nf.createProofAt index txHash = .ok p) :
    p.leafIndex = index ∧ p.Shaped ∧ p.merklePath.length = treeDepth 33 nf.leaves.length := by
  unfold createProofAt at h
  split at h
  · cases h
    have hpath : (noisePath nf.levels index.toNat).length = treeDepth 33 nf.leaves.length := by
      rw [length_noisePath, levels, length_noiseLevels, List.length_map, Nat.add_sub_cancel]
    have hle := treeDepth_le 33 nf.leaves.length
    refine ⟨rfl, ⟨?_, ?_⟩, ?_⟩
    · rw [List.length_map, List.length_map]
    · rw [List.length_map, hpath]
      omega
    · rw [List.length_map, hpath]
  · cases h

end Moneu
