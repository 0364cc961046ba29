/-
# Noise proofs

The part of `wallet/noise_otp.cpp` that validation and the UTXO set read: the serialized proof,
the leaves a transaction must reveal, and the check of one proof against the root `kps`.
-/
import Moneu.Crypto.Sha256
import Moneu.Lib.Decoder

namespace Moneu

structure NoiseProof where
  leafIndex : UInt32
  leaf : Bytes32
  boundProof : Bytes32
  merklePath : List Bytes32
  pathDirs : List UInt8
  deriving DecidableEq

def sha256Pair (a b : Bytes32) : Bytes32 := sha256 (a.data ++ b.data)

def bindLeafToTx (leaf txHash : Bytes32) : Bytes32 := sha256 (leaf.data ++ txHash.data)

/-- `RootFromPath`: the loop runs over `path` and reads `dirs` at the same position. -/
def rootFromPath (commitment : Bytes32) (path : List Bytes32) (dirs : List UInt8) : Bytes32 :=
  (path.zip dirs).foldl
    (fun acc step => if step.2 = 0 then sha256Pair acc step.1 else sha256Pair step.1 acc)
    commitment

namespace NoiseProof

def getSerializedSize (p : NoiseProof) : Nat :=
  4 + 32 + 32 + 4 + p.merklePath.length * 32 + p.pathDirs.length

def serialize (p : NoiseProof) : List UInt8 :=
  writeLE32 p.leafIndex ++ (p.leaf.data ++ (p.boundProof.data ++
    (writeLE32 (UInt32.ofNat p.merklePath.length) ++
      (p.merklePath.flatMap FixedBytes.data ++ p.pathDirs))))

def deserialize : Decoder NoiseProof := do
  Decoder.require (4 + 32 + 32 + 4) "NoiseProof: data too short"
  let leafIndex ← Decoder.le32
  let leaf ← Decoder.array 32
  let boundProof ← Decoder.array 32
  let pathLen ← Decoder.le32
  Decoder.throwIf (pathLen > 64) "NoiseProof: implausible path length"
  Decoder.require (pathLen.toNat * 32 + pathLen.toNat) "NoiseProof: insufficient data for path"
  let merklePath ← Decoder.replicate (Decoder.array 32) pathLen.toNat
  let pathDirs ← Decoder.vec pathLen.toNat
  return { leafIndex, leaf, boundProof, merklePath, pathDirs }

/-- The loop `while (offset < proofBytes.size())` of the UTXO set: the proofs read before the
first error, and that error.  A proof has at least 72 bytes, so the length of the blob bounds the
number of turns. -/
def readFrom : Nat → List UInt8 → List NoiseProof × Option String
  | _, [] => ([], none)
  | 0, _ :: _ => ([], some "NoiseProof: data too short")
  | n + 1, b :: bytes =>
    match deserialize (b :: bytes) with
    | .error e => ([], some e)
    | .ok (proof, rest) =>
      let (proofs, err) := readFrom n rest
      (proof :: proofs, err)

/-- All proofs of an input's blob. -/
def readAll (proofBytes : List UInt8) : List NoiseProof × Option String :=
  readFrom proofBytes.length proofBytes

end NoiseProof

/-- One index of `DeriveLeafIndices`. -/
def deriveLeafIndex (txHash kps : Bytes32) (inputIndex j leafCount : UInt32) : UInt32 :=
  let h := sha256 (txHash.data ++ (kps.data ++ (writeLE32 inputIndex ++ writeLE32 j)))
  readLE32 h.data % leafCount

def deriveLeafIndices (txHash kps : Bytes32) (inputIndex count leafCount : UInt32) :
    List UInt32 :=
  if leafCount = 0 ∨ count = 0 then []
  else (List.range count.toNat).map fun j =>
    deriveLeafIndex txHash kps inputIndex (UInt32.ofNat j) leafCount

/-- `for (width = leafCount; width > 1; width = (width + 1) / 2) ++expectedDepth`; the width
halves, so thirty-two turns are enough for a `uint32_t`. -/
def treeDepth : Nat → Nat → Nat
  | 0, _ => 0
  | fuel + 1, width => if width > 1 then 1 + treeDepth fuel ((width + 1) / 2) else 0

/-- The directions of the path of leaf `walk`: the loop compares `pathDirs[i]` with the parity
of the leaf index shifted right by `i`. -/
def dirsMatch : Nat → List UInt8 → Bool
  | _, [] => true
  | walk, dir :: dirs =>
    dir == (if walk % 2 = 0 then 0 else 1) && dirsMatch (walk / 2) dirs

def verifyProof (root txHash : Bytes32) (proof : NoiseProof) (leafCount : UInt32) : Bool :=
  leafCount ≠ 0 && proof.leafIndex < leafCount &&
    proof.merklePath.length == proof.pathDirs.length &&
    proof.merklePath.length == treeDepth 33 leafCount.toNat &&
    proof.pathDirs.all (· ≤ 1) &&
    dirsMatch proof.leafIndex.toNat proof.pathDirs &&
    bindLeafToTx proof.leaf txHash == proof.boundProof &&
    rootFromPath (sha256 proof.leaf.data) proof.merklePath proof.pathDirs == root

end Moneu
