/-
# The streaming tree builder

`wallet/noise_tree.cpp`.  `ComputeRoot` builds the tree of a noise file level by level through files of a
scratch directory, so that its memory does not grow with the number of leaves.  `NoiseFile` builds the
same tree in memory; a proof cut from one has to verify against the root of the other.

The files may fail (`Files`).  Whatever fails, a root that is returned is the root of the tree
(`computeRoot_reports`); and on a directory that works one is returned, and the directory is as it was,
without level files (`computeRoot_eq_getRoot`).
-/
import Moneu.Lib.Files
import Moneu.Wallet.NoiseTree

namespace Moneu.NoiseTreeBuilder

open Files Merkle

/-! ## 1. The builder -/

def commitmentAt (rawNoise : List UInt8) (i : Nat) : Bytes32 :=
  let leaf := sha256 ((rawNoise.drop (i * 32)).take 32 ++ writeLE32 (UInt32.ofNat i))
  sha256 leaf.data

def levelPath (dir : String) (level : Nat) : String :=
  dir ++ ("/moneu_noise_level_" ++ (level.repr ++ ".tmp"))

section Builder

variable (fails : Nat → Bool)

def readHash (stream : List UInt8) (d : Dir) : Dir × Option (Bytes32 × List UInt8) :=
  andThen (readBytes fails 32 stream d) id fun (bytes, rest) d =>
    (d, if h : bytes.length = 32 then some (⟨bytes, h⟩, rest) else none)

/-- The loop that writes the commitments. -/
def writeCommitments (path : String) (rawNoise : List UInt8) : List Nat → Dir → Dir × Option Unit
  | [], d => (d, some ())
  | i :: rest, d =>
    andThen (append fails path (commitmentAt rawNoise i).data d) (remove fails path) fun _ d =>
      writeCommitments path rawNoise rest d

/-- Both files of a failed step are removed. -/
def discard (inPath outPath : String) (d : Dir) : Dir := remove fails outPath (remove fails inPath d)

/-- The inner loop: nodes are read in pairs while any remain, a last one alone is paired with itself,
and their parents are written and counted. -/
def pairLoop (inPath outPath : String) : Nat → List UInt8 → Nat → Dir → Dir × Option Nat
  | 0, _, produced, d => (d, some produced)
  | 1, stream, produced, d =>
    andThen (readHash fails stream d) (discard fails inPath outPath) fun (left, _) d =>
      andThen (append fails outPath (sha256Pair left left).data d) (discard fails inPath outPath)
        fun _ d => (d, some (produced + 1))
  | remaining + 2, stream, produced, d =>
    andThen (readHash fails stream d) (discard fails inPath outPath) fun (left, stream) d =>
      andThen (readHash fails stream d) (discard fails inPath outPath) fun (right, stream) d =>
        andThen (append fails outPath (sha256Pair left right).data d) (discard fails inPath outPath)
          fun _ d => pairLoop inPath outPath remaining stream (produced + 1) d

/-- One turn of the outer loop: the new number of nodes. -/
def reduceLevel (dir : String) (level levelCount : Nat) (d : Dir) : Dir × Option Nat :=
  andThen (openRead fails (levelPath dir level) d) id fun stream d =>
    andThen (create fails (levelPath dir (level + 1)) d) id fun _ d =>
      andThen (pairLoop fails (levelPath dir level) (levelPath dir (level + 1)) levelCount stream 0 d) id
        fun produced d => (remove fails (levelPath dir level) d, some produced)

/-- The outer loop, for at most `fuel` turns: the level of the root. -/
def reduceLevels (dir : String) : Nat → Nat → Nat → Dir → Dir × Option Nat
  | 0, level, levelCount, d => (d, if levelCount > 1 then none else some level)
  | fuel + 1, level, levelCount, d =>
    if levelCount > 1 then
      andThen (reduceLevel fails dir level levelCount d) id fun produced d =>
        reduceLevels dir fuel (level + 1) produced d
    else (d, some level)

/-- The last file is read and removed. -/
def readRoot (rootPath : String) (d : Dir) : Dir × Option Bytes32 :=
  andThen (openRead fails rootPath d) id fun stream d =>
    andThen (readHash fails stream d) (remove fails rootPath) fun (root, _) d =>
      (remove fails rootPath d, some root)

/-- `ComputeRoot`; a `uint32_t` number of leaves has at most thirty-three levels. -/
def computeRoot (rawNoise : List UInt8) (leafCount : UInt32) (scratchDir : String) (d : Dir) :
    Dir × Option Bytes32 :=
  if leafCount = 0 then (d, some FixedBytes.zero)
  else if rawNoise.length < leafCount.toNat * 32 then (d, none)
  else
    let path0 := levelPath scratchDir 0
    andThen (create fails path0 d) id fun _ d =>
      andThen (writeCommitments fails path0 rawNoise (List.range leafCount.toNat) d) id fun _ d =>
        andThen (reduceLevels fails scratchDir 33 0 leafCount.toNat d) id fun level d =>
          readRoot fails (levelPath scratchDir level) d

end Builder

/-! ## 2. Levels in files -/

theorem levelPath_injective (dir : String) : Function.Injective (levelPath dir) := by
  intro a b h
  unfold levelPath at h
  have hrepr : a.repr = b.repr :=
    (String.append_left_inj _).mp ((String.append_right_inj _).mp ((String.append_right_inj _).mp h))
  have hdigits : Nat.toDigits 10 a = Nat.toDigits 10 b := by
    rw [← Nat.toList_repr, ← Nat.toList_repr, hrepr]
  rw [← @Nat.ofDigitChars_ten_toDigits a, hdigits, Nat.ofDigitChars_ten_toDigits]

def stored (level : List Bytes32) : List UInt8 := level.flatMap FixedBytes.data

variable {fails : Nat → Bool}

theorem readHash_reports (hash : Bytes32) (rest : List UInt8) (d : Dir) :
    Reports fails (fun r d' => r = (hash, rest) ∧ d'.files = d.files)
      (readHash fails (hash.data ++ rest) d) := by
  have hread : Reports fails _ _ := readBytes_reports hash.data rest d
  rw [hash.size_eq] at hread
  refine hread.andThen fun r d' h => ?_
  obtain ⟨rfl, hfiles⟩ := h
  dsimp only
  rw [dif_pos hash.size_eq]
  exact .done ⟨rfl, hfiles⟩

theorem writeCommitments_reports {path : String} {rawNoise : List UInt8} : ∀ {positions : List Nat}
    {written : List UInt8} {d : Dir}, d.files path = some written →
    Reports fails (fun _ d' => d'.files = Function.update d.files path
        (some (written ++ stored (positions.map (commitmentAt rawNoise)))))
      (writeCommitments fails path rawNoise positions d)
  | [], written, d, h => by
    refine .done ?_
    rw [stored, List.map_nil, List.flatMap_nil, List.append_nil, ← h, Function.update_eq_self]
  | i :: rest, written, d, h => by
    refine (append_reports (commitmentAt rawNoise i).data h).andThen fun _ d' hfiles => ?_
    have hwritten : d'.files path = some (written ++ (commitmentAt rawNoise i).data) := by
      rw [hfiles, Function.update_self]
    refine (writeCommitments_reports hwritten).imp fun _ d'' hfiles' => ?_
    rw [hfiles', hfiles, Function.update_idem, List.append_assoc]
    rfl

theorem pairLoop_reports {inPath outPath : String} : ∀ {level : List Bytes32} {written : List UInt8}
    {produced : Nat} {d : Dir}, d.files outPath = some written →
    Reports fails (fun n d' => n = produced + (noiseLevel level).length ∧
        d'.files = Function.update d.files outPath (some (written ++ stored (noiseLevel level))))
      (pairLoop fails inPath outPath level.length (stored level) produced d)
  | [], written, produced, d, h => by
    refine .done ⟨rfl, ?_⟩
    rw [noiseLevel, stored, List.flatMap_nil, List.append_nil, ← h, Function.update_eq_self]
  | [last], written, produced, d, h => by
    refine (readHash_reports last [] d).andThen fun r d' hread => ?_
    obtain ⟨rfl, hfiles⟩ := hread
    rw [← hfiles] at h ⊢
    refine (append_reports (sha256Pair last last).data h).andThen fun _ d'' hfiles' => ?_
    refine .done ⟨rfl, ?_⟩
    rw [hfiles', noiseLevel, stored, List.flatMap_singleton]
  | left :: right :: rest, written, produced, d, h => by
    refine (readHash_reports left (right.data ++ stored rest) d).andThen fun r d₁ hread => ?_
    obtain ⟨rfl, hfiles₁⟩ := hread
    refine (readHash_reports right (stored rest) d₁).andThen fun r d₂ hread => ?_
    obtain ⟨rfl, hfiles₂⟩ := hread
    rw [← hfiles₁, ← hfiles₂] at h ⊢
    refine (append_reports (sha256Pair left right).data h).andThen fun _ d₃ hfiles₃ => ?_
    have hwritten : d₃.files outPath = some (written ++ (sha256Pair left right).data) := by
      rw [hfiles₃, Function.update_self]
    refine (pairLoop_reports hwritten).imp fun n d₄ hloop => ?_
    obtain ⟨rfl, hfiles₄⟩ := hloop
    refine ⟨?_, ?_⟩
    · rw [noiseLevel, List.length_cons]
      omega
    · rw [hfiles₄, hfiles₃, Function.update_idem, List.append_assoc, noiseLevel, stored, stored,
        List.flatMap_cons]

/-! ## 3. Levels one after the other -/

variable {dir : String}

/-- **One turn writes the next level** and, on a reliable directory, removes the old one. -/
theorem reduceLevel_reports {k : Nat} {level : List Bytes32} {d : Dir}
    (h : d.files (levelPath dir k) = some (stored level)) :
    Reports fails (fun n d' => n = (noiseLevel level).length ∧
        d'.files (levelPath dir (k + 1)) = some (stored (noiseLevel level)) ∧
        (Reliable fails → d'.files (levelPath dir k) = none) ∧
        ∀ path, path ≠ levelPath dir k → path ≠ levelPath dir (k + 1) → d'.files path = d.files path)
      (reduceLevel fails dir k level.length d) := by
  have hne : levelPath dir (k + 1) ≠ levelPath dir k := fun heq =>
    absurd (levelPath_injective dir heq) (Nat.succ_ne_self k)
  refine (openRead_reports h).andThen fun stream d₁ hopen => ?_
  obtain ⟨rfl, hfiles₁⟩ := hopen
  refine (create_reports (levelPath dir (k + 1)) d₁).andThen fun _ d₂ hfiles₂ => ?_
  have hempty : d₂.files (levelPath dir (k + 1)) = some [] := by rw [hfiles₂, Function.update_self]
  refine (pairLoop_reports hempty).andThen fun n d₃ hloop => ?_
  obtain ⟨rfl, hfiles₃⟩ := hloop
  have hsame : ∀ path, path ≠ levelPath dir (k + 1) → d₃.files path = d.files path := fun path hpath => by
    rw [hfiles₃, Function.update_of_ne hpath, hfiles₂, Function.update_of_ne hpath, hfiles₁]
  refine .done ⟨Nat.zero_add _, ?_, fun hreliable => ?_, fun path hold hnew => ?_⟩
  · rw [remove_of_ne _ hne, hfiles₃, Function.update_self, List.nil_append]
  · rw [remove_of_reliable hreliable, Function.update_self]
  · rw [remove_of_ne _ hold, hsame path hnew]

/-- What is left of the levels from `k` on when the root is in the file of level `k'`. -/
structure Reduced (dir : String) (d d' : Dir) (k k' : Nat) : Prop where
  removed : ∀ j, k ≤ j → j < k' → d'.files (levelPath dir j) = none
  other : ∀ path, (∀ j, k ≤ j → j ≤ k' → path ≠ levelPath dir j) → d'.files path = d.files path

/-- **The outer loop ends with the root** of the tree over the level it starts from. -/
theorem reduceLevels_reports : ∀ {fuel k : Nat} {level : List Bytes32} {d : Dir},
    level ≠ [] → level.length ≤ 2 ^ fuel → d.files (levelPath dir k) = some (stored level) →
    Reports fails (fun k' d' => k' = k + depth fuel level.length ∧
        d'.files (levelPath dir k') = some (top sha256Pair FixedBytes.zero fuel level).data ∧
        (Reliable fails → Reduced dir d d' k k'))
      (reduceLevels fails dir fuel k level.length d)
  | fuel, k, [root], d, _, _, h => by
    have hdone : Reduced dir d d k k := ⟨fun j hj hj' => by omega, fun _ _ => rfl⟩
    have hroot : d.files (levelPath dir k) = some root.data := by
      rw [h, stored, List.flatMap_singleton]
    cases fuel with
    | zero => exact .done ⟨rfl, hroot, fun _ => hdone⟩
    | succ fuel => exact .done ⟨rfl, hroot, fun _ => hdone⟩
  | 0, _, _ :: _ :: _, _, _, hlen, _ => by simp at hlen
  | fuel + 1, k, left :: right :: rest, d, _, hlen, h => by
    have hmany : (left :: right :: rest).length > 1 := by simp
    have hnext := length_noiseLevel (left :: right :: rest)
    have hnonempty : noiseLevel (left :: right :: rest) ≠ [] := by simp [noiseLevel]
    have hdepth : depth (fuel + 1) (left :: right :: rest).length =
        depth fuel (noiseLevel (left :: right :: rest)).length + 1 := by
      rw [depth, if_pos hmany, hnext]
    have htop : top sha256Pair FixedBytes.zero (fuel + 1) (left :: right :: rest) =
        top sha256Pair FixedBytes.zero fuel (noiseLevel (left :: right :: rest)) := by
      rw [top, if_pos hmany, noiseLevel_eq]
    unfold reduceLevels
    rw [if_pos hmany]
    refine (reduceLevel_reports h).andThen fun n d₁ hturn => ?_
    obtain ⟨rfl, hlevel, hremoved, hother⟩ := hturn
    have hhalf : (noiseLevel (left :: right :: rest)).length ≤ 2 ^ fuel := by
      rw [hnext]
      exact half_le hlen
    refine (reduceLevels_reports hnonempty hhalf hlevel).imp fun k' d₂ hrest => ?_
    obtain ⟨hk, hroot, hreduced⟩ := hrest
    refine ⟨by omega, by rw [htop, hroot], fun hreliable => ?_⟩
    obtain ⟨hgone, hkept⟩ := hreduced hreliable
    refine ⟨fun j hlow hhigh => ?_, fun path hpath => ?_⟩
    · rcases Nat.eq_or_lt_of_le hlow with rfl | hlow
      · -- The file of the first level is not touched by the later turns.
        rw [hkept _ fun i hi _ heq => absurd (levelPath_injective dir heq) (by omega)]
        exact hremoved hreliable
      · exact hgone j hlow hhigh
    · rw [hkept path fun j hlow hhigh => hpath j (by omega) hhigh]
      exact hother path (hpath k (Nat.le_refl k) (by omega)) (hpath (k + 1) (by omega) (by omega))

/-! ## 4. The root -/

/-- The commitments of a generated file are the ones the builder writes. -/
theorem commitments_generate {rawNoise : List UInt8} {leafCount : UInt32} {nf : NoiseFile}
    (h : NoiseFile.generate rawNoise leafCount = .ok nf) :
    leafCount ≠ 0 ∧ leafCount.toNat * 32 ≤ rawNoise.length ∧
      nf.commitments = (List.range leafCount.toNat).map (commitmentAt rawNoise) := by
  unfold NoiseFile.generate at h
  split at h
  · cases h
  · rename_i hcount
    split at h
    · cases h
    · rename_i hlen
      cases h
      refine ⟨hcount, Nat.le_of_not_lt hlen, ?_⟩
      rw [NoiseFile.commitments, List.map_map]
      rfl

/-- **A root that is returned is the root of the tree**, whatever fails. -/
theorem computeRoot_reports {rawNoise : List UInt8} {leafCount : UInt32} {nf : NoiseFile}
    (h : NoiseFile.generate rawNoise leafCount = .ok nf) (scratchDir : String) (d : Dir) :
    Reports fails (fun root d' => root = nf.getRoot ∧ (Reliable fails →
        (∀ level ≤ depth 33 leafCount.toNat, d'.files (levelPath scratchDir level) = none) ∧
        ∀ path, (∀ level ≤ depth 33 leafCount.toNat, path ≠ levelPath scratchDir level) →
          d'.files path = d.files path))
      (computeRoot fails rawNoise leafCount scratchDir d) := by
  obtain ⟨hcount, hlen, hcommitments⟩ := commitments_generate h
  have hlength : nf.commitments.length = leafCount.toNat := by
    rw [hcommitments, List.length_map, List.length_range]
  have hpos : leafCount.toNat ≠ 0 := fun hzero => hcount (UInt32.toNat_inj.mp hzero)
  have hnonempty : nf.commitments ≠ [] := fun hnil => hpos (by rw [← hlength, hnil]; rfl)
  have hroot : nf.getRoot = top sha256Pair FixedBytes.zero 33 nf.commitments :=
    NoiseFile.getRoot_eq fun hnil => hnonempty (by rw [NoiseFile.commitments, hnil]; rfl)
  have hbound : nf.commitments.length ≤ 2 ^ 33 := by
    have hlt := leafCount.toNat_lt
    omega
  unfold computeRoot
  rw [if_neg hcount, if_neg (by omega)]
  refine (create_reports (levelPath scratchDir 0) d).andThen fun _ d₁ hfiles₁ => ?_
  have hempty : d₁.files (levelPath scratchDir 0) = some [] := by rw [hfiles₁, Function.update_self]
  refine (writeCommitments_reports hempty).andThen fun _ d₂ hfiles₂ => ?_
  have hlevel : d₂.files (levelPath scratchDir 0) = some (stored nf.commitments) := by
    rw [hfiles₂, Function.update_self, List.nil_append, hcommitments]
  rw [← hlength]
  refine (reduceLevels_reports hnonempty hbound hlevel).andThen fun k d₃ hreduce => ?_
  obtain ⟨hk, hstored, hreduced⟩ := hreduce
  rw [Nat.zero_add] at hk
  subst hk
  refine (openRead_reports hstored).andThen fun stream d₄ hopen => ?_
  obtain ⟨rfl, hfiles₄⟩ := hopen
  have hread : Reports fails _ _ := readHash_reports (top sha256Pair FixedBytes.zero 33 nf.commitments) [] d₄
  rw [List.append_nil] at hread
  refine hread.andThen fun r d₅ hhash => ?_
  obtain ⟨rfl, hfiles₅⟩ := hhash
  refine .done ⟨hroot.symm, fun hreliable => ?_⟩
  obtain ⟨hgone, hkept⟩ := hreduced hreliable
  rw [remove_of_reliable hreliable, hfiles₅, hfiles₄]
  refine ⟨fun level hle => ?_, fun path hpath => ?_⟩
  · rcases Nat.eq_or_lt_of_le hle with rfl | hlt
    · rw [Function.update_self]
    · rw [Function.update_of_ne fun heq => absurd (levelPath_injective scratchDir heq) (by omega)]
      exact hgone level (Nat.zero_le level) hlt
  · rw [Function.update_of_ne (hpath _ (Nat.le_refl _)), hkept path fun j _ hj => hpath j hj, hfiles₂,
      Function.update_of_ne (hpath 0 (Nat.zero_le _)), hfiles₁,
      Function.update_of_ne (hpath 0 (Nat.zero_le _))]

/-- **The streaming builder agrees with the tree in memory.**  On a directory that works, `ComputeRoot`
returns the root of the noise file, removes every level file it wrote and leaves all other files as
they were. -/
theorem computeRoot_eq_getRoot {rawNoise : List UInt8} {leafCount : UInt32} (hcount : 1 ≤ leafCount)
    (hlen : 32 * leafCount.toNat ≤ rawNoise.length) (hreliable : Reliable fails) (scratchDir : String)
    (d : Dir) :
    ∃ nf d', NoiseFile.generate rawNoise leafCount = .ok nf ∧
      computeRoot fails rawNoise leafCount scratchDir d = (d', some nf.getRoot) ∧
      (∀ level ≤ depth 33 leafCount.toNat, d'.files (levelPath scratchDir level) = none) ∧
      ∀ path, (∀ level ≤ depth 33 leafCount.toNat, path ≠ levelPath scratchDir level) →
        d'.files path = d.files path := by
  have hgenerate : ∃ nf, NoiseFile.generate rawNoise leafCount = .ok nf := by
    have hne : leafCount ≠ 0 := fun hzero => by
      rw [hzero] at hcount
      exact absurd hcount (by decide)
    have hsize : ¬ rawNoise.length < leafCount.toNat * NoiseFile.NOISE_OTP_LEAF_SIZE := by
      rw [NoiseFile.NOISE_OTP_LEAF_SIZE]
      omega
    unfold NoiseFile.generate
    rw [if_neg hne, if_neg hsize]
    exact ⟨_, rfl⟩
  obtain ⟨nf, hnf⟩ := hgenerate
  obtain ⟨root, d', hrun, rfl, hclean⟩ := (computeRoot_reports hnf scratchDir d).of_reliable hreliable
  exact ⟨nf, d', hnf, hrun, hclean hreliable⟩

/-- Three leaves, in a directory with a level file left over from before. -/
theorem computeRoot_three_leaves :
    (1 : UInt32) ≤ 3 ∧ 32 * (3 : UInt32).toNat ≤ (List.replicate 96 (7 : UInt8)).length ∧
      ∃ nf d', NoiseFile.generate (List.replicate 96 7) 3 = .ok nf ∧
        computeRoot (fun _ => false) (List.replicate 96 7) 3 "/tmp" ⟨fun _ => some [1], 0⟩ =
          (d', some nf.getRoot) ∧
        d'.files (levelPath "/tmp" 1) = none := by
  have hlen : 32 * (3 : UInt32).toNat ≤ (List.replicate 96 (7 : UInt8)).length := by decide
  obtain ⟨nf, d', hnf, hrun, hgone, -⟩ :=
    @computeRoot_eq_getRoot (fun _ => false) _ 3 (by decide) hlen (fun _ => rfl) "/tmp"
      ⟨fun _ => some [1], 0⟩
  exact ⟨by decide, hlen, nf, d', hnf, hrun, hgone 1 (by decide)⟩

end Moneu.NoiseTreeBuilder
