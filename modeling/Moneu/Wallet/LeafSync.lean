/-
# Which spent leaves a wallet learns of

Two wallets opened from one mnemonic and one noise file draw on the same leaves.  Before a wallet
signs, `SyncNoiseLeafPointer` reads off the chain which leaves are spent, and marks them.

It looks at the chain only when the highest CACHED leaf (`Storage/LeafScan.lean`) has moved PAST the
pointer, and then marks the spent leaves up to that one.  Leaves are not spent in order, so a leaf
below the pointer may be spent later on; no call marks that leaf as long as the highest leaf stays
where it is.  A leaf that only the database knows is marked if a cached one lies above it.

* `marked_iff`: after a call every spent leaf is marked if and only if each of them was marked before,
  or a cached leaf lies at or above it and the cache was ahead of the pointer (`Ahead`);
* `below_the_pointer`: leaf 5 is spent and synchronised, leaf 2 is spent afterwards, and the next
  call leaves it unmarked.
-/
import Moneu.Storage.LeafScan
import Moneu.Wallet.LeafUse
import Moneu.Wallet.Transfer

namespace Moneu

open NetParams

/-! ## 1. The two maps -/

namespace NoiseFile

variable {nf : NoiseFile} {next : UInt32}

theorem isUsed_markLeafUsed {i : UInt32} (hi : i.toNat < nf.leaves.length) (j : UInt32) :
    UsedMap.isUsed (nf.markLeafUsed i).used j = true ↔ UsedMap.isUsed nf.used j = true ∨ j = i := by
  unfold markLeafUsed
  rw [if_neg (Nat.not_le.mpr hi)]
  dsimp only
  split
  case isTrue =>
    have hlen : i.toNat / 8 < (UsedMap.grow nf.used ((nf.leaves.length + 7) / 8)).length := by
      rw [UsedMap.grow, List.length_append, List.length_replicate]
      omega
    rw [UsedMap.isUsed_setBit hlen, UsedMap.isUsed_congr (UsedMap.getD_grow _ _) j, @eq_comm _ i]
  case isFalse hlen =>
    rw [UsedMap.isUsed_setBit (by omega), @eq_comm _ i]

theorem leaves_markLeafUsed (nf : NoiseFile) (i : UInt32) :
    (nf.markLeafUsed i).leaves = nf.leaves ∧ (nf.markLeafUsed i).nextLeaf = nf.nextLeaf := by
  unfold markLeafUsed
  split
  · exact ⟨rfl, rfl⟩
  · exact ⟨rfl, rfl⟩

theorem foldl_markLeafUsed : ∀ (leaves : List UInt32) (nf : NoiseFile),
    (∀ i ∈ leaves, i.toNat < nf.leaves.length) →
    (leaves.foldl markLeafUsed nf).leaves = nf.leaves ∧
      (leaves.foldl markLeafUsed nf).nextLeaf = nf.nextLeaf ∧
      ∀ j, UsedMap.isUsed (leaves.foldl markLeafUsed nf).used j = true ↔
        UsedMap.isUsed nf.used j = true ∨ j ∈ leaves
  | [], nf, _ => ⟨rfl, rfl, fun j => by simp⟩
  | i :: leaves, nf, hrange => by
    obtain ⟨hi, hrest⟩ := List.forall_mem_cons.mp hrange
    obtain ⟨hleaves, hnext⟩ := leaves_markLeafUsed nf i
    obtain ⟨hsame, hptr, hused⟩ := foldl_markLeafUsed leaves (nf.markLeafUsed i) (by rwa [hleaves])
    refine ⟨hsame.trans hleaves, hptr.trans hnext, ?_⟩
    intro j
    rw [List.foldl_cons, hused, isUsed_markLeafUsed hi, List.mem_cons, or_assoc]

theorem leaves_setNextLeaf (nf : NoiseFile) (next : UInt32) :
    (nf.setNextLeaf next).leaves = nf.leaves := by
  unfold setNextLeaf
  dsimp only
  split <;> split <;> rfl

theorem length_generate {rawNoise : List UInt8} {leafCount : UInt32}
    (h : generate rawNoise leafCount = .ok nf) : nf.leaves.length = leafCount.toNat := by
  unfold generate at h
  split at h
  · cases h
  · split at h
    · cases h
    · cases h
      rw [List.length_map, List.length_range]

/-- The pointer stays where it is, at the wanted leaf or beyond or at the end of the pool. -/
theorem setNextLeaf_stays (hcomplete : nf.leaves.length = NOISE_LEAF_COUNT.toNat)
    (h : nf.nextLeaf < NOISE_LEAF_COUNT → next ≤ nf.nextLeaf) :
    nf.setNextLeaf next = nf := by
  have hcount : NOISE_LEAF_COUNT.toNat = 1048576 := by decide
  rw [UInt32.lt_iff_toNat_lt, UInt32.le_iff_toNat_le] at h
  unfold setNextLeaf
  refine if_neg ?_
  rw [hcomplete, gt_iff_lt, UInt32.lt_iff_toNat_lt]
  split
  · rw [UInt32.ofNat_toNat]
    omega
  · omega

theorem setNextLeaf_moves (hcomplete : nf.leaves.length = NOISE_LEAF_COUNT.toNat)
    (hpool : nf.nextLeaf < NOISE_LEAF_COUNT) (hnext : nf.nextLeaf < next) :
    ∃ after, nf.nextLeaf < after ∧ after ≤ NOISE_LEAF_COUNT ∧
      (∀ i < NOISE_LEAF_COUNT, i < after ↔ i < next) ∧
      nf.setNextLeaf next = { nf with nextLeaf := after } := by
  rw [UInt32.lt_iff_toNat_lt] at hpool hnext
  simp only [UInt32.lt_iff_toNat_lt, UInt32.le_iff_toNat_le]
  unfold setNextLeaf
  by_cases hclip : next.toNat > nf.leaves.length
  · refine ⟨NOISE_LEAF_COUNT, hpool, Nat.le_refl _, fun i hi => ⟨fun _ => by omega, fun _ => hi⟩, ?_⟩
    rw [if_pos hclip, hcomplete, UInt32.ofNat_toNat]
    exact if_pos (UInt32.lt_iff_toNat_lt.mpr hpool)
  · refine ⟨next, hnext, by omega, fun i _ => Iff.rfl, ?_⟩
    rw [if_neg hclip]
    exact if_pos (UInt32.lt_iff_toNat_lt.mpr hnext)

theorem nextLeaf_le_of_moved (hcomplete : nf.leaves.length = NOISE_LEAF_COUNT.toNat)
    (hmoved : nf.nextLeaf < (nf.setNextLeaf next).nextLeaf) :
    (nf.setNextLeaf next).nextLeaf ≤ NOISE_LEAF_COUNT := by
  by_cases hahead : nf.nextLeaf < NOISE_LEAF_COUNT ∧ nf.nextLeaf < next
  · obtain ⟨after, _, hle, _, hset⟩ := setNextLeaf_moves hcomplete hahead.1 hahead.2
    rw [hset]
    exact hle
  · have hstays : nf.setNextLeaf next = nf :=
      setNextLeaf_stays hcomplete fun hpool => UInt32.not_lt.mp fun hnext => hahead ⟨hpool, hnext⟩
    rw [hstays] at hmoved
    exact absurd hmoved (UInt32.lt_irrefl _)

end NoiseFile

namespace WalletManager

/-- Both the wallet's map and the noise file's map mark a leaf. -/
def KnowsUsed (w : WalletManager) (i : UInt32) : Prop :=
  w.isNoiseLeafUsed i = true ∧
    ∃ nf, w.noiseFile = some nf ∧ UsedMap.isUsed nf.used i = true

/-- **Consuming leaves** marks them in both maps, and nothing else. -/
theorem knowsUsed_consume {w : WalletManager} {nf nf' : NoiseFile} (hnf : w.noiseFile = some nf)
    (hused : nf'.used = nf.used) (hcomplete : nf'.leaves.length = NOISE_LEAF_COUNT.toNat)
    {leaves : List UInt32} (hrange : ∀ i ∈ leaves, i < NOISE_LEAF_COUNT) (j : UInt32) :
    (w.consume nf' leaves).KnowsUsed j ↔ w.KnowsUsed j ∨ j ∈ leaves := by
  have hwallet := (marked_foldl leaves w hrange).used j
  have hfile := (NoiseFile.foldl_markLeafUsed leaves nf' (by
    intro i hi
    rw [hcomplete]
    exact UInt32.lt_iff_toNat_lt.mp (hrange i hi))).2.2 j
  have hsame : (w.consume nf' leaves).isNoiseLeafUsed j =
      (leaves.foldl markNoiseLeafUsed w).isNoiseLeafUsed j := rfl
  rw [hused] at hfile
  unfold KnowsUsed
  rw [hsame, hwallet]
  simp only [consume, hnf, Option.some.injEq, exists_eq_left', hfile]
  exact and_or_right.symm

theorem exists_foldl_mark : ∀ (leaves : List UInt32) (w : WalletManager),
    ∃ map, leaves.foldl markNoiseLeafUsed w = { w with noiseUsed := map }
  | [], w => ⟨w.noiseUsed, rfl⟩
  | i :: leaves, w => exists_foldl_mark leaves (w.markNoiseLeafUsed i)

/-! ## 2. One call -/

/-- The cache is ahead of the pointer: a leaf at or above it is cached.  Two borders count as not
ahead: a pointer at the end of the pool cannot move, and past the index of all ones the wanted
pointer is 0. -/
def Ahead (u : UTXOSet) (kps : Bytes32) (pointer : UInt32) : Prop :=
  pointer < NOISE_LEAF_COUNT ∧ ⟨kps, 0xffffffff⟩ ∉ u.spentLeafCache ∧ u.CachedAbove kps pointer

theorem toNat_succ {i : UInt32} (h : i ≠ 0xffffffff) : (i + 1).toNat = i.toNat + 1 := by
  have hlt := i.toNat_lt
  have hne : i.toNat ≠ 4294967295 := fun heq => h (UInt32.toNat_inj.mp heq)
  rw [UInt32.toNat_add]
  change (i.toNat + 1) % 4294967296 = _
  omega

section Sync

variable {w : WalletManager} {u : UTXOSet} {nf : NoiseFile}

/-- **A call that moves the pointer** marks the spent leaves up to the highest cached one. -/
theorem sync_of_ahead (hrep : u.LeafRep) (hloaded : w.noiseLoaded = true)
    (hnf : w.noiseFile = some nf) (hcomplete : nf.leaves.length = NOISE_LEAF_COUNT.toNat)
    (hahead : Ahead u w.noiseKps nf.nextLeaf) :
    ∃ after, nf.nextLeaf < after ∧ after ≤ NOISE_LEAF_COUNT ∧
      (∀ i < NOISE_LEAF_COUNT, i < after ↔ u.CachedAbove w.noiseKps i) ∧
      (w.syncNoiseLeafPointer u).1 = ({ w with noiseNextLeaf := after }).consume
        { nf with nextLeaf := after } (spentBelow u w.noiseKps after) := by
  obtain ⟨hpool, hnowrap, i, hi, hcached⟩ := hahead
  have hhighest := UTXOSet.getHighestSpentNoiseLeaf_spec hrep w.noiseKps
  unfold syncNoiseLeafPointer
  rw [hloaded, hnf]
  dsimp only
  cases hget : u.getHighestSpentNoiseLeaf w.noiseKps with
  | none =>
    rw [hget] at hhighest
    exact absurd hcached (hhighest i)
  | some highest =>
    rw [hget] at hhighest
    obtain ⟨hin, hmax⟩ := hhighest
    have hsucc : (highest + 1).toNat = highest.toNat + 1 := by
      refine toNat_succ ?_
      rintro rfl
      exact hnowrap hin
    have hbelow : ∀ j, j < highest + 1 ↔ j ≤ highest := by
      intro j
      rw [UInt32.le_iff_toNat_le, UInt32.lt_iff_toNat_lt]
      omega
    obtain ⟨after, hmoved, hle, hcover, hset⟩ := NoiseFile.setNextLeaf_moves hcomplete hpool
      (UInt32.lt_of_le_of_lt hi ((hbelow i).mpr (hmax i hcached)))
    refine ⟨after, hmoved, hle, fun j hj => ?_, ?_⟩
    · rw [hcover j hj, hbelow j]
      constructor
      · intro hj
        exact ⟨highest, hj, hin⟩
      · rintro ⟨k, hjk, hk⟩
        exact UInt32.le_trans hjk (hmax k hk)
    · dsimp only
      rw [hset]
      exact congrArg Prod.fst (if_pos hmoved)

/-- **A call that does not move the pointer** changes nothing. -/
theorem sync_of_not_ahead (hrep : u.LeafRep) (hloaded : w.noiseLoaded = true)
    (hnf : w.noiseFile = some nf) (hcomplete : nf.leaves.length = NOISE_LEAF_COUNT.toNat)
    (hbehind : ¬ Ahead u w.noiseKps nf.nextLeaf) : (w.syncNoiseLeafPointer u).1 = w := by
  have hhighest := UTXOSet.getHighestSpentNoiseLeaf_spec hrep w.noiseKps
  unfold syncNoiseLeafPointer
  rw [hloaded, hnf]
  dsimp only
  cases hget : u.getHighestSpentNoiseLeaf w.noiseKps with
  | none => rfl
  | some highest =>
    rw [hget] at hhighest
    obtain ⟨hin, hmax⟩ := hhighest
    have hstays : nf.setNextLeaf (highest + 1) = nf := by
      refine NoiseFile.setNextLeaf_stays hcomplete ?_
      intro hpool
      by_cases hwrap : highest = 0xffffffff
      · subst hwrap
        exact UInt32.le_iff_toNat_le.mpr (Nat.zero_le _)
      · have hlt : ¬ nf.nextLeaf ≤ highest := by
          intro hle
          refine hbehind ⟨hpool, ?_, highest, hle, hin⟩
          intro hall
          have hge := UInt32.le_iff_toNat_le.mp (hmax _ hall)
          have hword := highest.toNat_lt
          refine hwrap (UInt32.toNat_inj.mp ?_)
          change 4294967295 ≤ highest.toNat at hge
          change highest.toNat = 4294967295
          omega
        rw [UInt32.le_iff_toNat_le] at hlt ⊢
        rw [toNat_succ hwrap]
        omega
    dsimp only
    rw [hstays, if_neg (UInt32.lt_irrefl _), ← hnf, ← hloaded]

theorem mem_spentBelow {kps : Bytes32} {after i : UInt32} :
    i ∈ spentBelow u kps after ↔ i < after ∧ u.isNoiseLeafSpent ⟨kps, i⟩ = true := by
  rw [spentBelow, List.mem_filter, List.mem_map]
  refine and_congr ?_ Iff.rfl
  constructor
  · rintro ⟨n, hn, rfl⟩
    have hlt := List.mem_range.mp hn
    have hword := after.toNat_lt
    rw [UInt32.lt_iff_toNat_lt, UInt32.toNat_ofNat', Nat.mod_eq_of_lt (by omega)]
    exact hlt
  · intro hi
    exact ⟨i.toNat, List.mem_range.mpr (UInt32.lt_iff_toNat_lt.mp hi), UInt32.ofNat_toNat⟩

theorem knowsUsed_of_ahead (hrep : u.LeafRep) (hloaded : w.noiseLoaded = true)
    (hnf : w.noiseFile = some nf) (hcomplete : nf.leaves.length = NOISE_LEAF_COUNT.toNat)
    (hahead : Ahead u w.noiseKps nf.nextLeaf) {i : UInt32} (hi : i < NOISE_LEAF_COUNT) :
    (w.syncNoiseLeafPointer u).1.KnowsUsed i ↔
      w.KnowsUsed i ∨ u.CachedAbove w.noiseKps i ∧ u.isNoiseLeafSpent ⟨w.noiseKps, i⟩ = true := by
  obtain ⟨after, _, hle, hcover, hsync⟩ := sync_of_ahead hrep hloaded hnf hcomplete hahead
  have hrange : ∀ j ∈ spentBelow u w.noiseKps after, j < NOISE_LEAF_COUNT :=
    fun j hj => UInt32.lt_of_lt_of_le (mem_spentBelow.mp hj).1 hle
  have hconsume := @knowsUsed_consume { w with noiseNextLeaf := after } nf
    { nf with nextLeaf := after } hnf rfl hcomplete _ hrange i
  rw [hsync, hconsume, mem_spentBelow, hcover i hi]
  exact Iff.rfl

/-- **When a call is complete.**  After `SyncNoiseLeafPointer` every spent leaf of the pool is
marked in both maps exactly if each of them was marked before, or has a cached leaf at or above it
while the cache was ahead of the pointer. -/
theorem marked_iff (hrep : u.LeafRep) (hloaded : w.noiseLoaded = true)
    (hnf : w.noiseFile = some nf) (hcomplete : nf.leaves.length = NOISE_LEAF_COUNT.toNat) :
    (∀ i < NOISE_LEAF_COUNT, u.isNoiseLeafSpent ⟨w.noiseKps, i⟩ = true →
        (w.syncNoiseLeafPointer u).1.KnowsUsed i) ↔
      ∀ i < NOISE_LEAF_COUNT, u.isNoiseLeafSpent ⟨w.noiseKps, i⟩ = true →
        w.KnowsUsed i ∨ Ahead u w.noiseKps nf.nextLeaf ∧ u.CachedAbove w.noiseKps i := by
  refine forall_congr' fun i => forall_congr' fun hi => forall_congr' fun hspent => ?_
  by_cases hahead : Ahead u w.noiseKps nf.nextLeaf
  · rw [knowsUsed_of_ahead hrep hloaded hnf hcomplete hahead hi]
    exact or_congr Iff.rfl ⟨fun h => ⟨hahead, h.1⟩, fun h => ⟨h.2, hspent⟩⟩
  · rw [sync_of_not_ahead hrep hloaded hnf hcomplete hahead]
    exact ⟨.inl, fun h => h.resolve_right fun h => hahead h.1⟩

theorem sync_keeps (hrep : u.LeafRep) (hloaded : w.noiseLoaded = true)
    (hnf : w.noiseFile = some nf) (hcomplete : nf.leaves.length = NOISE_LEAF_COUNT.toNat)
    (hahead : Ahead u w.noiseKps nf.nextLeaf) :
    (w.syncNoiseLeafPointer u).1.noiseLoaded = true ∧
      (w.syncNoiseLeafPointer u).1.noiseKps = w.noiseKps ∧
      ∃ nf', (w.syncNoiseLeafPointer u).1.noiseFile = some nf' ∧
        nf'.leaves.length = NOISE_LEAF_COUNT.toNat ∧
        ∀ i < NOISE_LEAF_COUNT, i < nf'.nextLeaf ↔ u.CachedAbove w.noiseKps i := by
  obtain ⟨after, _, hle, hcover, hsync⟩ := sync_of_ahead hrep hloaded hnf hcomplete hahead
  obtain ⟨map, hmap⟩ := exists_foldl_mark (spentBelow u w.noiseKps after)
    { w with noiseNextLeaf := after }
  obtain ⟨hleaves, hnext, _⟩ := NoiseFile.foldl_markLeafUsed (spentBelow u w.noiseKps after)
    { nf with nextLeaf := after } (by
      intro i hi
      have hlt := UInt32.lt_of_lt_of_le (mem_spentBelow.mp hi).1 hle
      change i.toNat < nf.leaves.length
      rw [hcomplete]
      exact UInt32.lt_iff_toNat_lt.mp hlt)
  rw [hsync, consume, hmap]
  refine ⟨hloaded, rfl, _, rfl, ?_, ?_⟩
  · rw [hleaves]
    exact hcomplete
  · rw [hnext]
    exact hcover

end Sync

/-! ## 3. A leaf below the pointer -/

section Behind

/-- A set in which leaves of the payer's noise file have been marked as spent. -/
def leavesSpent (indices : List UInt32) : UTXOSet :=
  (UTXOSet.openDB CoinsDB.empty).run (indices.map fun i => .mark ⟨zerosKps, i⟩)

theorem leafRep_leavesSpent (indices : List UInt32) : (leavesSpent indices).LeafRep := by
  unfold leavesSpent UTXOSet.run
  generalize hstart : UTXOSet.openDB CoinsDB.empty = start
  have hrep : start.LeafRep := hstart ▸ UTXOSet.LeafRep.openDB _
  clear hstart
  induction indices generalizing start with
  | nil => exact hrep
  | cons i rest ih => exact ih _ (hrep.step _)

theorem ahead_five : Ahead (leavesSpent [5]) zerosKps 0 :=
  ⟨by decide, by decide, 5, by decide, by decide⟩

theorem cachedAbove_leavesSpent {i : UInt32}
    (h : (leavesSpent [5, 2]).CachedAbove zerosKps i) : i ≤ 5 := by
  obtain ⟨j, hij, hj⟩ := h
  have hcases : j = 5 ∨ j = 2 := by
    simpa [leavesSpent, UTXOSet.run, UTXOSet.step, UTXOSet.markNoiseLeafSpent, UTXOSet.openDB,
      or_comm] using hj
  rcases hcases with rfl | rfl
  · exact hij
  · exact UInt32.le_trans hij (by decide)

/-- **A leaf that is missed.**  The wallet synchronises when leaf 5 is spent.  Then leaf 2 is spent,
the wallet synchronises again, and leaf 2 is not marked. -/
theorem below_the_pointer :
    ¬ ∀ i < NOISE_LEAF_COUNT, (leavesSpent [5, 2]).isNoiseLeafSpent ⟨zerosKps, i⟩ = true →
      ((payer.syncNoiseLeafPointer (leavesSpent [5])).1.syncNoiseLeafPointer
        (leavesSpent [5, 2])).1.KnowsUsed i := by
  intro hall
  obtain ⟨hloaded, hkps, nf, hnf, hcomplete, hnext⟩ := sync_keeps (w := payer)
    (leafRep_leavesSpent _) rfl rfl length_zerosFile ahead_five
  have hfive : 5 < nf.nextLeaf := (hnext 5 (by decide)).mpr ⟨5, by decide, by decide⟩
  have hbehind : ¬ Ahead (leavesSpent [5, 2])
      (payer.syncNoiseLeafPointer (leavesSpent [5])).1.noiseKps nf.nextLeaf := by
    rintro ⟨_, _, habove⟩
    rw [hkps] at habove
    exact absurd (UInt32.lt_of_lt_of_le hfive (cachedAbove_leavesSpent habove)) (by decide)
  have hknown := hall 2 (by decide) (by decide)
  rw [sync_of_not_ahead (leafRep_leavesSpent _) hloaded hnf hcomplete hbehind,
    knowsUsed_of_ahead (w := payer) (leafRep_leavesSpent _) rfl rfl length_zerosFile ahead_five
      (by decide)] at hknown
  rcases hknown with hknown | ⟨-, hspent⟩
  · exact absurd hknown.1 (by decide)
  · exact absurd hspent (by decide)

/-- Leaf 5 is marked when it is the first one spent. -/
theorem marked_iff_five : (payer.syncNoiseLeafPointer (leavesSpent [5])).1.KnowsUsed 5 := by
  refine (marked_iff (w := payer) (leafRep_leavesSpent [5]) rfl rfl length_zerosFile).mpr ?_ 5
    (by decide) (by decide)
  intro i _ hspent
  refine .inr ⟨ahead_five, i, UInt32.le_refl i, ?_⟩
  rcases ((leavesSpent [5]).isNoiseLeafSpent_iff _).mp hspent with hcached | ⟨-, hstored⟩
  · exact hcached
  · exact absurd hstored (Finset.notMem_empty _)

end Behind

end WalletManager

end Moneu
