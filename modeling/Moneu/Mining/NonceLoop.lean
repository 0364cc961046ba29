/-
# The nonce loops hash the real header

`BuildMiningBlocks` splits the 120 bytes of a header into words, compresses the first 64 of them once,
and pads the other 56 by hand.  A turn of a nonce loop stores the byte-swapped nonce and runs two more
transforms.  Section 2 shows that this is `GetHash` of the header with that nonce, whatever the
compression function is.  Section 3 shows that the comparison of first words only saves work: it
rejects no hash that meets the target.  Section 4 follows the header and its words through both
loops, which rewrite the timestamp as they go.
-/
import Moneu.Consensus.Work
import Moneu.Mining.Miner

namespace Moneu

open NetParams ArithUint256 Sha256

/-! ## 1. `SerializeTo` -/

theorem leBytes_eq_map (n : Nat) : ∀ v : Nat,
    leBytes n v = (List.range n).map fun i => UInt8.ofNat (v / 256 ^ i % 256) := by
  induction n with
  | zero => exact fun _ => rfl
  | succ n ih =>
    intro v
    rw [leBytes, ih, List.range_succ_eq_map, List.map_cons, List.map_map, Nat.pow_zero, Nat.div_one]
    refine congrArg _ (List.map_congr_left fun i _ => ?_)
    rw [Nat.div_div_eq_div_mul, ← Nat.pow_succ']
    rfl

theorem put64_eq (v : UInt64) : put64 v = writeLE64 v := by
  rw [put64, writeLE64, leBytes_eq_map]
  refine List.map_congr_left fun i hi => ?_
  have hlt : i < 8 := List.mem_range.1 hi
  have hshift : (UInt64.ofNat (i * 8)).toNat % 64 = 8 * i := by
    rw [UInt64.toNat_ofNat']
    omega
  apply UInt8.toNat_inj.1
  rw [UInt64.toNat_toUInt8, UInt64.toNat_shiftRight, hshift, UInt8.toNat_ofNat',
    Nat.shiftRight_eq_div_pow, Nat.pow_mul, Nat.mod_mod]

theorem BlockHeader.serializeTo_eq (hdr : BlockHeader) : hdr.serializeTo = hdr.serialize := by
  simp only [serializeTo, serialize, lowFirst_eq, put64_eq]

/-! ## 2. The hash of a header with a nonce -/

namespace BlockHeader

def front (hdr : BlockHeader) : List UInt8 :=
  writeLE32 hdr.version ++ (hdr.prevBlockHash.data ++ (hdr.merkleRoot.data ++
    (hdr.leafRoot.data ++ (writeLE64 hdr.timestamp ++ (writeLE32 hdr.height ++
      writeLE32 hdr.bits)))))

theorem length_front (hdr : BlockHeader) : hdr.front.length = 116 := by
  simp [front]

/-- The bytes of a header: those of the first block, the other ones, and the nonce. -/
theorem serialize_eq (hdr : BlockHeader) :
    hdr.serialize = hdr.front.take 64 ++ (hdr.front.drop 64 ++ writeLE32 hdr.nonce) := by
  rw [← List.append_assoc, List.take_append_drop]
  simp only [serialize, front, List.append_assoc]

end BlockHeader

namespace Miner

section Compress

variable {compress : State → List UInt32 → State}

theorem words_writeLE32 (w : UInt32) : words (writeLE32 w) = [byteSwap w] := by
  rw [← lowFirst_eq, byteSwap_eq, bigEndian_eq]
  rfl

theorem words_padding : words (padding 120) =
    [0x80000000, 0] ++ (List.replicate 15 0 ++ [UInt32.ofNat (BlockHeader.SERIALIZED_SIZE * 8)]) := by
  decide

section Header

variable (hdr : BlockHeader)

theorem length_take_front : (hdr.front.take 64).length = 64 := by
  rw [List.length_take, hdr.length_front]
  rfl

theorem length_drop_front : (hdr.front.drop 64).length = 52 := by
  rw [List.length_drop, hdr.length_front]

/-- The second block before the padding: thirteen words and the nonce. -/
theorem words_tail :
    words (hdr.front.drop 64 ++ writeLE32 hdr.nonce) =
      words (hdr.front.drop 64) ++ [byteSwap hdr.nonce] := by
  rw [words_append (n := 13) _ _ (length_drop_front hdr), words_writeLE32]

theorem buildMiningBlocks_eq : buildMiningBlocks compress hdr =
    { midstate := compress initialHashValue (words (hdr.front.take 64))
      block2 := words (hdr.front.drop 64) ++ ([byteSwap hdr.nonce] ++ [0x80000000, 0])
      block3 := List.replicate 15 0 ++ [UInt32.ofNat (BlockHeader.SERIALIZED_SIZE * 8)] } := by
  have hfirst : (List.range 16).map (fun i => wordAt hdr.serialize (i * 4)) =
      words (hdr.front.take 64) := by
    rw [words_eq_map (n := 16) _ (length_take_front hdr)]
    refine List.map_congr_left fun i hi => ?_
    have hlt : i < 16 := List.mem_range.1 hi
    rw [hdr.serialize_eq]
    exact wordAt_append _ (by rw [length_take_front]; omega)
  have hsecond : (List.range 14).map (fun i => wordAt hdr.serialize (64 + i * 4)) =
      words (hdr.front.drop 64) ++ [byteSwap hdr.nonce] := by
    have hlen : (hdr.front.drop 64 ++ writeLE32 hdr.nonce).length = 4 * 14 := by
      rw [List.length_append, length_drop_front, length_writeLE32]
    rw [← words_tail, words_eq_map _ hlen]
    refine List.map_congr_left fun i _ => ?_
    rw [← wordAt_drop, hdr.serialize_eq, List.drop_left' (length_take_front hdr)]
  simp only [buildMiningBlocks, hdr.serializeTo_eq, hfirst, hsecond, List.append_assoc]

theorem length_words_drop : (words (hdr.front.drop 64)).length = 13 :=
  length_words (n := 13) _ (length_drop_front hdr)

/-- **The mining hash is the hash of the header with the nonce**: midstate, hand-made padding and
byte swap against the digest of the serialized header. -/
theorem hashBytes_withNonce (nonce : UInt32) :
    hashBytes (((buildMiningBlocks compress hdr).withNonce nonce).hashWords compress) =
      sha256With compress { hdr with nonce }.serialize := by
  have hlen : ({ hdr with nonce } : BlockHeader).serialize.length = 120 := by
    simp [BlockHeader.serialize]
  have hwords : words ({ hdr with nonce }.serialize ++ padding { hdr with nonce }.serialize.length) =
      words (hdr.front.take 64) ++ ((words (hdr.front.drop 64) ++ ([byteSwap nonce] ++ [0x80000000, 0])) ++
        (List.replicate 15 0 ++ [UInt32.ofNat (BlockHeader.SERIALIZED_SIZE * 8)])) := by
    rw [hlen, words_append (n := 30) _ _ hlen, words_padding, BlockHeader.serialize_eq,
      words_append (n := 16) _ _ (length_take_front _), words_tail]
    simp only [List.append_assoc]
    rfl
  have hdigest := sha256With_eq compress hwords (by rw [List.length_append, hlen]; rfl)
    (length_words (n := 16) _ (length_take_front hdr)) (by simp [length_words_drop]) (by simp)
  apply FixedBytes.ext
  rw [hdigest, buildMiningBlocks_eq]
  have hset : (words (hdr.front.drop 64) ++ ([byteSwap hdr.nonce] ++ [0x80000000, 0])).set 13
      (byteSwap nonce) = words (hdr.front.drop 64) ++ ([byteSwap nonce] ++ [0x80000000, 0]) := by
    rw [List.set_append, length_words_drop]
    rfl
  simp only [hashBytes, MiningBlocks.hashWords, MiningBlocks.withNonce, hset, State.digest,
    funext highFirst_eq]

end Header

/-! ## 3. The comparison of first words -/

/-- The first four bytes of a hash, as a number, are its value without the other 28. -/
theorem beWord_toNat_eq {b0 b1 b2 b3 : UInt8} {rest : List UInt8} (h : rest.length = 28) :
    (beWord b0 b1 b2 b3).toNat = beValue (b0 :: b1 :: b2 :: b3 :: rest) / 2 ^ 224 := by
  have hrest := beValue_lt rest
  rw [h] at hrest
  have h0 := b0.toNat_lt
  have h1 := b1.toNat_lt
  have h2 := b2.toNat_lt
  have h3 := b3.toNat_lt
  simp only [beWord, UInt32.toNat_ofNat', beValue_cons, List.length_cons, h]
  omega

theorem wordAt_zero_toNat (hash : Bytes32) : (wordAt hash.data 0).toNat = (ofBytes32 hash).toNat / 2 ^ 224 := by
  obtain ⟨data, hlen⟩ := hash
  match data, hlen with
  | b0 :: b1 :: b2 :: b3 :: rest, hlen =>
    have hrest : rest.length = 28 := by simpa using hlen
    have hlt := beValue_lt (b0 :: b1 :: b2 :: b3 :: rest)
    have hword : wordAt (b0 :: b1 :: b2 :: b3 :: rest) 0 = beWord b0 b1 b2 b3 :=
      bigEndian_eq b0 b1 b2 b3
    rw [hlen] at hlt
    rw [hword, beWord_toNat_eq hrest, ofBytes32, BitVec.toNat_ofNat, Nat.mod_eq_of_lt]
    exact hlt

theorem ofBytes32_toBytes32 (a : ArithUint256) : ofBytes32 (toBytes32 a) = a := by
  apply BitVec.eq_of_toNat_eq
  rw [ofBytes32, BitVec.toNat_ofNat, toBytes32, FixedBytes.ofNat, beValue_beDigits,
    show 256 ^ 32 = 2 ^ 256 from rfl, Nat.mod_mod]
  exact Nat.mod_eq_of_lt a.isLt

theorem wordAt_hashBytes (hw : State) : wordAt (hashBytes hw).data 0 = hw.a := by
  have hword : wordAt (hashBytes hw).data 0 = bigEndian (hw.a >>> 24).toUInt8 (hw.a >>> 16).toUInt8
      (hw.a >>> 8).toUInt8 hw.a.toUInt8 := rfl
  rw [hword, bigEndian_highFirst]

/-- **The comparison of first words rejects no hash that is at most the target.** -/
theorem le_targetTop {hw : State} {target : ArithUint256} (h : ofBytes32 (hashBytes hw) ≤ target) :
    hw.a ≤ targetTop target := by
  rw [UInt32.le_iff_toNat_le, targetTop, wordAt_zero_toNat, ofBytes32_toBytes32, ← wordAt_hashBytes hw,
    wordAt_zero_toNat]
  exact Nat.div_le_div_right (BitVec.le_def.1 h)

theorem meets_iff {job : Job} {hw : State} :
    job.meets hw = true ↔ ofBytes32 (hashBytes hw) ≤ job.target := by
  simp only [Job.meets, Bool.and_eq_true, decide_eq_true_eq]
  exact ⟨fun h => h.2, fun h => ⟨le_targetTop h, h⟩⟩

/-! ## 4. Through the loops -/

variable {hdr : CachedHeader} {startMs : UInt64}

theorem getHash_setNonce (hdr : CachedHeader) (nonce : UInt32) :
    hashBytes (((buildMiningBlocks compress hdr.header).withNonce nonce).hashWords compress) =
      (hdr.setNonce nonce).getHash compress :=
  hashBytes_withNonce hdr.header nonce

/-- The words of a loop are those of its header, up to the nonce stored last. -/
def Prepared (compress : State → List UInt32 → State) (hdr : CachedHeader) (work : MiningBlocks) :
    Prop :=
  ∀ nonce, work.withNonce nonce = (buildMiningBlocks compress hdr.header).withNonce nonce

theorem withNonce_withNonce (work : MiningBlocks) (m n : UInt32) :
    (work.withNonce m).withNonce n = work.withNonce n := by
  simp only [MiningBlocks.withNonce, List.set_set]

namespace Prepared

variable {hdr : CachedHeader} {work : MiningBlocks}

theorem build (hdr : CachedHeader) : Prepared compress hdr (buildMiningBlocks compress hdr.header) :=
  fun _ => rfl

theorem withNonce (h : Prepared compress hdr work) (m : UInt32) :
    Prepared compress hdr (work.withNonce m) := by
  intro n
  rw [withNonce_withNonce, h n]

/-- The hash of a turn is the hash of the header with the nonce of the turn. -/
theorem hash_eq (h : Prepared compress hdr work) (nonce : UInt32) :
    hashBytes ((work.withNonce nonce).hashWords compress) = (hdr.setNonce nonce).getHash compress := by
  rw [h nonce, getHash_setNonce]

end Prepared

theorem poll_cases (compress : State → List UInt32 → State) (job : Job) (s : CpuState)
    (r : CpuReadings) :
    poll compress job s r = none ∨ poll compress job s r = some (s.hdr, s.work) ∨
      r.seconds > s.hdr.header.timestamp + 60 ∧
        poll compress job s r = some (restamp compress s.hdr r.seconds) := by
  unfold poll
  split
  · split
    · exact .inl rfl
    · split
      · exact .inl rfl
      · split
        · exact .inr (.inr ⟨‹_›, rfl⟩)
        · exact .inr (.inl rfl)
  · exact .inr (.inl rfl)

/-- The state after a turn that used up the nonces. -/
def restarted (compress : State → List UInt32 → State) (s : CpuState) (hdr : CachedHeader)
    (r : CpuReadings) : CpuState where
  hdr := hdr.setTimestamp r.secondsAtEnd
  nonce := 0
  localHashes := s.localHashes + 1
  work := buildMiningBlocks compress (hdr.setTimestamp r.secondsAtEnd).header

/-- The state after any other turn. -/
def continued (s : CpuState) (hdr : CachedHeader) (work : MiningBlocks) : CpuState where
  hdr := hdr
  nonce := s.nonce + 1
  localHashes := s.localHashes + 1
  work := work.withNonce s.nonce

/-- The nonces of a loop are used up in this turn. -/
def Exhausted (compress : State → List UInt32 → State) (job : Job) (s : CpuState)
    (work : MiningBlocks) : Prop :=
  ¬ job.meets ((work.withNonce s.nonce).hashWords compress) = true ∧ s.nonce = 0xFFFFFFFF

theorem cpuTurn_cases (compress : State → List UInt32 → State) (job : Job) (s : CpuState)
    (r : CpuReadings) :
    cpuTurn compress job s r = .done (false, s.hdr) ∨
      ∃ hdr work, r.mining = true ∧ poll compress job s r = some (hdr, work) ∧
        (job.meets ((work.withNonce s.nonce).hashWords compress) = true ∧
            cpuTurn compress job s r = .done (true, hdr.setNonce s.nonce) ∨
          Exhausted compress job s work ∧
            cpuTurn compress job s r = .next (restarted compress s hdr r) ∨
          ¬ Exhausted compress job s work ∧
            cpuTurn compress job s r = .next (continued s hdr work)) := by
  unfold cpuTurn
  by_cases hmining : r.mining = true
  · rw [if_neg (by simp [hmining])]
    cases hpoll : poll compress job s r with
    | none => exact .inl rfl
    | some result =>
      obtain ⟨hdr, work⟩ := result
      refine .inr ⟨hdr, work, hmining, rfl, ?_⟩
      dsimp only
      by_cases hmeets : job.meets ((work.withNonce s.nonce).hashWords compress) = true
      · rw [if_pos hmeets]
        exact .inl ⟨hmeets, rfl⟩
      · rw [if_neg hmeets]
        by_cases hend : s.nonce = 0xFFFFFFFF
        · rw [if_pos hend]
          exact .inr (.inl ⟨⟨hmeets, hend⟩, rfl⟩)
        · rw [if_neg hend]
          exact .inr (.inr ⟨fun h => hend h.2, rfl⟩)
  · rw [if_pos (by simp [hmining])]
    exact .inl rfl

/-- The first nonce that was not tried yet, after a turn on the GPU. -/
def nextNonce (s : GpuState) (r : GpuReadings) : UInt64 :=
  if r.hit then r.foundNonce.toUInt64 + 1 else s.nonceBase + batchCount s.nonceBase

theorem gpuTurn_cases (compress : State → List UInt32 → State) (job : Job) (s : GpuState)
    (r : GpuReadings) :
    (∃ useGpu, gpuTurn compress job s r = .done { found := false, useGpu, hdr := s.hdr }) ∨
      ofBytes32 (hashBytes ((s.work.withNonce r.foundNonce).hashWords compress)) ≤ job.target ∧
        gpuTurn compress job s r =
          .done { found := true, useGpu := true, hdr := s.hdr.setNonce r.foundNonce } ∨
      gpuTurn compress job s r = .next (advance compress s (nextNonce s r) r.secondsAtEnd) := by
  unfold gpuTurn nextNonce
  split
  · exact .inl ⟨true, rfl⟩
  · split
    · exact .inl ⟨true, rfl⟩
    · split
      · exact .inl ⟨true, rfl⟩
      · split
        · exact .inl ⟨false, rfl⟩
        · split
          · dsimp only
            split
            · exact .inr (.inl ⟨‹_›, rfl⟩)
            · exact .inr (.inr rfl)
          · exact .inr (.inr rfl)

/-- What both loops keep: the words of the header, and its bits. -/
structure Ready (compress : State → List UInt32 → State) (bits : UInt32) (hdr : CachedHeader)
    (work : MiningBlocks) : Prop where
  prepared : Prepared compress hdr work
  bits_eq : hdr.header.bits = bits

/-- A header whose hash is at most the target. -/
def Solved (compress : State → List UInt32 → State) (bits : UInt32) (target : ArithUint256)
    (hdr : CachedHeader) : Prop :=
  ofBytes32 (hdr.getHash compress) ≤ target ∧ hdr.header.bits = bits

namespace Ready

variable {bits : UInt32} {hdr : CachedHeader} {work : MiningBlocks}

variable {job : Job} {s : CpuState} {r : CpuReadings}

theorem build (h : hdr.header.bits = bits) :
    Ready compress bits hdr (buildMiningBlocks compress hdr.header) :=
  ⟨Prepared.build hdr, h⟩

theorem solved (h : Ready compress bits hdr work) {target : ArithUint256} {nonce : UInt32}
    (hle : ofBytes32 (hashBytes ((work.withNonce nonce).hashWords compress)) ≤ target) :
    Solved compress bits target (hdr.setNonce nonce) := by
  rw [h.prepared.hash_eq] at hle
  exact ⟨hle, h.bits_eq⟩

theorem poll (hs : Ready compress bits s.hdr s.work)
    (h : Miner.poll compress job s r = some (hdr, work)) : Ready compress bits hdr work := by
  rcases poll_cases compress job s r with hpoll | hpoll | ⟨_, hpoll⟩
  · rw [hpoll] at h
    cases h
  · rw [hpoll] at h
    cases h
    exact hs
  · rw [hpoll] at h
    cases h
    exact Ready.build hs.bits_eq

theorem cpu_next {s' : CpuState} (hs : Ready compress bits s.hdr s.work)
    (h : cpuTurn compress job s r = .next s') :
    Ready compress bits s'.hdr s'.work := by
  rcases cpuTurn_cases compress job s r with hturn | ⟨hdr, work, _, hpoll, hturn⟩
  · rw [hturn] at h
    cases h
  · have hready := hs.poll hpoll
    rcases hturn with ⟨_, hturn⟩ | ⟨_, hturn⟩ | ⟨_, hturn⟩
    · rw [hturn] at h
      cases h
    · rw [hturn] at h
      cases h
      exact Ready.build hready.bits_eq
    · rw [hturn] at h
      cases h
      exact ⟨hready.prepared.withNonce _, hready.bits_eq⟩

theorem cpu_done {result : Bool × CachedHeader} (hs : Ready compress bits s.hdr s.work)
    (h : cpuTurn compress job s r = .done result) (hfound : result.1 = true) :
    Solved compress bits job.target result.2 := by
  rcases cpuTurn_cases compress job s r with hturn | ⟨hdr, work, _, hpoll, hturn⟩
  · rw [hturn] at h
    cases h
    cases hfound
  · have hready := hs.poll hpoll
    rcases hturn with ⟨hmeets, hturn⟩ | ⟨_, hturn⟩ | ⟨_, hturn⟩
    · rw [hturn] at h
      cases h
      exact hready.solved (meets_iff.1 hmeets)
    · rw [hturn] at h
      cases h
    · rw [hturn] at h
      cases h

theorem advance {s : GpuState} (hs : Ready compress bits s.hdr s.work) (nonceBase secondsAtEnd : UInt64) :
    Ready compress bits (Miner.advance compress s nonceBase secondsAtEnd).hdr
      (Miner.advance compress s nonceBase secondsAtEnd).work := by
  unfold Miner.advance
  split
  · exact Ready.build hs.bits_eq
  · exact hs

theorem gpu_next {s s' : GpuState} {r : GpuReadings} (hs : Ready compress bits s.hdr s.work)
    (h : gpuTurn compress job s r = .next s') :
    Ready compress bits s'.hdr s'.work := by
  rcases gpuTurn_cases compress job s r with ⟨_, hturn⟩ | ⟨_, hturn⟩ | hturn
  · rw [hturn] at h
    cases h
  · rw [hturn] at h
    cases h
  · rw [hturn] at h
    cases h
    exact hs.advance _ _

/-- The answer of the GPU is not trusted: the hash has been computed again. -/
theorem gpu_done {s : GpuState} {r : GpuReadings} {result : GpuResult}
    (hs : Ready compress bits s.hdr s.work) (h : gpuTurn compress job s r = .done result)
    (hfound : result.found = true) : Solved compress bits job.target result.hdr := by
  rcases gpuTurn_cases compress job s r with ⟨_, hturn⟩ | ⟨hle, hturn⟩ | hturn
  · rw [hturn] at h
    cases h
    cases hfound
  · rw [hturn] at h
    cases h
    exact hs.solved hle
  · rw [hturn] at h
    cases h

end Ready

theorem Solved.checkProofOfWork {bits : UInt32} (h : Solved compress bits (setCompact bits).value hdr)
    (husable : usable (setCompact bits) = true) (hlimit : (setCompact bits).value ≤ powLimit) :
    checkProofOfWork (hdr.getHash compress) hdr.header.bits = true := by
  obtain ⟨hle, hbits⟩ := h
  simp only [usable, Bool.not_eq_true', Bool.or_eq_false_iff, decide_eq_false_iff_not] at husable
  obtain ⟨⟨hneg, hover⟩, hzero⟩ := husable
  have hnot : ¬ (setCompact bits).value > powLimit := BitVec.not_lt.2 hlimit
  have hhash : ¬ ofBytes32 (hdr.getHash compress) > (setCompact bits).value := BitVec.not_lt.2 hle
  rw [hbits, Moneu.checkProofOfWork, if_neg (by simp only [hneg, hover, hzero, hnot, decide_false, Bool.or_self, Bool.false_eq_true,
    not_false_eq_true]), if_neg hhash]

theorem runNonceLoop_solved {hdr' : CachedHeader} {readings : List CpuReadings}
    (h : runNonceLoop compress hdr startMs readings = some (true, hdr')) :
    usable (setCompact hdr.header.bits) = true ∧
      Solved compress hdr.header.bits (setCompact hdr.header.bits).value hdr' := by
  unfold runNonceLoop at h
  split at h
  · rename_i husable
    refine ⟨husable, ?_⟩
    exact Turn.run_spec (I := fun s : CpuState => Ready compress hdr.header.bits s.hdr s.work)
      (Q := fun result => result.1 = true →
        Solved compress hdr.header.bits (setCompact hdr.header.bits).value result.2)
      (fun s r s' hs hturn => hs.cpu_next hturn) (fun s r result hs hturn => hs.cpu_done hturn)
      (Ready.build rfl) h rfl
  · cases h

theorem runNonceLoopGpu_solved {readings : List GpuReadings} {result : GpuResult}
    (h : runNonceLoopGpu compress hdr startMs readings = some result) (hfound : result.found = true) :
    usable (setCompact hdr.header.bits) = true ∧
      Solved compress hdr.header.bits (setCompact hdr.header.bits).value result.hdr := by
  unfold runNonceLoopGpu at h
  split at h
  · rename_i husable
    refine ⟨husable, ?_⟩
    exact Turn.run_spec (I := fun s : GpuState => Ready compress hdr.header.bits s.hdr s.work)
      (Q := fun result : GpuResult => result.found = true →
        Solved compress hdr.header.bits (setCompact hdr.header.bits).value result.hdr)
      (fun s r s' hs hturn => hs.gpu_next hturn) (fun s r result hs hturn => hs.gpu_done hturn)
      (Ready.build rfl) h hfound
  · cases h
    cases hfound

/-- **The nonce loops hash the real header.**  For every compression function: the hash of a turn is
`GetHash` after `SetNonce`, the comparison of first words rejects no hash that is at most the target,
and a block either loop returns has its proof of work, if the bits encode a target within the
limit. -/
theorem mining_hash (compress : State → List UInt32 → State) :
    (∀ (hdr : CachedHeader) (nonce : UInt32),
      hashBytes (((buildMiningBlocks compress hdr.header).withNonce nonce).hashWords compress) =
        (hdr.setNonce nonce).getHash compress) ∧
    (∀ (hw : State) (target : ArithUint256),
      ofBytes32 (hashBytes hw) ≤ target → hw.a ≤ targetTop target) ∧
    (∀ (hdr hdr' : CachedHeader) (startMs : UInt64) (readings : List CpuReadings),
      (setCompact hdr.header.bits).value ≤ powLimit →
      runNonceLoop compress hdr startMs readings = some (true, hdr') →
        checkProofOfWork (hdr'.getHash compress) hdr'.header.bits = true) ∧
    (∀ (hdr : CachedHeader) (startMs : UInt64) (readings : List GpuReadings) (result : GpuResult),
      (setCompact hdr.header.bits).value ≤ powLimit →
      runNonceLoopGpu compress hdr startMs readings = some result → result.found = true →
        checkProofOfWork (result.hdr.getHash compress) result.hdr.header.bits = true) := by
  refine ⟨getHash_setNonce, fun hw target h => le_targetTop h, ?_, ?_⟩
  · intro hdr hdr' startMs readings hlimit hrun
    obtain ⟨husable, hsolved⟩ := runNonceLoop_solved hrun
    exact hsolved.checkProofOfWork husable hlimit
  · intro hdr startMs readings result hlimit hrun hfound
    obtain ⟨husable, hsolved⟩ := runNonceLoopGpu_solved hrun hfound
    exact hsolved.checkProofOfWork husable hlimit

/-- With the compression function of the source, a header without a cached hash has the hash of
`BlockHeader::GetHash`. -/
theorem getHash_transform (header : BlockHeader) :
    CachedHeader.getHash transform { header, cached := none } = header.getHash :=
  sha256With_transform _

/-- A worker that starts at a nonce that solves the header returns it in its first turn. -/
theorem runNonceLoop_first {header : BlockHeader} {r : CpuReadings}
    (husable : usable (setCompact header.bits) = true) (hmining : r.mining = true)
    (hle : ofBytes32 (CachedHeader.getHash compress { header, cached := none }) ≤ (setCompact header.bits).value) :
    runNonceLoop compress { header, cached := none } startMs [r] =
      some (true, { header, cached := none }) := by
  have hmeets : (jobOf { header, cached := none } startMs).meets
      (((buildMiningBlocks compress header).withNonce header.nonce).hashWords compress) = true := by
    rw [meets_iff, getHash_setNonce { header, cached := none }]
    exact hle
  have hpoll : poll compress (jobOf { header, cached := none } startMs)
      (cpuStart compress { header, cached := none }) r =
        some ({ header, cached := none }, buildMiningBlocks compress header) :=
    if_neg (show ¬ ((0 : UInt64) + 1) &&& 0xFFFF = 0 by decide)
  rw [runNonceLoop, if_pos husable, Turn.run, cpuTurn, if_neg (by simp [hmining]), hpoll]
  dsimp only [cpuStart]
  rw [if_pos hmeets]
  rfl

/-- The header of the genesis block, and a worker that starts at its nonce. -/
theorem mining_hash_genesis :
    (setCompact buildGenesisBlock.header.bits).value ≤ powLimit ∧
      runNonceLoop transform { header := buildGenesisBlock.header, cached := none } 0
        [{ mining := true, bestBlockHash := none, millis := 0, seconds := 0, secondsAtEnd := 0 }] =
          some (true, { header := buildGenesisBlock.header, cached := none }) ∧
      checkProofOfWork buildGenesisBlock.header.getHash buildGenesisBlock.header.bits = true := by
  have hlimit : (setCompact buildGenesisBlock.header.bits).value ≤ powLimit := by decide +kernel
  have husable : usable (setCompact buildGenesisBlock.header.bits) = true := by decide +kernel
  have hhash : buildGenesisBlock.header.getHash = getGenesisHash := buildGenesisBlock_getHash
  have hlow : ofBytes32
      (CachedHeader.getHash transform { header := buildGenesisBlock.header, cached := none }) ≤
        (setCompact buildGenesisBlock.header.bits).value := by
    rw [getHash_transform, hhash]
    decide +kernel
  have hrun : runNonceLoop transform { header := buildGenesisBlock.header, cached := none } 0
      [{ mining := true, bestBlockHash := none, millis := 0, seconds := 0, secondsAtEnd := 0 }] =
        some (true, { header := buildGenesisBlock.header, cached := none }) :=
    runNonceLoop_first husable rfl hlow
  have hwork := (mining_hash transform).2.2.1 { header := buildGenesisBlock.header, cached := none }
    _ _ _ hlimit hrun
  rw [getHash_transform] at hwork
  exact ⟨hlimit, hrun, hwork⟩

end Compress

end Miner

end Moneu
