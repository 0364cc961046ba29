/-
# The timestamps a search works with

`BuildBlockTemplate` puts a block past the median time of the chain.  The search that follows rewrites
the timestamp at two places, under two different conditions:

* every 65536 turns on the CPU, if the clock is more than a minute ahead of the header.  That moves
  the timestamp FORWARD, unless the sum `timestamp + 60` wraps around;
* where the nonces are used up, on the CPU and on the GPU.  That takes whatever the clock says.

So a clock behind the chain gets into the header at the second place (`clock_behind`), and the
condition under which every timestamp of a search is acceptable is one on the clock readings taken
there (`carried_ok_iff`).
-/
import Moneu.Crypto.Sha256Nat
import Moneu.Chain.Runs
import Moneu.Mining.NonceLoop

namespace Moneu.Miner

open NetParams ArithUint256 Sha256 ChainState

/-! ## 1. Templates -/

variable {s : ChainState}

/-- Past the median time of the tip, and not before the genesis block. -/
def Acceptable (s : ChainState) (t : UInt64) : Prop :=
  s.getTipMedianTimePast < t ∧ GENESIS_TIMESTAMP ≤ t

theorem Acceptable.mono {t t' : UInt64} (h : Acceptable s t) (hle : t ≤ t') :
    Acceptable s t' :=
  ⟨UInt64.lt_of_lt_of_le h.1 hle, UInt64.le_trans h.2 hle⟩

/-- There is a time past the median time. -/
def HasFuture (s : ChainState) : Prop := s.getTipMedianTimePast.toNat + 1 < 2 ^ 64

/-- **The timestamp of a template is acceptable**, if any timestamp is. -/
theorem acceptable_templateTime {now : UInt64} :
    Acceptable s (templateTime s now) ↔ HasFuture s := by
  have hgenesis : GENESIS_TIMESTAMP.toNat = 1786724267 := by decide
  have hnow := now.toNat_lt
  simp only [Acceptable, HasFuture, templateTime, UInt64.lt_iff_toNat_lt, UInt64.le_iff_toNat_le]
  have hone : (1 : UInt64).toNat = 1 := rfl
  split <;> split
  all_goals
    try rw [UInt64.toNat_add, hone]
    omega

theorem addTransaction_header {block block' : Block} {tx : Transaction}
    (h : block.addTransaction tx = .ok block') : block'.header = block.header := by
  unfold Block.addTransaction at h
  split at h <;> cases h
  rfl

theorem foldlM_addTransaction_header : ∀ {txs : List Transaction} {block block' : Block},
    txs.foldlM Block.addTransaction block = .ok block' → block'.header = block.header
  | [], _, _, h => by
    cases h
    rfl
  | tx :: txs, block, block', h => by
    rw [List.foldlM_cons] at h
    obtain ⟨mid, hadd, h⟩ := bind_eq_ok.mp h
    exact (foldlM_addTransaction_header h).trans (addTransaction_header hadd)

/-- The roots of a template are its own; the rest of its header is known before any transaction. -/
theorem buildBlockTemplate_header {mempool : Option Mempool} {coinbaseOutputHash : Bytes32}
    {nowMillis now : UInt64} {block : Block}
    (h : buildBlockTemplate s mempool coinbaseOutputHash nowMillis now = .ok block) :
    block.header = { templateHeader s now with
      merkleRoot := block.header.merkleRoot, leafRoot := block.header.leafRoot } := by
  unfold buildBlockTemplate at h
  obtain ⟨selection, -, h⟩ := bind_eq_ok.mp h
  obtain ⟨first, hfirst, h⟩ := bind_eq_ok.mp h
  obtain ⟨last, hlast, h⟩ := bind_eq_ok.mp h
  cases h
  have hheader := (foldlM_addTransaction_header hlast).trans (addTransaction_header hfirst)
  simp only [Block.updateRoots, hheader]
  rfl

/-! ## 2. The timestamps of a turn -/

section Compress

variable (compress : State → List UInt32 → State) (chain : ChainState)

variable {job : Job} {r : CpuReadings} {hdr : CachedHeader}

/-- A turn on the CPU works with the timestamp `t`: with the one it hashes, or with the one it leaves
behind when the nonces are used up. -/
def CpuCarries (job : Job) (s : CpuState) (r : CpuReadings) (t : UInt64) : Prop :=
  ∃ hdr work, r.mining = true ∧ poll compress job s r = some (hdr, work) ∧
    (t = hdr.header.timestamp ∨ Exhausted compress job s work ∧ t = r.secondsAtEnd)

/-- The clock is in order where a turn on the CPU puts it into the header: where the nonces are used
up, and where the test for an old timestamp wraps around. -/
def CpuClockOk (job : Job) (s : CpuState) (r : CpuReadings) : Prop :=
  ∀ hdr work, r.mining = true → poll compress job s r = some (hdr, work) →
    (Exhausted compress job s work → Acceptable chain r.secondsAtEnd) ∧
    ((s.localHashes + 1) &&& 0xFFFF = 0 → r.seconds > s.hdr.header.timestamp + 60 →
      2 ^ 64 ≤ s.hdr.header.timestamp.toNat + 60 → Acceptable chain r.seconds)

/-- A turn on the GPU works with the timestamp `t`. -/
def GpuCarries (job : Job) (s : GpuState) (r : GpuReadings) (t : UInt64) : Prop :=
  t = s.hdr.header.timestamp ∨
    (∃ s', gpuTurn compress job s r = .next s') ∧ nextNonce s r ≥ 0x100000000 ∧ t = r.secondsAtEnd

/-- The clock is in order where a turn on the GPU puts it into the header. -/
def GpuClockOk (job : Job) (s : GpuState) (r : GpuReadings) : Prop :=
  (∃ s', gpuTurn compress job s r = .next s') → nextNonce s r ≥ 0x100000000 →
    Acceptable chain r.secondsAtEnd

variable {compress chain}

theorem poll_timestamp {s : CpuState} {work : MiningBlocks}
    (h : poll compress job s r = some (hdr, work)) :
    hdr.header.timestamp =
      if (s.localHashes + 1) &&& 0xFFFF = 0 ∧ r.seconds > s.hdr.header.timestamp + 60 then r.seconds
      else s.hdr.header.timestamp := by
  unfold poll at h
  split at h
  case isTrue hturn =>
    simp only [Option.ite_none_left_eq_some] at h
    obtain ⟨-, -, h⟩ := h
    split at h
    case isTrue hold =>
      cases h
      rw [if_pos ⟨hturn, hold⟩]
      rfl
    case isFalse hold =>
      cases h
      rw [if_neg fun hboth => hold hboth.2]
  case isFalse hturn =>
    cases h
    rw [if_neg fun hboth => hturn hboth.1]

theorem acceptable_poll {s : CpuState} {work : MiningBlocks} (hmining : r.mining = true)
    (h : poll compress job s r = some (hdr, work)) (hs : Acceptable chain s.hdr.header.timestamp)
    (hclock : CpuClockOk compress chain job s r) :
    Acceptable chain hdr.header.timestamp := by
  rw [poll_timestamp h]
  split
  case isTrue hboth =>
    obtain ⟨hturn, hold⟩ := hboth
    by_cases hwrap : 2 ^ 64 ≤ s.hdr.header.timestamp.toNat + 60
    · exact (hclock hdr work hmining h).2 hturn hold hwrap
    · refine hs.mono ?_
      have hsixty : (60 : UInt64).toNat = 60 := rfl
      rw [gt_iff_lt, UInt64.lt_iff_toNat_lt, UInt64.toNat_add, hsixty,
        Nat.mod_eq_of_lt (by omega)] at hold
      rw [UInt64.le_iff_toNat_le]
      omega
  case isFalse => exact hs

theorem acceptable_cpu_next {s s' : CpuState} (hs : Acceptable chain s.hdr.header.timestamp)
    (hclock : CpuClockOk compress chain job s r) (h : cpuTurn compress job s r = .next s') :
    Acceptable chain s'.hdr.header.timestamp := by
  rcases cpuTurn_cases compress job s r with
    hturn | ⟨hdr, work, hmining, hpoll, ⟨_, hturn⟩ | ⟨hend, hturn⟩ | ⟨_, hturn⟩⟩
  all_goals
    rw [hturn] at h
    cases h
  · exact (hclock hdr work hmining hpoll).1 hend
  · exact acceptable_poll hmining hpoll hs hclock

theorem timestamp_advance (s : GpuState) (nonceBase secondsAtEnd : UInt64) :
    (advance compress s nonceBase secondsAtEnd).hdr.header.timestamp =
      if nonceBase ≥ 0x100000000 then secondsAtEnd else s.hdr.header.timestamp := by
  unfold advance
  split <;> rfl

theorem acceptable_gpu_next {s s' : GpuState} {r : GpuReadings}
    (hs : Acceptable chain s.hdr.header.timestamp) (hclock : GpuClockOk compress chain job s r)
    (h : gpuTurn compress job s r = .next s') : Acceptable chain s'.hdr.header.timestamp := by
  rcases gpuTurn_cases compress job s r with ⟨_, hturn⟩ | ⟨_, hturn⟩ | hturn
  all_goals
    rw [hturn] at h
    cases h
  rw [timestamp_advance]
  split
  · exact hclock ⟨_, hturn⟩ ‹_›
  · exact hs

/-! ## 3. The timestamps of a loop -/

variable (compress)

variable {startMs : UInt64}

def cpuTurns (hdr : CachedHeader) (startMs : UInt64) (readings : List CpuReadings) :
    List (CpuState × CpuReadings) :=
  if usable (setCompact hdr.header.bits) then
    Turn.taken (cpuTurn compress (jobOf hdr startMs)) (cpuStart compress hdr) readings
  else []

def gpuTurns (hdr : CachedHeader) (startMs : UInt64) (readings : List GpuReadings) :
    List (GpuState × GpuReadings) :=
  if usable (setCompact hdr.header.bits) then
    Turn.taken (gpuTurn compress (jobOf hdr startMs)) (gpuStart compress hdr) readings
  else []

variable {compress}

/-- **Every timestamp of a loop on the CPU is acceptable exactly if the clock was in order in every
turn**, from an acceptable start. -/
theorem cpu_carried_iff {readings : List CpuReadings} (hstart : Acceptable chain hdr.header.timestamp) :
    (∀ p ∈ cpuTurns compress hdr startMs readings, ∀ t,
        CpuCarries compress (jobOf hdr startMs) p.1 p.2 t → Acceptable chain t) ↔
      ∀ p ∈ cpuTurns compress hdr startMs readings,
        CpuClockOk compress chain (jobOf hdr startMs) p.1 p.2 := by
  constructor
  · intro h p hp hdr' work hmining hpoll
    refine ⟨fun hend => h p hp _ ⟨hdr', work, hmining, hpoll, .inr ⟨hend, rfl⟩⟩, ?_⟩
    intro hturn hold hwrap
    have hcarried := h p hp _ ⟨hdr', work, hmining, hpoll, .inl rfl⟩
    rwa [poll_timestamp hpoll, if_pos ⟨hturn, hold⟩] at hcarried
  · intro h p hp t ⟨hdr', work, hmining, hpoll, ht⟩
    have hinv : Acceptable chain p.1.hdr.header.timestamp := by
      unfold cpuTurns at h hp
      split at hp
      case isTrue husable =>
        rw [if_pos husable] at h
        exact Turn.taken_inv (I := fun s : CpuState => Acceptable chain s.hdr.header.timestamp)
          (fun _ _ _ => acceptable_cpu_next) hstart h p hp
      case isFalse => cases hp
    rcases ht with rfl | ⟨hend, rfl⟩
    · exact acceptable_poll hmining hpoll hinv (h p hp)
    · exact (h p hp hdr' work hmining hpoll).1 hend

theorem gpu_carried_iff {readings : List GpuReadings} (hstart : Acceptable chain hdr.header.timestamp) :
    (∀ p ∈ gpuTurns compress hdr startMs readings, ∀ t,
        GpuCarries compress (jobOf hdr startMs) p.1 p.2 t → Acceptable chain t) ↔
      ∀ p ∈ gpuTurns compress hdr startMs readings,
        GpuClockOk compress chain (jobOf hdr startMs) p.1 p.2 := by
  constructor
  · intro h p hp hnext hend
    exact h p hp _ (.inr ⟨hnext, hend, rfl⟩)
  · intro h p hp t ht
    have hinv : Acceptable chain p.1.hdr.header.timestamp := by
      unfold gpuTurns at h hp
      split at hp
      case isTrue husable =>
        rw [if_pos husable] at h
        exact Turn.taken_inv (I := fun s : GpuState => Acceptable chain s.hdr.header.timestamp)
          (fun _ _ _ => acceptable_gpu_next) hstart h p hp
      case isFalse => cases hp
    rcases ht with rfl | ⟨hnext, hend, rfl⟩
    · exact hinv
    · exact h p hp hnext hend

/-- The timestamp of a block found on the CPU is one the loop worked with. -/
theorem runNonceLoop_carries {hdr' : CachedHeader} {readings : List CpuReadings}
    (h : runNonceLoop compress hdr startMs readings = some (true, hdr')) :
    ∃ p ∈ cpuTurns compress hdr startMs readings,
      CpuCarries compress (jobOf hdr startMs) p.1 p.2 hdr'.header.timestamp := by
  unfold runNonceLoop at h
  unfold cpuTurns
  split at h
  case isTrue husable =>
    rw [if_pos husable]
    obtain ⟨p, hp, hdone⟩ := Turn.mem_taken_of_run h
    refine ⟨p, hp, ?_⟩
    rcases cpuTurn_cases compress (jobOf hdr startMs) p.1 p.2 with
      hturn | ⟨hdr₁, work, hmining, hpoll, ⟨_, hturn⟩ | ⟨_, hturn⟩ | ⟨_, hturn⟩⟩
    all_goals
      rw [hturn] at hdone
      cases hdone
    exact ⟨hdr₁, work, hmining, hpoll, .inl rfl⟩
  case isFalse => cases h

/-- So is the timestamp the loop on the GPU ends with, found or not, if it took a turn at all. -/
theorem runNonceLoopGpu_carries {readings : List GpuReadings} {result : GpuResult}
    (h : runNonceLoopGpu compress hdr startMs readings = some result) :
    result.hdr.header.timestamp = hdr.header.timestamp ∨
      ∃ p ∈ gpuTurns compress hdr startMs readings,
        GpuCarries compress (jobOf hdr startMs) p.1 p.2 result.hdr.header.timestamp := by
  unfold runNonceLoopGpu at h
  unfold gpuTurns
  split at h
  case isTrue husable =>
    rw [if_pos husable]
    obtain ⟨p, hp, hdone⟩ := Turn.mem_taken_of_run h
    refine .inr ⟨p, hp, .inl ?_⟩
    rcases gpuTurn_cases compress (jobOf hdr startMs) p.1 p.2 with ⟨_, hturn⟩ | ⟨_, hturn⟩ | hturn
    all_goals
      rw [hturn] at hdone
      cases hdone
    · rfl
    · rfl
  case isFalse =>
    cases h
    exact .inl rfl

/-! ## 4. The timestamps of a search -/

variable (compress)

variable {useGpu : Bool}

/-- The loop on the CPU is entered with the header `cpuHdr`: at once, or after the GPU failed. -/
def EntersCpu (useGpu : Bool) (hdr : CachedHeader) (r : SearchReadings) (cpuHdr : CachedHeader) :
    Prop :=
  if useGpu then ∃ result, runNonceLoopGpu compress hdr r.gpuStartMs r.gpu = some result ∧
    result.found = false ∧ result.useGpu = false ∧ cpuHdr = result.hdr
  else cpuHdr = hdr

/-- The search works with the timestamp `t`: with the one of the template, or with one of a turn. -/
inductive Carries (useGpu : Bool) (hdr : CachedHeader) (r : SearchReadings) : UInt64 → Prop
  | template : Carries useGpu hdr r hdr.header.timestamp
  | gpu {p : GpuState × GpuReadings} {t : UInt64} : useGpu = true →
      p ∈ gpuTurns compress hdr r.gpuStartMs r.gpu →
      GpuCarries compress (jobOf hdr r.gpuStartMs) p.1 p.2 t → Carries useGpu hdr r t
  | cpu {cpuHdr : CachedHeader} {p : CpuState × CpuReadings} {t : UInt64} :
      EntersCpu compress useGpu hdr r cpuHdr → p ∈ cpuTurns compress cpuHdr r.cpuStartMs r.cpu →
      CpuCarries compress (jobOf cpuHdr r.cpuStartMs) p.1 p.2 t → Carries useGpu hdr r t

/-- The clock is in order in every turn of a search. -/
structure ClockOk (chain : ChainState) (useGpu : Bool) (hdr : CachedHeader) (r : SearchReadings) :
    Prop where
  gpu : useGpu = true → ∀ p ∈ gpuTurns compress hdr r.gpuStartMs r.gpu,
    GpuClockOk compress chain (jobOf hdr r.gpuStartMs) p.1 p.2
  cpu : ∀ cpuHdr, EntersCpu compress useGpu hdr r cpuHdr →
    ∀ p ∈ cpuTurns compress cpuHdr r.cpuStartMs r.cpu,
      CpuClockOk compress chain (jobOf cpuHdr r.cpuStartMs) p.1 p.2

variable {compress}

/-- The header the CPU starts with has the time of the template, or one the GPU worked with. -/
theorem EntersCpu.timestamp {cpuHdr : CachedHeader} {r : SearchReadings}
    (h : EntersCpu compress useGpu hdr r cpuHdr) :
    cpuHdr.header.timestamp = hdr.header.timestamp ∨ useGpu = true ∧
      ∃ p ∈ gpuTurns compress hdr r.gpuStartMs r.gpu,
        GpuCarries compress (jobOf hdr r.gpuStartMs) p.1 p.2 cpuHdr.header.timestamp := by
  unfold EntersCpu at h
  split at h
  case isTrue huse =>
    obtain ⟨result, hrun, _, _, rfl⟩ := h
    exact (runNonceLoopGpu_carries hrun).imp_right (.intro huse)
  case isFalse => exact .inl (by rw [h])

theorem acceptable_entersCpu {cpuHdr : CachedHeader} {r : SearchReadings}
    (hstart : Acceptable chain hdr.header.timestamp)
    (hgpu : useGpu = true → ∀ p ∈ gpuTurns compress hdr r.gpuStartMs r.gpu, ∀ t,
      GpuCarries compress (jobOf hdr r.gpuStartMs) p.1 p.2 t → Acceptable chain t)
    (h : EntersCpu compress useGpu hdr r cpuHdr) : Acceptable chain cpuHdr.header.timestamp := by
  rcases h.timestamp with heq | ⟨huse, p, hp, hcarries⟩
  · rw [heq]
    exact hstart
  · exact hgpu huse p hp _ hcarries

/-- **The timestamps of a search are acceptable exactly if its start is and the clock was in order in
every turn.** -/
theorem carries_iff {r : SearchReadings} :
    (∀ t, Carries compress useGpu hdr r t → Acceptable chain t) ↔
      Acceptable chain hdr.header.timestamp ∧ ClockOk compress chain useGpu hdr r := by
  constructor
  · intro h
    have hstart := h _ .template
    have hgpu : useGpu = true → ∀ p ∈ gpuTurns compress hdr r.gpuStartMs r.gpu, ∀ t,
        GpuCarries compress (jobOf hdr r.gpuStartMs) p.1 p.2 t → Acceptable chain t :=
      fun huse p hp t ht => h t (.gpu huse hp ht)
    refine ⟨hstart, fun huse => (gpu_carried_iff hstart).1 (hgpu huse), fun cpuHdr henter => ?_⟩
    exact (cpu_carried_iff (acceptable_entersCpu hstart hgpu henter)).1
      fun p hp t ht => h t (.cpu henter hp ht)
  · intro ⟨hstart, hclock⟩
    have hgpu := fun huse => (gpu_carried_iff hstart).2 (hclock.gpu huse)
    intro t ht
    cases ht with
    | template => exact hstart
    | gpu huse hp ht => exact hgpu huse _ hp t ht
    | cpu hcpu hp ht =>
      exact (cpu_carried_iff (acceptable_entersCpu hstart hgpu hcpu)).2 (hclock.cpu _ hcpu) _ hp t ht

/-- The timestamp of a block that is found is one the search worked with. -/
theorem workerSearch_carries {hdr' : CachedHeader} {r : SearchReadings}
    (h : workerSearch compress useGpu hdr r = some (true, hdr')) :
    Carries compress useGpu hdr r hdr'.header.timestamp := by
  unfold workerSearch at h
  split at h
  case isTrue huse =>
    split at h
    case h_1 => cases h
    case h_2 result hrun =>
      split at h
      case isTrue hfailed =>
        simp only [Bool.and_eq_true, Bool.not_eq_true'] at hfailed
        obtain ⟨p, hp, hcarries⟩ := runNonceLoop_carries h
        refine .cpu ?_ hp hcarries
        rw [EntersCpu, if_pos huse]
        exact ⟨result, hrun, hfailed.1, hfailed.2, rfl⟩
      case isFalse =>
        obtain ⟨_, rfl⟩ := Prod.mk.inj (Option.some.inj h)
        rcases runNonceLoopGpu_carries hrun with heq | ⟨p, hp, hcarries⟩
        · rw [heq]
          exact .template
        · exact .gpu huse hp hcarries
  case isFalse huse =>
    obtain ⟨p, hp, hcarries⟩ := runNonceLoop_carries h
    refine .cpu ?_ hp hcarries
    rw [EntersCpu, if_neg huse]

/-- **Mined timestamps.**  A template is searched from any nonce, on the CPU or on the GPU.  Every
timestamp the search works with is acceptable exactly if there is a time past the median time and the
clock was in order wherever it got into the header; the block that is found then has one of those
timestamps. -/
theorem mined_timestamp_iff (compress : State → List UInt32 → State) (chain : ChainState)
    (mempool : Option Mempool) (coinbaseOutputHash : Bytes32) (nowMillis now : UInt64) (block : Block)
    (hblock : buildBlockTemplate chain mempool coinbaseOutputHash nowMillis now = .ok block)
    (nonceStart : UInt32) (useGpu : Bool) (r : SearchReadings) :
    let hdr := CachedHeader.setNonce { header := block.header, cached := none } nonceStart
    ((∀ t, Carries compress useGpu hdr r t → Acceptable chain t) ↔
      HasFuture chain ∧ ClockOk compress chain useGpu hdr r) ∧
    (HasFuture chain ∧ ClockOk compress chain useGpu hdr r →
      ∀ hdr', workerSearch compress useGpu hdr r = some (true, hdr') →
        Acceptable chain hdr'.header.timestamp) := by
  intro hdr
  have htime : hdr.header.timestamp = templateTime chain now := by
    have hheader := congrArg BlockHeader.timestamp (buildBlockTemplate_header hblock)
    exact hheader
  have hiff : (∀ t, Carries compress useGpu hdr r t → Acceptable chain t) ↔
      HasFuture chain ∧ ClockOk compress chain useGpu hdr r := by
    rw [carries_iff, htime, acceptable_templateTime]
  refine ⟨hiff, fun hok hdr' hrun => ?_⟩
  exact hiff.2 hok _ (workerSearch_carries hrun)

end Compress

/-! ## 5. A clock behind the chain -/

def idleCoinbase (s : ChainState) (coinbaseOutputHash : Bytes32) (nowMillis : UInt64) : Transaction :=
  buildCoinbase (templateHeight s) (templateSubsidy s) coinbaseOutputHash nowMillis

def idleTemplate (s : ChainState) (coinbaseOutputHash : Bytes32) (nowMillis now : UInt64) : Block where
  header := { templateHeader s now with
    merkleRoot := (idleCoinbase s coinbaseOutputHash nowMillis).getHash, leafRoot := FixedBytes.zero }
  transactions := [idleCoinbase s coinbaseOutputHash nowMillis]
  transactions_le := (by decide : 1 ≤ Block.MAX_TRANSACTIONS)

theorem minerFeesAtHeight_zero (height : UInt32) : BlockValidation.minerFeesAtHeight height 0 = 0 := by
  unfold BlockValidation.minerFeesAtHeight
  split <;> rfl

theorem buildBlockTemplate_idle (s : ChainState) (coinbaseOutputHash : Bytes32)
    (nowMillis now : UInt64) (pool : Mempool)
    (hpool : pool.getTransactions Block.MAX_TRANSACTIONS = []) :
    buildBlockTemplate s (some pool) coinbaseOutputHash nowMillis now =
      .ok (idleTemplate s coinbaseOutputHash nowMillis now) := by
  have hfees : templateSubsidy s + BlockValidation.minerFeesAtHeight (templateHeight s) 0 =
      templateSubsidy s := by
    rw [minerFeesAtHeight_zero, UInt64.add_zero]
  have hselect : selectTransactions s (some pool) coinbaseOutputHash nowMillis now =
      .ok { sizeProbe := { emptyTemplate s now with
                           transactions := [idleCoinbase s coinbaseOutputHash nowMillis]
                           transactions_le := (by decide : 1 ≤ Block.MAX_TRANSACTIONS) }
            totalFees := 0, body := [] } := by
    dsimp only [selectTransactions]
    rw [hpool]
    rfl
  unfold buildBlockTemplate
  rw [hselect]
  simp only [bind, Except.bind, hfees]
  rfl

theorem fresh_tip : fresh.1.bestChain.height = 0 ∧ fresh.1.bestChain.blockHash = getGenesisHash := by
  have htip := inv_fresh.2.tip
  rw [htip]
  exact ⟨rfl, buildGenesisBlock_getHash⟩

theorem getTipMedianTimePast_fresh : fresh.1.getTipMedianTimePast = 0 := by
  rw [getTipMedianTimePast, if_pos (by simp [fresh_tip.1])]

/-- The template of a new node, before the first turn of the search. -/
theorem mined_timestamp_fresh :
    buildBlockTemplate fresh.1 (some (Mempool.new Mempool.DEFAULT_MAX_BYTES)) (FixedBytes.ofNat 32 1)
        0 0 = .ok (idleTemplate fresh.1 (FixedBytes.ofNat 32 1) 0 0) ∧
      ∀ t, Carries transform false (CachedHeader.setNonce
          { header := (idleTemplate fresh.1 (FixedBytes.ofNat 32 1) 0 0).header, cached := none } 0)
          { gpuStartMs := 0, gpu := [], cpuStartMs := 0, cpu := [] } t → Acceptable fresh.1 t := by
  have hblock := buildBlockTemplate_idle fresh.1 (FixedBytes.ofNat 32 1) 0 0
    (Mempool.new Mempool.DEFAULT_MAX_BYTES) rfl
  refine ⟨hblock, ?_⟩
  refine (mined_timestamp_iff transform fresh.1 _ _ 0 0 _ hblock 0 false _).1.2 ⟨?_, ?_⟩
  · rw [HasFuture, getTipMedianTimePast_fresh]
    decide
  · refine ⟨fun huse => absurd huse (by decide), fun cpuHdr _ p hp => ?_⟩
    unfold cpuTurns at hp
    split at hp
    · cases hp
    · cases hp

section Behind

variable {compress : State → List UInt32 → State} {job : Job}

/-- The GPU finds nothing in a batch; the clock is one second before the genesis block. -/
def missReading : GpuReadings where
  mining := true
  bestBlockHash := some getGenesisHash
  millis := 1786724367000
  hit := false
  foundNonce := 0
  reason := ""
  secondsAtEnd := 1786724266

/-- The GPU finds a nonce. -/
def hitReading : GpuReadings := { missReading with hit := true, foundNonce := 2306279463 }

/-- The turn of a batch without a hit. -/
def missed (compress : State → List UInt32 → State) (s : GpuState) : GpuState :=
  advance compress s (s.nonceBase + batchCount s.nonceBase) missReading.secondsAtEnd

theorem gpuTurn_miss (htip : job.builtOn = getGenesisHash) (hstart : job.startMs = 1786724367000)
    (s : GpuState) : gpuTurn compress job s missReading = .next (missed compress s) := by
  have hmoved : job.tipMoved missReading.bestBlockHash = false := by
    simp [Job.tipMoved, missReading, htip]
  have hfresh : job.outdated missReading.millis = false := by
    simp [Job.outdated, missReading, hstart, TEMPLATE_REFRESH_MS]
  rw [gpuTurn, hmoved, hfresh]
  rfl

theorem nonceBase_add_batchCount {nonceBase : UInt64} {k : Nat}
    (hbase : nonceBase = UInt64.ofNat (k * 2 ^ 20)) (hk : k ≤ 4095) :
    nonceBase + batchCount nonceBase = UInt64.ofNat ((k + 1) * 2 ^ 20) := by
  have hbatch : BATCH.toNat = 2 ^ 20 := rfl
  have hall : (0x100000000 : UInt64).toNat = 2 ^ 32 := rfl
  have hsum : nonceBase + BATCH = UInt64.ofNat ((k + 1) * 2 ^ 20) := by
    apply UInt64.toNat_inj.1
    rw [UInt64.toNat_add, hbase, hbatch, UInt64.toNat_ofNat', UInt64.toNat_ofNat']
    omega
  unfold batchCount
  rw [if_neg, hsum]
  rw [hsum, gt_iff_lt, UInt64.lt_iff_toNat_lt, hall, UInt64.toNat_ofNat']
  omega

theorem missed_of_lt {s : GpuState} {k : Nat} (hbase : s.nonceBase = UInt64.ofNat (k * 2 ^ 20))
    (hk : k < 4095) : missed compress s = { s with nonceBase := UInt64.ofNat ((k + 1) * 2 ^ 20) } := by
  have hall : (0x100000000 : UInt64).toNat = 2 ^ 32 := rfl
  rw [missed, nonceBase_add_batchCount hbase (by omega), advance, if_neg]
  rw [ge_iff_le, UInt64.le_iff_toNat_le, hall, UInt64.toNat_ofNat']
  omega

theorem missed_last {s : GpuState} (hbase : s.nonceBase = UInt64.ofNat (4095 * 2 ^ 20)) :
    missed compress s =
      { hdr := s.hdr.setTimestamp missReading.secondsAtEnd
        work := buildMiningBlocks compress (s.hdr.setTimestamp missReading.secondsAtEnd).header
        nonceBase := 0 } := by
  rw [missed, nonceBase_add_batchCount hbase le_rfl, advance, if_pos (by decide)]
  rfl

theorem iterate_missed {s : GpuState} (hbase : s.nonceBase = 0) :
    ∀ k < 4096, (missed compress)^[k] s = { s with nonceBase := UInt64.ofNat (k * 2 ^ 20) } := by
  intro k
  induction k with
  | zero =>
    intro _
    have hzero : UInt64.ofNat (0 * 2 ^ 20) = s.nonceBase := hbase.symm
    rw [Function.iterate_zero_apply, hzero]
  | succ k ih =>
    intro hk
    rw [Function.iterate_succ_apply', ih (by omega)]
    exact missed_of_lt rfl (by omega)

theorem iterate_missed_all {s : GpuState} (hbase : s.nonceBase = 0) :
    (missed compress)^[4096] s =
      { hdr := s.hdr.setTimestamp missReading.secondsAtEnd
        work := buildMiningBlocks compress (s.hdr.setTimestamp missReading.secondsAtEnd).header
        nonceBase := 0 } := by
  rw [Function.iterate_succ_apply', iterate_missed hbase 4095 (by omega)]
  exact missed_last rfl

theorem gpuTurn_hit (htip : job.builtOn = getGenesisHash) (hstart : job.startMs = 1786724367000)
    {s : GpuState} (hle : ofBytes32 (hashBytes ((s.work.withNonce hitReading.foundNonce).hashWords
      compress)) ≤ job.target) :
    gpuTurn compress job s hitReading =
      .done { found := true, useGpu := true, hdr := s.hdr.setNonce hitReading.foundNonce } := by
  have hmoved : job.tipMoved hitReading.bestBlockHash = false := by
    simp [Job.tipMoved, hitReading, missReading, htip]
  have hfresh : job.outdated hitReading.millis = false := by
    simp [Job.outdated, hitReading, missReading, hstart, TEMPLATE_REFRESH_MS]
  have hreason : ¬ hitReading.reason ≠ "" := by decide
  have hhit : hitReading.hit = true := rfl
  rw [gpuTurn, hmoved, hfresh, if_neg (by decide), if_neg (by decide), if_neg (by decide),
    if_neg hreason, if_pos hhit]
  exact if_pos hle

/-- **A run that uses up all nonces and then finds one.**  The header that is returned has the time the
clock had in between. -/
theorem runNonceLoopGpu_behind {hdr : CachedHeader} (husable : usable (setCompact hdr.header.bits) = true)
    (htip : hdr.header.prevBlockHash = getGenesisHash) (n : Nat) (hn : n < 4096)
    (hle : ofBytes32 (((hdr.setTimestamp missReading.secondsAtEnd).setNonce
      hitReading.foundNonce).getHash compress) ≤ (setCompact hdr.header.bits).value) :
    runNonceLoopGpu compress hdr 1786724367000
        (List.replicate (n + 4096) missReading ++ [hitReading]) =
      some { found := true, useGpu := true,
             hdr := (hdr.setTimestamp missReading.secondsAtEnd).setNonce hitReading.foundNonce } := by
  have hmiss : ∀ s, gpuTurn compress (jobOf hdr 1786724367000) s missReading = .next (missed compress s) :=
    gpuTurn_miss htip rfl
  rw [runNonceLoopGpu, if_pos husable, Turn.run_replicate hmiss, Function.iterate_add_apply,
    iterate_missed_all rfl, iterate_missed rfl n hn]
  rw [← getHash_setNonce] at hle
  have hhit : gpuTurn compress (jobOf hdr 1786724367000)
      { hdr := hdr.setTimestamp missReading.secondsAtEnd
        work := buildMiningBlocks compress (hdr.setTimestamp missReading.secondsAtEnd).header
        nonceBase := UInt64.ofNat (n * 2 ^ 20) } hitReading =
      .done { found := true, useGpu := true,
              hdr := (hdr.setTimestamp missReading.secondsAtEnd).setNonce hitReading.foundNonce } :=
    gpuTurn_hit htip rfl hle
  dsimp only [gpuStart]
  rw [Turn.run, hhit]

end Behind

/-- The template of a new node whose clock is 100 seconds past the genesis block. -/
def staleTemplate : Block := idleTemplate fresh.1
  (FixedBytes.ofNat 32 0x0101010101010101010101010101010101010101010101010101010101010101)
  1786724367000 1786724367

/-- The header of `staleTemplate` with the time before the genesis block and the nonce that solves it. -/
def staleHeader : BlockHeader where
  version := 1
  prevBlockHash := getGenesisHash
  merkleRoot := FixedBytes.ofNat 32 0xc120c097c43d3aa34851b97d1683452a534ca5ee6fc86fc82a5ba8a446315c49
  leafRoot := FixedBytes.zero
  timestamp := 1786724266
  height := 1
  bits := POW_LIMIT_COMPACT
  nonce := 2306279463

theorem staleHeader_low : ofBytes32 staleHeader.getHash ≤ (setCompact POW_LIMIT_COMPACT).value := by
  rw [BlockHeader.getHash, sha256_eq]
  decide +kernel

def staleStart : BlockHeader := { staleHeader with timestamp := 1786724367, nonce := 0 }

theorem staleTemplate_header : staleTemplate.header = staleStart := by
  have hheight : templateHeight fresh.1 = 1 := by
    rw [templateHeight, fresh_tip.1]
    rfl
  have hroot : (idleCoinbase fresh.1
      (FixedBytes.ofNat 32 0x0101010101010101010101010101010101010101010101010101010101010101)
      1786724367000).getHash = staleHeader.merkleRoot := by
    rw [idleCoinbase, templateSubsidy, hheight, Transaction.getHash, sha256_eq]
    decide +kernel
  have hbits : fresh.1.getNextBits = POW_LIMIT_COMPACT := by
    rw [getNextBits, getExpectedBits, if_pos (.inl fresh_tip.1)]
  have htime : templateTime fresh.1 1786724367 = 1786724367 := by
    rw [templateTime, getTipMedianTimePast_fresh]
    decide
  simp only [staleTemplate, idleTemplate, templateHeader, hroot, hbits, htime, hheight, fresh_tip.2,
    staleStart, staleHeader]

/-- **The clock steps back behind the genesis block while a new node mines.**  No nonce solves the
template, so after the last batch its timestamp is the clock's, and a nonce of the second pass solves
that. -/
theorem clock_behind :
    buildBlockTemplate fresh.1 (some (Mempool.new Mempool.DEFAULT_MAX_BYTES))
        (FixedBytes.ofNat 32 0x0101010101010101010101010101010101010101010101010101010101010101)
        1786724367000 1786724367 = .ok staleTemplate ∧
      (∀ r ∈ List.replicate (2199 + 4096) missReading ++ [hitReading],
        r.bestBlockHash = some fresh.1.bestChain.blockHash) ∧
      runNonceLoopGpu transform { header := staleTemplate.header, cached := none } 1786724367000
          (List.replicate (2199 + 4096) missReading ++ [hitReading]) =
        some { found := true, useGpu := true, hdr := { header := staleHeader, cached := none } } ∧
      staleHeader.timestamp < GENESIS_TIMESTAMP := by
  have hsolved : (CachedHeader.setTimestamp { header := staleStart, cached := none }
      missReading.secondsAtEnd).setNonce hitReading.foundNonce =
        { header := staleHeader, cached := none } := rfl
  have husable : usable (setCompact staleStart.bits) = true := by decide +kernel
  have hrun := @runNonceLoopGpu_behind transform { header := staleStart, cached := none } husable rfl
    2199 (by decide)
  rw [hsolved, getHash_transform] at hrun
  refine ⟨buildBlockTemplate_idle _ _ _ _ _ rfl, ?_, ?_, by decide⟩
  · intro r hr
    rw [fresh_tip.2]
    rcases List.mem_append.1 hr with hr | hr
    · rw [List.eq_of_mem_replicate hr]
      rfl
    · rw [List.mem_singleton.1 hr]
      rfl
  · rw [staleTemplate_header]
    exact hrun staleHeader_low

end Moneu.Miner
