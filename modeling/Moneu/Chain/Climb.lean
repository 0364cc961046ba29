/-
# Following a chain that is written down

A chain of blocks with nothing but a coinbase is written down as a list of rungs: what each header does
not take from the block below, and the hash it has.  `climbCheck` computes once, rung by rung, that the
blocks hash to what is written and pass every check; then a node on the block below accepts them one after
the other (`Knows.climb`), and its UTXO set shows the fold of the chain.  No state of the node is computed
on the way.
-/
import Moneu.Chain.Solo

namespace Moneu

open NetParams Journal UTXOSet BlockData ChainState

/-! ## 1. The blocks of a list of rungs -/

/-- What is written down of a block. -/
structure Rung where
  tx : Transaction
  root : Bytes32
  timestamp : UInt64
  nonce : UInt32
  hash : Bytes32

def Rung.block (prev : Bytes32) (height : Nat) (r : Rung) : Block :=
  solo prev r.root r.tx r.timestamp (UInt32.ofNat height) r.nonce

def climb : Bytes32 → Nat → List Rung → List Block
  | _, _, [] => []
  | prev, height, r :: rungs => r.block prev height :: climb r.hash (height + 1) rungs

/-- The checks of a rung whose block comes next to blocks with the hashes `hashes`, at the height
`height` and after the time `past`. -/
def Rung.check (now : UInt64) (hashes : List Bytes32) (prev : Bytes32) (past : UInt64) (height : Nat)
    (r : Rung) : Bool :=
  sampleCheck (r.block prev height) r.tx r.hash r.root && r.tx.isCoinbase &&
    (r.block prev height).getSerializedSize ≤ MAX_BLOCK_SIZE && r.hash ∉ hashes &&
    r.hash ∉ MAINNET_CHECKPOINTS.map Prod.snd && r.timestamp ≤ now + 7200 && past < r.timestamp &&
    (BlockValidation.checkCoinbaseValue r.tx (UInt32.ofNat height) 0).isOk

def climbCheck (now : UInt64) : List Bytes32 → Bytes32 → UInt64 → Nat → List Rung → Bool
  | _, _, _, _, [] => true
  | hashes, prev, past, height, r :: rungs =>
    r.check now hashes prev past height &&
      climbCheck now (r.hash :: hashes) r.hash r.timestamp (height + 1) rungs

/-- What the check of a rung says of its block. -/
structure Rung.Fits (now : UInt64) (hashes : List Bytes32) (prev : Bytes32) (past : UInt64) (height : Nat)
    (r : Rung) : Prop where
  solo : Solo (r.block prev height) r.tx
  getHash : (r.block prev height).getHash = r.hash
  reads : (Block.deserialize (r.block prev height).serialize).toOption.isSome = true
  new : r.hash ∉ hashes
  point : r.hash ∉ MAINNET_CHECKPOINTS.map Prod.snd
  now : r.timestamp ≤ now + 7200
  later : past < r.timestamp
  reward : BlockValidation.checkCoinbaseValue r.tx (UInt32.ofNat height) 0 = .ok ()

theorem Rung.fits_of_check {now : UInt64} {hashes : List Bytes32} {prev : Bytes32} {past : UInt64}
    {height : Nat} {r : Rung} (h : r.check now hashes prev past height = true) :
    r.Fits now hashes prev past height := by
  simp only [Rung.check, Bool.and_eq_true, decide_eq_true_eq] at h
  obtain ⟨⟨⟨⟨⟨⟨⟨hsample, hcb⟩, hsize⟩, hnew⟩, hpoint⟩, hnow⟩, hlater⟩, hreward⟩ := h
  have hsample := sample_of_check hsample
  refine
    { solo :=
        { transactions := rfl
          coinbase := hcb
          version := by simp [Rung.block, Moneu.solo]
          time := hsample.checks.2.1
          root := hsample.txid
          root_ne := hsample.checks.1
          leafRoot := rfl
          bits := rfl
          work := hsample.getHash ▸ hsample.checks.2.2
          size := hsize
          value := hsample.value }
      getHash := hsample.getHash
      reads := hsample.reads
      new := hnew
      point := hpoint
      now := hnow
      later := hlater
      reward := ?_ }
  cases hval : BlockValidation.checkCoinbaseValue r.tx (UInt32.ofNat height) 0 with
  | ok _ => rfl
  | error _ =>
    rw [hval] at hreward
    cases hreward

/-! ## 2. A node follows them -/

section Climb

variable [Ed25519]

def ChainState.acceptAll (s : ChainState) (now : UInt64) (blocks : List Block) : ChainState :=
  blocks.foldl (fun s b => (s.acceptBlock noFaults now b).1) s

variable {s : ChainState} {q : Block} {p known : List Block}

/-- **A node on the block below accepts the block of a rung.** -/
theorem Knows.rung (h : Knows s q p known) {now : UInt64} {r : Rung}
    (hr : r.Fits now (known.map Block.getHash) q.getHash q.header.timestamp (p.length + 1))
    (hlow : p.length + 1 < DIFFICULTY_ADJUSTMENT_INTERVAL) :
    Knows (s.acceptBlock noFaults now (r.block q.getHash (p.length + 1))).1
        (r.block q.getHash (p.length + 1)) (q :: p) (r.block q.getHash (p.length + 1) :: known) ∧
      ∃ s₁, OnTip s (q :: p) (r.block q.getHash (p.length + 1)) s₁
        (s.acceptBlock noFaults now (r.block q.getHash (p.length + 1))).1 := by
  have hheight : (UInt32.ofNat (p.length + 1)).toNat = q.header.height.toNat + 1 := by
    rw [h.tip_work.1]
    refine UInt32.toNat_ofNat_of_lt' ?_
    rw [DIFFICULTY_ADJUSTMENT_INTERVAL] at hlow
    simp only [UInt32.size]
    omega
  have hnext : Next known q (r.block q.getHash (p.length + 1)) r.tx now :=
    { hr.solo with
      parent := h.tip_known
      prev := rfl
      height := hheight
      new := hr.getHash ▸ hr.new
      point := hr.getHash ▸ hr.point
      now := hr.now }
  exact (h.extend hnext hlow hr.later hr.reward hr.reads).2

theorem ChainState.acceptAll_cons (s : ChainState) (now : UInt64) (b : Block) (blocks : List Block) :
    s.acceptAll now (b :: blocks) = (s.acceptBlock noFaults now b).1.acceptAll now blocks := rfl

/-- The node `s` is on the chain `p`, knows the blocks `known`, and its UTXO set shows the fold. -/
structure Stands (s : ChainState) (p known : List Block) : Prop where
  knows : ∃ q below, p = q :: below ∧ Knows s q below known
  view : s.utxoSet.view = viewOf p

/-- **A node on the block below accepts all of them**, and its UTXO set shows the fold of the chain. -/
theorem Knows.climb {now : UInt64} {rungs : List Rung} (h : Knows s q p known)
    (hview : s.utxoSet.view = viewOf (q :: p))
    (hlow : p.length + rungs.length < DIFFICULTY_ADJUSTMENT_INTERVAL)
    (hcheck : climbCheck now (known.map Block.getHash) q.getHash q.header.timestamp (p.length + 1) rungs =
      true) {blocks : List Block} (hblocks : blocks = Moneu.climb q.getHash (p.length + 1) rungs) :
    Stands (s.acceptAll now blocks) (blocks.reverse ++ q :: p) (blocks.reverse ++ known) := by
  induction rungs generalizing s q p known blocks with
  | nil =>
    subst hblocks
    exact ⟨⟨q, p, rfl, h⟩, hview⟩
  | cons r rungs ih =>
    rw [List.length_cons] at hlow
    rw [climbCheck, Bool.and_eq_true] at hcheck
    have hr := Rung.fits_of_check hcheck.1
    obtain ⟨hknows, s₁, hon⟩ := h.rung hr (by omega)
    have hview' := hon.view h.atTip.rep
    rw [hview] at hview'
    have hrest := hcheck.2
    have hhash := hr.getHash
    rw [Moneu.climb] at hblocks
    rw [hblocks, ChainState.acceptAll_cons, List.reverse_cons, List.append_assoc, List.append_assoc]
    generalize hb : r.block q.getHash (p.length + 1) = b at *
    rw [← hhash] at hrest ⊢
    have htime : b.header.timestamp = r.timestamp := by
      rw [← hb]
      rfl
    rw [← htime] at hrest
    exact ih hknows hview' (by rw [List.length_cons]; omega) hrest rfl

end Climb

/-! ## 3. What the chain holds -/

section Holds

variable {now : UInt64} {hashes : List Bytes32} {prev : Bytes32} {past : UInt64} {height : Nat}
  {rungs : List Rung} {s : ChainState} {p known : List Block}

theorem Stands.getCoin_eq (h : Stands s p known) : s.utxoSet.getCoin = (viewOf p).coins :=
  congrArg View.coins h.view

theorem Stands.isNoiseLeafSpent_eq (h : Stands s p known) : s.utxoSet.isNoiseLeafSpent = (viewOf p).leaf :=
  congrArg View.leaf h.view

end Holds

end Moneu
