/-
# The steps `AcceptBlock` is made of

Whatever `AcceptBlock` does to a chain state, it does by storing the new block, by taking the tip
off, by connecting blocks read back from disk, and by bookkeeping in memory.  A property that each
of these steps keeps is kept by the whole call, and so by every run (`StepClosed`).
-/
import Moneu.Storage.AnyBlock

namespace Moneu.ChainState

/-! ## 1. One call -/

/-- A property of chain states that every step of `AcceptBlock` keeps. -/
structure StepClosed (P : ChainState → Prop) : Prop where
  disconnect : ∀ s, P s → P s.disconnectTip.1
  connect : ∀ s hash block, P s → s.loadBlock hash = some block → P (s.connectBlock block none).1
  invalid : ∀ s bad, P s → P { s with invalidBlocks := bad }
  queues : ∀ s conn disc bytes, P s →
    P { s with syncConnected := conn, syncDisconnected := disc, syncDisconnectedBytes := bytes }
  store : ∀ s block height chainWork extendsTip, P s →
    P (s.storeBlock block height chainWork extendsTip)

namespace StepClosed

variable {P : ChainState → Prop}

theorem disconnectTo (h : StepClosed P) (fork : Fork) : ∀ (fuel : Nat) (s : ChainState)
    (disconnected : List Bytes32), P s → P (ChainState.disconnectTo fork fuel s disconnected).1
  | 0, s, disconnected, hs => hs
  | fuel + 1, s, disconnected, hs => by
    have hd := h.disconnect s hs
    unfold ChainState.disconnectTo
    split
    · exact hs
    · split
      · exact hs
      · dsimp only
        split
        · rename_i s' hdisc
          rw [hdisc] at hd
          exact hd
        · rename_i s' hdisc
          rw [hdisc] at hd
          exact h.disconnectTo fork fuel s' _ hd

theorem rollbackConnected (h : StepClosed P) : ∀ (n : Nat) (s : ChainState), P s →
    P (ChainState.rollbackConnected n s)
  | 0, s, hs => hs
  | n + 1, s, hs => by
    have hd := h.disconnect s hs
    unfold ChainState.rollbackConnected
    split
    · rename_i s' hdisc
      rw [hdisc] at hd
      exact hd
    · rename_i s' hdisc
      rw [hdisc] at hd
      exact h.rollbackConnected n s' hd

theorem reconnect (h : StepClosed P) : ∀ (hashes : List Bytes32) (s : ChainState), P s →
    P (ChainState.reconnect noFaults s hashes).1
  | [], s, hs => hs
  | hash :: rest, s, hs => by
    unfold ChainState.reconnect
    split
    · exact hs
    · rename_i block hload
      have hc := h.connect s hash block hs hload
      rw [noFaults]
      split
      · rename_i s' hconn
        rw [hconn] at hc
        exact h.reconnect rest s' hc
      · rename_i s' r hr hconn
        rw [hconn] at hc
        exact hc

theorem restoreOld (h : StepClosed P) (start s : ChainState) (disconnected : List Bytes32)
    (hs : P s) : P (ChainState.restoreOld noFaults start s disconnected) := by
  have hr := h.reconnect disconnected s hs
  unfold ChainState.restoreOld
  split
  · rename_i s' hrun
    rw [hrun] at hr
    split
    · exact h.queues s' _ _ _ hr
    · exact hr
  · rename_i s' hrun
    rw [hrun] at hr
    exact hr

variable [Ed25519]

theorem connectBranchBlock (h : StepClosed P) (skipValidation : Bool) (s : ChainState)
    (hash : Bytes32) (hs : P s) :
    P (ChainState.connectBranchBlock noFaults skipValidation s hash).1 := by
  unfold ChainState.connectBranchBlock
  split
  · exact hs
  · rename_i block hload
    have hc := h.connect s hash block hs hload
    dsimp only
    split
    · exact hs
    · exact hs
    · rw [noFaults]
      split <;> rename_i hconn <;> rw [hconn] at hc <;> exact hc

theorem connectBranch (h : StepClosed P) (skipValidation : Bool) :
    ∀ (hashes : List Bytes32) (s : ChainState) (n : Nat), P s →
      P (ChainState.connectBranch noFaults skipValidation s hashes n).1
  | [], s, n, hs => hs
  | hash :: rest, s, n, hs => by
    have hc := h.connectBranchBlock skipValidation s hash hs
    unfold ChainState.connectBranch
    split <;> rename_i hstep <;> rw [hstep] at hc
    · exact h.connectBranch skipValidation rest _ _ hc
    · exact h.invalid _ _ hc
    · exact hc

theorem activateBestChain (h : StepClosed P) (s : ChainState) (newTipHash : Bytes32)
    (tipValidated : Bool) (hs : P s) : P (s.activateBestChain noFaults newTipHash tipValidated).1 := by
  unfold ChainState.activateBestChain
  split
  · exact hs
  · exact hs
  · rename_i newBranch fork _
    have hd := h.disconnectTo fork (s.bestChain.height + 1) s [] hs
    split
    · rename_i s' disconnected hdisc
      rw [hdisc] at hd
      exact h.restoreOld s s' disconnected hd
    · rename_i s' disconnected hdisc
      rw [hdisc] at hd
      have hc := h.connectBranch (tipValidated && disconnected.isEmpty && newBranch.length = 1)
        newBranch.reverse s' 0 hd
      dsimp only
      split <;> rename_i hconn <;> rw [hconn] at hc
      · exact hc
      · exact h.restoreOld s _ disconnected (h.rollbackConnected _ _ hc)

theorem storeAndActivate (h : StepClosed P) (s : ChainState) (block : Block) (height : Nat)
    (parentWork : Bytes32) (extendsTip : Bool) (hs : P s) :
    P (s.storeAndActivate noFaults block height parentWork extendsTip).1 := by
  have hstored := h.store s block height (addChainWork parentWork block.header.bits) extendsTip hs
  unfold ChainState.storeAndActivate
  dsimp only
  split
  · exact hstored
  · exact h.activateBestChain _ _ _ hstored

/-- **A property kept by every step is kept by `AcceptBlock`.** -/
theorem acceptBlock (h : StepClosed P) (s : ChainState) (now : UInt64) (block : Block) (hs : P s) :
    P (s.acceptBlock noFaults now block).1 := by
  unfold ChainState.acceptBlock
  split
  · exact hs
  · split
    · exact hs
    · split
      · exact hs
      · split
        · exact hs
        · rename_i parent _
          unfold ChainState.checkAndStore
          dsimp only
          split
          · exact hs
          · split
            · exact hs
            · split
              · exact h.invalid s _ hs
              · split
                · exact hs
                · split
                  · exact hs
                  · exact hs
                  · split
                    · exact hs
                    · exact hs
                    · split
                      · exact h.invalid s _ hs
                      · split
                        · exact h.invalid s _ hs
                        · exact hs
                        · exact h.storeAndActivate s block _ _ _ hs

end StepClosed

/-! ## 2. Connecting without a storage failure -/

/-- The chain state after `WriteBlockConnected`, when nothing fails any more. -/
def committed (s : ChainState) (block : Block) (chainWork : Bytes32) : ChainState :=
  let newHeight := s.bestChain.height + 1
  let s := s.moveTip block newHeight chainWork
  let s := s.writeChain { s.chainDB with best := some s.bestChain }
  let s := s.setUTXO ((s.utxoSet.setBestBlock block.getHash).flush none).1
  let s :=
    if newHeight = 1 then s.writeChain { s.chainDB with genesis := some block.header.prevBlockHash }
    else s
  s.queueConnected block

theorem commitTip_none (s : ChainState) (block : Block) (chainWork : Bytes32) :
    s.commitTip block chainWork none = (s.committed block chainWork, .ret true) := by
  have hret : ∀ u : UTXOSet, (u.flush none).2 = .ret true := fun u =>
    (UTXOSet.flushCache_none u u.bestBlock).1
  unfold commitTip
  simp only [reduceCtorEq, if_false]
  split
  · rename_i u what hflush
    have hthrew := congrArg Prod.snd hflush
    rw [hret] at hthrew
    cases hthrew
  · rename_i u b hflush
    simp only [committed, hflush]

/-- The chain state after connecting `block`, whose application left `u` and `undo`. -/
def connected (s : ChainState) (block : Block) (u : UTXOSet) (undo : BlockUndo) : ChainState :=
  let chainWork := addChainWork s.bestChain.chainWork block.header.bits
  let s := s.setUTXO u
  (s.setBlockData (s.blockData.writeBlockConnected block (s.bestChain.height + 1) chainWork
    undo)).committed block chainWork

/-- **`ConnectBlockLocked` without a storage failure.** -/
theorem connectBlock_none (s : ChainState) (block : Block) :
    s.connectBlock block none =
      if s.headerExtendsTip block.header = false then (s, .ret false)
      else
        match s.utxoSet.applyBlockTwoPhase block (UInt32.ofNat (s.bestChain.height + 1)) with
        | (u, .error (.refused _)) => (s.setUTXO u, .ret false)
        | (u, .error (.threw what)) => (s.setUTXO u, .threw what)
        | (u, .ok undo) => (s.connected block u undo, .ret true) := by
  unfold connectBlock
  simp only [Bool.not_eq_true']
  split
  · rfl
  · rcases s.utxoSet.applyBlockTwoPhase block (UInt32.ofNat (s.bestChain.height + 1)) with
      ⟨u, (_ | _) | undo⟩
    · rfl
    · rfl
    · exact commitTip_none _ block _

end Moneu.ChainState
