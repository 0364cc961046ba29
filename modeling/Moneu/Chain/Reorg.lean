/-
# The loops of a reorganisation

`ActivateBestChainLocked` takes blocks off the active chain, puts blocks of the new branch on, and when
one of them is refused takes those off again and puts the old ones back.  Each of these loops keeps the
invariant of the node, on the chain it has reached.

Putting the old blocks back can only fail if a coin was lost on the way, which needs a repeated txid: with
distinct txids every block that was connected once connects again.
-/
import Moneu.Chain.Node

namespace Moneu

open NetParams Journal UTXOSet BlockData ChainState

/-! ## 1. Taking blocks off -/

variable {s : ChainState} {b : Block} {p : List Block}

theorem Follows.tip_hash (h : Follows s (b :: p)) :
    s.bestChain.blockHash = b.getHash := by
  rw [h.tip]
  rfl

theorem Follows.tip_height (h : Follows s (b :: p)) :
    s.bestChain.height = p.length := by
  rw [h.tip]
  rfl

/-- **The disconnect loop stops at the fork or at genesis**, and no disconnect fails on the way. -/
theorem Inv.disconnectTo (fork : Fork) : ∀ (fuel : Nat) {s : ChainState} {p : List Block}
    (gone : List Bytes32), Inv s p → p.length ≤ fuel →
      ∃ s' pre q, p = pre ++ q ∧
        ChainState.disconnectTo fork fuel s gone =
          (s', (pre.map Block.getHash).reverse ++ gone, s'.atFork fork) ∧
        Inv s' q ∧ StepFrom s s' ∧ (s'.atFork fork = true ∨ q.length = 1) ∧
        ∀ hash, fork = .block hash → hash ∉ pre.map Block.getHash
  | 0, s, p, gone, h, hle => absurd (pathLength_pos h.path) (by omega)
  | fuel + 1, s, p, gone, h, hle => by
    unfold ChainState.disconnectTo
    by_cases hfork : s.atFork fork = true
    · rw [if_pos hfork]
      exact ⟨s, [], p, rfl, by rw [hfork]; rfl, h, StepFrom.refl s, .inl hfork, by simp⟩
    · rw [if_neg hfork]
      obtain ⟨b, p, rfl⟩ := h.toFollows.cons
      cases p with
      | nil =>
        rw [if_pos (show s.bestChain.height = 0 from h.toFollows.tip_height)]
        refine ⟨s, [], [b], rfl, ?_, h, StepFrom.refl s, .inr rfl, by simp⟩
        rw [Bool.not_eq_true] at hfork
        rw [hfork]
        rfl
      | cons q p =>
        have hpos : ¬ s.bestChain.height = 0 := by
          rw [h.toFollows.tip_height]
          simp
        obtain ⟨s₁, hrun, hinv, hstep⟩ := h.disconnectTip
        obtain ⟨s', pre, q', hsplit, hrest, hinv', hstep', hstop, hnot⟩ :=
          Inv.disconnectTo fork fuel (b.getHash :: gone) hinv (by simpa using hle)
        rw [if_neg hpos]
        simp only [hrun, h.toFollows.tip_hash]
        refine ⟨s', b :: pre, q', by rw [hsplit]; rfl, ?_, hinv', hstep.trans hstep', hstop, ?_⟩
        · rw [hrest]
          simp
        · rintro hash rfl hmem
          rcases List.mem_cons.mp hmem with rfl | hmem
          · exact hfork (decide_eq_true h.toFollows.tip_hash)
          · exact hnot hash rfl hmem

/-- **`RollbackConnectedLocked` takes off as many blocks as were put on.** -/
theorem Inv.rollbackConnected : ∀ (pre : List Block) {s : ChainState} {q : List Block},
    Inv s (pre ++ q) → q ≠ [] →
      Inv (ChainState.rollbackConnected pre.length s) q ∧
        StepFrom s (ChainState.rollbackConnected pre.length s)
  | [], s, q, h, _ => ⟨h, StepFrom.refl s⟩
  | b :: pre, s, q, h, hq => by
    obtain ⟨c, r, hcr⟩ : ∃ c r, pre ++ q = c :: r :=
      List.exists_cons_of_ne_nil (by simp [hq])
    rw [List.cons_append, hcr] at h
    obtain ⟨s₁, hrun, hinv, hstep⟩ := h.disconnectTip
    rw [← hcr] at hinv
    obtain ⟨hinv', hstep'⟩ := Inv.rollbackConnected pre hinv hq
    simp only [List.length_cons, ChainState.rollbackConnected, hrun]
    exact ⟨hinv', hstep.trans hstep'⟩

/-! ## 2. Putting blocks back -/

theorem loadBlock_path (h : IsPath s.blockData (b :: p)) : s.loadBlock b.getHash = some b := by
  obtain ⟨pos, hentry, hread⟩ := h.stored
  rw [loadBlock, hentry]
  exact hread

/-- A block above genesis of a valid chain was connected on top of the ones below it. -/
theorem Valid.connects {q : Block} (h : Valid (b :: q :: p)) :
    Connects (q :: p) b := by
  cases h with
  | cons _ hconn => exact hconn

/-- **The loop of `reconnectOld`** over blocks that were connected before, in chain order. -/
theorem Inv.reconnect : ∀ (up : List Block) {s : ChainState} {q : List Block}, Inv s q →
    IsPath s.blockData (up.reverse ++ q) → Valid (up.reverse ++ q) →
      ∃ s' done ok, ChainState.reconnect noFaults s (up.map Block.getHash) = (s', ok) ∧
        done <+: up ∧ Inv s' (done.reverse ++ q) ∧ StepFrom s s' ∧ (ok = true → done = up) ∧
        (DistinctTxids s.blockData → ok = true)
  | [], s, q, h, _, _ =>
    ⟨s, [], true, rfl, List.prefix_rfl, h, StepFrom.refl s, fun _ => rfl, fun _ => rfl⟩
  | b :: up, s, q, h, hpath, hvalid => by
    have hsplit : (b :: up).reverse ++ q = up.reverse ++ (b :: q) := by simp
    rw [hsplit] at hpath hvalid
    obtain ⟨c, r, rfl⟩ := h.toFollows.cons
    have hpath₁ : IsPath s.blockData (b :: c :: r) :=
      isPath_of_suffix hpath (List.suffix_append _ _) (by simp)
    have hconn := (hvalid.suffix (List.suffix_append _ _) (by simp)).connects
    simp only [List.map_cons, ChainState.reconnect, loadBlock_path hpath₁, noFaults]
    rcases h.connectBlock (fun _ => hpath₁) (fun _ => hconn.accepted) with
      ⟨s₁, hrun, hinv, hstep⟩ | ⟨s₁, hrun, hinv, hrefused, hnot⟩
    · obtain ⟨s', done, ok, hrest, hdone, hinv', hstep', hok, hdistinct⟩ :=
        Inv.reconnect up hinv (hpath.mono hstep.keeps) hvalid
      simp only [hrun]
      refine ⟨s', b :: done, ok, hrest, List.cons_prefix_cons.mpr ⟨rfl, hdone⟩, ?_,
        hstep.trans hstep', fun h => by rw [hok h], fun h => hdistinct (hstep.distinct h)⟩
      rw [List.reverse_cons, List.append_assoc]
      exact hinv'
    · simp only [hrun]
      refine ⟨s₁, [], false, rfl, List.nil_prefix, hinv, hrefused.stepFrom, by simp,
        fun hdistinct => absurd ⟨hconn.header s h.toFollows, ?_⟩ hnot⟩
      obtain ⟨spents, happ⟩ := hconn.applies
      exact ⟨spents, (h.exact hdistinct).of_eq ▸ happ⟩

/-- The mempool queues are the same. -/
structure SameQueues (s s' : ChainState) : Prop where
  connected : s'.syncConnected = s.syncConnected
  disconnected : s'.syncDisconnected = s.syncDisconnected
  bytes : s'.syncDisconnectedBytes = s.syncDisconnectedBytes

/-- **`restoreOld`** goes back up the chain the attempt started from; with distinct txids to its tip,
and then it puts the queues back. -/
theorem Inv.restoreOld {start : ChainState} {pre q : List Block} (h : Inv s q)
    (hstart : Inv start (pre ++ q)) (hkeeps : Keeps start.blockData s.blockData) :
    ∃ p', p' <:+ pre ++ q ∧
      Inv (ChainState.restoreOld noFaults start s (pre.map Block.getHash).reverse) p' ∧
      StepFrom s (ChainState.restoreOld noFaults start s (pre.map Block.getHash).reverse) ∧
      (DistinctTxids s.blockData → p' = pre ++ q ∧
        SameQueues start (ChainState.restoreOld noFaults start s (pre.map Block.getHash).reverse)) := by
  have hup : (pre.map Block.getHash).reverse = pre.reverse.map Block.getHash := by simp
  obtain ⟨s', done, ok, hrun, hdone, hinv, hstep, hok, hdistinct⟩ := h.reconnect pre.reverse
    (by rw [List.reverse_reverse]; exact hstart.path.mono hkeeps)
    (by rw [List.reverse_reverse]; exact hstart.valid)
  rw [hup]
  unfold ChainState.restoreOld
  rw [hrun]
  have hsuffix : done.reverse ++ q <:+ pre ++ q := by
    obtain ⟨left, hleft⟩ := hdone
    have hpre : pre = left.reverse ++ done.reverse := by
      rw [← List.reverse_append, hleft, List.reverse_reverse]
    exact ⟨left.reverse, by rw [hpre, List.append_assoc]⟩
  cases ok with
  | false => exact ⟨_, hsuffix, hinv, hstep, fun h => absurd (hdistinct h) (by simp)⟩
  | true =>
    rw [hok rfl, List.reverse_reverse] at hinv
    have htip : s'.bestChain.blockHash = start.bestChain.blockHash := by
      rw [hinv.tip, hstart.tip]
    simp only [htip, ↓reduceIte]
    exact ⟨pre ++ q, List.suffix_rfl, hinv.congr rfl rfl rfl rfl rfl rfl,
      hstep.trans ⟨keeps_of_db_eq rfl, keeps_of_db_eq rfl, Iff.rfl, rfl⟩,
      fun _ => ⟨rfl, rfl, rfl, rfl⟩⟩

/-! ## 3. The new branch -/

def ChainState.mark (s : ChainState) (hashes : List Bytes32) : ChainState :=
  { s with invalidBlocks := hashes.foldl (fun bad h => insert h bad) s.invalidBlocks }

theorem Inv.mark (h : Inv s p) (hashes : List Bytes32) :
    Inv (s.mark hashes) p := h.congr rfl rfl rfl rfl rfl rfl

theorem StepFrom.mark {s' : ChainState} (h : StepFrom s s') (hashes : List Bytes32) :
    StepFrom (s.mark hashes) (s'.mark hashes) :=
  ⟨h.keeps, h.back, h.table, by rw [ChainState.mark, ChainState.mark, h.invalid]⟩

theorem Inv.path_of_loadBlock {hash : Bytes32} (h : Inv s p) (hload : s.loadBlock hash = some b)
    (hhdr : s.headerExtendsTip b.header = true) :
    IsPath s.blockData (b :: p) := by
  obtain ⟨q, p, rfl⟩ := h.toFollows.cons
  obtain ⟨hheight, hprev⟩ := headerExtendsTip_link h.toFollows hhdr
  unfold loadBlock at hload
  split at hload
  · cases hload
  · rename_i e he
    refine h.store.path_cons h.path he hload hprev ?_
    rintro rfl
    have hzero : buildGenesisBlock.header.height.toNat = 0 := rfl
    rw [hzero] at hheight
    simp at hheight

theorem BlockData.StoreInv.hash_of_loadBlock {hash : Bytes32} (h : StoreInv s.blockData)
    (hload : s.loadBlock hash = some b) : b.getHash = hash := by
  unfold loadBlock at hload
  split at hload
  · cases hload
  · rename_i e he
    exact (h.rooted he hload).1

section Branch

variable [Ed25519]

/-- The node `s` on the chain `p` has a reason to refuse the block: the transactions, the header or
the application. -/
def Refuses (s : ChainState) (p : List Block) (b : Block) : Prop :=
  ¬ (BlockValidation.checkBlockTransactionsWithUTXO b s.utxoSet (UInt32.ofNat p.length) = .ok () ∧
    s.headerExtendsTip b.header = true ∧
    ∃ spents, s.utxoSet.view.BlockApplies (UInt32.ofNat p.length) b spents)

/-- The block was accepted next to the chain `p`. -/
def AcceptedOn (p : List Block) (b : Block) : Prop :=
  ∃ coinbase rest spents, b.Shape coinbase rest ∧
    BlockAccepted (viewOf p).coins (UInt32.ofNat p.length) coinbase rest spents

/-- **A block that passes `CheckBlockTransactionsWithUTXO` next to the node is accepted next to its
chain**, whose fold has every coin the node has. -/
theorem Inv.acceptedOn (h : Inv s p) (hchecked : b.Checked)
    (hok : BlockValidation.checkBlockTransactionsWithUTXO b s.utxoSet (UInt32.ofNat p.length) = .ok ()) :
    AcceptedOn p b := by
  obtain ⟨coinbase, rest, hshape, -⟩ := hchecked.shape
  obtain ⟨spents, hacc, -⟩ := BlockValidation.checkBlockTransactionsWithUTXO_ok hshape.transactions
    hshape.rest hok
  exact ⟨coinbase, rest, spents, hshape, hacc.mono h.below.coins⟩

/-- How one turn over the new branch ends: the block is connected, or refused with the chain as it
was.  Validation is skipped only for a block that was validated before. -/
theorem Inv.connectBranchBlock (h : Inv s p) (skipValidation : Bool) (hash : Bytes32) :
    (∃ s' b, s.connectBranchBlock noFaults skipValidation hash = (s', .connected) ∧
      s.loadBlock hash = some b ∧ b.getHash = hash ∧
      ((skipValidation = true → AcceptedOn p b) → Inv s' (b :: p) ∧ StepFrom s s')) ∨
    (∃ s' invalid, s.connectBranchBlock noFaults skipValidation hash = (s', .refused invalid) ∧
      Inv s' p ∧ StepFrom s s' ∧
      (invalid = true → ∃ b, s.loadBlock hash = some b ∧ Refuses s p b) ∧
      (invalid = false → s.loadBlock hash = none ∨ ∃ b what, s.loadBlock hash = some b ∧
        BlockValidation.checkBlockTransactionsWithUTXO b s.utxoSet (UInt32.ofNat p.length) =
          .error (.threw what))) := by
  unfold ChainState.connectBranchBlock
  cases hload : s.loadBlock hash with
  | none => exact .inr ⟨s, false, rfl, h, StepFrom.refl s, by simp, fun _ => .inl rfl⟩
  | some b =>
    simp only [h.toFollows.height_succ, noFaults]
    split
    · rename_i result reason hverdict
      refine .inr ⟨s, true, rfl, h, StepFrom.refl s, fun _ => ⟨b, rfl, fun hok => ?_⟩, by simp⟩
      split at hverdict
      · cases hverdict
      · rw [hok.1] at hverdict
        cases hverdict
    · rename_i what hverdict
      refine .inr ⟨s, false, rfl, h, StepFrom.refl s, by simp, fun _ => .inr ⟨b, what, rfl, ?_⟩⟩
      split at hverdict
      · cases hverdict
      · exact hverdict
    · rename_i hverdict
      rcases h.connectBlock_cases (fun hhdr => h.path_of_loadBlock hload hhdr) with
        ⟨spents, u, hhdr, happ, hshow, hrun⟩ | ⟨s', hrun, hinv, hrefused, hnot⟩
      · refine .inl ⟨s.connected b u ⟨spents.map TxUndo.mk⟩, b, by rw [hrun], rfl,
          h.store.hash_of_loadBlock hload, fun hskip => ?_⟩
        have hpath := h.path_of_loadBlock hload hhdr
        obtain ⟨q, p, rfl⟩ := h.toFollows.cons
        have hacc : AcceptedOn (q :: p) b := by
          by_cases hsk : skipValidation = true
          · exact hskip hsk
          · rw [if_neg hsk] at hverdict
            exact h.acceptedOn (IsPath.checked hpath) hverdict
        exact h.connected hpath ⟨extendsPath_of_follows h.toFollows hhdr,
          (headerExtendsTip_link h.toFollows hhdr).1, hacc, spents, happ.mono h.below⟩ happ hshow
      · refine .inr ⟨s', true, by rw [hrun], hinv, hrefused.stepFrom,
          fun _ => ⟨b, rfl, fun hok => hnot hok.2⟩, by simp⟩

/-- Why the connect loop stopped at the block `bad` with `rest` still to come, and what it marked: the
block was refused, or there was no verdict on it. -/
def StoppedAt (s : ChainState) (p : List Block) (bad : Bytes32) (rest marked : List Bytes32) : Prop :=
  (marked = bad :: rest ∧ ∃ b, s.loadBlock bad = some b ∧ Refuses s p b) ∨
    (marked = [] ∧ (s.loadBlock bad = none ∨ ∃ b what, s.loadBlock bad = some b ∧
      BlockValidation.checkBlockTransactionsWithUTXO b s.utxoSet (UInt32.ofNat p.length) =
        .error (.threw what)))

/-- **The loop over the new branch** puts on the blocks in order, up to the end or to the first one
that is not connected. -/
theorem Inv.connectBranch (skipValidation : Bool) : ∀ (hashes : List Bytes32) {s : ChainState}
    {p : List Block} (n : Nat), Inv s p → (skipValidation = true → hashes.length ≤ 1) →
      (∃ s', ∃ up : List Block, ChainState.connectBranch noFaults skipValidation s hashes n =
          (s', n + up.length, true) ∧ up.map Block.getHash = hashes ∧
        ((skipValidation = true → ∀ hash ∈ hashes, ∀ b, s.loadBlock hash = some b →
          AcceptedOn p b) → Inv s' (up.reverse ++ p) ∧ StepFrom s s')) ∨
      (∃ s₁ s', ∃ up : List Block, ∃ bad rest marked,
        ChainState.connectBranch noFaults skipValidation s hashes n =
          (ChainState.mark s' marked, n + up.length, false) ∧ hashes = up.map Block.getHash ++ bad :: rest ∧
        Inv s₁ (up.reverse ++ p) ∧ StepFrom s s₁ ∧ Inv s' (up.reverse ++ p) ∧ StepFrom s s' ∧
        StoppedAt s₁ (up.reverse ++ p) bad rest marked)
  | [], s, p, n, h, _ => .inl ⟨s, [], rfl, rfl, fun _ => ⟨h, StepFrom.refl s⟩⟩
  | hash :: rest, s, p, n, h, hlen => by
    unfold ChainState.connectBranch
    rcases h.connectBranchBlock skipValidation hash with
      ⟨s₁, b, hrun, hload, hhash, hinv⟩ | ⟨s₁, invalid, hrun, hinv, hstep, hbad, hnone⟩
    · simp only [hrun]
      by_cases hskip : skipValidation = true
      · -- a block that was validated before is the only one
        have hrest : rest = [] := by
          have hle := hlen hskip
          rw [List.length_cons] at hle
          exact List.length_eq_zero_iff.mp (by omega)
        subst hrest
        exact .inl ⟨s₁, [b], rfl, by simp [hhash], fun hacc => hinv fun h =>
          hacc h hash (List.mem_cons_self ..) b hload⟩
      · obtain ⟨hinv, hstep⟩ := hinv fun h => absurd h hskip
        have hup : ∀ up : List Block, (b :: up).reverse ++ p = up.reverse ++ b :: p := by simp
        rcases Inv.connectBranch skipValidation rest (n + 1) hinv (fun h => absurd h hskip) with
          ⟨s', up, hrest, hmap, hend⟩ |
          ⟨s₂, s', up, bad, rest', marked, hrest, hmap, hinv₂, hstep₂, hinv', hstep', hstop⟩
        · refine .inl ⟨s', b :: up, ?_, by simp [hhash, hmap], fun _ => ?_⟩
          · rw [hrest, List.length_cons, Nat.add_assoc, Nat.add_comm 1]
          · obtain ⟨hend, hstep'⟩ := hend fun h => absurd h hskip
            exact ⟨(hup up).symm ▸ hend, hstep.trans hstep'⟩
        · refine .inr ⟨s₂, s', b :: up, bad, rest', marked, ?_, by simp [hhash, hmap], ?_⟩
          · rw [hrest, List.length_cons, Nat.add_assoc, Nat.add_comm 1]
          · rw [hup]
            exact ⟨hinv₂, hstep.trans hstep₂, hinv', hstep.trans hstep', hstop⟩
    · cases invalid with
      | true =>
        simp only [hrun]
        exact .inr ⟨s, s₁, [], hash, rest, hash :: rest, rfl, rfl, h, StepFrom.refl s, hinv, hstep,
          .inl ⟨rfl, hbad rfl⟩⟩
      | false =>
        simp only [hrun]
        exact .inr ⟨s, s₁, [], hash, rest, [], rfl, rfl, h, StepFrom.refl s, hinv, hstep,
          .inr ⟨rfl, hnone rfl⟩⟩

end Branch

end Moneu
