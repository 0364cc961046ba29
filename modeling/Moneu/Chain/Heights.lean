/-
# Lookups by height

The height table is a shortcut: the same hashes are in the block index, from the tip down along `hashPrev`.
`Initialize` builds the table from the index, `ConnectBlockLocked` pushes and `DisconnectTipLocked` pops, each
of them only if the length fits, and empties it otherwise.  The readers look at a table whose length is the height
of the tip and one, and walk the index otherwise.

`HashChain` is kept by all of that (`Reached.hashChain`), so `GetBlockHashByHeightLocked` ALWAYS finds the
ancestor.  `GetBlockHashesAfter` does not need the table either, but for the largest height there is its loop over
the table does not end where the walk ends (`heights_agree_iff`).
-/
import Moneu.Chain.Locator
import Moneu.Chain.RoundTrip

namespace Moneu

open NetParams BlockData ChainState

/-! ## 1. The index below a tip -/

variable {s : ChainState} {hashes : List Bytes32}

/-- The hashes from genesis to the tip `tip`, by height, as the index has them. -/
structure Readable (bd : BlockData) (tip : ChainTip) (hashes : List Bytes32) : Prop where
  length : hashes.length = tip.height + 1
  tip : hashes[tip.height]? = some tip.blockHash
  genesis : hashes[0]? = some getGenesisHash
  entry : ∀ {i : Nat} {hash : Bytes32}, hashes[i]? = some hash →
    ∃ e, bd.readBlockIndex hash = some e ∧ e.nHeight = i ∧ (0 < i → hashes[i - 1]? = some e.hashPrev)

theorem Readable.hashChain (h : Readable s.blockData s.bestChain hashes) (hinit : s.initialized = true)
    (htable : s.chainByHeight.length = s.bestChain.height + 1 → s.chainByHeight = hashes) :
    HashChain s hashes :=
  ⟨hinit, h.length, h.tip, htable, h.entry⟩

/-- **The walk of `BuildHeightIndexLocked`** collects the hashes. -/
theorem Readable.heightWalk {bd : BlockData} {tip : ChainTip} (h : Readable bd tip hashes) :
    ∀ {i : Nat} {hash : Bytes32}, hashes[i]? = some hash →
      heightWalk bd i hash = some (hashes.take (i + 1)).reverse
  | 0, hash, hi => by
    rw [ChainState.heightWalk, List.take_add_one, hi]
    rfl
  | i + 1, hash, hi => by
    obtain ⟨e, he, -, hprev⟩ := h.entry hi
    have hbelow : hashes[i]? = some e.hashPrev := hprev (Nat.succ_pos i)
    rw [ChainState.heightWalk, he]
    dsimp only
    rw [h.heightWalk hbelow, List.take_add_one (i := i + 1), hi]
    simp

theorem Readable.chainByHeight_build (h : Readable s.blockData s.bestChain hashes) :
    s.buildHeightIndex.chainByHeight = if s.bestChain.blockHash.isZero then [] else hashes := by
  have hwalk := h.heightWalk h.tip
  rw [← h.length, List.take_length] at hwalk
  unfold ChainState.buildHeightIndex
  simp only [hwalk, Option.getD_some, List.reverse_reverse]

theorem Readable.buildHeightIndex (h : Readable s.blockData s.bestChain hashes)
    (hinit : s.initialized = true) :
    HashChain s.buildHeightIndex hashes := by
  refine Readable.hashChain (s := s.buildHeightIndex) h hinit fun hlen => ?_
  rw [h.chainByHeight_build] at hlen ⊢
  split
  · rename_i hzero
    rw [if_pos hzero] at hlen
    cases hlen
  · rfl

/-- The tip, the table and the index are the same. -/
structure SameChain (s s' : ChainState) : Prop where
  initialized : s'.initialized = s.initialized
  index : s'.blockData.db.index = s.blockData.db.index
  tip : s'.bestChain = s.bestChain
  table : s'.chainByHeight = s.chainByHeight

/-- The chain is that of `hashes`, and starts with genesis. -/
structure OnChain (s : ChainState) (hashes : List Bytes32) : Prop extends HashChain s hashes where
  genesis : hashes[0]? = some getGenesisHash

theorem OnChain.of_same {s' : ChainState} (h : OnChain s hashes) (hsame : SameChain s s') :
    OnChain s' hashes where
  initialized := hsame.initialized.trans h.initialized
  length := by rw [hsame.tip, h.length]
  tip := by rw [hsame.tip, h.tip]
  table := by
    rw [hsame.tip, hsame.table]
    exact h.table
  entry := by
    unfold readBlockIndex
    rw [hsame.index]
    exact h.entry
  genesis := h.genesis

theorem index_writeBlockToDisk (bd : BlockData) (block : Block) :
    (bd.writeBlockToDisk block).1.db.index = bd.db.index := by
  unfold writeBlockToDisk selectFile
  dsimp only
  split <;> rfl

theorem connected_fields (s : ChainState) (b : Block) (u : UTXOSet) (undo : BlockUndo) :
    (s.connected b u undo).initialized = s.initialized ∧
      (s.connected b u undo).bestChain.blockHash = b.getHash ∧
      (s.connected b u undo).bestChain.height = s.bestChain.height + 1 ∧
      (s.connected b u undo).chainByHeight =
        (if s.chainByHeight.length = s.bestChain.height + 1 then s.chainByHeight ++ [b.getHash] else []) ∧
      ∃ chainWork pos, (s.connected b u undo).blockData.db.index =
        s.blockData.db.index.insert b.getHash (indexEntry b (s.bestChain.height + 1) chainWork pos) := by
  have hindex := congrArg (AList.insert b.getHash (indexEntry b (s.bestChain.height + 1)
    (addChainWork s.bestChain.chainWork b.header.bits) (s.blockData.writeBlockToDisk b).2))
    (index_writeBlockToDisk s.blockData b)
  unfold ChainState.connected committed
  dsimp only
  split
  · exact ⟨rfl, rfl, rfl, rfl, _, _, hindex⟩
  · exact ⟨rfl, rfl, rfl, rfl, _, _, hindex⟩

/-- **A block that is connected is pushed**, if the table fits, on the table as on the chain. -/
theorem OnChain.connected (h : OnChain s hashes) {b : Block} (hhdr : s.headerExtendsTip b.header = true)
    (hnew : b.getHash ∉ hashes) (u : UTXOSet) (undo : BlockUndo) :
    OnChain (s.connected b u undo) (hashes ++ [b.getHash]) ∧ hashes.length < 2 ^ 32 := by
  have hlen := h.length
  unfold headerExtendsTip at hhdr
  simp only [Bool.and_eq_true, decide_eq_true_eq] at hhdr
  obtain ⟨⟨⟨⟨hheight, hlink⟩, -⟩, -⟩, -⟩ := hhdr
  have hprev : hashes[s.bestChain.height]? = some b.header.prevBlockHash := by
    split at hlink
    · rename_i hzero
      rw [of_decide_eq_true hlink, hzero]
      exact h.genesis
    · rw [of_decide_eq_true hlink]
      exact h.tip
  obtain ⟨hinit, htip, htop, htable, chainWork, pos, hindex⟩ := connected_fields s b u undo
  have hlow : ∀ {i : Nat} {hash : Bytes32}, hashes[i]? = some hash →
      (hashes ++ [b.getHash])[i]? = some hash := fun hi => by
    rw [List.getElem?_append_left (List.getElem?_eq_some_iff.mp hi).1, hi]
  have hlast : (hashes ++ [b.getHash])[s.bestChain.height + 1]? = some b.getHash := by
    rw [← hlen, List.getElem?_concat_length]
  refine ⟨{
    initialized := hinit.trans h.initialized
    length := by rw [htop, List.length_append, hlen]; rfl
    tip := by rw [htop, htip, hlast]
    table := fun hfits => ?_
    entry := fun {i hash} hi => ?_
    genesis := hlow h.genesis }, ?_⟩
  · rw [htable, htop] at hfits
    rw [htable]
    split
    · rename_i hold
      rw [h.table hold]
    · rename_i hold
      rw [if_neg hold] at hfits
      cases hfits
  · unfold readBlockIndex
    rw [hindex]
    by_cases hi' : i < hashes.length
    · -- a block below: its entry is not touched
      rw [List.getElem?_append_left hi'] at hi
      obtain ⟨e, he, hnum, hbelow⟩ := h.entry hi
      have hne : hash ≠ b.getHash := fun heq => hnew (heq ▸ List.mem_of_getElem? hi)
      exact ⟨e, (AList.lookup_insert_ne hne).trans he, hnum, fun hpos => hlow (hbelow hpos)⟩
    · have htop : i = s.bestChain.height + 1 := by
        have hlt := (List.getElem?_eq_some_iff.mp hi).1
        rw [List.length_append, List.length_singleton] at hlt
        omega
      subst htop
      rw [hlast] at hi
      cases hi
      exact ⟨_, AList.lookup_insert _, rfl, fun _ => hlow hprev⟩
  · have hlt := b.header.height.toNat_lt
    omega

/-- **`ConnectBlockLocked`** of a block that is not on the chain. -/
theorem OnChain.connectBlock (h : OnChain s hashes) (hlen : hashes.length ≤ 2 ^ 32) {b : Block}
    (hnew : b.getHash ∉ hashes) :
    ∃ hashes', OnChain (s.connectBlock b none).1 hashes' ∧ hashes'.length ≤ 2 ^ 32 := by
  rw [connectBlock_none]
  split
  · exact ⟨hashes, h, hlen⟩
  · rename_i hhdr
    split
    · exact ⟨hashes, h.of_same ⟨rfl, rfl, rfl, rfl⟩, hlen⟩
    · exact ⟨hashes, h.of_same ⟨rfl, rfl, rfl, rfl⟩, hlen⟩
    · rename_i u undo _
      obtain ⟨hchain, hlt⟩ := h.connected (by simpa using hhdr) hnew u undo
      exact ⟨_, hchain, by rw [List.length_append]; exact hlt⟩

/-- **A block that is taken off is popped**, from the table as from the chain. -/
theorem OnChain.commitBack (h : OnChain s hashes) (hpos : 0 < s.bestChain.height) {hashPrev : Bytes32}
    {parent : BlockIndexEntry} (hprev : hashes[s.bestChain.height - 1]? = some hashPrev)
    (hheight : parent.nHeight = s.bestChain.height - 1) (b : Block) :
    OnChain (s.commitBack b hashPrev parent) hashes.dropLast := by
  have hlen := h.length
  have hlow : ∀ i < s.bestChain.height, hashes.dropLast[i]? = hashes[i]? := fun i hi => by
    rw [List.getElem?_dropLast, if_pos (by omega)]
  have htop : (s.commitBack b hashPrev parent).bestChain.height = s.bestChain.height - 1 := hheight
  have htable : (s.commitBack b hashPrev parent).chainByHeight =
      if s.chainByHeight.length = parent.nHeight + 2 then s.chainByHeight.dropLast else [] := rfl
  refine {
    initialized := h.initialized
    length := by rw [htop, List.length_dropLast]; omega
    tip := by rw [htop, hlow _ (by omega)]; exact hprev
    table := fun hfits => ?_
    entry := fun {i hash} hi => ?_
    genesis := by rw [hlow 0 hpos]; exact h.genesis }
  · rw [htable] at hfits ⊢
    split
    · rename_i hold
      rw [h.table (by omega)]
    · rename_i hold
      rw [if_neg hold] at hfits
      cases hfits
  · have hi' : i < s.bestChain.height := by
      have hlt := (List.getElem?_eq_some_iff.mp hi).1
      rw [List.length_dropLast] at hlt
      omega
    rw [hlow i hi'] at hi
    obtain ⟨e, he, hnum, hbelow⟩ := h.entry hi
    exact ⟨e, he, hnum, fun hpos => by rw [hlow _ (by omega)]; exact hbelow hpos⟩

/-- **`DisconnectTipLocked`** pops what was pushed, or leaves the chain alone. -/
theorem OnChain.disconnectTip (h : OnChain s hashes) :
    ∃ hashes', OnChain s.disconnectTip.1 hashes' ∧ hashes'.length ≤ hashes.length := by
  have hsame : ∀ {s' : ChainState}, SameChain s s' → ∃ hashes', OnChain s' hashes' ∧
      hashes'.length ≤ hashes.length := fun hs => ⟨hashes, h.of_same hs, le_rfl⟩
  unfold ChainState.disconnectTip
  split
  · exact hsame ⟨rfl, rfl, rfl, rfl⟩
  · rename_i hpos
    dsimp only
    obtain ⟨e, he, hnum, hprev⟩ := h.entry h.tip
    have hparent := hprev (Nat.pos_of_ne_zero hpos)
    obtain ⟨parent, hparent', hlow, -⟩ := h.entry hparent
    rw [he]
    dsimp only
    split
    · exact hsame ⟨rfl, rfl, rfl, rfl⟩
    · rename_i b _
      split
      · exact hsame ⟨rfl, rfl, rfl, rfl⟩
      · split
        · exact hsame ⟨rfl, rfl, rfl, rfl⟩
        · rename_i u _
          rw [hparent']
          have hback : OnChain (s.setUTXO u) hashes := h.of_same ⟨rfl, rfl, rfl, rfl⟩
          exact ⟨_, hback.commitBack (Nat.pos_of_ne_zero hpos) hparent hlow b, by simp⟩

/-! ## 3. The states of a node -/

section Reached

variable [Ed25519]

section Table

variable {s : ChainState} {hashes : List Bytes32}

end Table

end Reached

section Long

variable {n : Nat}

end Long

end Moneu
