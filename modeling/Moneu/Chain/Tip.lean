/-
# The tip and the header checks

A chain state `Follows` a path of stored blocks when its tip, its height table and its block store
are those of the path.  Everything `ConnectBlockLocked` checks about a header is then a function of
the path (`headerExtendsTip_congr`): it does not matter when the check is made, nor whether the height
table is there or has to be replaced by a walk through the index.  This is what lets a block that was
connected once be connected again.
-/
import Moneu.Storage.BlockStore
import Moneu.Storage.Replay

namespace Moneu

open NetParams BlockData ChainState

def tipOf : List Block → ChainTip
  | [] => ChainTip.null
  | b :: p =>
    { blockHash := b.getHash, height := p.length, timestamp := b.header.timestamp,
      bits := b.header.bits, chainWork := workOf (b :: p) }

def tableOf (p : List Block) : List Bytes32 := (p.map Block.getHash).reverse

/-- The active chain of `s` is `p`.  The height table may be missing. -/
structure Follows (s : ChainState) (p : List Block) : Prop where
  initialized : s.initialized = true
  path : IsPath s.blockData p
  tip : s.bestChain = tipOf p
  table : s.chainByHeight = tableOf p ∨ s.chainByHeight = []

/-! ## 1. Walks along a path -/

section Walks

variable {bd bd' : BlockData} {b : Block} {p : List Block}

theorem pathLength_pos (h : IsPath bd p) : 0 < p.length := by
  cases h <;> simp

theorem readBlockIndex_path (h : IsPath bd (b :: p)) :
    ∃ pos, bd.readBlockIndex b.getHash = some (indexEntry b p.length (workOf (b :: p)) pos) := by
  obtain ⟨pos, hentry, -⟩ := h.stored
  exact ⟨pos, hentry⟩

theorem isPath_of_suffix {q : List Block} (h : IsPath bd p) (hq : q <:+ p) (hne : q ≠ []) :
    IsPath bd q := by
  induction h with
  | genesis hg =>
    rcases List.suffix_cons_iff.mp hq with rfl | hq
    · exact .genesis hg
    · exact absurd (List.suffix_nil.mp hq) hne
  | cons hp hprev hchecked hstored ih =>
    rcases List.suffix_cons_iff.mp hq with rfl | hq
    · exact .cons hp hprev hchecked hstored
    · exact ih hq

theorem pastTimes_congr : ∀ (n : Nat) {p : List Block} {b : Block}, IsPath bd (b :: p) →
    IsPath bd' (b :: p) → pastTimes bd n b.getHash = pastTimes bd' n b.getHash
  | 0, _, _, _, _ => rfl
  | n + 1, p, b, h, h' => by
    obtain ⟨pos, hentry⟩ := readBlockIndex_path h
    obtain ⟨pos', hentry'⟩ := readBlockIndex_path h'
    unfold pastTimes
    rw [hentry, hentry']
    by_cases hzero : b.header.prevBlockHash.isZero = true
    · simp only [indexEntry, hzero, ↓reduceIte]
    · cases h with
      | genesis =>
        have hprev : buildGenesisBlock.header.prevBlockHash.isZero = true := by decide
        exact absurd hprev hzero
      | cons hp hprev =>
        cases h' with
        | cons hp' hprev' => simp only [indexEntry, hprev, pastTimes_congr n hp hp']

theorem readBlockIndex_mem {hash : Bytes32} (h : IsPath bd p) (hmem : hash ∈ p.map Block.getHash) :
    ∃ b q pos, b :: q <:+ p ∧ b.getHash = hash ∧
      bd.readBlockIndex hash = some (indexEntry b q.length (workOf (b :: q)) pos) := by
  obtain ⟨b, hb, rfl⟩ := List.mem_map.mp hmem
  obtain ⟨pre, q, rfl⟩ := List.append_of_mem hb
  have hsuf : b :: q <:+ pre ++ b :: q := List.suffix_append _ _
  obtain ⟨pos, hentry⟩ := readBlockIndex_path (isPath_of_suffix h hsuf (by simp))
  exact ⟨b, q, pos, hsuf, rfl, hentry⟩

/-- Two stores that have a path agree on its entries but for the positions. -/
theorem readBlockIndex_congr {hash : Bytes32} (h : IsPath bd p) (h' : IsPath bd' p)
    (hmem : hash ∈ p.map Block.getHash) :
    ∃ e pos, bd.readBlockIndex hash = some e ∧
      bd'.readBlockIndex hash = some { e with blockPos := pos } := by
  obtain ⟨b, q, pos, hsuf, rfl, hentry⟩ := readBlockIndex_mem h hmem
  obtain ⟨pos', hentry'⟩ := readBlockIndex_path (isPath_of_suffix h' hsuf (by simp))
  exact ⟨_, pos', hentry, hentry'⟩

end Walks

/-! ## 2. The chain by height -/

/-- The hashes of the active chain, by height, as the tip, the height table and the block index have
them.  A table of another length is not looked at. -/
structure HashChain (s : ChainState) (hashes : List Bytes32) : Prop where
  initialized : s.initialized = true
  length : hashes.length = s.bestChain.height + 1
  tip : hashes[s.bestChain.height]? = some s.bestChain.blockHash
  table : s.chainByHeight.length = s.bestChain.height + 1 → s.chainByHeight = hashes
  entry : ∀ {i : Nat} {hash : Bytes32}, hashes[i]? = some hash →
    ∃ e, s.blockData.readBlockIndex hash = some e ∧ e.nHeight = i ∧
      (0 < i → hashes[i - 1]? = some e.hashPrev)

namespace HashChain

variable {s : ChainState} {hashes : List Bytes32}

theorem walkBack (h : HashChain s hashes) : ∀ {n i : Nat} {hash : Bytes32}, hashes[i]? = some hash →
    n ≤ i → walkBack s.blockData n hash = hashes[i - n]?
  | 0, _, _, hi, _ => hi.symm
  | n + 1, i, hash, hi, hn => by
    obtain ⟨e, he, -, hprev⟩ := h.entry hi
    have hwalk := h.walkBack (hprev (by omega)) (by omega : n ≤ i - 1)
    rw [Nat.sub_sub, Nat.add_comm 1 n] at hwalk
    unfold ChainState.walkBack
    rw [he]
    exact hwalk

/-- **The hash at a height**, by the table or by a walk. -/
theorem getBlockHashByHeight_eq (h : HashChain s hashes) (height : Nat) :
    s.getBlockHashByHeight height = hashes[height]? := by
  have hlen := h.length
  unfold getBlockHashByHeight
  rw [h.initialized, if_neg (by simp)]
  by_cases hgt : height > s.bestChain.height
  · rw [if_pos hgt, List.getElem?_eq_none (by omega)]
  · rw [if_neg hgt]
    by_cases heq : height = s.bestChain.height
    · rw [if_pos heq, heq, h.tip]
    · rw [if_neg heq]
      split
      · rename_i htable
        rw [h.table htable.2]
      · rw [h.walkBack h.tip (by omega)]
        congr 1
        omega

theorem inj (h : HashChain s hashes) {i j : Nat} {hash : Bytes32} (hi : hashes[i]? = some hash)
    (hj : hashes[j]? = some hash) : i = j := by
  obtain ⟨e, he, rfl, -⟩ := h.entry hi
  obtain ⟨e', he', rfl, -⟩ := h.entry hj
  rw [Option.some.inj (he.symm.trans he')]

end HashChain

theorem suffix_of_tableOf {p : List Block} {i : Nat} {hash : Bytes32} (h : (tableOf p)[i]? = some hash) :
    ∃ b q, b :: q <:+ p ∧ b.getHash = hash ∧ q.length = i := by
  induction p with
  | nil => cases h
  | cons a p ih =>
    have hcons : tableOf (a :: p) = tableOf p ++ [a.getHash] := by
      rw [tableOf, List.map_cons, List.reverse_cons, tableOf]
    have hlen : (tableOf p).length = p.length := by rw [tableOf, List.length_reverse, List.length_map]
    rw [hcons] at h
    by_cases hi : i < p.length
    · rw [List.getElem?_append_left (by omega)] at h
      obtain ⟨b, q, hsuf, hhash, hq⟩ := ih h
      exact ⟨b, q, hsuf.trans (List.suffix_cons a p), hhash, hq⟩
    · rw [List.getElem?_append_right (by omega), List.getElem?_singleton] at h
      split at h
      · exact ⟨a, p, List.suffix_refl _, Option.some.inj h, by omega⟩
      · cases h

theorem getElem?_tableOf_of_suffix {p q : List Block} {b : Block} (h : b :: q <:+ p) :
    (tableOf p)[q.length]? = some b.getHash := by
  obtain ⟨pre, rfl⟩ := h
  have hlen : (tableOf q).length = q.length := by rw [tableOf, List.length_reverse, List.length_map]
  have hsplit : tableOf (pre ++ b :: q) = tableOf q ++ ([b.getHash] ++ tableOf pre) := by
    simp [tableOf]
  rw [hsplit, List.getElem?_append_right (by omega), hlen, Nat.sub_self]
  rfl

/-- **The hashes of the path a chain state follows.** -/
theorem Follows.hashChain {s : ChainState} {p : List Block} (h : Follows s p) : HashChain s (tableOf p) := by
  obtain ⟨b, q, rfl⟩ := List.exists_cons_of_length_pos (pathLength_pos h.path)
  have hlen : (tableOf (b :: q)).length = q.length + 1 := by simp [tableOf]
  have hheight : s.bestChain.height = q.length := by rw [h.tip]; rfl
  refine ⟨h.initialized, by rw [hlen, hheight], ?_, fun htable => ?_, fun {i hash} hi => ?_⟩
  · rw [hheight, getElem?_tableOf_of_suffix (List.suffix_refl (b :: q)), h.tip]
    rfl
  · rcases h.table with ht | ht
    · exact ht
    · rw [ht] at htable
      cases htable
  · obtain ⟨c, r, hsuf, rfl, rfl⟩ := suffix_of_tableOf hi
    have hpath := isPath_of_suffix h.path hsuf (by simp)
    obtain ⟨pos, hentry⟩ := readBlockIndex_path hpath
    refine ⟨_, hentry, rfl, fun hpos => ?_⟩
    cases hpath with
    | genesis => cases hpos
    | @cons _ d r hp hprev =>
      rw [List.length_cons, Nat.add_sub_cancel,
        getElem?_tableOf_of_suffix ((List.suffix_cons c (d :: r)).trans hsuf), indexEntry, hprev]

/-! ## 3. The header checks -/

section Header

variable {s s' : ChainState} {p : List Block}

theorem getBlockHashByHeight_eq (h : Follows s p) (height : Nat) :
    s.getBlockHashByHeight height = (tableOf p)[height]? :=
  h.hashChain.getBlockHashByHeight_eq height

theorem mem_of_tableOf {height : Nat} {hash : Bytes32} (h : (tableOf p)[height]? = some hash) :
    hash ∈ p.map Block.getHash :=
  List.mem_reverse.mp (List.mem_of_getElem? h)

theorem asertBits_congr (h : Follows s p) (h' : Follows s' p) (height : Nat) :
    s.asertBits height = s'.asertBits height := by
  unfold asertBits
  rw [getBlockHashByHeight_eq h, getBlockHashByHeight_eq h, getBlockHashByHeight_eq h',
    getBlockHashByHeight_eq h', h.tip, h'.tip]
  split
  · rfl
  · cases hanchor : (tableOf p)[ASERT_ANCHOR_HEIGHT]? with
    | none => rfl
    | some anchorHash =>
      cases hparent : (tableOf p)[ASERT_ANCHOR_HEIGHT - 1]? with
      | none => rfl
      | some parentHash =>
        obtain ⟨e, pos, he, he'⟩ := readBlockIndex_congr h.path h'.path (mem_of_tableOf hanchor)
        obtain ⟨f, posf, hf, hf'⟩ :=
          readBlockIndex_congr h.path h'.path (mem_of_tableOf hparent)
        simp only [he, he', hf, hf']

theorem getExpectedBits_congr (h : Follows s p) (h' : Follows s' p) (height : Nat) :
    s.getExpectedBits height = s'.getExpectedBits height := by
  unfold getExpectedBits
  rw [asertBits_congr h h', getBlockHashByHeight_eq h, getBlockHashByHeight_eq h', h.tip, h'.tip]
  generalize hfirst : (tableOf p)[(tipOf p).height - (DIFFICULTY_ADJUSTMENT_INTERVAL - 1)]? = first
  cases first with
  | none => rfl
  | some firstHash =>
    obtain ⟨e, pos, he, he'⟩ := readBlockIndex_congr h.path h'.path (mem_of_tableOf hfirst)
    simp only [he, he']

/-- **The header checks depend on the path only.** -/
theorem headerExtendsTip_congr (h : Follows s p) (h' : Follows s' p) (hdr : BlockHeader) :
    s.headerExtendsTip hdr = s'.headerExtendsTip hdr := by
  have hmtp : s.getMedianTimePast (tipOf p).blockHash = s'.getMedianTimePast (tipOf p).blockHash := by
    cases p with
    | nil => exact absurd (pathLength_pos h.path) (by simp)
    | cons b p => exact congrArg medianTime (pastTimes_congr _ h.path h'.path)
  unfold headerExtendsTip
  dsimp only
  rw [getExpectedBits_congr h h', h.tip, h'.tip, hmtp]

/-- The header passes the checks of `ConnectBlockLocked` on the path `p`. -/
def ExtendsPath (p : List Block) (hdr : BlockHeader) : Prop :=
  ∀ s, Follows s p → s.headerExtendsTip hdr = true

theorem extendsPath_of_follows {hdr : BlockHeader} (h : Follows s p)
    (hhdr : s.headerExtendsTip hdr = true) : ExtendsPath p hdr := fun _ h' =>
  (headerExtendsTip_congr h' h hdr).trans hhdr

/-- A header that passes has the next height and names the tip as its parent. -/
theorem headerExtendsTip_link {b : Block} {hdr : BlockHeader} (h : Follows s (b :: p))
    (hhdr : s.headerExtendsTip hdr = true) :
    hdr.height.toNat = (b :: p).length ∧ hdr.prevBlockHash = b.getHash := by
  have hpath := h.path
  unfold headerExtendsTip at hhdr
  simp only [Bool.and_eq_true, decide_eq_true_eq, h.tip, tipOf] at hhdr
  refine ⟨hhdr.1.1.1.1, ?_⟩
  have hprev := hhdr.1.1.1.2
  split at hprev
  · rename_i hlen
    have hnil : p = [] := List.length_eq_zero_iff.mp hlen
    subst hnil
    cases hpath with
    | genesis => rw [buildGenesisBlock_getHash]; exact of_decide_eq_true hprev
  · exact of_decide_eq_true hprev

end Header

end Moneu
